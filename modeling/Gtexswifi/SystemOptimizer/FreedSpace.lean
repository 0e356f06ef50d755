import Gtexswifi.SystemOptimizer.Carried
import Gtexswifi.SystemOptimizer.Sizes

/-! The account of a run: what it was, what is left, and what was freed. The
last is a difference in `size_t`, and the tools decide on which side of zero
it falls. -/
namespace SystemOptimizer

open FileTree

/-- The trees of the two measurements, if the run comes to them. -/
def measuredTrees (env : Env) (path : Text) (t : Volume) : Option (Volume × Volume) :=
  let mounted := mountSystemRW env (.start t)
  if env.uid ≠ 0 ∨ mounted.1 = false ∨
      (scanDirectory env mounted.2.tree pathMax path).isNone = true then none
  else some (mounted.2.tree, (runOptimizations env (measureOriginal env mounted.2)).tree)

/-- The files that the scan finds are larger after the passes than before. -/
def TreeGrew (env : Env) (path : Text) (t : Volume) : Prop :=
  ∃ before after, measuredTrees env path t = some (before, after) ∧
    scannedSize env before < scannedSize env after

/-- The figures of a run add up. -/
structure Accounts (env : Env) (path : Text) (t : Volume) : Prop where
  bounded : (optimizeSystem env path (.start t)).2.freedSpace ≤
    (optimizeSystem env path (.start t)).2.originalSize
  split : ¬TreeGrew env path t → (optimizeSystem env path (.start t)).2.originalSize =
    (optimizeSystem env path (.start t)).2.optimizedSize +
      (optimizeSystem env path (.start t)).2.freedSpace
  none_freed : TreeGrew env path t → (optimizeSystem env path (.start t)).2.freedSpace = 0

/-- What `size_t` holds of the sum after the passes is at most what it holds
of the one before, and the same if the sum itself is larger. -/
def CountsDown (env : Env) (path : Text) (t : Volume) : Prop :=
  ∀ before after, measuredTrees env path t = some (before, after) →
    scannedSize env after % 2 ^ env.sizeBits ≤ scannedSize env before % 2 ^ env.sizeBits ∧
      (scannedSize env before < scannedSize env after →
        scannedSize env after % 2 ^ env.sizeBits = scannedSize env before % 2 ^ env.sizeBits)

section Figures

variable {env : Env} {path : Text} {t : Volume}

/-- The original size, the optimized size and the freed space. -/
def Run.figures (run : Run) : Nat × Nat × Nat :=
  (run.originalSize, run.optimizedSize, run.freedSpace)

theorem mountSystemRW_figures (run : Run) : (mountSystemRW env run).2.figures = run.figures := by
  rw [mountSystemRW]
  split <;> rfl

theorem mountSystemRO_figures (run : Run) : (mountSystemRO env run).2.figures = run.figures := by
  rw [mountSystemRO]
  split <;> rfl

/-- A run that starts measures the tree behind the mounting and the tree
behind the passes. -/
theorem measuredTrees_of_starts (h : Starts env path (.start t)) :
    measuredTrees env path t = some ((mountSystemRW env (.start t)).2.tree,
      (runOptimizations env (measureOriginal env (mountSystemRW env (.start t)).2)).tree) := by
  rw [measuredTrees, h.mounted, h.scanned]
  simp [h.root]

/-- A run that ends before the measurements reports zeros. -/
theorem figures_unmeasured (h : measuredTrees env path t = none) :
    (optimizeSystem env path (.start t)).2.figures = (0, 0, 0) := by
  have hStarts : ¬Starts env path (.start t) := by
    intro hStarts
    rw [measuredTrees_of_starts hStarts] at h
    cases h
  cases optimizeSystem_idle hStarts with
  | inl hSame =>
      rw [hSame]
      rfl
  | inr hOpened =>
      rw [hOpened]
      exact mountSystemRW_figures _

theorem measureOriginal_originalSize (run : Run) :
    (measureOriginal env run).originalSize = calculateTotalSize env run.tree := rfl

/-- The second one sets the optimized size and the difference, which wraps
round in the type of the sizes. -/
theorem measureOptimized_figures (run : Run) :
    (measureOptimized env run).figures =
      (run.originalSize, calculateTotalSize env run.tree,
        (run.originalSize + 2 ^ env.sizeBits - calculateTotalSize env run.tree) %
          2 ^ env.sizeBits) := rfl

/-- The passes leave the first measurement as it is. -/
theorem figures_measured {before after : Volume}
    (h : measuredTrees env path t = some (before, after)) :
    (optimizeSystem env path (.start t)).2.figures =
      (calculateTotalSize env before, calculateTotalSize env after,
        (calculateTotalSize env before + 2 ^ env.sizeBits - calculateTotalSize env after) %
          2 ^ env.sizeBits) := by
  rw [measuredTrees] at h
  split at h
  · cases h
  · next hStarts =>
      simp only [not_or, not_not, Bool.not_eq_false, Bool.not_eq_true] at hStarts
      obtain ⟨rfl, rfl⟩ := Prod.mk.inj (Option.some.inj h)
      rw [optimizeSystem_passes ⟨hStarts.1, hStarts.2.1, hStarts.2.2⟩, mountSystemRO_figures,
        measureOptimized_figures, (originalSize_carried env).runOptimizations,
        measureOriginal_originalSize]

end Figures

/-- The difference of two counts of `size_t`. -/
theorem wrapped_sub {size first second : Nat} (hFirst : first < size) (hSecond : second < size) :
    (first + size - second) % size =
      if second ≤ first then first - second else first + size - second := by
  split
  · next hLe =>
      rw [show first + size - second = first - second + size by omega, Nat.add_mod_right]
      exact Nat.mod_eq_of_lt (by omega)
  · exact Nat.mod_eq_of_lt (by omega)

section Account

variable {env : Env} {path : Text} {t : Volume}

/-- Zeros add up. -/
theorem accounts_of_unmeasured (h : measuredTrees env path t = none) : Accounts env path t := by
  have hFigures := figures_unmeasured h
  simp only [Run.figures, Prod.mk.injEq] at hFigures
  obtain ⟨hOriginal, hOptimized, hFreed⟩ := hFigures
  constructor
  · rw [hFreed]
    exact Nat.zero_le _
  · intro _
    rw [hOriginal, hOptimized, hFreed]
  · exact fun _ => hFreed

/-- Whether the tree has grown is seen from the two measured trees. -/
theorem treeGrew_of_measured {before after : Volume}
    (h : measuredTrees env path t = some (before, after)) :
    TreeGrew env path t ↔ scannedSize env before < scannedSize env after := by
  simp [TreeGrew, h]

/-- Whether the counters count down is seen from them as well, and from the
width of the type. -/
theorem countsDown_of_measured {before after : Volume}
    (h : measuredTrees env path t = some (before, after)) :
    CountsDown env path t ↔
      scannedSize env after % 2 ^ env.sizeBits ≤ scannedSize env before % 2 ^ env.sizeBits ∧
        (scannedSize env before < scannedSize env after →
          scannedSize env after % 2 ^ env.sizeBits =
            scannedSize env before % 2 ^ env.sizeBits) := by
  simp [CountsDown, h]

/-- The freed space is the difference of the two counts, or what a count
below zero wraps to. -/
theorem freedSpace_of_measured {before after : Volume}
    (h : measuredTrees env path t = some (before, after)) :
    (optimizeSystem env path (.start t)).2.figures =
      (scannedSize env before % 2 ^ env.sizeBits, scannedSize env after % 2 ^ env.sizeBits,
        if scannedSize env after % 2 ^ env.sizeBits ≤ scannedSize env before % 2 ^ env.sizeBits then
          scannedSize env before % 2 ^ env.sizeBits - scannedSize env after % 2 ^ env.sizeBits
        else scannedSize env before % 2 ^ env.sizeBits + 2 ^ env.sizeBits -
          scannedSize env after % 2 ^ env.sizeBits) := by
  have hPower := Nat.two_pow_pos env.sizeBits
  rw [figures_measured h, calculateTotalSize_eq, calculateTotalSize_eq,
    wrapped_sub (Nat.mod_lt _ hPower) (Nat.mod_lt _ hPower)]

end Account

/-- Whatever the tools do to the files, the figures add up exactly if the
second sum, as `size_t` holds it, is at most the first one, and no larger
sum is taken for a smaller one. -/
theorem accounts_iff (env : Env) (path : Text) (t : Volume) :
    Accounts env path t ↔ CountsDown env path t := by
  cases hTrees : measuredTrees env path t with
  | none =>
      constructor
      · intro _ before after h
        rw [hTrees] at h
        cases h
      · exact fun _ => accounts_of_unmeasured hTrees
  | some trees =>
      obtain ⟨before, after⟩ := trees
      have hGrew := treeGrew_of_measured hTrees
      have hFigures := freedSpace_of_measured hTrees
      simp only [Run.figures, Prod.mk.injEq] at hFigures
      obtain ⟨hOriginal, hOptimized, hFreed⟩ := hFigures
      have hAfter := Nat.mod_lt (scannedSize env after) (Nat.two_pow_pos env.sizeBits)
      rw [countsDown_of_measured hTrees]
      constructor
      · intro hAccounts
        have hBounded := hAccounts.bounded
        have hNone := hAccounts.none_freed
        rw [hOriginal, hFreed] at hBounded
        rw [hFreed, hGrew] at hNone
        split at hBounded
        · next hLe =>
            rw [if_pos hLe] at hNone
            refine ⟨hLe, fun hLarger => ?_⟩
            have hDifference := hNone hLarger
            omega
        · omega
      · intro hCounts
        obtain ⟨hLe, hSame⟩ := hCounts
        rw [if_pos hLe] at hFreed
        constructor
        · omega
        · intro _
          omega
        · intro hLarger
          have hEqual := hSame (hGrew.mp hLarger)
          omega

/-- Where both sums fit `size_t`, that is where the tree did not grow. -/
theorem countsDown_iff {env : Env} {path : Text} {t : Volume}
    (hFits : ∀ before after, measuredTrees env path t = some (before, after) →
      scannedSize env before < 2 ^ env.sizeBits ∧ scannedSize env after < 2 ^ env.sizeBits) :
    CountsDown env path t ↔ ¬TreeGrew env path t := by
  constructor
  · rintro hCounts ⟨before, after, hTrees, hLarger⟩
    obtain ⟨hBefore, hAfter⟩ := hFits before after hTrees
    have hSmaller := (hCounts before after hTrees).1
    rw [Nat.mod_eq_of_lt hBefore, Nat.mod_eq_of_lt hAfter] at hSmaller
    omega
  · intro hSame before after hTrees
    obtain ⟨hBefore, hAfter⟩ := hFits before after hTrees
    have hSmaller : ¬scannedSize env before < scannedSize env after :=
      fun hLarger => hSame ⟨before, after, hTrees, hLarger⟩
    rw [Nat.mod_eq_of_lt hBefore, Nat.mod_eq_of_lt hAfter]
    omega

/-- The two trees of the example, in which one application is packed. -/
theorem measuredTrees_plainDevice :
    measuredTrees toybox appPath plainDevice = some (plainDevice, packedDevice) := by
  rw [measuredTrees_of_starts starts_plainDevice, runOptimizations_plainDevice]
  rfl

/-- Two files of four bytes that grow by two bytes each as they are packed. -/
theorem packing_overdraws :
    ¬∀ (env : Env) (path : Text) (t : Volume), Accounts env path t := by
  intro hClaim
  have hBounded := (hClaim toybox appPath plainDevice).bounded
  have hFigures := figures_measured measuredTrees_plainDevice
  have hSizes : calculateTotalSize toybox plainDevice = 8 ∧
      calculateTotalSize toybox packedDevice = 12 := by decide +kernel
  rw [hSizes.1, hSizes.2] at hFigures
  simp only [Run.figures, Prod.mk.injEq] at hFigures
  obtain ⟨hOriginal, -, hFreed⟩ := hFigures
  rw [hOriginal, hFreed] at hBounded
  exact absurd hBounded (by decide)

end SystemOptimizer
