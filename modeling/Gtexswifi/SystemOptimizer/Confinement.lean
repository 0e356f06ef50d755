import Gtexswifi.SystemOptimizer.KeptFiles

/-! Whether the `PATH` argument confines a run. The passes do not read it. -/
namespace SystemOptimizer

open FileTree

/-- At or below the place that a path leads to. -/
def Under (t : Volume) (path : Text) (l : Location) : Prop :=
  ∃ base, t.resolve path = some base ∧ base <+: l

/-- Every effect falls under the path, and what is not under it stays as it
is. -/
def Confined (t : Volume) (path : Text) (run : Run) : Prop :=
  (∀ e ∈ run.effects, Under t path e.target) ∧
    ∀ l, ¬ Under t path l → run.tree.node l = t.node l

/-- What the passes select lies under the path, and the boot animation is
unpacked only where everything does. -/
def Covered (env : Env) (t : Volume) (path : Text) : Prop :=
  (∀ l, Written env t l ∨ Removed env t l → Under t path l) ∧
    (Found env t bootAnimPath → (∃ top, t.locate tmpDir = some top) →
      t.resolve path = some [])

/-- An effect within some locations has one of them as its target. -/
theorem within_target {written lost : Location → Prop} {e : Effect}
    (h : e.Within written lost) : written e.target ∨ lost e.target := by
  cases e with
  | remove l => exact .inr h
  | write l data => exact .inl h
  | mkdir l => exact h.elim

/-- The effects of a run are those of its course, and each part of the
course stays where the claim allows it. -/
theorem Course.confined {env : Env} {t : Volume} {path : Text} {run : Run}
    {steps grown removed : List Effect} (h : Course env t path run steps grown removed)
    (hCovered : env.uid = 0 → t.opendir path ≠ none → Covered env t path) :
    Confined t path run := by
  have hEffects : ∀ e ∈ run.effects, Under t path e.target := by
    intro e hMem
    rw [h.effects] at hMem
    obtain ⟨hRoot, hOpened⟩ := h.started (List.ne_nil_of_mem hMem)
    obtain ⟨hSelected, hAnimation⟩ := hCovered hRoot hOpened
    rw [List.append_assoc] at hMem
    cases List.mem_append.mp hMem with
    | inl hStep => exact hSelected e.target (within_target (h.within e hStep))
    | inr hLast =>
        obtain ⟨hFound, hPlace⟩ := h.animated (List.ne_nil_of_mem hLast)
        exact ⟨[], hAnimation hFound hPlace, List.nil_prefix⟩
  refine ⟨hEffects, ?_⟩
  intro l hOutside
  rw [h.tree, ← after_append, ← after_append, ← List.append_assoc, ← h.effects]
  apply node_after_of_ne
  intro e hMem hSame
  exact hOutside (hSame ▸ hEffects e hMem)

/-- In every run, the path confines the effects where the tree has nothing
outside it that the passes select. -/
theorem run_confined (env : Env) (hShell : Documented env.shell) (path : Text) (t : Volume)
    (hCovered : env.uid = 0 → t.opendir path ≠ none → Covered env t path) :
    Confined t path (optimizeSystem env path (.start t)).2 := by
  obtain ⟨steps, grown, removed, hCourse⟩ := optimizeSystem_course hShell path t
  exact hCourse.confined hCovered

theorem Opened.stat_root {t : Volume} {dir parent : Text} (h : Opened t dir parent) :
    t.stat dir = some .dir := by
  induction h with
  | root hStat => exact hStat
  | sub _ _ _ ih => exact ih

/-- Where none of the directories of the writing passes exists, nothing is
written. -/
theorem not_written {env : Env} {t : Volume} {l : Location}
    (hDirs : ∀ writer ∈ writers, ∀ dir ∈ writer.dirs, t.stat dir ≠ some .dir) :
    ¬ Written env t l := by
  intro hWritten
  cases hWritten with
  | found hWriter hDir hListed _ _ _ =>
      obtain ⟨_, _, hOpened, _⟩ := hListed
      exact hDirs _ hWriter _ hDir hOpened.stat_root
  | again hWriter hDir hListed _ _ _ _ =>
      obtain ⟨_, _, hOpened, _⟩ := hListed
      exact hDirs _ hWriter _ hDir hOpened.stat_root

theorem Removed.present {env : Env} {t : Volume} {l : Location} (h : Removed env t l) :
    (t.node l ≠ none ∨ Written env t l) ∧ l ≠ [] := by
  have hErased : ∀ path, Erased t path l → l ≠ [] := by
    intro path hErased
    cases hErased with
    | inl hLocate => exact locate_ne_root hLocate
    | inr hBelow =>
        obtain ⟨_, _, hLocate⟩ := hBelow
        exact locate_ne_root hLocate
  cases h with
  | chosen _ _ _ hLocate hPresent => exact ⟨hPresent, locate_ne_root hLocate⟩
  | doomed _ _ hDoomed hPresent => exact ⟨hPresent, hErased _ hDoomed⟩
  | lib _ _ hLib hPresent => exact ⟨hPresent, hErased _ hLib⟩

def confDevice : Volume where
  entries :=
    [(["system".toList], .dir),
      (["system".toList, "etc".toList], .dir),
      (["system".toList, "etc".toList, "wpa_supplicant.conf".toList],
        .file { content := [110, 101, 116], modified := 0, executable := false })]
  cwd := []

/-- The example has no file outside of the directories that the passes name. -/
theorem confDevice_covered : Covered toybox confDevice systemPath := by
  have hNothing : ∀ l, ¬ Written toybox confDevice l := by
    intro l
    exact not_written (by decide)
  constructor
  · intro l hSelected
    have hRemoved := hSelected.resolve_left (hNothing l)
    obtain ⟨hPresent, hRoot⟩ := hRemoved.present
    refine ⟨["system".toList], by decide, ?_⟩
    obtain ⟨inode, hNode⟩ :=
      Option.ne_none_iff_exists'.mp (hPresent.resolve_right (hNothing l))
    have hMem := mem_entries_of_node hRoot hNode
    have hAll : ∀ entry ∈ confDevice.entries, ["system".toList] <+: entry.1 := by decide
    exact hAll _ hMem
  · intro _ hPlace
    obtain ⟨top, hTop⟩ := hPlace
    have hNone : confDevice.locate tmpDir = none := by decide
    exact nomatch hNone.symm.trans hTop

theorem run_confined_conf :
    Confined confDevice systemPath (optimizeSystem toybox systemPath (.start confDevice)).2 :=
  run_confined toybox toyboxShell_documented systemPath confDevice
    fun _ _ => confDevice_covered

/-- A run that is given the application directory packs the framework. -/
theorem run_escapes :
    ¬ ∀ (env : Env) (path : Text) (t : Volume), Documented env.shell → env.dryRun = false →
      Confined t path (optimizeSystem env path (.start t)).2 := by
  intro hClaim
  have hConfined := hClaim toybox appPath plainDevice toyboxShell_documented rfl
  have hOutside : ¬ Under plainDevice appPath
      ["system".toList, "framework".toList, "framework.jar".toList] := by
    rintro ⟨base, hBase, hPrefix⟩
    have hPlace : plainDevice.resolve appPath = some ["system".toList, "app".toList] := by decide
    obtain rfl := Option.some.inj (hPlace.symm.trans hBase)
    exact absurd hPrefix (by decide)
  have hKept := hConfined.2 _ hOutside
  rw [toybox_plainDevice.1] at hKept
  exact absurd hKept (by decide)

end SystemOptimizer
