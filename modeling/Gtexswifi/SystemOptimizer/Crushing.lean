import Gtexswifi.SystemOptimizer.Pruning
import Gtexswifi.SystemOptimizer.Sizes

/-! Crushing: the device where one image is crushed and nothing else
succeeds, and what the pass over the images removes there. -/
namespace SystemOptimizer

open FileTree

/-- The shell of a device where only one image is crushed, to the given
data. -/
def crusher (image : Text) (data : FileData) (command : Command) (t : Volume) :
    Bool × List Effect :=
  match command with
  | .whichPngcrush => (true, [])
  | .pngcrush path output =>
      match t.resolve output with
      | some l =>
          if path = image ∧ isRegular t l = true then (true, [.write l data]) else (false, [])
      | none => (false, [])
  | .mv source path =>
      match t.locate source, t.locate path with
      | some l, some place =>
          if t.node l ≠ none then (true, [.write place data, .remove l]) else (false, [])
      | _, _ => (false, [])
  | _ => (false, [])

section Shell

variable {image : Text} {data : FileData} {t : Volume} {source path output : Text} {e : Effect}

/-- `pngcrush` writes its output, and only where a file can be written. -/
theorem crusher_pngcrush (h : e ∈ (crusher image data (.pngcrush path output) t).2) :
    ∃ l data, t.resolve output = some l ∧ t.node l ≠ some .dir ∧
      (∀ target, t.node l ≠ some (.link target)) ∧ e = .write l data := by
  rw [crusher] at h
  split at h
  · next l hResolve =>
    split at h
    · next hCrushed =>
      obtain ⟨old, hFile⟩ := isRegular_iff.mp hCrushed.2
      have hDir : t.node l ≠ some .dir := by
        rw [hFile]
        exact fun hSame => by cases hSame
      exact ⟨l, data, hResolve, hDir, ne_link_of_file hFile, List.mem_singleton.mp h⟩
    · cases h
  · cases h

theorem crusher_mv (h : e ∈ (crusher image data (.mv source path) t).2) :
    (∃ l data, t.locate path = some l ∧ e = .write l data) ∨
      ∃ l, t.locate source = some l ∧ t.node l ≠ none ∧ e = .remove l := by
  rw [crusher] at h
  split at h
  · next l place hSource hPath =>
    split at h
    · next hNode =>
      cases List.mem_cons.mp h with
      | inl hWrite => exact .inl ⟨place, data, hPath, hWrite⟩
      | inr hRemove => exact .inr ⟨l, hSource, hNode, List.mem_singleton.mp hRemove⟩
    · cases h
  · cases h

/-- The shell of the example does what is documented of each of its
commands. -/
theorem crusher_documented : Documented (crusher image data) where
  remount := by
    intro command t hRemount
    simp only [Command.IsRemount, List.mem_cons, List.not_mem_nil, or_false] at hRemount
    rcases hRemount with rfl | rfl | rfl | rfl
    · rfl
    · rfl
    · rfl
    · rfl
  whichPngcrush _ := rfl
  gzip _ _ _ h := by cases h
  convert _ _ _ _ h := by cases h
  strip _ _ _ h := by cases h
  zipDelete _ _ _ h := by cases h
  pngcrush _ _ _ _ h := crusher_pngcrush h
  mv _ _ _ _ _ h := crusher_mv h
  unzip _ _ _ := trivial
  unzip_nowhere _ _ _ _ := rfl
  findConvert _ _ := trivial
  zipUpdate _ _ _ := trivial
  rmRf _ _ _ h := by cases h

end Shell

section Crushing

variable {env : Env} {t : Volume} {run : Run} {image dir path : Text} {names : List Text}
  {l m m' : Location} {data : FileData}

variable (hShell : env.shell = crusher image data)

include hShell

theorem optimizePNG_idle (hOther : path ≠ image) :
    (optimizePNG env path run).2.tree = run.tree := by
  have hFails : ∀ t, env.shell (.pngcrush path (temporary path)) t = (false, []) := by
    intro t
    rw [hShell, crusher]
    split
    · rw [if_neg (fun hBoth => hOther hBoth.1)]
    · rfl
  have hWhich : ∀ t, env.shell .whichPngcrush t = (true, []) := by
    intro t
    rw [hShell, crusher]
  rw [optimizePNG]
  split
  · rfl
  · simp only [Run.system, hWhich, hFails, Run.perform, after_nil, if_true, Bool.false_eq_true,
      if_false]

/-- The temporary file of the image is moved away, whatever stood there
before. -/
theorem optimizePNG_crushes (hWet : env.dryRun = false) (hImage : run.tree.locate image = some m)
    (hTemporary : run.tree.locate (temporary image) = some l) (hFile : RegularFile run.tree l) :
    .remove l ∈ (optimizePNG env image run).2.effects := by
  obtain ⟨old, hOld⟩ := hFile
  have hKeeps : run.tree.Keeps (run.tree.put l (.file data)) := .put_file hOld
  have hWhich : ∀ t, env.shell .whichPngcrush t = (true, []) := by
    intro t
    rw [hShell, crusher]
  have hPngcrush : env.shell (.pngcrush image (temporary image)) run.tree =
      (true, [.write l data]) := by
    have hResolve := resolve_of_entry hTemporary (ne_link_of_file hOld)
    rw [hShell, crusher, hResolve]
    dsimp only
    rw [if_pos ⟨rfl, isRegular_iff.mpr ⟨old, hOld⟩⟩]
  have hMv : env.shell (.mv (temporary image) image) (run.tree.put l (.file data)) =
      (true, [.write m data, .remove l]) := by
    have hStill : (run.tree.put l (.file data)).node l ≠ none := by
      rw [node_put_self _ (locate_ne_root hTemporary)]
      exact Option.some_ne_none _
    rw [hShell, crusher, hKeeps.locate hTemporary, hKeeps.locate hImage]
    dsimp only
    rw [if_pos hStill]
  rw [optimizePNG, hWet]
  simp only [Bool.false_eq_true, if_false, Run.system, hWhich, Run.perform, after_nil, if_true,
    hPngcrush, after_cons, Effect.apply, hMv]
  simp

/-- Nothing has been done to the tree, or the entry has been removed. -/
def Unspent (t : Volume) (l : Location) (run : Run) : Prop :=
  run.tree = t ∨ .remove l ∈ run.effects

/-- The run goes on without anything done to the tree but the removal of the
entry first, and certainly with that under a condition. -/
structure Spends (t : Volume) (l : Location) (now : Prop) (run run' : Run) : Prop where
  unspent : Unspent t l run'
  later : run.effects <+: run'.effects
  done : now → .remove l ∈ run'.effects

omit hShell in
/-- By induction on the items: the location is spent as soon as one of the
steps spends it, and not before. -/
theorem Spends.foldl {α : Type*} {now : α → Prop} {f : Run → α → Run} {items : List α}
    (h : ∀ item ∈ items, ∀ run, Unspent t l run → Spends t l (now item) run (f run item))
    (hRun : Unspent t l run) :
    Spends t l (∃ item ∈ items, now item) run (items.foldl f run) := by
  obtain ⟨hEnd, hLater, hDone⟩ := Transition.foldl_done (Unspent t l)
    (fun run later => run.effects <+: later.effects)
    (fun item later => now item → .remove l ∈ later.effects)
    (fun run => List.prefix_refl run.effects) (fun _ _ _ hFirst hSecond => hFirst.trans hSecond)
    (fun _ _ _ hLater hDone hNow => hLater.subset (hDone hNow))
    (fun item hMem run hRun =>
      ⟨(h item hMem run hRun).unspent, (h item hMem run hRun).later, (h item hMem run hRun).done⟩)
    hRun
  exact ⟨hEnd, hLater, fun ⟨item, hMem, hNow⟩ => hDone item hMem hNow⟩

variable (hWet : env.dryRun = false) (hImage : t.locate image = some m)
  (hTemporary : t.locate (temporary image) = some l) (hFile : RegularFile t l)

include hWet hImage hTemporary hFile

theorem optimizePNG_spends (hRun : Unspent t l run) :
    Spends t l (path = image) run (optimizePNG env path run).2 := by
  have hLater := (effects_carried env).optimizePNG path run
  cases hRun with
  | inr hMoved =>
      have hStill := hLater.subset hMoved
      exact ⟨.inr hStill, hLater, fun _ => hStill⟩
  | inl hTree =>
      subst hTree
      by_cases hSame : path = image
      · subst hSame
        have hMoved := optimizePNG_crushes hShell hWet hImage hTemporary hFile
        exact ⟨.inr hMoved, hLater, fun _ => hMoved⟩
      · exact ⟨.inl (optimizePNG_idle hShell hSame), hLater, fun hSame' => absurd hSame' hSame⟩

theorem forImages_spends (hPNG : contains ".png" image = true) {scanned : Text}
    (hRun : Unspent t l run) :
    Spends t l (∃ names m', image = pathFrom scanned names ∧ Visit t scanned names m') run
      (forFilesIn env isPNG (optimizePNG env) run scanned) := by
  have hLoop : ∀ files : List FileInfo, Spends t l (∃ file ∈ files, file.path = image) run
      (files.foldl (fun run file =>
        if isPNG file then (optimizePNG env file.path run).2 else run) run) := by
    intro files
    refine Spends.foldl ?_ hRun
    intro file _ later hLater
    by_cases hChoose : isPNG file = true
    · rw [if_pos hChoose]
      exact optimizePNG_spends hShell hWet hImage hTemporary hFile hLater
    · rw [if_neg hChoose]
      refine ⟨hLater, List.prefix_refl _, ?_⟩
      intro hSame
      rw [isPNG, hSame] at hChoose
      exact absurd hPNG hChoose
  have hScanned : Spends t l
      (∃ names m', image = pathFrom scanned names ∧ Visit t scanned names m') run
      (forFiles env isPNG (optimizePNG env) run scanned) := by
    rw [forFiles]
    have hAll := hLoop ((scanDirectory env run.tree pathMax scanned).getD [])
    refine ⟨hAll.unspent, hAll.later, ?_⟩
    rintro ⟨names, m', hPath, hVisit⟩
    cases hRun with
    | inr hMoved => exact hAll.later.subset hMoved
    | inl hTree =>
        subst hTree
        obtain ⟨old, hNode⟩ := hVisit.file
        exact hAll.done ⟨_, mem_listing_iff.mpr ⟨names, m', old, hVisit, hNode, rfl⟩, hPath.symm⟩
  rw [forFilesIn]
  by_cases hExists : directoryExists run.tree scanned = true
  · rw [if_pos hExists]
    exact hScanned
  · rw [if_neg hExists]
    refine ⟨hRun, List.prefix_refl _, ?_⟩
    rintro ⟨names, m', _, hVisit⟩
    cases hRun with
    | inr hMoved => exact hMoved
    | inl hTree =>
        subst hTree
        exact absurd (decide_eq_true hVisit.root) hExists

/-- The pass comes to every image that stands at its start, and moves its
temporary file. -/
theorem optimizePNGFiles_removes (hDir : dir ∈ imageDirs) (hVisit : Visit t dir names m')
    (hPath : image = pathFrom dir names) (hPNG : contains ".png" image = true)
    (hTree : run.tree = t) : .remove l ∈ (optimizePNGFiles env run).2.effects := by
  have hAll : Spends t l (∃ scanned ∈ imageDirs,
      ∃ names m', image = pathFrom scanned names ∧ Visit t scanned names m') run
      (optimizePNGFiles env run).2 :=
    Spends.foldl (fun _ _ _ hRun =>
      forImages_spends hShell hWet hImage hTemporary hFile hPNG hRun) (.inl hTree)
  exact hAll.done ⟨dir, hDir, names, m', hPath, hVisit⟩

end Crushing

end SystemOptimizer
