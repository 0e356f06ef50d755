import Gtexswifi.SystemOptimizer.Footprint

/-! The course of a whole run: the effects of the first ten passes, then
what unpacking the boot animation adds, then what clearing its directory
removes. -/
namespace SystemOptimizer

open FileTree

/-- The run goes on by effects that only add to the tree. -/
def Grew (run run' : Run) : Prop :=
  ∃ effects, run'.tree = run.tree.after effects ∧ run'.effects = run.effects ++ effects ∧
    run.tree.Grows effects

theorem Grew.refl (run : Run) : Grew run run := ⟨[], rfl, (List.append_nil _).symm, trivial⟩

theorem Grew.trans {run run' run'' : Run} (h : Grew run run') (h' : Grew run' run'') :
    Grew run run'' := by
  obtain ⟨effects, hTree, hLog, hGrows⟩ := h
  obtain ⟨more, hTree', hLog', hGrows'⟩ := h'
  refine ⟨effects ++ more, ?_, ?_, ?_⟩
  · rw [hTree', hTree, after_append]
  · rw [hLog', hLog, List.append_assoc]
  · exact (grows_append more).mpr ⟨hGrows, hTree ▸ hGrows'⟩

theorem grew_system {env : Env} {run : Run} {command : Command}
    (h : run.tree.Grows (env.shell command run.tree).2) :
    Grew run (run.system env command).2 := ⟨_, rfl, rfl, h⟩

theorem grew_mkdir (run : Run) (path : Text) : Grew run (run.mkdir path).2 := by
  rw [Run.mkdir]
  cases run.tree.locate path with
  | none => exact .refl run
  | some l =>
      dsimp only
      split
      · next hNode => exact ⟨[.mkdir l], rfl, rfl, hNode, trivial⟩
      · exact .refl run

/-- The last pass adds to the tree, then removes at and below its temporary
directory. Where it does anything there is an animation, and a place for
that directory. -/
def Animates (run run' : Run) : Prop :=
  ∃ grown removed, run'.tree = (run.tree.after grown).after removed ∧
    run'.effects = run.effects ++ grown ++ removed ∧ run.tree.Grows grown ∧
    (∀ e ∈ removed, ∃ top l, run.tree.locate tmpDir = some top ∧ top <+: l ∧ e = .remove l) ∧
    (grown ++ removed ≠ [] →
      fileExists run.tree bootAnimPath = true ∧ ∃ top, run.tree.locate tmpDir = some top)

/-- What has been added for the boot animation stays, if the last command
does not succeed. -/
theorem Grew.animates {run run' : Run} (h : Grew run run')
    (hExists : fileExists run.tree bootAnimPath = true) {top : Location}
    (hPlace : run.tree.locate tmpDir = some top) : Animates run run' := by
  obtain ⟨grown, hTree, hLog, hGrows⟩ := h
  refine ⟨grown, [], hTree, ?_, hGrows, fun _ hMem => (nomatch hMem), ?_⟩
  · rw [List.append_nil, hLog]
  · exact fun _ => ⟨hExists, top, hPlace⟩

theorem animates_nothing {run run' : Run} (hTree : run'.tree = run.tree)
    (hLog : run'.effects = run.effects) : Animates run run' := by
  refine ⟨[], [], hTree, ?_, trivial, fun _ hMem => (nomatch hMem), fun hNe => absurd rfl hNe⟩
  rw [List.append_nil, List.append_nil, hLog]

/-- The temporary directory is removed again, with everything that has been
unpacked into it. -/
theorem animates_rmRf {env : Env} (hShell : Documented env.shell) {run run' : Run}
    (h : Grew run run') (hExists : fileExists run.tree bootAnimPath = true) {top : Location}
    (hPlace : run.tree.locate tmpDir = some top) :
    Animates run (run'.system env (.rmRf tmpDir)).2 := by
  obtain ⟨grown, hTree, hLog, hGrows⟩ := h
  refine ⟨grown, (env.shell (.rmRf tmpDir) run'.tree).2, ?_, ?_, hGrows, ?_, ?_⟩
  · rw [← hTree]
    rfl
  · rw [← hLog]
    rfl
  · intro e hMem
    obtain ⟨top', l, hLocate, hBelow, rfl⟩ := hShell.rmRf run'.tree tmpDir e hMem
    -- what was added leaves the directory where it was
    have hKept : run'.tree.locate tmpDir = some top := by
      rw [hTree]
      exact (grows_keeps hGrows).locate hPlace
    obtain rfl := Option.some.inj (hKept.symm.trans hLocate)
    exact ⟨top, l, hPlace, hBelow, rfl⟩
  · exact fun _ => ⟨hExists, top, hPlace⟩

/-- The pass over the boot animation is additions below the temporary
directory, the archive, and the removal of the directory. -/
theorem optimizeBootAnimation_animates {env : Env} (hShell : Documented env.shell) (run : Run) :
    Animates run (optimizeBootAnimation env run).2 := by
  rw [optimizeBootAnimation]
  split
  · exact animates_nothing rfl rfl
  · next hMissing =>
    have hExists : fileExists run.tree bootAnimPath = true := by simpa using hMissing
    split
    · exact animates_nothing rfl rfl
    · cases hPlace : run.tree.locate tmpDir with
      | none =>
          -- without a place for the directory nothing is unpacked
          have hMkdir : (run.mkdir tmpDir).2 = run := by rw [Run.mkdir, hPlace]
          have hNowhere := hShell.unzip_nowhere run.tree bootAnimPath tmpDir hPlace
          have hUnpacked : (run.system env (.unzip bootAnimPath tmpDir)).1 = false := by
            rw [Run.system, hNowhere]
          rw [hMkdir]
          dsimp only
          rw [hUnpacked]
          apply animates_nothing
          · rw [Bool.not_false, if_pos rfl, Run.system, hNowhere]
            rfl
          · rw [Bool.not_false, if_pos rfl, Run.system, hNowhere]
            exact List.append_nil run.effects
      | some top =>
          have hMkdir := grew_mkdir run tmpDir
          have hUnzip := hMkdir.trans (grew_system (hShell.unzip _ bootAnimPath tmpDir))
          dsimp only
          split
          · exact hUnzip.animates hExists hPlace
          · have hConvert := hUnzip.trans (grew_system (hShell.findConvert _ tmpDir))
            have hZip := hConvert.trans
              (grew_system (hShell.zipUpdate _ tmpDir bootAnimPath))
            exact animates_rmRf hShell hZip hExists hPlace

/-- How a run comes to where it is: within the selection, then by adding,
then by removing what is at or below the temporary directory. -/
structure Course (env : Env) (t : Volume) (path : Text) (run : Run)
    (steps grown removed : List Effect) : Prop where
  tree : run.tree = ((t.after steps).after grown).after removed
  effects : run.effects = steps ++ grown ++ removed
  within : ∀ e ∈ steps, e.Within (Written env t) (Removed env t)
  grows : (t.after steps).Grows grown
  below : ∀ e ∈ removed, ∃ top l, t.locate tmpDir = some top ∧ top <+: l ∧ e = .remove l
  animated : grown ++ removed ≠ [] →
    Found env t bootAnimPath ∧ ∃ top, t.locate tmpDir = some top
  started : steps ++ grown ++ removed ≠ [] → env.uid = 0 ∧ t.opendir path ≠ none

/-- A shell that does what is documented of `mount` changes no file when it
remounts. -/
theorem Documented.remountsOnly {env : Env} (hShell : Documented env.shell) :
    env.RemountsOnly := hShell.remount

theorem opendir_of_scan {env : Env} {t : Volume} {depth : Nat} {path : Text}
    (h : (scanDirectory env t depth path).isNone = false) : t.opendir path ≠ none := by
  cases depth with
  | zero => exact nomatch h
  | succ depth =>
      intro hNone
      rw [scanDirectory, hNone] at h
      exact nomatch h

/-- Every run goes the course: the earlier passes, what the boot animation
adds, and what it removes. -/
theorem optimizeSystem_course {env : Env} (hShell : Documented env.shell) (path : Text)
    (t : Volume) :
    ∃ steps grown removed,
      Course env t path (optimizeSystem env path (.start t)).2 steps grown removed := by
  by_cases hStarts : Starts env path (.start t)
  · have hMounted := mountSystemRW_remounted hShell.remountsOnly (Run.start t)
    have hStart : Steps env t (.start t)
        (measureOriginal env (mountSystemRW env (Run.start t)).2) :=
      ⟨[], hMounted.tree, hMounted.effects, fun _ hMem => nomatch hMem⟩
    obtain ⟨middle, hSteps, hLast⟩ := runOptimizations_split hShell _ hStart
    obtain ⟨steps, hTree, hLog, hWithin⟩ := hStart.trans hSteps
    obtain ⟨grown, removed, hTree', hLog', hGrows, hBelow, hAnimated⟩ :=
      optimizeBootAnimation_animates hShell middle
    rw [optimizeSystem_passes hStarts, hLast]
    have hClosed := mountSystemRO_remounted hShell.remountsOnly
      (measureOptimized env (optimizeBootAnimation env middle).2)
    have hMiddle := hStart.trans hSteps
    refine ⟨steps, grown, removed, ?_, ?_, hWithin, ?_, ?_, ?_, ?_⟩
    · rw [hClosed.tree]
      exact hTree'.trans (by rw [hTree]; rfl)
    · rw [hClosed.effects]
      exact hLog'.trans (by rw [hLog]; rfl)
    · rw [hTree] at hGrows
      exact hGrows
    · intro e hMem
      obtain ⟨top, l, hLocate, hRest⟩ := hBelow e hMem
      exact ⟨top, l, located hMiddle hLocate, hRest⟩
    · intro hNe
      obtain ⟨hExists, top, hLocate⟩ := hAnimated hNe
      exact ⟨found hMiddle hExists, top, located hMiddle hLocate⟩
    · intro _
      have hOpened := opendir_of_scan hStarts.scanned
      rw [hMounted.tree] at hOpened
      exact ⟨hStarts.root, hOpened⟩
  · have hIdle := idle_remounted hShell.remountsOnly hStarts
    exact ⟨[], [], [], hIdle.tree, hIdle.effects, fun _ hMem => (nomatch hMem), trivial,
      fun _ hMem => (nomatch hMem), fun hNe => absurd rfl hNe, fun hNe => absurd rfl hNe⟩

/-- The locations that lose what stands there: what the passes remove, and
what lies in the temporary directory of the boot animation. -/
def Lost (env : Env) (t : Volume) (l : Location) : Prop :=
  Removed env t l ∨
    Found env t bootAnimPath ∧ ∃ top, t.locate tmpDir = some top ∧ top <+: l

/-- A file at a location that loses nothing is still a file at the end. -/
theorem Course.file_kept {env : Env} {t : Volume} {path : Text} {run : Run}
    {steps grown removed : List Effect} (h : Course env t path run steps grown removed)
    {l : Location} (hKept : ¬ Lost env t l) (hFile : ∃ data, t.node l = some (.file data)) :
    ∃ data, run.tree.node l = some (.file data) := by
  have hSteps := file_after h.within (fun hRemoved => hKept (.inl hRemoved)) hFile
  obtain ⟨data, hGrown⟩ := grows_file h.grows hSteps
  have hUntouched : ∀ e ∈ removed, l ≠ e.target := by
    intro e hMem hSame
    obtain ⟨top, l', hLocate, hBelow, rfl⟩ := h.below e hMem
    have hNe : grown ++ removed ≠ [] := List.append_ne_nil_of_right_ne_nil _
      (List.ne_nil_of_mem hMem)
    exact hKept (.inr ⟨(h.animated hNe).1, top, hLocate, hSame ▸ hBelow⟩)
  exact ⟨data, by rw [h.tree, node_after_of_ne hUntouched, hGrown]⟩

end SystemOptimizer
