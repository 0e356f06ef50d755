import Gtexswifi.SystemOptimizer.Optimizer

/-! The rehearsal: with `dryRun` set no pass does anything to a file. -/
namespace SystemOptimizer

open FileTree

/-- The commands that only change how `/system` is mounted. -/
def Command.IsRemount (command : Command) : Prop :=
  command ∈ [.mountRW, .mountRWAlternative, .mountRO, .mountROAlternative]

/-- Mounting again does nothing to the files. -/
def Env.RemountsOnly (env : Env) : Prop :=
  ∀ command t, command.IsRemount → (env.shell command t).2 = []

theorem foldl_fixed {α : Type*} {f : Run → α → Run} {run : Run} {items : List α}
    (h : ∀ item ∈ items, f run item = run) : items.foldl f run = run := by
  induction items with
  | nil => rfl
  | cons item items ih =>
      rw [List.foldl_cons, h item List.mem_cons_self]
      exact ih fun item hMem => h item (List.mem_cons_of_mem _ hMem)

theorem forFiles_fixed {env : Env} {choose : FileInfo → Bool} {act : Text → Run → Bool × Run}
    (hAct : ∀ path run, (act path run).2 = run) (run : Run) (dir : Text) :
    forFiles env choose act run dir = run := by
  apply foldl_fixed
  intro file _
  split
  · exact hAct file.path run
  · rfl

theorem forFilesIn_fixed {env : Env} {choose : FileInfo → Bool} {act : Text → Run → Bool × Run}
    (hAct : ∀ path run, (act path run).2 = run) (run : Run) (dir : Text) :
    forFilesIn env choose act run dir = run := by
  rw [forFilesIn]
  split
  · exact forFiles_fixed hAct run dir
  · rfl

section Rehearsal

variable {env : Env} (hDry : env.dryRun = true)

include hDry

/-- In a dry run a deletion ends behind the test, in front of every call. -/
theorem removeFile_dry (depth : Nat) (path : Text) (run : Run) :
    (removeFile env depth path run).2 = run := by
  cases depth with
  | zero => rfl
  | succ depth => rw [removeFile, if_pos hDry]

theorem compressFile_dry (path : Text) (run : Run) : (compressFile env path run).2 = run := by
  rw [compressFile, if_pos hDry]

/-- In a dry run no image is crushed, and the temporary file is not even
looked for. -/
theorem optimizePNG_dry (path : Text) (run : Run) : (optimizePNG env path run).2 = run := by
  rw [optimizePNG, if_pos hDry]

theorem stripBinary_dry (path : Text) (run : Run) : (stripBinary env path run).2 = run := by
  rw [stripBinary, if_pos hDry]

theorem compressImage_dry (path : Text) (run : Run) : (compressImage env path run).2 = run := by
  rw [compressImage, if_pos hDry]

theorem optimizeJar_dry (path : Text) (run : Run) : (optimizeJar env path run).2 = run := by
  rw [optimizeJar, if_pos hDry]

theorem removeDirectory_dry (run : Run) (dir : Text) : removeDirectory env run dir = run := by
  rw [removeDirectory]
  split
  · exact removeFile_dry hDry pathMax dir run
  · rfl

theorem removeUnusedApps_dry (run : Run) : (removeUnusedApps env run).2 = run := by
  apply foldl_fixed
  intro app _
  rw [removeDirectory_dry hDry, removeDirectory_dry hDry]

theorem compressAPKs_dry (run : Run) : (compressAPKs env run).2 = run := by
  apply foldl_fixed
  intro dir _
  exact forFiles_fixed (compressFile_dry hDry) run dir

theorem optimizePNGFiles_dry (run : Run) : (optimizePNGFiles env run).2 = run := by
  apply foldl_fixed
  intro dir _
  exact forFilesIn_fixed (optimizePNG_dry hDry) run dir

theorem optimizeResources_dry (run : Run) : (optimizeResources env run).2 = run := by
  have hRemoved : resourceDirs.foldl
      (forFilesIn env isForeignResource (removeFile env pathMax)) run = run := by
    apply foldl_fixed
    intro dir _
    exact forFilesIn_fixed (removeFile_dry hDry pathMax) run dir
  rw [optimizeResources, hRemoved]
  exact optimizePNGFiles_dry hDry run

theorem removeDebugSymbols_dry (run : Run) : (removeDebugSymbols env run).2 = run := by
  apply foldl_fixed
  intro dir _
  exact forFilesIn_fixed (stripBinary_dry hDry) run dir

theorem stripNativeLibraries_dry (run : Run) : (stripNativeLibraries env run).2 = run := by
  have hDirs : archDirs.foldl (removeDirectory env) run = run :=
    foldl_fixed fun dir _ => removeDirectory_dry hDry run dir
  rw [stripNativeLibraries, hDirs]
  apply foldl_fixed
  intro lib _
  rw [removeLib]
  split
  · exact removeFile_dry hDry pathMax _ run
  · rfl

theorem reduceFonts_dry (run : Run) : (reduceFonts env run).2 = run := by
  rw [reduceFonts]
  split
  · rfl
  · split
    · rfl
    · exact forFiles_fixed (removeFile_dry hDry pathMax) run fontPath

theorem cleanupAudio_dry (run : Run) : cleanupAudio env run = run := by
  rw [cleanupAudio]
  split
  · exact foldl_fixed fun dir _ => forFilesIn_fixed (removeFile_dry hDry pathMax) run dir
  · rfl

theorem cleanupMediaFiles_dry (run : Run) : (cleanupMediaFiles env run).2 = run := by
  rw [cleanupMediaFiles, cleanupAudio_dry hDry]
  exact forFiles_fixed (compressImage_dry hDry) run mediaPath

theorem optimizeFramework_dry (run : Run) : (optimizeFramework env run).2 = run := by
  rw [optimizeFramework]
  split
  · rfl
  · exact forFiles_fixed (optimizeJar_dry hDry) run frameworkPath

theorem cleanTemporaryFiles_dry (run : Run) : (cleanTemporaryFiles env run).2 = run := by
  apply foldl_fixed
  intro dir _
  exact forFilesIn_fixed (removeFile_dry hDry pathMax) run dir

theorem removeUnusedLocales_dry (run : Run) : (removeUnusedLocales env run).2 = run := by
  apply foldl_fixed
  intro dir _
  exact forFilesIn_fixed (removeFile_dry hDry pathMax) run dir

theorem optimizeBootAnimation_dry (run : Run) : (optimizeBootAnimation env run).2 = run := by
  rw [optimizeBootAnimation]
  split
  · rfl
  · rfl

theorem runOptimizations_dry (run : Run) : runOptimizations env run = run := by
  apply foldl_fixed
  simp only [optimizations, List.forall_mem_cons]
  exact ⟨removeUnusedApps_dry hDry run, compressAPKs_dry hDry run, optimizeResources_dry hDry run,
    removeDebugSymbols_dry hDry run, stripNativeLibraries_dry hDry run, reduceFonts_dry hDry run,
    cleanupMediaFiles_dry hDry run, optimizeFramework_dry hDry run,
    cleanTemporaryFiles_dry hDry run, removeUnusedLocales_dry hDry run,
    optimizeBootAnimation_dry hDry run, fun _ hMem => nomatch hMem⟩

end Rehearsal

/-- The same tree after commands that only remount it. -/
structure Remounted (run run' : Run) : Prop where
  tree : run'.tree = run.tree
  effects : run'.effects = run.effects
  originalSize : run'.originalSize = run.originalSize
  optimizedSize : run'.optimizedSize = run.optimizedSize
  freedSpace : run'.freedSpace = run.freedSpace
  commands : ∀ command ∈ run'.commands, command ∈ run.commands ∨ command.IsRemount

/-- A command that remounts changes no file, and is in the log. -/
theorem system_remounted {env : Env} (hMount : env.RemountsOnly) {command : Command}
    (hRemount : command.IsRemount) (run : Run) : Remounted run (run.system env command).2 where
  tree := by rw [Run.system, hMount command run.tree hRemount]; rfl
  effects := by
    rw [Run.system, hMount command run.tree hRemount]
    exact List.append_nil run.effects
  originalSize := rfl
  optimizedSize := rfl
  freedSpace := rfl
  commands := by
    intro other hOther
    cases List.mem_append.mp hOther with
    | inl hMem => exact .inl hMem
    | inr hMem => exact .inr (List.mem_singleton.mp hMem ▸ hRemount)

theorem Remounted.refl (run : Run) : Remounted run run :=
  ⟨rfl, rfl, rfl, rfl, rfl, fun _ hMem => .inl hMem⟩

theorem Remounted.trans {run run' run'' : Run} (h : Remounted run run')
    (h' : Remounted run' run'') : Remounted run run'' where
  tree := h'.tree.trans h.tree
  effects := h'.effects.trans h.effects
  originalSize := h'.originalSize.trans h.originalSize
  optimizedSize := h'.optimizedSize.trans h.optimizedSize
  freedSpace := h'.freedSpace.trans h.freedSpace
  commands command hMem := (h'.commands command hMem).elim (h.commands command) .inr

theorem mountSystemRW_remounted {env : Env} (hMount : env.RemountsOnly) (run : Run) :
    Remounted run (mountSystemRW env run).2 := by
  have hFirst : Remounted run (run.system env .mountRW).2 :=
    system_remounted hMount (by simp [Command.IsRemount]) run
  rw [mountSystemRW]
  split
  · exact hFirst
  · exact hFirst.trans (system_remounted hMount (by simp [Command.IsRemount]) _)

theorem mountSystemRO_remounted {env : Env} (hMount : env.RemountsOnly) (run : Run) :
    Remounted run (mountSystemRO env run).2 := by
  have hFirst : Remounted run (run.system env .mountRO).2 :=
    system_remounted hMount (by simp [Command.IsRemount]) run
  rw [mountSystemRO]
  split
  · exact hFirst
  · exact hFirst.trans (system_remounted hMount (by simp [Command.IsRemount]) _)

/-- A run that does not come to the passes does at most the first remount. -/
theorem idle_remounted {env : Env} (hMount : env.RemountsOnly) {path : Text} {run : Run}
    (h : ¬Starts env path run) : Remounted run (optimizeSystem env path run).2 := by
  cases optimizeSystem_idle h with
  | inl hSame =>
      rw [hSame]
      exact .refl run
  | inr hOpened =>
      rw [hOpened]
      exact mountSystemRW_remounted hMount run

/-- Two measurements of one tree agree. -/
theorem measured_again (env : Env) (run : Run) :
    (measureOptimized env (measureOriginal env run)).optimizedSize =
        (measureOptimized env (measureOriginal env run)).originalSize ∧
      (measureOptimized env (measureOriginal env run)).freedSpace = 0 := by
  constructor
  · rfl
  · rw [measureOptimized, measureOriginal]
    dsimp only
    rw [Nat.add_sub_cancel_left, Nat.mod_self]

/-- A shell whose every command but the remounts empties the tree. -/
def ruinousShell (command : Command) (t : Volume) : Bool × List Effect :=
  match command with
  | .mountRW => (true, [])
  | .mountRWAlternative => (true, [])
  | .mountRO => (true, [])
  | .mountROAlternative => (true, [])
  | _ => (true, t.entries.map fun entry => .remove entry.1)

def rehearsal : Env where
  uid := 0
  dryRun := true
  time _ := 0
  shell := ruinousShell
  sizeBits := 32

/-- A dry run leaves the tree as it was and runs nothing but the remounts;
the two measurements agree, so that no space counts as freed. -/
theorem dry_run_pure (env : Env) (hDry : env.dryRun = true) (hMount : env.RemountsOnly)
    (path : Text) (t : Volume) :
    (optimizeSystem env path (.start t)).2.tree = t ∧
      (optimizeSystem env path (.start t)).2.effects = [] ∧
      (∀ command ∈ (optimizeSystem env path (.start t)).2.commands, command.IsRemount) ∧
      (optimizeSystem env path (.start t)).2.optimizedSize =
        (optimizeSystem env path (.start t)).2.originalSize ∧
      (optimizeSystem env path (.start t)).2.freedSpace = 0 := by
  by_cases hStarts : Starts env path (.start t)
  · have hOpened := mountSystemRW_remounted hMount (Run.start t)
    have hMeasured := measured_again env (mountSystemRW env (Run.start t)).2
    have hClosed := mountSystemRO_remounted hMount
      (measureOptimized env (measureOriginal env (mountSystemRW env (Run.start t)).2))
    rw [optimizeSystem_passes hStarts, runOptimizations_dry hDry]
    refine ⟨?_, ?_, ?_, ?_, ?_⟩
    · exact hClosed.tree.trans hOpened.tree
    · exact hClosed.effects.trans hOpened.effects
    · intro command hMem
      cases hClosed.commands command hMem with
      | inl hEarlier =>
          exact (hOpened.commands command hEarlier).resolve_left fun hNone => nomatch hNone
      | inr hRemount => exact hRemount
    · exact hClosed.optimizedSize.trans (hMeasured.1.trans hClosed.originalSize.symm)
    · exact hClosed.freedSpace.trans hMeasured.2
  · have hIdle := idle_remounted hMount hStarts
    refine ⟨hIdle.tree, hIdle.effects, ?_, ?_, hIdle.freedSpace⟩
    · intro command hMem
      exact (hIdle.commands command hMem).resolve_left fun hNone => nomatch hNone
    · exact hIdle.optimizedSize.trans hIdle.originalSize.symm

/-- A rehearsal on a device leaves its tree, has no effect, and gives no
command but remounts. -/
theorem dry_run_pure_device :
    (optimizeSystem rehearsal systemPath (.start device)).2.tree = device ∧
      (optimizeSystem rehearsal systemPath (.start device)).2.effects = [] ∧
      (∀ command ∈ (optimizeSystem rehearsal systemPath (.start device)).2.commands,
        command.IsRemount) ∧
      (optimizeSystem rehearsal systemPath (.start device)).2.optimizedSize =
        (optimizeSystem rehearsal systemPath (.start device)).2.originalSize ∧
      (optimizeSystem rehearsal systemPath (.start device)).2.freedSpace = 0 := by
  have hMount : rehearsal.RemountsOnly := by
    intro command t hRemount
    simp only [Command.IsRemount, List.mem_cons, List.not_mem_nil, or_false] at hRemount
    rcases hRemount with rfl | rfl | rfl | rfl
    · rfl
    · rfl
    · rfl
    · rfl
  exact dry_run_pure rehearsal rfl hMount systemPath device

end SystemOptimizer
