import Gtexswifi.SystemOptimizer.Optimizer

/-! What every operation of the optimizer carries from the run before it to
the run behind it, the passes carry as well. -/
namespace SystemOptimizer

open FileTree

/-- A relation between runs that each operation on the tree, and the count
of the freed space, carries on. -/
structure Carried (env : Env) (R : Run → Run → Prop) : Prop where
  refl : ∀ run, R run run
  trans : ∀ {first second third}, R first second → R second third → R first third
  system : ∀ command run, R run (run.system env command).2
  perform : ∀ effects run, R run (run.perform effects)
  freed : ∀ size run, R run { run with freedSpace := size }

section Carried

variable {env : Env} {R : Run → Run → Prop} (h : Carried env R)

include h

theorem Carried.unlink (path : Text) (run : Run) : R run (run.unlink path).2 := by
  rw [Run.unlink]
  split
  · exact h.refl run
  · split
    · exact h.refl run
    · exact h.perform _ run

theorem Carried.rmdir (path : Text) (run : Run) : R run (run.rmdir path).2 := by
  rw [Run.rmdir]
  split
  · exact h.refl run
  · split
    · exact h.perform _ run
    · exact h.refl run

theorem Carried.mkdir (path : Text) (run : Run) : R run (run.mkdir path).2 := by
  rw [Run.mkdir]
  split
  · exact h.refl run
  · split
    · exact h.perform _ run
    · exact h.refl run

/-- By induction on the items, a relation that each step carries is carried
by all of them. -/
theorem Carried.foldl {α : Type*} {f : Run → α → Run} {items : List α}
    (hStep : ∀ item ∈ items, ∀ run, R run (f run item)) (run : Run) :
    R run (items.foldl f run) := by
  induction items generalizing run with
  | nil => exact h.refl run
  | cons item items ih =>
      obtain ⟨hItem, hItems⟩ := List.forall_mem_cons.mp hStep
      exact h.trans (hItem run) (ih hItems (f run item))

/-- A recursive deletion is made of calls of `unlink` and `rmdir`. By
induction on its depth. -/
theorem Carried.removeFile (depth : Nat) (path : Text) (run : Run) :
    R run (removeFile env depth path run).2 := by
  induction depth generalizing path run with
  | zero => exact h.refl run
  | succ depth ih =>
      rw [SystemOptimizer.removeFile]
      split
      · exact h.refl run
      · split
        · split
          · exact h.refl run
          · refine h.trans (h.foldl ?_ run) (h.rmdir path _)
            intro name _ run
            split
            · exact h.refl run
            · exact ih _ run
        · have hUnlinked := h.unlink path run
          dsimp only
          split
          · exact h.trans hUnlinked (h.freed _ _)
          · exact hUnlinked
        · exact h.refl run

/-- The file is removed behind the command only if the command has
succeeded. In either case the relation is carried. -/
theorem Carried.compressFile (path : Text) (run : Run) : R run (compressFile env path run).2 := by
  rw [SystemOptimizer.compressFile]
  split
  · exact h.refl run
  · exact h.system _ run

theorem Carried.stripBinary (path : Text) (run : Run) : R run (stripBinary env path run).2 := by
  rw [SystemOptimizer.stripBinary]
  split
  · exact h.refl run
  · exact h.system _ run

theorem Carried.compressImage (path : Text) (run : Run) :
    R run (compressImage env path run).2 := by
  rw [SystemOptimizer.compressImage]
  split
  · exact h.refl run
  · exact h.system _ run

theorem Carried.optimizeJar (path : Text) (run : Run) : R run (optimizeJar env path run).2 := by
  rw [SystemOptimizer.optimizeJar]
  split
  · exact h.refl run
  · exact h.trans (h.system _ run) (h.system _ _)

/-- The command, the test for its output and the renaming each carry the
relation. -/
theorem Carried.optimizePNG (path : Text) (run : Run) : R run (optimizePNG env path run).2 := by
  rw [SystemOptimizer.optimizePNG]
  split
  · exact h.refl run
  · have hWhich := h.system .whichPngcrush run
    dsimp only
    split
    · have hCrushed := h.trans hWhich (h.system (.pngcrush path (temporary path)) _)
      split
      · exact h.trans hCrushed (h.system _ _)
      · exact hCrushed
    · exact h.trans hWhich (h.system _ _)

variable {choose : FileInfo → Bool} {act : Text → Run → Bool × Run}

theorem Carried.forFiles (hAct : ∀ path run, R run (act path run).2) (run : Run) (dir : Text) :
    R run (forFiles env choose act run dir) := by
  refine h.foldl ?_ run
  intro file _ run
  split
  · exact hAct file.path run
  · exact h.refl run

theorem Carried.forFilesIn (hAct : ∀ path run, R run (act path run).2) (run : Run) (dir : Text) :
    R run (forFilesIn env choose act run dir) := by
  rw [SystemOptimizer.forFilesIn]
  split
  · exact h.forFiles hAct run dir
  · exact h.refl run

theorem Carried.removeDirectory (run : Run) (dir : Text) : R run (removeDirectory env run dir) := by
  rw [SystemOptimizer.removeDirectory]
  split
  · exact h.removeFile _ _ run
  · exact h.refl run

/-- A pass that takes directories in turn. -/
theorem Carried.dirs {pass : Run → Text → Run} (hPass : ∀ run dir, R run (pass run dir))
    (dirs : List Text) (run : Run) : R run (dirs.foldl pass run) :=
  h.foldl (fun dir _ run => hPass run dir) run

theorem Carried.removeUnusedApps (run : Run) : R run (removeUnusedApps env run).2 := by
  rw [SystemOptimizer.removeUnusedApps]
  dsimp only
  refine h.foldl ?_ run
  intro app _ run
  exact h.trans (h.removeDirectory run _) (h.removeDirectory _ _)

theorem Carried.optimizeResources (run : Run) : R run (optimizeResources env run).2 := by
  rw [SystemOptimizer.optimizeResources, optimizePNGFiles]
  dsimp only
  refine h.trans ?_ (h.dirs (h.forFilesIn h.optimizePNG) imageDirs _)
  exact h.dirs (h.forFilesIn (h.removeFile pathMax)) resourceDirs run

theorem Carried.removeLib (run : Run) (lib : Text) : R run (removeLib env run lib) := by
  rw [SystemOptimizer.removeLib]
  split
  · exact h.removeFile _ _ run
  · exact h.refl run

theorem Carried.stripNativeLibraries (run : Run) : R run (stripNativeLibraries env run).2 := by
  rw [SystemOptimizer.stripNativeLibraries]
  dsimp only
  refine h.trans ?_ (h.dirs h.removeLib libsToRemove _)
  exact h.dirs h.removeDirectory archDirs run

theorem Carried.reduceFonts (run : Run) : R run (reduceFonts env run).2 := by
  rw [SystemOptimizer.reduceFonts]
  split
  · exact h.refl run
  · split
    · exact h.refl run
    · exact h.forFiles (h.removeFile pathMax) run fontPath

/-- The sounds are removed from the directory that is found first. -/
theorem Carried.cleanupMediaFiles (run : Run) : R run (cleanupMediaFiles env run).2 := by
  have hAudio : R run (cleanupAudio env run) := by
    rw [cleanupAudio]
    split
    · exact h.dirs (h.forFilesIn (h.removeFile pathMax)) audioDirs run
    · exact h.refl run
  exact h.trans hAudio (h.forFiles h.compressImage _ mediaPath)

theorem Carried.optimizeFramework (run : Run) : R run (optimizeFramework env run).2 := by
  rw [SystemOptimizer.optimizeFramework]
  split
  · exact h.refl run
  · exact h.forFiles h.optimizeJar run frameworkPath

theorem Carried.optimizeBootAnimation (run : Run) : R run (optimizeBootAnimation env run).2 := by
  rw [SystemOptimizer.optimizeBootAnimation]
  split
  · exact h.refl run
  · split
    · exact h.refl run
    · have hUnpacked := h.trans (h.mkdir tmpDir run) (h.system (.unzip bootAnimPath tmpDir) _)
      dsimp only
      split
      · exact hUnpacked
      · have hConverted := h.trans hUnpacked (h.system (.findConvert tmpDir) _)
        have hZipped := h.trans hConverted (h.system (.zipUpdate tmpDir bootAnimPath) _)
        exact h.trans hZipped (h.system (.rmRf tmpDir) _)

/-- All the passes in their order. What is carried by the calls and the
commands is carried by the whole run. -/
theorem Carried.runOptimizations (run : Run) : R run (runOptimizations env run) := by
  refine h.foldl ?_ run
  simp only [optimizations, List.forall_mem_cons]
  exact ⟨h.removeUnusedApps, h.dirs (h.forFiles h.compressFile) apkDirs, h.optimizeResources,
    h.dirs (h.forFilesIn h.stripBinary) binDirs, h.stripNativeLibraries, h.reduceFonts,
    h.cleanupMediaFiles, h.optimizeFramework,
    h.dirs (h.forFilesIn (h.removeFile pathMax)) tempDirs,
    h.dirs (h.forFilesIn (h.removeFile pathMax)) localeDirs, h.optimizeBootAnimation,
    List.forall_mem_nil _⟩

end Carried

/-- What was done to the tree stays on record. -/
theorem effects_carried (env : Env) : Carried env fun run run' => run.effects <+: run'.effects where
  refl run := List.prefix_refl run.effects
  trans := List.IsPrefix.trans
  system _ run := List.prefix_append run.effects _
  perform _ run := List.prefix_append run.effects _
  freed _ run := List.prefix_refl run.effects

/-- Nothing but the first measurement sets the original size. -/
theorem originalSize_carried (env : Env) :
    Carried env fun run run' => run'.originalSize = run.originalSize where
  refl _ := rfl
  trans h h' := h'.trans h
  system _ _ := rfl
  perform _ _ := rfl
  freed _ _ := rfl

end SystemOptimizer
