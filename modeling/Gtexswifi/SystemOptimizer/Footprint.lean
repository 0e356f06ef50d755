import Gtexswifi.SystemOptimizer.Selection

/-! The footprint of a run: the first ten passes write and remove only at
the locations that the starting tree selects. -/
namespace SystemOptimizer

open FileTree

theorem stat_of_opendir {t : Volume} {path : Text} {names : List Text}
    (h : t.opendir path = some names) : t.stat path = some .dir := by
  obtain ⟨l, hResolve, hNames⟩ := Option.bind_eq_some_iff.mp h
  have hDir : t.node l = some .dir := by
    by_contra hDir
    rw [if_neg hDir] at hNames
    cases hNames
  exact stat_eq_some.mpr ⟨l, hResolve, hDir, rfl⟩

theorem visible_of_opendir {t : Volume} {path name : Text} {names : List Text}
    (h : t.opendir path = some names) (hMem : name ∈ names) (hHidden : ¬ hidden name = true) :
    Visible name := by
  obtain ⟨l, _, hNames⟩ := Option.bind_eq_some_iff.mp h
  split at hNames
  · obtain rfl := Option.some.inj hNames
    exact ⟨(List.mem_filter.mp hMem).2, Bool.eq_false_iff.mpr hHidden⟩
  · cases hNames

/-- What is opened below something that is opened below a directory is
opened below the directory. -/
theorem Opened.trans {t : Volume} {dir middle last : Text} (h : Opened t dir middle)
    (h' : Opened t middle last) : Opened t dir last := by
  induction h' with
  | root _ => exact h
  | sub _ hName hStat ih => exact .sub ih hName hStat

/-- What is opened in a volume is opened in one that keeps its directories
and links. -/
theorem Opened.of_keeps {t s : Volume} (hKeeps : t.Keeps s) {dir parent : Text}
    (h : Opened t dir parent) : Opened s dir parent := by
  induction h with
  | root hStat => exact .root (hKeeps.stat_dir hStat)
  | sub _ hName hStat ih => exact .sub ih hName (hKeeps.stat_dir hStat)

theorem Listed.of_keeps {t s : Volume} (hKeeps : t.Keeps s) {dir path : Text}
    (h : Listed t dir path) : Listed s dir path := by
  obtain ⟨parent, name, hOpened, hName, rfl⟩ := h
  exact ⟨parent, name, hOpened.of_keeps hKeeps, hName, rfl⟩

/-- What a scan returns has been listed below its directory, and is a file.
By induction on the depth. -/
theorem mem_scanDirectory {env : Env} {t : Volume} {depth : Nat} {dir : Text}
    {files : List FileInfo} (hScan : scanDirectory env t depth dir = some files)
    {file : FileInfo} (hFile : file ∈ files) :
    Listed t dir file.path ∧
      ∃ data, t.stat file.path = some (.file data) ∧ file = fileInfo env file.path data := by
  induction depth generalizing dir files with
  | zero => cases hScan
  | succ depth ih =>
      obtain ⟨names, hNames, rfl⟩ := Option.map_eq_some_iff.mp hScan
      have hRoot : Opened t dir dir := .root (stat_of_opendir hNames)
      obtain ⟨name, hMem, hEntry⟩ := List.mem_flatMap.mp hFile
      split at hEntry
      · cases hEntry
      · next hHidden =>
        have hName := visible_of_opendir hNames hMem hHidden
        split at hEntry
        · next hStat =>
          cases hBelow : scanDirectory env t depth (entryPath dir name) with
          | none =>
              rw [hBelow] at hEntry
              cases hEntry
          | some below =>
              rw [hBelow] at hEntry
              obtain ⟨hListed, hData⟩ := ih hBelow hEntry
              obtain ⟨parent, entry, hOpened, hEntryName, hPath⟩ := hListed
              exact ⟨⟨parent, entry, (hRoot.sub hName hStat).trans hOpened, hEntryName, hPath⟩,
                hData⟩
        · next data hStat =>
          obtain rfl := List.mem_singleton.mp hEntry
          exact ⟨⟨dir, name, hRoot, hName, rfl⟩, data, hStat, rfl⟩
        · cases hEntry

/-- The run goes on by effects that write and remove at given locations
only. -/
def Moves (written lost : Location → Prop) (run run' : Run) : Prop :=
  ∃ effects, run'.tree = run.tree.after effects ∧ run'.effects = run.effects ++ effects ∧
    ∀ e ∈ effects, e.Within written lost

section Moves

variable {env : Env} {t : Volume} {written lost : Location → Prop} {run run' run'' : Run}

theorem Moves.refl (run : Run) : Moves written lost run run :=
  ⟨[], rfl, (List.append_nil _).symm, List.forall_mem_nil _⟩

theorem Moves.trans (h : Moves written lost run run') (h' : Moves written lost run' run'') :
    Moves written lost run run'' := by
  obtain ⟨effects, hTree, hLog, hWithin⟩ := h
  obtain ⟨more, hTree', hLog', hWithin'⟩ := h'
  refine ⟨effects ++ more, ?_, ?_, ?_⟩
  · rw [hTree', hTree, after_append]
  · rw [hLog', hLog, List.append_assoc]
  · exact List.forall_mem_append.mpr ⟨hWithin, hWithin'⟩

theorem Moves.mono {written' lost' : Location → Prop} (hWritten : ∀ l, written l → written' l)
    (hLost : ∀ l, lost l → lost' l) (h : Moves written lost run run') :
    Moves written' lost' run run' := by
  obtain ⟨effects, hTree, hLog, hWithin⟩ := h
  exact ⟨effects, hTree, hLog, fun e hMem => (hWithin e hMem).mono hWritten hLost⟩

/-- A run brings up no directory and no link that was not there. -/
theorem Moves.keeps (h : Moves written lost run run') : run'.tree.Keeps run.tree := by
  obtain ⟨effects, hTree, _, hWithin⟩ := h
  rw [hTree]
  exact after_keeps hWithin

theorem Moves.perform {effects : List Effect} (h : ∀ e ∈ effects, e.Within written lost) :
    Moves written lost run (run.perform effects) := ⟨effects, rfl, rfl, h⟩

theorem Moves.system {command : Command}
    (h : ∀ e ∈ (env.shell command run.tree).2, e.Within written lost) :
    Moves written lost run (run.system env command).2 := ⟨_, rfl, rfl, h⟩

/-- A file that is unlinked has to be among those that may be lost. -/
theorem Moves.unlink {path : Text}
    (h : ∀ l, run.tree.locate path = some l → run.tree.node l ≠ none → lost l) :
    Moves written lost run (run.unlink path).2 := by
  rw [Run.unlink]
  split
  · exact .refl run
  · next l hLocate =>
    split
    · exact .refl run
    · next hNode =>
      apply Moves.perform
      exact List.forall_mem_singleton.mpr (h l hLocate (not_or.mp hNode).1)

theorem Moves.rmdir {path : Text}
    (h : ∀ l, run.tree.locate path = some l → run.tree.node l = some .dir →
      run.tree.names l = [] → lost l) :
    Moves written lost run (run.rmdir path).2 := by
  rw [Run.rmdir]
  split
  · exact .refl run
  · next l hLocate =>
    split
    · next hEmpty =>
      apply Moves.perform
      exact List.forall_mem_singleton.mpr (h l hLocate hEmpty.1 hEmpty.2)
    · exact .refl run

/-- By induction on the items, with the moves since the start known at each
of them. -/
theorem Moves.foldl {α : Type*} {f : Run → α → Run} {items : List α} {start : Run}
    (h : ∀ item ∈ items, ∀ run, Moves written lost start run → Moves written lost run (f run item))
    (hRun : Moves written lost start run) : Moves written lost run (items.foldl f run) := by
  induction items generalizing run with
  | nil => exact .refl run
  | cons item items ih =>
      have hFirst := h item List.mem_cons_self run hRun
      exact hFirst.trans (ih (fun item hMem => h item (List.mem_cons_of_mem _ hMem))
        (hRun.trans hFirst))

section Later

variable {first : Run} (hRun : Moves written lost first run)

include hRun

theorem Moves.present {l : Location} (h : run.tree.node l ≠ none) :
    first.tree.node l ≠ none ∨ written l := by
  obtain ⟨effects, hTree, _, hWithin⟩ := hRun
  obtain ⟨inode, hNode⟩ := Option.ne_none_iff_exists'.mp h
  rw [hTree] at hNode
  cases node_after hWithin hNode with
  | inl hBefore => exact .inl (Option.ne_none_iff_exists'.mpr ⟨inode, hBefore⟩)
  | inr hWritten => exact .inr hWritten.2

/-- A file that is found was found there, or has been written where its path
leads. -/
theorem Moves.gives {path : Text} {data : FileData} (h : run.tree.stat path = some (.file data)) :
    first.tree.stat path = some (.file data) ∨ ∃ l, written l ∧ first.tree.Leads path l := by
  obtain ⟨effects, hTree, _, hWithin⟩ := hRun
  rw [hTree] at h
  exact stat_file_after hWithin h

theorem Moves.leads {path : Text} {l : Location} (hDir : run.tree.node l ≠ some .dir)
    (hLink : ∀ target, run.tree.node l ≠ some (.link target))
    (hResolve : run.tree.resolve path = some l) : first.tree.Leads path l := by
  obtain ⟨effects, hTree, _, hWithin⟩ := hRun
  rw [hTree] at hDir hLink hResolve
  exact leads_after hWithin hDir hLink hResolve

/-- The loop of a pass over a directory goes on as its actions do. -/
theorem Moves.forFiles {choose : FileInfo → Bool} {act : Text → Run → Bool × Run} {dir : Text}
    (hAct : ∀ path, Listed first.tree dir path → ∀ data,
      (first.tree.stat path = some (.file data) ∨ ∃ l, written l ∧ first.tree.Leads path l) →
      choose (fileInfo env path data) = true → ∀ run, Moves written lost first run →
      run.tree.stat path ≠ some .dir → Moves written lost run (act path run).2) :
    Moves written lost run (forFiles env choose act run dir) := by
  rw [SystemOptimizer.forFiles]
  cases hScan : scanDirectory env run.tree pathMax dir with
  | none => exact .refl run
  | some files =>
      -- the loop goes over what the tree gave at the start, which stays no directory
      have hLoop : ∀ file ∈ files, ∀ later, Moves written lost run later →
          Moves written lost later
            (if choose file then (act file.path later).2 else later) := by
        intro file hFile later hSince
        split
        · next hChosen =>
          obtain ⟨hListed, data, hStat, hInfo⟩ := mem_scanDirectory hScan hFile
          apply hAct file.path (hListed.of_keeps hRun.keeps) data (hRun.gives hStat)
            (hInfo ▸ hChosen) later (hRun.trans hSince)
          intro hDir
          cases hStat.symm.trans (hSince.keeps.stat_dir hDir)
        · exact .refl later
      exact Moves.foldl hLoop (.refl run)

end Later

end Moves

/-- The run goes on by effects at selected locations. -/
def Steps (env : Env) (t : Volume) (run run' : Run) : Prop :=
  ∃ effects, run'.tree = run.tree.after effects ∧ run'.effects = run.effects ++ effects ∧
    ∀ e ∈ effects, e.Within (Written env t) (Removed env t)

/-- What keeps every run that the tree selects within its selection. -/
def Sound (env : Env) (t : Volume) (f : Run → Run) : Prop :=
  ∀ run, Steps env t (.start t) run → Steps env t run (f run)

section Footprint

variable {env : Env} {t : Volume} {run run' run'' : Run}

theorem Steps.refl (run : Run) : Steps env t run run := Moves.refl run

theorem Steps.trans (h : Steps env t run run') (h' : Steps env t run' run'') :
    Steps env t run run'' := Moves.trans h h'

/-- The directories and links of a run were there at its start. -/
theorem Steps.keeps (h : Steps env t run run') : run'.tree.Keeps run.tree := Moves.keeps h

theorem steps_system {command : Command}
    (h : ∀ e ∈ (env.shell command run.tree).2, e.Within (Written env t) (Removed env t)) :
    Steps env t run (run.system env command).2 := Moves.system h

theorem Sound.comp {f g : Run → Run} (hf : Sound env t f) (hg : Sound env t g) :
    Sound env t fun run => g (f run) :=
  fun run hRun => (hf run hRun).trans (hg _ (hRun.trans (hf run hRun)))

theorem Sound.foldl {α : Type*} {f : Run → α → Run} {items : List α}
    (h : ∀ item ∈ items, Sound env t fun run => f run item) :
    Sound env t fun run => items.foldl f run :=
  fun _ hRun => Moves.foldl h hRun

variable (hRun : Steps env t (.start t) run)

include hRun

/-- What is there in the middle of a run was there at the start, or has been
written. -/
theorem present {l : Location} (h : run.tree.node l ≠ none) :
    t.node l ≠ none ∨ Written env t l := Moves.present hRun h

/-- What a path gives in the middle of a run is accounted for at the start. -/
theorem gives {path : Text} {data : FileData} (h : run.tree.stat path = some (.file data)) :
    Gives env t path data := Moves.gives hRun h

/-- What exists in the middle of a run is accounted for at the start. -/
theorem found {path : Text} (h : fileExists run.tree path = true) : Found env t path := by
  cases hStat : run.tree.stat path with
  | none =>
      rw [fileExists, hStat] at h
      cases h
  | some inode =>
      cases inode with
      | file data =>
          apply (gives hRun hStat).imp_left
          intro hBefore
          rw [hBefore]
          exact fun hNone => nomatch hNone
      | dir =>
          left
          have hBefore : t.stat path = some .dir := hRun.keeps.stat_dir hStat
          rw [hBefore]
          exact fun hNone => nomatch hNone
      | link target =>
          obtain ⟨_, _, _, hLink⟩ := stat_eq_some.mp hStat
          cases hLink

/-- Where a path leads in the middle of a run it led at the start. -/
theorem leads {path : Text} {l : Location} (hDir : run.tree.node l ≠ some .dir)
    (hLink : ∀ target, run.tree.node l ≠ some (.link target))
    (hResolve : run.tree.resolve path = some l) : t.Leads path l :=
  Moves.leads hRun hDir hLink hResolve

/-- Where an entry is located in the middle of a run it was at the start. -/
theorem located {path : Text} {l : Location} (h : run.tree.locate path = some l) :
    t.locate path = some l := hRun.keeps.locate h

end Footprint

section Removing

variable {env : Env} {t : Volume} {run : Run}

theorem unlink_steps (hRun : Steps env t (.start t) run) {path : Text}
    (hRemoved : ∀ l, t.locate path = some l → (t.node l ≠ none ∨ Written env t l) →
      Removed env t l) :
    Steps env t run (run.unlink path).2 := by
  apply Moves.unlink
  intro l hLocate hNode
  exact hRemoved l (located hRun hLocate) (present hRun hNode)

theorem rmdir_steps (hRun : Steps env t (.start t) run) {path : Text}
    (hRemoved : ∀ l, t.locate path = some l → (t.node l ≠ none ∨ Written env t l) →
      Removed env t l) :
    Steps env t run (run.rmdir path).2 := by
  apply Moves.rmdir
  intro l hLocate hDir _
  exact hRemoved l (located hRun hLocate) (present hRun (by simp [hDir]))

/-- Removing a path removes the path and what a scan of it lists. -/
theorem removeFile_steps {depth : Nat} {path : Text}
    (hRemoved : ∀ l, Erased t path l → (t.node l ≠ none ∨ Written env t l) → Removed env t l)
    (hRun : Steps env t (.start t) run) : Steps env t run (removeFile env depth path run).2 := by
  induction depth generalizing path run with
  | zero => exact .refl run
  | succ depth ih =>
      have hSelf : ∀ l, t.locate path = some l → (t.node l ≠ none ∨ Written env t l) →
          Removed env t l := fun l hLocate => hRemoved l (.inl hLocate)
      rw [removeFile]
      split
      · exact .refl run
      · split
        · next hStat =>
          split
          · exact .refl run
          · next names hNames =>
            have hOpened : Opened t path path := .root (hRun.keeps.stat_dir hStat)
            have hEntries : Sound env t fun run => names.foldl (fun run name =>
                if hidden name then run
                else (removeFile env depth (entryPath path name) run).2) run := by
              apply Sound.foldl
              intro name hMem run hRun
              dsimp only
              split
              · exact .refl run
              · next hHidden =>
                have hName := visible_of_opendir hNames hMem hHidden
                apply ih _ hRun
                intro l hErased
                apply hRemoved l
                right
                cases hErased with
                | inl hLocate =>
                    exact ⟨entryPath path name, ⟨path, name, hOpened, hName, rfl⟩, hLocate⟩
                | inr hBelow =>
                    obtain ⟨_, ⟨parent, entry, hParent, hEntry, rfl⟩, hLocate⟩ := hBelow
                    have hStatEntry : t.stat (entryPath path name) = some .dir := by
                      clear ih hRemoved hLocate
                      induction hParent with
                      | root hStat => exact hStat
                      | sub _ _ _ ih => exact ih
                    exact ⟨_, ⟨parent, entry, (hOpened.sub hName hStatEntry).trans hParent,
                      hEntry, rfl⟩, hLocate⟩
            have hSteps := hEntries run hRun
            exact hSteps.trans (rmdir_steps (hRun.trans hSteps) hSelf)
        · have hSteps := unlink_steps hRun hSelf
          dsimp only
          split
          · exact hSteps
          · exact hSteps
        · exact .refl run

/-- A path that is no directory is removed alone. -/
theorem removeFile_alone {depth : Nat} {path : Text} (hRun : Steps env t (.start t) run)
    (hFile : run.tree.stat path ≠ some .dir)
    (hRemoved : ∀ l, t.locate path = some l → (t.node l ≠ none ∨ Written env t l) →
      Removed env t l) :
    Steps env t run (removeFile env depth path run).2 := by
  cases depth with
  | zero => exact .refl run
  | succ depth =>
      rw [removeFile]
      split
      · exact .refl run
      · split
        · next hDir => exact absurd hDir hFile
        · have hSteps := unlink_steps hRun hRemoved
          dsimp only
          split
          · exact hSteps
          · exact hSteps
        · exact .refl run

end Removing

section Commands

variable {env : Env} {t : Volume} {run : Run} {path : Text} (hShell : Documented env.shell)

theorem InPlace.moves {written lost : Location → Prop} {e : Effect} (h : InPlace run.tree path e)
    {first : Run} (hRun : Moves written lost first run)
    (hWritten : ∀ l, first.tree.Leads path l → written l) : e.Within written lost := by
  obtain ⟨l, old, data, hResolve, hNode, rfl⟩ := h
  have hDir : run.tree.node l ≠ some .dir := by
    rw [hNode]
    exact fun hSame => nomatch hSame
  exact hWritten l (hRun.leads hDir (ne_link_of_file hNode) hResolve)

theorem InPlace.within {e : Effect} (h : InPlace run.tree path e)
    (hRun : Steps env t (.start t) run) (hWritten : ∀ l, t.Leads path l → Written env t l) :
    e.Within (Written env t) (Removed env t) := h.moves hRun hWritten

include hShell

/-- The command writes the packed file and removes the other, both within
the footprint. -/
theorem gzip_steps (hRun : Steps env t (.start t) run)
    (hWritten : ∀ l, packedAt t path l → Written env t l)
    (hRemoved : ∀ l, t.locate path = some l → (t.node l ≠ none ∨ Written env t l) →
      Removed env t l) :
    Steps env t run (run.system env (.gzip path)).2 := by
  apply steps_system
  intro e hMem
  cases hShell.gzip run.tree path e hMem with
  | inl hWrite =>
      obtain ⟨l, data, hLocate, _, rfl⟩ := hWrite
      exact hWritten l (located hRun hLocate)
  | inr hRemove =>
      obtain ⟨l, hLocate, hNode, rfl⟩ := hRemove
      exact hRemoved l (located hRun hLocate) (present hRun hNode)

/-- Compressing a file is the command and, once it has succeeded, the
removal of what it left. -/
theorem compressFile_steps (hRun : Steps env t (.start t) run)
    (hWritten : ∀ l, packedAt t path l → Written env t l)
    (hRemoved : ∀ l, t.locate path = some l → (t.node l ≠ none ∨ Written env t l) →
      Removed env t l) :
    Steps env t run (compressFile env path run).2 := by
  rw [compressFile]
  split
  · exact .refl run
  · exact gzip_steps hShell hRun hWritten hRemoved

theorem stripBinary_steps (hRun : Steps env t (.start t) run)
    (hWritten : ∀ l, t.Leads path l → Written env t l) :
    Steps env t run (stripBinary env path run).2 := by
  rw [stripBinary]
  split
  · exact .refl run
  · apply steps_system
    intro e hMem
    exact (hShell.strip run.tree path e hMem).within hRun hWritten

theorem compressImage_steps (hRun : Steps env t (.start t) run)
    (hWritten : ∀ l, t.Leads path l → Written env t l) :
    Steps env t run (compressImage env path run).2 := by
  rw [compressImage]
  split
  · exact .refl run
  · apply steps_system
    intro e hMem
    exact (hShell.convert run.tree path 60 e hMem).within hRun hWritten

theorem optimizeJar_steps (hRun : Steps env t (.start t) run)
    (hWritten : ∀ l, t.Leads path l ∨ packedAt t path l → Written env t l)
    (hRemoved : ∀ l, t.locate path = some l → (t.node l ≠ none ∨ Written env t l) →
      Removed env t l) :
    Steps env t run (optimizeJar env path run).2 := by
  rw [optimizeJar]
  split
  · exact .refl run
  · have hDeleted : Steps env t run (run.system env (.zipDelete path)).2 := by
      apply steps_system
      intro e hMem
      exact (hShell.zipDelete run.tree path e hMem).within hRun fun l hLeads =>
        hWritten l (.inl hLeads)
    exact hDeleted.trans (gzip_steps hShell (hRun.trans hDeleted)
      (fun l hPacked => hWritten l (.inr hPacked)) hRemoved)

/-- An image is removed nowhere but at the place of its temporary file, and
there only if the tool is found that writes one. -/
theorem Moves.optimizePNG {written lost : Location → Prop} {first : Run}
    (hRun : Moves written lost first run) (hFile : run.tree.stat path ≠ some .dir)
    (hWritten : ∀ l, crushedAt first.tree path l → written l)
    (hLost : (env.shell .whichPngcrush run.tree).1 = true → ∀ l,
      first.tree.locate (temporary path) = some l → (first.tree.node l ≠ none ∨ written l) →
        lost l) :
    Moves written lost run (optimizePNG env path run).2 := by
  rw [SystemOptimizer.optimizePNG]
  split
  · exact .refl run
  · have hWhich : Moves written lost run (run.system env .whichPngcrush).2 := by
      apply Moves.system
      rw [hShell.whichPngcrush]
      exact List.forall_mem_nil _
    have hRunWhich := hRun.trans hWhich
    dsimp only
    split
    · next hFound =>
      have hCrushed : Moves written lost (run.system env .whichPngcrush).2
          ((run.system env .whichPngcrush).2.system env (.pngcrush path (temporary path))).2 := by
        apply Moves.system
        intro e hMem
        obtain ⟨l, data, hResolve, hDir, hLink, rfl⟩ := hShell.pngcrush _ _ _ e hMem
        exact hWritten l (.inl (hRunWhich.leads hDir hLink hResolve))
      split
      · have hBoth := hWhich.trans hCrushed
        refine hBoth.trans (Moves.system ?_)
        intro e hMem
        have hStat := mt hBoth.keeps.stat_dir hFile
        cases hShell.mv _ _ _ hStat e hMem with
        | inl hWrite =>
            obtain ⟨l, data, hLocate, rfl⟩ := hWrite
            exact hWritten l (.inr (.inl ((hRun.trans hBoth).keeps.locate hLocate)))
        | inr hRemove =>
            obtain ⟨l, hLocate, hNode, rfl⟩ := hRemove
            exact hLost hFound l ((hRun.trans hBoth).keeps.locate hLocate)
              ((hRun.trans hBoth).present hNode)
      · exact hWhich.trans hCrushed
    · refine hWhich.trans (Moves.system ?_)
      intro e hMem
      exact (hShell.convert _ path 80 e hMem).moves hRunWhich fun l hLeads =>
        hWritten l (.inr (.inr hLeads))

/-- An image is crushed into its temporary file, which is moved over it or
removed. -/
theorem optimizePNG_steps (hRun : Steps env t (.start t) run)
    (hFile : run.tree.stat path ≠ some .dir)
    (hWritten : ∀ l, crushedAt t path l → Written env t l)
    (hRemoved : ∀ l, t.locate (temporary path) = some l →
      (t.node l ≠ none ∨ Written env t l) → Removed env t l) :
    Steps env t run (optimizePNG env path run).2 :=
  Moves.optimizePNG hShell hRun hFile hWritten fun _ => hRemoved

end Commands

section Passes

variable {env : Env} {t : Volume}

/-- A pass over a listing is sound if its action is on every file that it
can pick in the middle of a run. -/
theorem forFiles_sound {choose : FileInfo → Bool} {act : Text → Run → Bool × Run} {dir : Text}
    (hAct : ∀ path, Picked env t dir choose path → ∀ run, Steps env t (.start t) run →
      run.tree.stat path ≠ some .dir → Steps env t run (act path run).2) :
    Sound env t fun run => forFiles env choose act run dir := by
  intro run hRun
  apply Moves.forFiles hRun
  intro path hListed data hGives hChosen
  exact hAct path ⟨hListed, data, hGives, hChosen⟩

theorem forFilesIn_sound {choose : FileInfo → Bool} {act : Text → Run → Bool × Run}
    {dir : Text} (h : Sound env t fun run => forFiles env choose act run dir) :
    Sound env t fun run => forFilesIn env choose act run dir := by
  intro run hRun
  dsimp only
  rw [forFilesIn]
  split
  · exact h run hRun
  · exact .refl run

/-- Removing what a pass chooses. -/
theorem pruning_sound {remover : Remover} (hRemover : remover ∈ removers env)
    (hVictim : remover.victim = id) {dir : Text} (hDir : dir ∈ remover.dirs) :
    Sound env t fun run =>
      forFiles env remover.choose (removeFile env pathMax) run dir := by
  apply forFiles_sound
  intro path hPicked run hRun hFile
  apply removeFile_alone hRun hFile
  intro l hLocate hPresent
  have hPlace : t.locate (remover.victim path) = some l := by rw [hVictim]; exact hLocate
  exact .chosen hRemover hDir hPicked hPlace hPresent

theorem removeDirectory_sound {dir : Text} (hDir : dir ∈ doomedDirs) :
    Sound env t fun run => removeDirectory env run dir := by
  intro run hRun
  dsimp only
  rw [removeDirectory]
  split
  · next hExists =>
    have hStat := hRun.keeps.stat_dir (of_decide_eq_true hExists)
    exact removeFile_steps (fun l hErased hPresent => .doomed hDir hStat hErased hPresent) hRun
  · exact .refl run

theorem removeUnusedApps_sound : Sound env t fun run => (removeUnusedApps env run).2 := by
  apply Sound.foldl
  intro app hApp
  have hApps : entryPath appPath app ∈ doomedDirs :=
    List.mem_append_left _ (List.mem_flatMap.mpr ⟨app, hApp, List.mem_cons_self⟩)
  have hPrivApps : entryPath privAppPath app ∈ doomedDirs :=
    List.mem_append_left _ (List.mem_flatMap.mpr
      ⟨app, hApp, List.mem_cons_of_mem _ List.mem_cons_self⟩)
  exact (removeDirectory_sound hApps).comp (removeDirectory_sound hPrivApps)

theorem removeLib_sound {lib : Text} (hLib : lib ∈ libsToRemove) :
    Sound env t fun run => removeLib env run lib := by
  intro run hRun
  dsimp only
  rw [removeLib]
  split
  · next hExists =>
    apply removeFile_steps _ hRun
    intro l hErased hPresent
    exact .lib hLib (found hRun hExists) hErased hPresent
  · exact .refl run

theorem stripNativeLibraries_sound :
    Sound env t fun run => (stripNativeLibraries env run).2 := by
  have hDirs : Sound env t fun run => archDirs.foldl (removeDirectory env) run := by
    apply Sound.foldl
    intro dir hDir
    exact removeDirectory_sound (List.mem_append_right _ hDir)
  have hLibs : Sound env t fun run => libsToRemove.foldl (removeLib env) run := by
    apply Sound.foldl
    intro lib hLib
    exact removeLib_sound hLib
  intro run hRun
  have hFirst := hDirs run hRun
  dsimp only [stripNativeLibraries] at hFirst ⊢
  apply Steps.trans hFirst
  exact hLibs _ (hRun.trans hFirst)

variable (hShell : Documented env.shell)

include hShell

theorem compressAPKs_sound : Sound env t fun run => (compressAPKs env run).2 := by
  apply Sound.foldl
  intro dir hDir
  apply forFiles_sound
  intro path hPicked run hRun _
  have hWriter : ⟨apkDirs, isApk, packedAt⟩ ∈ writers := by simp [writers]
  have hRemover : ⟨apkDirs, isApk, id⟩ ∈ removers env := by simp [removers]
  apply compressFile_steps hShell hRun
  · intro l hPacked
    exact hPicked.written hWriter hDir hPacked
  · intro l hLocate hPresent
    exact .chosen hRemover hDir hPicked hLocate hPresent

theorem optimizePNGFiles_sound : Sound env t fun run => (optimizePNGFiles env run).2 := by
  apply Sound.foldl
  intro dir hDir
  apply forFilesIn_sound
  apply forFiles_sound
  intro path hPicked run hRun hFile
  have hWriter : ⟨imageDirs, isPNG, crushedAt⟩ ∈ writers := by simp [writers]
  have hRemover : ⟨imageDirs, isPNG, temporary⟩ ∈ removers env := by simp [removers]
  apply optimizePNG_steps hShell hRun hFile
  · intro l hCrushed
    exact hPicked.written hWriter hDir hCrushed
  · intro l hLocate hPresent
    exact .chosen hRemover hDir hPicked hLocate hPresent

theorem optimizeResources_sound : Sound env t fun run => (optimizeResources env run).2 := by
  have hRemover : ⟨resourceDirs, isForeignResource, id⟩ ∈ removers env := by simp [removers]
  have hPruned : Sound env t fun run => resourceDirs.foldl
      (forFilesIn env isForeignResource (removeFile env pathMax)) run := by
    apply Sound.foldl
    intro dir hDir
    exact forFilesIn_sound (pruning_sound hRemover rfl hDir)
  intro run hRun
  have hFirst := hPruned run hRun
  dsimp only [optimizeResources] at hFirst ⊢
  apply Steps.trans hFirst
  exact optimizePNGFiles_sound hShell _ (hRun.trans hFirst)

theorem removeDebugSymbols_sound : Sound env t fun run => (removeDebugSymbols env run).2 := by
  apply Sound.foldl
  intro dir hDir
  apply forFilesIn_sound
  apply forFiles_sound
  intro path hPicked run hRun _
  have hWriter : ⟨binDirs, isBinary, Volume.Leads⟩ ∈ writers := by simp [writers]
  apply stripBinary_steps hShell hRun
  intro l hLeads
  exact hPicked.written hWriter hDir hLeads

omit hShell in
theorem reduceFonts_sound : Sound env t fun run => (reduceFonts env run).2 := by
  have hRemover : ⟨[fontPath], isSpareFont, id⟩ ∈ removers env := by simp [removers]
  have hPruned : Sound env t fun run =>
      forFiles env isSpareFont (removeFile env pathMax) run fontPath :=
    pruning_sound hRemover rfl List.mem_cons_self
  intro run hRun
  dsimp only
  rw [reduceFonts]
  split
  · exact .refl run
  · split
    · exact .refl run
    · exact hPruned run hRun

omit hShell in
theorem cleanupAudio_sound : Sound env t fun run => cleanupAudio env run := by
  have hRemover : ⟨audioDirs, isLargeAudio, id⟩ ∈ removers env := by simp [removers]
  have hPruned : Sound env t fun run =>
      audioDirs.foldl (forFilesIn env isLargeAudio (removeFile env pathMax)) run := by
    apply Sound.foldl
    intro dir hDir
    exact forFilesIn_sound (pruning_sound hRemover rfl hDir)
  intro run hRun
  dsimp only
  rw [cleanupAudio]
  split
  · exact hPruned run hRun
  · exact .refl run

theorem cleanupMediaFiles_sound : Sound env t fun run => (cleanupMediaFiles env run).2 := by
  have hWriter : ⟨[mediaPath], isLargeImage, Volume.Leads⟩ ∈ writers := by simp [writers]
  have hImages : Sound env t fun run =>
      forFiles env isLargeImage (compressImage env) run mediaPath := by
    apply forFiles_sound
    intro path hPicked run hRun _
    apply compressImage_steps hShell hRun
    intro l hLeads
    exact hPicked.written hWriter List.mem_cons_self hLeads
  intro run hRun
  have hFirst := cleanupAudio_sound run hRun
  dsimp only [cleanupMediaFiles] at hFirst ⊢
  apply Steps.trans hFirst
  exact hImages _ (hRun.trans hFirst)

theorem optimizeFramework_sound : Sound env t fun run => (optimizeFramework env run).2 := by
  have hWriter : ⟨[frameworkPath], isJar, fun t path l => t.Leads path l ∨ packedAt t path l⟩ ∈
      writers := by simp [writers]
  have hRemover : ⟨[frameworkPath], isJar, id⟩ ∈ removers env := by simp [removers]
  have hJars : Sound env t fun run =>
      forFiles env isJar (optimizeJar env) run frameworkPath := by
    apply forFiles_sound
    intro path hPicked run hRun _
    apply optimizeJar_steps hShell hRun
    · intro l hOutput
      exact hPicked.written hWriter List.mem_cons_self hOutput
    · intro l hLocate hPresent
      exact .chosen hRemover List.mem_cons_self hPicked hLocate hPresent
  intro run hRun
  dsimp only
  rw [optimizeFramework]
  split
  · exact .refl run
  · exact hJars run hRun

omit hShell in
theorem cleanTemporaryFiles_sound :
    Sound env t fun run => (cleanTemporaryFiles env run).2 := by
  have hRemover : ⟨tempDirs, isStale env, id⟩ ∈ removers env := by simp [removers]
  apply Sound.foldl
  intro dir hDir
  exact forFilesIn_sound (pruning_sound hRemover rfl hDir)

omit hShell in
theorem removeUnusedLocales_sound :
    Sound env t fun run => (removeUnusedLocales env run).2 := by
  have hRemover : ⟨localeDirs, isUnusedLocale, id⟩ ∈ removers env := by simp [removers]
  apply Sound.foldl
  intro dir hDir
  exact forFilesIn_sound (pruning_sound hRemover rfl hDir)

/-- The passes before the last. -/
def earlierPasses (env : Env) : List (Run → Bool × Run) :=
  [removeUnusedApps env, compressAPKs env, optimizeResources env, removeDebugSymbols env,
    stripNativeLibraries env, reduceFonts env, cleanupMediaFiles env, optimizeFramework env,
    cleanTemporaryFiles env, removeUnusedLocales env]

/-- Each pass in front of the boot animation is sound. Case by case, with
the lemma of the pass. -/
theorem earlierPasses_sound : ∀ pass ∈ earlierPasses env, Sound env t fun run => (pass run).2 := by
  simp only [earlierPasses, List.forall_mem_cons]
  exact ⟨removeUnusedApps_sound, compressAPKs_sound hShell, optimizeResources_sound hShell,
    removeDebugSymbols_sound hShell, stripNativeLibraries_sound, reduceFonts_sound,
    cleanupMediaFiles_sound hShell, optimizeFramework_sound hShell, cleanTemporaryFiles_sound,
    removeUnusedLocales_sound, fun _ hMem => nomatch hMem⟩

/-- The passes are the earlier ones, which keep to the footprint, and the
boot animation. -/
theorem runOptimizations_split (run : Run) (hRun : Steps env t (.start t) run) :
    ∃ middle, Steps env t run middle ∧
      runOptimizations env run = (optimizeBootAnimation env middle).2 := by
  have hPasses : Sound env t fun run =>
      (earlierPasses env).foldl (fun run pass => (pass run).2) run := by
    apply Sound.foldl
    exact earlierPasses_sound hShell
  have hSplit : optimizations env = earlierPasses env ++ [optimizeBootAnimation env] := rfl
  refine ⟨_, hPasses run hRun, ?_⟩
  rw [runOptimizations, hSplit, List.foldl_append, List.foldl_cons, List.foldl_nil]

end Passes

end SystemOptimizer
