import Gtexswifi.Library.Transition
import Gtexswifi.SystemOptimizer.Deletion

/-! Pruning: which files a pass removes that scans directories and deletes
what it chooses, told from the tree that it starts on. -/
namespace SystemOptimizer

open FileTree

/-- The loop of a pass over directories that deletes the files it chooses. -/
def prune (env : Env) (dirs : List Text) (choose : FileInfo → Bool) (run : Run) : Run :=
  dirs.foldl (forFilesIn env choose (removeFile env pathMax)) run

/-- A path of a directory that gives a file which the pass chooses. -/
def ChosenIn (env : Env) (t : Volume) (choose : FileInfo → Bool) (dir path : Text) : Prop :=
  ∃ names l data, Visit t dir names l ∧ t.node l = some (.file data) ∧
    path = pathFrom dir names ∧ choose (fileInfo env path data) = true

def Chosen (env : Env) (t : Volume) (dirs : List Text) (choose : FileInfo → Bool)
    (path : Text) : Prop := ∃ dir ∈ dirs, ChosenIn env t choose dir path

section Chosen

variable {env : Env} {s t : Volume} {dirs : List Text} {choose : FileInfo → Bool}
  {dir path : Text} {l : Location}

theorem ChosenIn.stat (h : ChosenIn env t choose dir path) :
    ∃ data, t.stat path = some (.file data) ∧ choose (fileInfo env path data) = true := by
  obtain ⟨names, l, data, hVisit, hNode, rfl, hChoose⟩ := h
  exact ⟨data, hVisit.stat hNode, hChoose⟩

/-- A chosen path ends with an entry that leads to a file. -/
theorem ChosenIn.entry (h : ChosenIn env t choose dir path) :
    ∃ parent name d via m data, path = entryPath parent name ∧ parent ≠ [] ∧ Visible name ∧
      t.locate path = some (d ++ [name]) ∧ Goes t d [name] via m ∧
      t.node m = some (.file data) := by
  obtain ⟨names, l, data, hVisit, _, rfl, _⟩ := h
  exact hVisit.entry

/-- What a smaller tree lets a pass choose, the larger one does. -/
theorem ChosenIn.of_part (hPart : s.PartOf t) (h : ChosenIn env s choose dir path) :
    ChosenIn env t choose dir path := by
  obtain ⟨names, l, data, hVisit, hNode, rfl, hChoose⟩ := h
  have hFile := hPart.node l _ hNode
  exact ⟨names, l, data, ⟨hPart.stat hVisit.root, hVisit.below, hVisit.visible,
    hPart.keeps.resolve (ne_link_of_file hFile) hVisit.leads, data, hFile⟩, hFile, rfl, hChoose⟩

/-- A chosen path that still gives a file is still chosen. -/
theorem ChosenIn.still (hPart : s.PartOf t) (h : ChosenIn env t choose dir path)
    {data : FileData} (hStat : s.stat path = some (.file data)) :
    ChosenIn env s choose dir path := by
  obtain ⟨names, l, data', hVisit, hNode, rfl, hChoose⟩ := h
  obtain ⟨m, hResolve, hFile, _⟩ := stat_eq_some.mp hStat
  have hBefore := hPart.node m _ hFile
  have hLeads := hPart.keeps.resolve (ne_link_of_file hBefore) hResolve
  obtain rfl := Option.some.inj (hLeads.symm.trans hVisit.leads)
  obtain rfl := Inode.file.inj (Option.some.inj (hBefore.symm.trans hNode))
  refine ⟨names, m, data, ⟨?_, hVisit.below, hVisit.visible, hResolve, data, hFile⟩, hFile,
    rfl, hChoose⟩
  exact stat_dir_of_below (ne_nil_of_stat hVisit.root) hVisit.below hVisit.visible hStat

theorem mem_listing_chosen {file : FileInfo}
    (hMem : file ∈ (scanDirectory env t pathMax dir).getD []) (hChoose : choose file = true) :
    ChosenIn env t choose dir file.path := by
  obtain ⟨names, l, data, hVisit, hNode, rfl⟩ := mem_listing_iff.mp hMem
  exact ⟨names, l, data, hVisit, hNode, rfl, hChoose⟩

theorem ChosenIn.listed (h : ChosenIn env t choose dir path) :
    ∃ file ∈ (scanDirectory env t pathMax dir).getD [], file.path = path ∧
      choose file = true := by
  obtain ⟨names, l, data, hVisit, hNode, rfl, hChoose⟩ := h
  exact ⟨_, mem_listing_iff.mpr ⟨names, l, data, hVisit, hNode, rfl⟩, rfl, hChoose⟩

end Chosen

/-- The place of a chosen path. -/
def AtChosen (env : Env) (t : Volume) (dirs : List Text) (choose : FileInfo → Bool)
    (l : Location) : Prop := ∃ path, Chosen env t dirs choose path ∧ t.locate path = some l

/-- A run that has removed chosen entries only. -/
def Pruned (env : Env) (t : Volume) (dirs : List Text) (choose : FileInfo → Bool) :
    Run → Prop := Removes (AtChosen env t dirs choose) (.start t)

section Pruned

variable {env : Env} {t : Volume} {dirs : List Text} {choose : FileInfo → Bool} {run : Run}
  {dir path : Text} {l : Location}

theorem Pruned.part (h : Pruned env t dirs choose run) : run.tree.PartOf t := Removes.part h

/-- Deleting a chosen path removes its entry, unless that leads to no file
any more. -/
theorem Pruned.delete (hWet : env.dryRun = false) (h : Pruned env t dirs choose run)
    (hChosen : Chosen env t dirs choose path) (depth : Nat) :
    Pruned env t dirs choose (removeFile env (depth + 1) path run).2 ∧
      (removeFile env (depth + 1) path run).2.tree.PartOf run.tree ∧
      ∀ data, (removeFile env (depth + 1) path run).2.tree.stat path ≠ some (.file data) := by
  obtain ⟨dir, _, hIn⟩ := id hChosen
  obtain ⟨data, hFile, _⟩ := hIn.stat
  obtain ⟨parent, name, d, via, m, _, hPath, hParent, hName, hLocate, _⟩ := hIn.entry
  rw [removeFile, hWet, if_neg Bool.false_ne_true]
  cases hStat : run.tree.stat path with
  | none =>
      refine ⟨h, .refl _, ?_⟩
      intro data' hSome
      cases hStat.symm.trans hSome
  | some inode =>
      have hSame := h.part.stat hStat
      obtain rfl := Option.some.inj (hFile.symm.trans hSame)
      have hStat' := hStat
      rw [hPath] at hStat'
      obtain ⟨d', _, _, hLocate', _⟩ := entry_of_file hName hStat'
      rw [← hPath] at hLocate'
      obtain rfl : d = d' := by
        have hPlaces := Option.some.inj (hLocate.symm.trans (h.part.keeps.locate hLocate'))
        exact (List.append_inj' hPlaces rfl).1
      have hNode := node_of_locate hLocate' hStat
      have hUnlink : run.unlink path = (true, run.perform [.remove (d ++ [name])]) := by
        rw [Run.unlink, hLocate']
        dsimp only
        rw [if_neg (not_or.mpr hNode)]
      dsimp only
      rw [hUnlink, if_pos rfl]
      have hPicked : AtChosen env t dirs choose (d ++ [name]) := ⟨path, hChosen, hLocate⟩
      have hRemoved : Pruned env t dirs choose (run.perform [.remove (d ++ [name])]) :=
        Moves.trans h (Moves.perform (List.forall_mem_singleton.mpr hPicked))
      have hPart : (run.perform [.remove (d ++ [name])]).tree.PartOf run.tree :=
        Volume.PartOf.remove run.tree (d ++ [name])
      refine ⟨hRemoved, hPart, ?_⟩
      intro data' hStill
      have hThere : (run.perform [.remove (d ++ [name])]).tree.stat (entryPath parent name) =
          some (.file data') := hPath ▸ hStill
      obtain ⟨d'', _, _, hLocate'', _⟩ := entry_of_file hName hThere
      have hLeft := (node_of_locate hLocate'' hThere).1
      rw [← hPath] at hLocate''
      have hPlaces := Option.some.inj (hLocate'.symm.trans (hPart.keeps.locate hLocate''))
      rw [← hPlaces] at hLeft
      exact hLeft (node_remove_self (List.append_ne_nil_of_right_ne_nil _ (List.cons_ne_nil _ _)))

/-- One scan of a pass that prunes removes each chosen file that is still
there, and nothing that is not chosen. -/
theorem Pruned.scan (hWet : env.dryRun = false) (h : Pruned env t dirs choose run)
    (hDir : dir ∈ dirs) :
    Pruned env t dirs choose (forFiles env choose (removeFile env pathMax) run dir) ∧
      (forFiles env choose (removeFile env pathMax) run dir).tree.PartOf run.tree ∧
      ∀ path, ChosenIn env t choose dir path → ∀ data,
        (forFiles env choose (removeFile env pathMax) run dir).tree.stat path ≠
          some (.file data) := by
  have hRounds : ∀ file ∈ (scanDirectory env run.tree pathMax dir).getD [], ∀ current,
      Pruned env t dirs choose current →
      Pruned env t dirs choose
        (if choose file then (removeFile env pathMax file.path current).2 else current) ∧
      (if choose file then (removeFile env pathMax file.path current).2
        else current).tree.PartOf current.tree ∧
      (choose file = true → ∀ data,
        (if choose file then (removeFile env pathMax file.path current).2
          else current).tree.stat file.path ≠ some (.file data)) := by
    intro file hMem current hCurrent
    by_cases hChoose : choose file = true
    · rw [if_pos hChoose]
      have hChosen : Chosen env t dirs choose file.path :=
        ⟨dir, hDir, (mem_listing_chosen hMem hChoose).of_part h.part⟩
      obtain ⟨hAfter, hPart, hGone⟩ := hCurrent.delete hWet hChosen 4095
      exact ⟨hAfter, hPart, fun _ => hGone⟩
    · rw [if_neg hChoose]
      exact ⟨hCurrent, .refl _, fun hChoose' => absurd hChoose' hChoose⟩
  obtain ⟨hEnd, hPart, hDone⟩ := Transition.foldl_done (Pruned env t dirs choose)
    (fun run later => later.tree.PartOf run.tree)
    (fun file run => choose file = true → ∀ data, run.tree.stat file.path ≠ some (.file data))
    (fun run => .refl run.tree) (fun _ _ _ hFirst hSecond => hSecond.trans hFirst)
    (fun _ _ _ hPart hDone hChoose data hStat => hDone hChoose data (hPart.stat hStat)) hRounds h
  refine ⟨hEnd, hPart, ?_⟩
  intro path hChosen data hStat
  obtain ⟨file, hListed, rfl, hChoose⟩ := (hChosen.still h.part (hPart.stat hStat)).listed
  exact hDone file hListed hChoose data hStat

/-- The loop removes chosen entries only, and leaves no chosen path that
gives a file. -/
theorem prune_pruned (hWet : env.dryRun = false) (t : Volume) :
    Pruned env t dirs choose (prune env dirs choose (.start t)) ∧
      ∀ path, Chosen env t dirs choose path → ∀ data,
        (prune env dirs choose (.start t)).tree.stat path ≠ some (.file data) := by
  have hRounds : ∀ dir ∈ dirs, ∀ current, Pruned env t dirs choose current →
      Pruned env t dirs choose (forFilesIn env choose (removeFile env pathMax) current dir) ∧
      (forFilesIn env choose (removeFile env pathMax) current dir).tree.PartOf current.tree ∧
      ∀ path, ChosenIn env t choose dir path → ∀ data,
        (forFilesIn env choose (removeFile env pathMax) current dir).tree.stat path ≠
          some (.file data) := by
    intro dir hDir current hCurrent
    rw [forFilesIn]
    by_cases hExists : directoryExists current.tree dir = true
    · rw [if_pos hExists]
      exact hCurrent.scan hWet hDir
    · rw [if_neg hExists]
      refine ⟨hCurrent, .refl _, ?_⟩
      intro path hChosen data hStat
      obtain ⟨_, _, _, hVisit, _⟩ := hChosen.still hCurrent.part hStat
      exact hExists (decide_eq_true hVisit.root)
  obtain ⟨hEnd, _, hDone⟩ := Transition.foldl_done (Pruned env t dirs choose)
    (fun run later => later.tree.PartOf run.tree)
    (fun dir run => ∀ path, ChosenIn env t choose dir path → ∀ data,
      run.tree.stat path ≠ some (.file data))
    (fun run => .refl run.tree) (fun _ _ _ hFirst hSecond => hSecond.trans hFirst)
    (fun _ _ _ hPart hDone path hChosen data hStat =>
      hDone path hChosen data (hPart.stat hStat)) hRounds (Moves.refl (.start t))
  refine ⟨hEnd, ?_⟩
  rintro path ⟨dir, hDir, hChosen⟩
  exact hDone dir hDir path hChosen

theorem Chosen.not_dir (hChosen : Chosen env t dirs choose path)
    (hLocate : t.locate path = some l) : t.node l ≠ some .dir := by
  obtain ⟨_, _, hIn⟩ := hChosen
  obtain ⟨data, hStat, _⟩ := hIn.stat
  exact (node_of_locate hLocate hStat).2

/-- What stands at a location stands there still, or is gone and was chosen. -/
theorem Pruned.same_or_gone (h : Pruned env t dirs choose run) (l : Location) :
    run.tree.node l = t.node l ∨ (run.tree.node l = none ∧ AtChosen env t dirs choose l) := by
  cases hNode : run.tree.node l with
  | some inode => exact .inl (h.part.node l inode hNode).symm
  | none =>
      by_cases hBefore : t.node l = none
      · exact .inl hBefore.symm
      · exact .inr ⟨rfl, (Removes.gone h hBefore hNode).1⟩

theorem Pruned.keeps_dir (h : Pruned env t dirs choose run) (hDir : t.node l = some .dir) :
    run.tree.node l = some .dir := by
  rcases h.same_or_gone l with hSame | ⟨_, path, hChosen, hLocate⟩
  · exact hSame.trans hDir
  · exact absurd hDir (hChosen.not_dir hLocate)

theorem Pruned.way_of_links (h : Pruned env t dirs choose run) {via : List Location}
    (hWay : t.Way path via l) (hEnd : ∀ target, run.tree.node l ≠ some (.link target))
    (hLinks : ∀ e ∈ via, ∀ target, t.node e = some (.link target) →
      run.tree.node e = some (.link target)) : run.tree.Way path via l where
  nonempty := hWay.nonempty
  short := hWay.short
  links := hWay.links
  goes := by
    have hStart : run.tree.startOf path = t.startOf path := by
      rw [Volume.startOf, Volume.startOf, h.part.cwd]
    rw [hStart]
    exact hWay.goes.transfer (fun _ => h.keeps_dir) hLinks hEnd

/-- A link that is chosen leads to a file, and so is on no way to a
directory. -/
theorem Pruned.way (h : Pruned env t dirs choose run) {via : List Location}
    (hWay : t.Way path via l) (hDir : t.node l = some .dir) : run.tree.Way path via l := by
  refine h.way_of_links hWay (ne_link_of_dir (h.keeps_dir hDir)) ?_
  intro e hMem target hTarget
  rcases h.same_or_gone e with hSame | ⟨_, other, ⟨_, _, hChosen⟩, hLocate⟩
  · exact hSame.trans hTarget
  · obtain ⟨_, name, d, via', m, data, _, _, hName, hPlace, hGoes, hFile⟩ := hChosen.entry
    obtain rfl := Option.some.inj (hPlace.symm.trans hLocate)
    have hNoDir : t.node m ≠ some .dir := by
      rw [hFile]
      exact fun hSame => by cases hSame
    obtain ⟨rfl, _⟩ := hWay.goes.ends_at hName.plain.2.2 hMem hGoes hNoDir
    exact absurd hDir hNoDir

/-- A way to a file stays where nothing on it is chosen. -/
theorem Pruned.way_file (h : Pruned env t dirs choose run) {via : List Location}
    (hWay : t.Way path via l) {data : FileData} (hFile : t.node l = some (.file data))
    (hFree : ∀ e ∈ l :: via, ¬ AtChosen env t dirs choose e) :
    run.tree.node l = some (.file data) ∧ run.tree.Way path via l := by
  have hKept : ∀ e ∈ l :: via, run.tree.node e = t.node e := by
    intro e hMem
    rcases h.same_or_gone e with hSame | ⟨_, hChosen⟩
    · exact hSame
    · exact absurd hChosen (hFree e hMem)
  have hStill := (hKept l List.mem_cons_self).trans hFile
  refine ⟨hStill, h.way_of_links hWay (ne_link_of_file hStill) ?_⟩
  intro e hMem target hTarget
  exact (hKept e (List.mem_cons_of_mem _ hMem)).trans hTarget

/-- The paths of entries end at the same places as before. -/
theorem Pruned.locate (h : Pruned env t dirs choose run) {parent name : Text}
    (hParent : parent ≠ []) (hName : Visible name)
    (hLocate : t.locate (entryPath parent name) = some l) :
    run.tree.locate (entryPath parent name) = some l := by
  obtain ⟨hShort, d, hResolve, hDir, rfl⟩ := (locate_entry hParent hName.plain).mp hLocate
  obtain ⟨via, hWay⟩ := resolve_eq_some.mp hResolve
  have hStill := resolve_eq_some.mpr ⟨via, h.way hWay hDir⟩
  exact (locate_entry hParent hName.plain).mpr ⟨hShort, d, hStill, h.keeps_dir hDir, rfl⟩

/-- A regular file that still stands is still given by the paths that end
with it. -/
theorem Pruned.stat_file (h : Pruned env t dirs choose run)
    (hChosen : Chosen env t dirs choose path) (hLocate : t.locate path = some l)
    {data : FileData} (hNode : run.tree.node l = some (.file data)) :
    run.tree.stat path = some (.file data) := by
  obtain ⟨_, _, hIn⟩ := hChosen
  obtain ⟨parent, name, _, _, _, _, rfl, hParent, hName, _⟩ := hIn.entry
  exact stat_of_entry (h.locate hParent hName hLocate) hNode

/-- Where no chosen path gives a file any more, nothing chosen is on a way
to a file. -/
theorem Pruned.way_unchosen (h : Pruned env t dirs choose run)
    (hDone : ∀ path, Chosen env t dirs choose path → ∀ data,
      run.tree.stat path ≠ some (.file data)) {via : List Location}
    (hWay : run.tree.Way path via l) {data : FileData}
    (hFile : run.tree.node l = some (.file data)) :
    ∀ e ∈ l :: via, ¬ AtChosen env t dirs choose e := by
  rintro e hMem ⟨chosen, hChosen, hLocate⟩
  apply hDone chosen hChosen data
  obtain ⟨_, _, hIn⟩ := hChosen
  obtain ⟨data', hGiven, _⟩ := hIn.stat
  obtain ⟨parent, name, d, _, _, _, rfl, hParent, hName, hPlace, _⟩ := hIn.entry
  obtain rfl := Option.some.inj (hPlace.symm.trans hLocate)
  cases List.mem_cons.mp hMem with
  | inl hSame => exact stat_of_entry (h.locate hParent hName hLocate) (hSame ▸ hFile)
  | inr hLink =>
      have hBefore : t.Way path via l :=
        h.part.keeps.way hWay (ne_link_of_file (h.part.node l _ hFile))
      obtain ⟨_, m, hChosenWay, hEnd, _⟩ := stat_eq_way.mp hGiven
      obtain ⟨hShort, hCount, before, d', after, hParentWay, hEntry, rfl⟩ :=
        (way_entry hParent hName.plain).mp hChosenWay
      obtain ⟨_, _, hResolve, hDir, hSame⟩ := (locate_entry hParent hName.plain).mp hPlace
      obtain rfl := (List.append_inj' hSame rfl).1
      obtain rfl := Option.some.inj (hResolve.symm.trans
        (resolve_eq_some.mpr ⟨before, hParentWay⟩))
      have hNoDir : t.node m ≠ some .dir := by
        rw [hEnd]
        exact fun hSame => by cases hSame
      obtain ⟨rfl, hLinks⟩ := hBefore.goes.ends_at hName.plain.2.2 hLink hEntry hNoDir
      -- the links behind the entry are on the way that is left
      have hLast : Goes run.tree d [name] after l := by
        refine hEntry.transfer (fun _ => h.keeps_dir) ?_ (ne_link_of_file hFile)
        intro e' hMem' target hTarget
        obtain ⟨target', hTarget'⟩ := hWay.goes.link_of_mem (hLinks e' hMem')
        exact hTarget'.trans ((h.part.node e' _ hTarget').symm.trans hTarget)
      refine stat_eq_way.mpr ⟨before ++ after, l, ?_, hFile, rfl⟩
      exact (way_entry hParent hName.plain).mpr
        ⟨hShort, hCount, before, d, after, h.way hParentWay hDir, hLast, rfl⟩

/-- A regular file is removed exactly where a chosen path ends with it. -/
theorem file_pruned_iff (hWet : env.dryRun = false) (hFile : RegularFile t l) :
    (prune env dirs choose (.start t)).tree.node l = none ↔ AtChosen env t dirs choose l := by
  obtain ⟨hPruned, hDone⟩ := prune_pruned hWet t
  obtain ⟨data, hNode⟩ := hFile
  constructor
  · intro hGone
    have hBefore : t.node l ≠ none := by simp [hNode]
    exact (Removes.gone hPruned hBefore hGone).1
  · rintro ⟨path, hChosen, hLocate⟩
    rcases hPruned.same_or_gone l with hSame | ⟨hGone, _⟩
    · have hStill := hSame.trans hNode
      exact absurd (hPruned.stat_file hChosen hLocate hStill) (hDone path hChosen data)
    · exact hGone

end Pruned

end SystemOptimizer
