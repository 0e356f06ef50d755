import Gtexswifi.SystemOptimizer.Carried
import Gtexswifi.SystemOptimizer.Confinement
import Gtexswifi.SystemOptimizer.Visits

/-! Recursive deletion: which entries `removeFile` removes besides those at
or under the path that it is given. -/
namespace SystemOptimizer

open FileTree

/-- The place of a path in the tree: that of the entry which its last name
names, or where it leads when its last name names none. -/
def place (t : Volume) (path : Text) : Option Location :=
  match (components path).getLast? with
  | none => t.resolve path
  | some name => if name = ['.', '.'] then t.resolve path else t.locate path

/-- At or under a place, over directories and no links. -/
def AtOrUnder (t : Volume) (base l : Location) : Prop :=
  base <+: l ∧ ∀ above, base <+: above → above <+: l → above ≠ l → t.node above = some .dir

/-- Only entries at or under the path are removed, in whatever order
directories list theirs. -/
def DeletesBelow (env : Env) (fs : FileSystem) (path : Text) : Prop :=
  ∀ other : FileSystem, SameFiles fs.volume other.volume →
    ∀ e ∈ (removeFile env pathMax path (.start other.volume)).2.effects,
      ∃ base l, place fs.volume path = some base ∧ e = .remove l ∧ AtOrUnder fs.volume base l

/-- A path leads to a file or, at its own place, to an empty directory. -/
def Deletable (t : Volume) (path : Text) (l : Location) : Prop :=
  t.locate path = some l ∧
    ((∃ data, t.stat path = some (.file data)) ∨ (t.node l = some .dir ∧ t.names l = []))

/-- A path that the recursion may come to has its place neither at nor under
the path that it starts from, and can be removed there. -/
def Strays (t : Volume) (path : Text) : Prop :=
  ∃ base below l, place t path = some base ∧ Listed t path below ∧ Deletable t below l ∧
    ¬ base <+: l

section Places

variable {t s : Volume} {path : Text} {base : Location}

/-- A path that resolves has a place, where the last link is not followed. -/
theorem place_of_resolve {d : Location} (h : t.resolve path = some d) :
    ∃ base, place t path = some base ∧ (t.node d ≠ none → t.node base ≠ none) := by
  obtain ⟨via, hWay⟩ := resolve_eq_some.mp h
  rw [place]
  cases hLast : (components path).getLast? with
  | none => exact ⟨d, h, id⟩
  | some name =>
      dsimp only
      by_cases hUp : name = ['.', '.']
      · rw [if_pos hUp]
        exact ⟨d, h, id⟩
      · rw [if_neg hUp]
        obtain ⟨parent, after, hLocate, _, hAfter⟩ := locate_of_way hWay hLast hUp
        refine ⟨_, hLocate, ?_⟩
        obtain ⟨_, ⟨_, rfl, _⟩ | ⟨target, _, hTarget, _⟩⟩ := (goes_single hUp).mp hAfter
        · exact id
        · rw [hTarget]
          exact fun _ => Option.some_ne_none _

theorem place_of_keeps (hKeeps : s.Keeps t) (hDir : s.stat path = some .dir)
    (h : place s path = some base) : place t path = some base := by
  obtain ⟨d, hResolve, hNode, _⟩ := stat_eq_some.mp hDir
  have hKept := hKeeps.resolve (ne_link_of_dir (hKeeps.dir d hNode)) hResolve
  rw [place] at h ⊢
  cases hLast : (components path).getLast? with
  | none =>
      rw [hLast] at h
      obtain rfl := Option.some.inj (hResolve.symm.trans h)
      exact hKept
  | some name =>
      rw [hLast] at h
      dsimp only at h ⊢
      split at h
      · next hUp =>
        rw [if_pos hUp]
        obtain rfl := Option.some.inj (hResolve.symm.trans h)
        exact hKept
      · next hUp =>
        rw [if_neg hUp]
        exact hKeeps.locate h

theorem place_of_locate {l : Location} (h : t.locate path = some l) : place t path = some l := by
  obtain ⟨name, hLast, hUp⟩ := last_of_locate h
  rw [place, hLast]
  dsimp only
  rw [if_neg hUp]
  exact h

theorem Opened.ne_nil {parent : Text} (h : Opened t path parent) : parent ≠ [] := by
  cases h with
  | root hStat => exact ne_nil_of_stat hStat
  | sub _ _ _ => exact entryPath_ne_nil _ _

/-- A path under another leads through it, in every tree where it leads to a
directory. -/
theorem Opened.stat_back {parent : Text} (hOpened : Opened t path parent)
    (h : s.stat parent = some .dir) : s.stat path = some .dir := by
  induction hOpened with
  | root _ => exact h
  | sub hParent hName _ ih => exact ih (stat_dir_of_entry hParent.ne_nil hName h)

end Places

section Removing

variable {env : Env} {t s : Volume} {base l : Location} {run run' : Run} {path : Text}
  {lost : Location → Prop}

/-- The run goes on by removing entries that may be lost. -/
def Removes (lost : Location → Prop) : Run → Run → Prop := Moves (fun _ => False) lost

theorem Removes.part (h : Removes lost run run') : run'.tree.PartOf run.tree := by
  obtain ⟨effects, hTree, _, hWithin⟩ := h
  rw [hTree]
  exact part_after hWithin

/-- What is gone has been removed, and its removal is in the log. -/
theorem Removes.gone (h : Removes lost run run') (hBefore : run.tree.node l ≠ none)
    (hGone : run'.tree.node l = none) : lost l ∧ .remove l ∈ run'.effects := by
  obtain ⟨effects, hTree, hLog, hWithin⟩ := h
  rw [hTree] at hGone
  have hMem := remove_of_gone hWithin hBefore hGone
  rw [hLog]
  exact ⟨hWithin _ hMem, List.mem_append_right _ hMem⟩

/-- As long as something is found below the path, the place of the path
still stands. -/
theorem base_stands (hPart : s.PartOf t) (hBase : place t path = some base)
    {below : Text} (hListed : Listed t path below) (hLocate : s.locate below = some l) :
    s.node base ≠ none := by
  obtain ⟨parent, name, hOpened, hName, rfl⟩ := hListed
  obtain ⟨_, d, hResolve, hDir, rfl⟩ := (locate_entry hOpened.ne_nil hName.plain).mp hLocate
  have hRoot : s.stat path = some .dir :=
    hOpened.stat_back (stat_eq_some.mpr ⟨d, hResolve, hDir, rfl⟩)
  obtain ⟨top, hTop, hTopDir, _⟩ := stat_eq_some.mp hRoot
  obtain ⟨base', hBase', hStands⟩ := place_of_resolve hTop
  obtain rfl := Option.some.inj (hBase.symm.trans (place_of_keeps hPart.keeps hRoot hBase'))
  apply hStands
  simp [hTopDir]

/-- A directory that the recursion has emptied lies at or under the place:
what stood in it did, and was not the place itself. -/
theorem under_of_emptied (hPart : s.PartOf t)
    (hGone : ∀ l, t.node l ≠ none → s.node l = none → base <+: l)
    (hBase : place t path = some base) (hStays : ¬ Strays t path) {below : Text}
    (hListed : Listed t path below) (hLocate : s.locate below = some l)
    (hDir : s.node l = some .dir) (hEmpty : s.names l = []) : base <+: l := by
  by_contra hOutside
  cases hNames : t.names l with
  | nil =>
      exact hStays ⟨base, below, l, hBase, hListed,
        ⟨hPart.keeps.locate hLocate, .inr ⟨hPart.node l _ hDir, hNames⟩⟩, hOutside⟩
  | cons name rest =>
      have hName : name ∈ t.names l := by
        rw [hNames]
        exact List.mem_cons_self
      obtain ⟨hProper, hBefore⟩ := mem_names.mp hName
      have hEntry : s.node (l ++ [name]) = none := by
        by_contra hThere
        have hStill : name ∈ s.names l := mem_names.mpr ⟨hProper, hThere⟩
        rw [hEmpty] at hStill
        cases hStill
      cases List.prefix_concat_iff.mp (hGone _ hBefore hEntry) with
      | inl hSame =>
          rw [← hSame] at hEntry
          exact base_stands hPart hBase hListed hLocate hEntry
      | inr hIn => exact hOutside hIn

/-- What stands in the tree, at or under a place. -/
def InUnder (t : Volume) (base l : Location) : Prop := base <+: l ∧ t.node l ≠ none

/-- A deletion of anything listed below a path that does not stray removes
under the place of the path only. By induction on the depth. -/
theorem removeFile_removes (hSame : SameFiles t s) (hBase : place t path = some base)
    (hStays : ¬ Strays t path) (depth : Nat) {below : Text}
    (hBelow : below = path ∨ Listed t path below)
    (hRun : Removes (InUnder t base) (.start s) run) :
    Removes (InUnder t base) run (removeFile env depth below run).2 := by
  induction depth generalizing below run with
  | zero => exact Moves.refl run
  | succ depth ih =>
      have hParts : ∀ {run : Run}, Removes (InUnder t base) (.start s) run →
          run.tree.PartOf t := fun h => h.part.trans hSame.part
      have hStood : ∀ {run : Run} {l : Location}, Removes (InUnder t base) (.start s) run →
          run.tree.node l ≠ none → t.node l ≠ none := by
        intro run l h hNode
        obtain ⟨inode, hInode⟩ := Option.ne_none_iff_exists'.mp hNode
        simp [(hParts h).node l inode hInode]
      have hOwn : ∀ {run : Run} {l : Location}, Removes (InUnder t base) (.start s) run →
          run.tree.locate path = some l → base <+: l := by
        intro run l h hLocate
        have hPlace := place_of_locate ((hParts h).keeps.locate hLocate)
        exact Option.some.inj (hBase.symm.trans hPlace) ▸ List.prefix_refl _
      rw [removeFile]
      split
      · exact Moves.refl run
      · split
        · next hDir =>
          split
          · exact Moves.refl run
          · next names hOpen =>
            have hOpened : Opened t path below := by
              have hStat := (hParts hRun).stat hDir
              rcases hBelow with rfl | ⟨parent, name, hParent, hName, rfl⟩
              · exact .root hStat
              · exact .sub hParent hName hStat
            have hLoop : Removes (InUnder t base) run (names.foldl (fun run name =>
                if hidden name then run
                else (removeFile env depth (entryPath below name) run).2) run) := by
              refine Moves.foldl ?_ hRun
              intro name hMem later hLater
              split
              · exact Moves.refl later
              · next hHidden =>
                have hName := visible_of_opendir hOpen hMem hHidden
                exact ih (.inr ⟨below, name, hOpened, hName, rfl⟩) hLater
            have hEmptied := hRun.trans hLoop
            refine Moves.trans hLoop (Moves.rmdir ?_)
            intro l hLocate hNode hNames
            refine ⟨?_, hStood hEmptied (by simp [hNode])⟩
            rcases hBelow with rfl | hListed
            · exact hOwn hEmptied hLocate
            · refine under_of_emptied (hParts hEmptied) ?_ hBase hStays hListed hLocate hNode hNames
              intro l hBefore hGone
              rw [← hSame.node l] at hBefore
              exact (Removes.gone hEmptied hBefore hGone).1.1
        · next data hFile =>
          have hUnlinked : Removes (InUnder t base) run (run.unlink below).2 := by
            apply Moves.unlink
            intro l hLocate hNode
            refine ⟨?_, hStood hRun hNode⟩
            rcases hBelow with rfl | hListed
            · exact hOwn hRun hLocate
            · by_contra hOutside
              exact hStays ⟨base, below, l, hBase, hListed,
                ⟨(hParts hRun).keeps.locate hLocate, .inl ⟨data, (hParts hRun).stat hFile⟩⟩,
                hOutside⟩
          dsimp only
          split
          · exact hUnlinked
          · exact hUnlinked
        · exact Moves.refl run

theorem removeFile_nothing (depth : Nat) (h : run.tree.stat path = none) :
    (removeFile env depth path run).2 = run := by
  cases depth with
  | zero => rfl
  | succ depth =>
      rw [removeFile]
      split
      · rfl
      · rw [h]

/-- Where no path strays, the deletion stays at and under its path. -/
theorem deletesBelow_of_stays {fs : FileSystem} (hStays : ¬ Strays fs.volume path) :
    DeletesBelow env fs path := by
  intro other hSame e hMem
  cases hBase : place fs.volume path with
  | some base =>
      have hRemoves : Removes (InUnder fs.volume base) (.start other.volume)
          (removeFile env pathMax path (.start other.volume)).2 :=
        removeFile_removes hSame hBase hStays pathMax (.inl rfl) (Moves.refl _)
      obtain ⟨effects, _, hLog, hWithin⟩ := hRemoves
      rw [hLog] at hMem
      have hRemoved := hWithin e hMem
      cases e with
      | remove l =>
          refine ⟨base, l, rfl, rfl, hRemoved.1, ?_⟩
          intro above _ hAbove hNe
          exact fs.dir_above hRemoved.2 hAbove hNe
      | write _ _ => exact hRemoved.elim
      | mkdir _ => exact hRemoved.elim
  | none =>
      have hNothing : other.volume.stat path = none := by
        by_contra hSome
        obtain ⟨inode, hStat⟩ := Option.ne_none_iff_exists'.mp hSome
        obtain ⟨l, hResolve, hNode, hLink⟩ := stat_eq_some.mp hStat
        have hEnd : ∀ target, fs.volume.node l ≠ some (.link target) := by
          intro target hTarget
          obtain rfl := Option.some.inj (hNode.symm.trans ((hSame.node l).trans hTarget))
          cases hLink
        obtain ⟨base, hSome, _⟩ := place_of_resolve (hSame.symm.keeps.resolve hEnd hResolve)
        cases hBase.symm.trans hSome
      rw [removeFile_nothing pathMax hNothing] at hMem
      cases hMem

end Removing

section Shortcuts

variable {t : Volume} {path : Text} {first around rest : List Text} {d l : Location}

/-- A way that comes to a directory twice can leave out the names between. -/
theorem resolve_shortcut (hPath : path ≠ [])
    (hNames : ∀ name ∈ first ++ around ++ rest, Visible name)
    (hFirst : t.resolve (pathFrom path first) = some d)
    (hAgain : t.resolve (pathFrom path (first ++ around)) = some d)
    (h : t.resolve (pathFrom path (first ++ around ++ rest)) = some l) :
    t.resolve (pathFrom path (first ++ rest)) = some l := by
  have hFirstNames : ∀ name ∈ first, Visible name := fun name hMem =>
    hNames name (List.mem_append_left _ (List.mem_append_left _ hMem))
  have hAgainNames : ∀ name ∈ first ++ around, Visible name := fun name hMem =>
    hNames name (List.mem_append_left _ hMem)
  have hRestNames : ∀ name ∈ first ++ rest, Visible name := by
    intro name hMem
    cases List.mem_append.mp hMem with
    | inl hIn => exact hFirstNames name hIn
    | inr hIn => exact hNames name (List.mem_append_right _ hIn)
  obtain ⟨via₁, hWay₁⟩ := resolve_eq_some.mp hFirst
  obtain ⟨via₂, hWay₂⟩ := resolve_eq_some.mp hAgain
  obtain ⟨via, hWay⟩ := resolve_eq_some.mp h
  have hGoes₁ := hWay₁.goes
  have hGoes₂ := hWay₂.goes
  have hGoes := hWay.goes
  rw [startOf_pathFrom hPath, components_pathFrom hFirstNames] at hGoes₁
  rw [startOf_pathFrom hPath, components_pathFrom hAgainNames, ← List.append_assoc] at hGoes₂
  rw [startOf_pathFrom hPath, components_pathFrom hNames, ← List.append_assoc,
    ← List.append_assoc] at hGoes
  obtain ⟨before₂, middle₂, after₂, hBefore₂, _, rfl⟩ := hGoes₂.split
  obtain ⟨rfl, rfl⟩ := hBefore₂.eq hGoes₁
  obtain ⟨before, middle, after, hBefore, hAfter, rfl⟩ := hGoes.split
  obtain ⟨rfl, rfl⟩ := hBefore.eq hGoes₂
  refine resolve_eq_some.mpr ⟨before₂ ++ after, pathFrom_ne_nil hPath _, ?_, ?_, ?_⟩
  · have hShort := hWay.short
    simp only [pathFrom_length, List.map_append, List.sum_append] at hShort ⊢
    omega
  · have hLinks := hWay.links
    simp only [List.length_append] at hLinks ⊢
    omega
  · rw [startOf_pathFrom hPath, components_pathFrom hRestNames, ← List.append_assoc]
    exact hGoes₁.append hAfter

/-- The last name of a path is located in the directory that the others
resolve to. -/
theorem locate_concat {name : Text} {names : List Text} (hPath : path ≠ [])
    (hName : Visible name) : t.locate (pathFrom path (names ++ [name])) = some l ↔
      (pathFrom path (names ++ [name])).length < pathMax ∧
        ∃ d, t.resolve (pathFrom path names) = some d ∧ t.node d = some .dir ∧
          l = d ++ [name] := by
  rw [pathFrom_concat]
  exact locate_entry (pathFrom_ne_nil hPath names) hName.plain

/-- A part of the way that comes back to where it started can be left out. -/
theorem locate_shortcut (hPath : path ≠ []) (hRest : rest ≠ [])
    (hNames : ∀ name ∈ first ++ around ++ rest, Visible name)
    (hFirst : t.resolve (pathFrom path first) = some d)
    (hAgain : t.resolve (pathFrom path (first ++ around)) = some d)
    (h : t.locate (pathFrom path (first ++ around ++ rest)) = some l) :
    t.locate (pathFrom path (first ++ rest)) = some l := by
  obtain ⟨init, name, rfl⟩ := List.eq_nil_or_concat' rest |>.resolve_left hRest
  have hName := hNames name (List.mem_append_right _ (List.mem_append_right _
    List.mem_cons_self))
  rw [← List.append_assoc, locate_concat hPath hName] at h
  obtain ⟨hShort, parent, hResolve, hDir, rfl⟩ := h
  rw [← List.append_assoc, locate_concat hPath hName]
  refine ⟨?_, parent, ?_, hDir, rfl⟩
  · simp only [pathFrom_length, List.map_append, List.sum_append] at hShort ⊢
    omega
  · apply resolve_shortcut hPath _ hFirst hAgain hResolve
    intro other hMem
    apply hNames
    rw [← List.append_assoc]
    exact List.mem_append_left _ hMem

/-- Whether something can be deleted does not depend on the order of the
entries. -/
theorem Deletable.same {s : Volume} {path : Text} {l : Location} (h : Deletable t path l)
    (hSame : SameFiles t s) : Deletable s path l := by
  refine ⟨hSame.keeps.locate h.1, ?_⟩
  cases h.2 with
  | inl hFile =>
      obtain ⟨data, hStat⟩ := hFile
      obtain ⟨m, hResolve, hNode, hLink⟩ := stat_eq_some.mp hStat
      have hOther : s.node m = some (.file data) := (hSame.node m).trans hNode
      exact .inl ⟨data, stat_eq_some.mpr
        ⟨m, hSame.keeps.resolve (ne_link_of_file hOther) hResolve, hOther, hLink⟩⟩
  | inr hEmpty =>
      refine .inr ⟨(hSame.node l).trans hEmpty.1, ?_⟩
      apply List.eq_nil_iff_forall_not_mem.mpr
      intro name hName
      obtain ⟨hProper, hNode⟩ := mem_names.mp hName
      have hStill : name ∈ t.names l := mem_names.mpr ⟨hProper, hSame.node _ ▸ hNode⟩
      rw [hEmpty.2] at hStill
      cases hStill

/-- What can be deleted by a way with a loop can be deleted without it. -/
theorem Deletable.shortcut (hPath : path ≠ []) (hRest : rest ≠ [])
    (hNames : ∀ name ∈ first ++ around ++ rest, Visible name)
    (hFirst : t.resolve (pathFrom path first) = some d)
    (hAgain : t.resolve (pathFrom path (first ++ around)) = some d)
    (h : Deletable t (pathFrom path (first ++ around ++ rest)) l) :
    Deletable t (pathFrom path (first ++ rest)) l := by
  refine ⟨locate_shortcut hPath hRest hNames hFirst hAgain h.1, ?_⟩
  cases h.2 with
  | inr hEmpty => exact .inr hEmpty
  | inl hFile =>
      obtain ⟨data, hStat⟩ := hFile
      obtain ⟨m, hResolve, hNode, hLink⟩ := stat_eq_some.mp hStat
      exact .inl ⟨data, stat_eq_some.mpr
        ⟨m, resolve_shortcut hPath hNames hFirst hAgain hResolve, hNode, hLink⟩⟩

end Shortcuts

/-- Names that lead from the path to an entry outside its place that can be
removed. -/
structure Stray (t : Volume) (path : Text) (base : Location) (names : List Text)
    (l : Location) : Prop where
  below : names ≠ []
  visible : ∀ name ∈ names, Visible name
  deletable : Deletable t (pathFrom path names) l
  outside : ¬ base <+: l

/-- The places of the entries that a path goes over. -/
def OnWay (t : Volume) (path : Text) (names : List Text) (l : Location) : Prop :=
  ∃ first name rest d, names = first ++ name :: rest ∧
    t.resolve (pathFrom path first) = some d ∧ l = d ++ [name]

section Strays

variable {t : Volume} {path : Text} {base l : Location} {names : List Text}

/-- What is opened below a path is the path with visible names behind it. -/
theorem Opened.exists_names {parent : Text} (h : Opened t path parent) :
    ∃ names, (∀ name ∈ names, Visible name) ∧ parent = pathFrom path names := by
  induction h with
  | root _ => exact ⟨[], List.forall_mem_nil _, rfl⟩
  | @sub parent name _ hName _ ih =>
      obtain ⟨names, hNames, rfl⟩ := ih
      refine ⟨names ++ [name], ?_, (pathFrom_concat path name names).symm⟩
      exact List.forall_mem_append.mpr ⟨hNames, List.forall_mem_singleton.mpr hName⟩

/-- A path that strays has visible names that lead to a place outside, where
something can be removed. -/
theorem Strays.stray (h : Strays t path) :
    path ≠ [] ∧ ∃ base names l, place t path = some base ∧ Stray t path base names l := by
  obtain ⟨base, below, l, hBase, ⟨parent, name, hOpened, hName, rfl⟩, hDeletable, hOutside⟩ := h
  refine ⟨ne_nil_of_stat hOpened.stat_root, ?_⟩
  obtain ⟨names, hNames, rfl⟩ := hOpened.exists_names
  rw [← pathFrom_concat] at hDeletable
  refine ⟨base, names ++ [name], l, hBase, ?_, ?_, hDeletable, hOutside⟩
  · exact List.append_ne_nil_of_right_ne_nil _ (List.cons_ne_nil _ _)
  · exact List.forall_mem_append.mpr ⟨hNames, List.forall_mem_singleton.mpr hName⟩

/-- Every path on the way to a place gives a directory that lists the next
name. -/
theorem Stray.station (hPath : path ≠ []) (h : Stray t path base names l) {first rest : List Text}
    {name : Text} (hSplit : names = first ++ name :: rest) :
    ∃ d, t.resolve (pathFrom path first) = some d ∧ t.node d = some .dir ∧ name ∈ t.names d := by
  subst hSplit
  have hFirst := pathFrom_ne_nil hPath first
  have hName := h.visible name (List.mem_append_right _ List.mem_cons_self)
  have hRest : ∀ other ∈ rest, Visible other := fun other hMem =>
    h.visible other (List.mem_append_right _ (List.mem_cons_of_mem _ hMem))
  obtain rfl | ⟨init, last, rfl⟩ := List.eq_nil_or_concat' rest
  · obtain ⟨_, d, hResolve, hDir, rfl⟩ := (locate_concat hPath hName).mp h.deletable.1
    refine ⟨d, hResolve, hDir, mem_names.mpr ⟨hName.1, ?_⟩⟩
    cases h.deletable.2 with
    | inl hFile => exact (node_of_locate h.deletable.1 hFile.choose_spec).1
    | inr hEmpty =>
        simp [hEmpty.1]
  · have hLast := hRest last (List.mem_append_right _ List.mem_cons_self)
    have hLocate := h.deletable.1
    rw [← List.cons_append, ← List.append_assoc, locate_concat hPath hLast] at hLocate
    obtain ⟨_, parent, hResolve, hDir, _⟩ := hLocate
    have hParent : t.stat (pathFrom path (first ++ name :: init)) = some .dir :=
      stat_eq_some.mpr ⟨parent, hResolve, hDir, rfl⟩
    have hNext : t.stat (entryPath (pathFrom path first) name) = some .dir := by
      rw [pathFrom_append, pathFrom_cons] at hParent
      cases init with
      | nil => exact hParent
      | cons next init =>
          apply stat_dir_of_below (entryPath_ne_nil _ _) (List.cons_ne_nil _ _) _ hParent
          exact fun other hMem => hRest other (List.mem_append_left _ hMem)
    obtain ⟨d, hResolve', hDir', _⟩ := stat_eq_some.mp (stat_dir_of_entry hFirst hName hNext)
    exact ⟨d, hResolve', hDir', mem_names_of_stat hFirst hName hResolve' hNext⟩

theorem Stray.length_lt (hPath : path ≠ []) (h : Stray t path base names l) :
    names.length < pathMax := by
  obtain ⟨init, name, rfl⟩ := List.eq_nil_or_concat' names |>.resolve_left h.below
  have hName := h.visible name (List.mem_append_right _ List.mem_cons_self)
  have hShort := ((locate_concat hPath hName).mp h.deletable.1).1
  have hLength := length_pathFrom path (init ++ [name])
  omega

/-- An entry is on the way if its directory is come by and its name is the
next one. -/
theorem onWay_entry {d : Location} {name : Text} : OnWay t path names (d ++ [name]) ↔
    ∃ first rest, names = first ++ name :: rest ∧ t.resolve (pathFrom path first) = some d := by
  constructor
  · rintro ⟨first, other, rest, d', hSplit, hFirst, hSame⟩
    obtain ⟨rfl, hName⟩ := List.append_inj' hSame rfl
    obtain rfl := List.singleton_inj.mp hName
    exact ⟨first, rest, hSplit, hFirst⟩
  · rintro ⟨first, rest, hSplit, hFirst⟩
    exact ⟨first, name, rest, d, hSplit, hFirst, rfl⟩

/-- The entries on a shortest way stand in different directories. -/
theorem Stray.onWay_unique (hPath : path ≠ []) (h : Stray t path base names l)
    (hShortest : ∀ names' l', Stray t path base names' l' → names.length ≤ names'.length)
    {d : Location} {name name' : Text} (hName : OnWay t path names (d ++ [name]))
    (hName' : OnWay t path names (d ++ [name'])) : name = name' := by
  -- of two stations in one directory, the way to the later one can be cut
  have hCut : ∀ first around rest, around ≠ [] → rest ≠ [] → names = first ++ around ++ rest →
      t.resolve (pathFrom path first) = some d →
      t.resolve (pathFrom path (first ++ around)) ≠ some d := by
    intro first around rest hAround hRest hSplit hFirst hAgain
    have hVisible := hSplit ▸ h.visible
    have hShort : Stray t path base (first ++ rest) l := {
      below := List.append_ne_nil_of_right_ne_nil _ hRest
      visible := by
        intro other hMem
        apply hVisible
        cases List.mem_append.mp hMem with
        | inl hIn => exact List.mem_append_left _ (List.mem_append_left _ hIn)
        | inr hIn => exact List.mem_append_right _ hIn
      deletable := (hSplit ▸ h.deletable).shortcut hPath hRest hVisible hFirst hAgain
      outside := h.outside }
    have hLength := hShortest _ l hShort
    have hSome := List.length_pos_of_ne_nil hAround
    rw [hSplit] at hLength
    simp only [List.length_append] at hLength
    omega
  obtain ⟨first, rest, hSplit, hFirst⟩ := onWay_entry.mp hName
  obtain ⟨first', rest', hSplit', hFirst'⟩ := onWay_entry.mp hName'
  have hBoth := hSplit.symm.trans hSplit'
  rcases List.append_eq_append_iff.mp hBoth with ⟨around, rfl, hTail⟩ | ⟨around, rfl, hTail⟩
  · cases around with
    | nil => exact (List.cons.inj hTail).1
    | cons other around =>
        exact absurd hFirst'
          (hCut first _ _ (List.cons_ne_nil _ _) (List.cons_ne_nil _ _) hSplit' hFirst)
  · cases around with
    | nil => exact (List.cons.inj hTail).1.symm
    | cons other around =>
        exact absurd hFirst
          (hCut first' _ _ (List.cons_ne_nil _ _) (List.cons_ne_nil _ _) hSplit hFirst')

end Strays

section Reaching

variable {env : Env} {t : Volume} {path : Text} {l : Location} {run : Run}

/-- What can be removed at the place of a path, the deletion of the path
removes. -/
theorem removeFile_deletable (hWet : env.dryRun = false) {depth : Nat}
    (h : Deletable run.tree path l) :
    .remove l ∈ (removeFile env (depth + 1) path run).2.effects := by
  have hMem : Effect.remove l ∈ (run.perform [.remove l]).effects :=
    List.mem_append_right _ List.mem_cons_self
  rw [removeFile, hWet, if_neg Bool.false_ne_true]
  cases h.2 with
  | inl hFile =>
      obtain ⟨data, hStat⟩ := hFile
      have hNode := node_of_locate h.1 hStat
      have hUnlink : run.unlink path = (true, run.perform [.remove l]) := by
        rw [Run.unlink, h.1]
        dsimp only
        rw [if_neg (not_or.mpr hNode)]
      rw [hStat]
      dsimp only
      rw [hUnlink, if_pos rfl]
      exact hMem
  | inr hEmpty =>
      have hResolve := resolve_of_dir h.1 hEmpty.1
      have hStat : run.tree.stat path = some .dir :=
        stat_eq_some.mpr ⟨l, hResolve, hEmpty.1, rfl⟩
      have hRmdir : run.rmdir path = (true, run.perform [.remove l]) := by
        rw [Run.rmdir, h.1]
        dsimp only
        rw [if_pos hEmpty]
      rw [hStat, opendir_eq_some.mpr ⟨l, hResolve, hEmpty.1, rfl⟩, hEmpty.2]
      dsimp only [List.foldl_nil]
      rw [hRmdir]
      exact hMem

/-- A deletion goes straight along names that their directories list first. -/
theorem removeFile_reaches (run : Run) (hWet : env.dryRun = false) {names : List Text} {depth : Nat}
    (hDepth : names.length < depth) (hNames : ∀ name ∈ names, Visible name)
    (hFirst : ∀ first name rest, names = first ++ name :: rest →
      ∃ later, run.tree.opendir (pathFrom path first) = some (name :: later))
    (h : Deletable run.tree (pathFrom path names) l) :
    .remove l ∈ (removeFile env depth path run).2.effects := by
  induction names generalizing path depth with
  | nil =>
      cases depth with
      | zero => cases hDepth
      | succ depth => exact removeFile_deletable hWet h
  | cons name names ih =>
      cases depth with
      | zero => cases hDepth
      | succ depth =>
          have hName := hNames name List.mem_cons_self
          have hBelow : .remove l ∈ (removeFile env depth (entryPath path name) run).2.effects := by
            apply ih (Nat.lt_of_succ_lt_succ hDepth)
              (fun other hMem => hNames other (List.mem_cons_of_mem _ hMem)) _ h
            intro first next rest hSplit
            exact hFirst (name :: first) next rest (by rw [hSplit, List.cons_append])
          obtain ⟨later, hOpen⟩ := hFirst [] name names rfl
          rw [pathFrom_nil] at hOpen
          rw [removeFile, hWet, if_neg Bool.false_ne_true, stat_of_opendir hOpen, hOpen]
          dsimp only
          have hLater := effects_carried env
          apply (hLater.rmdir path _).subset
          rw [List.foldl_cons, hName.2, if_neg Bool.false_ne_true]
          refine (hLater.foldl ?_ _).subset hBelow
          intro other _ run
          split
          · exact hLater.refl run
          · exact hLater.removeFile depth _ run

/-- A path that strays lets the deletion remove something outside, in some
order of listing. -/
theorem not_deletesBelow {fs : FileSystem} (hWet : env.dryRun = false)
    (h : Strays fs.volume path) : ¬ DeletesBelow env fs path := by
  obtain ⟨hPath, base, hBase, hSome⟩ : path ≠ [] ∧ ∃ base, place fs.volume path = some base ∧
      ∃ length names l, names.length = length ∧ Stray fs.volume path base names l := by
    obtain ⟨hPath, base, names, l, hBase, hStray⟩ := h.stray
    exact ⟨hPath, base, hBase, _, names, l, rfl, hStray⟩
  classical
  obtain ⟨names, l, hLength, hStray⟩ := Nat.find_spec hSome
  have hShortest : ∀ names' l', Stray fs.volume path base names' l' →
      names.length ≤ names'.length := by
    intro names' l' hOther
    rw [hLength]
    exact Nat.find_min' hSome ⟨names', l', rfl, hOther⟩
  intro hBelow
  let other := fs.first (OnWay fs.volume path names)
  have hSame : SameFiles fs.volume other.volume := fs.first_same _
  have hFirst : ∀ first name rest, names = first ++ name :: rest →
      ∃ later, other.volume.opendir (pathFrom path first) = some (name :: later) := by
    intro first name rest hSplit
    obtain ⟨d, hResolve, hDir, hListed⟩ := hStray.station hPath hSplit
    have hPlace : OnWay fs.volume path names (d ++ [name]) :=
      onWay_entry.mpr ⟨first, rest, hSplit, hResolve⟩
    obtain ⟨later, hNames⟩ := fs.names_first (mem_names.mp hListed).1 hPlace
      (mem_names.mp hListed).2
      fun next hNext => hStray.onWay_unique hPath hShortest hNext hPlace
    have hOtherDir : other.volume.node d = some .dir := (hSame.node d).trans hDir
    exact ⟨later, opendir_eq_some.mpr ⟨d,
      hSame.keeps.resolve (ne_link_of_dir hOtherDir) hResolve, hOtherDir, hNames.symm⟩⟩
  have hDeletable : Deletable other.volume (pathFrom path names) l :=
    hStray.deletable.same hSame
  obtain ⟨base', l', hBase', hRemove, hIn, _⟩ := hBelow other hSame _
    (removeFile_reaches (.start other.volume) hWet (hStray.length_lt hPath) hStray.visible
      hFirst hDeletable)
  obtain rfl := Option.some.inj (hBase.symm.trans hBase')
  obtain rfl := Effect.remove.inj hRemove
  exact hStray.outside hIn

/-- A deletion stays at and under its path exactly where no path of visible
names below it, with links to directories followed, ends at a place outside
at a file, at a link to one, or at an empty directory. -/
theorem deletesBelow_iff (env : Env) (hWet : env.dryRun = false) (fs : FileSystem)
    (path : Text) : DeletesBelow env fs path ↔ ¬ Strays fs.volume path := by
  constructor
  · intro hBelow hStrays
    exact not_deletesBelow hWet hStrays hBelow
  · exact deletesBelow_of_stays

end Reaching

/-- A system where the directory of a removable application has a link to
another directory. -/
def linkedSystem : FileSystem where
  volume := {
    entries :=
      [(["system".toList], .dir),
        (["system".toList, "framework".toList], .dir),
        (["system".toList, "framework".toList, "core.jar".toList],
          .file { content := [80, 75, 3, 4], modified := 0, executable := false }),
        (["system".toList, "app".toList], .dir),
        (["system".toList, "app".toList, "Email".toList], .dir),
        (["system".toList, "app".toList, "Email".toList, "lib".toList],
          .link "../../framework".toList)]
    cwd := [] }
  distinct := by decide
  standing := by decide
  named := by decide

def emailPath : Text := entryPath appPath "Email".toList

/-- Of the application nothing is removed but what the link leads to. -/
theorem linkedSystem_removed :
    (removeFile toybox pathMax emailPath (.start linkedSystem.volume)).2.effects.map
      Effect.target = [["system".toList, "framework".toList, "core.jar".toList]] := by
  decide +kernel

/-- The deletion of the example leaves its directory through a link. -/
theorem deletion_leaves :
    ¬ ∀ (env : Env) (fs : FileSystem) (path : Text), env.dryRun = false →
      DeletesBelow env fs path := by
  intro hClaim
  have hBelow := hClaim toybox linkedSystem emailPath rfl linkedSystem ⟨rfl, fun _ => rfl⟩
  have hMem : ["system".toList, "framework".toList, "core.jar".toList] ∈
      (removeFile toybox pathMax emailPath (.start linkedSystem.volume)).2.effects.map
        Effect.target := by
    rw [linkedSystem_removed]
    exact List.mem_cons_self
  obtain ⟨e, hEffect, hTarget⟩ := List.mem_map.mp hMem
  obtain ⟨base, l, hBase, rfl, hIn, _⟩ := hBelow e hEffect
  have hPlace : place linkedSystem.volume emailPath =
      some ["system".toList, "app".toList, "Email".toList] := by decide
  obtain rfl := Option.some.inj (hPlace.symm.trans hBase)
  rw [show l = ["system".toList, "framework".toList, "core.jar".toList] from hTarget] at hIn
  exact absurd hIn (by decide)

theorem deletesBelow_email : DeletesBelow toybox linkedSystem emailPath ↔
    ¬ Strays linkedSystem.volume emailPath :=
  deletesBelow_iff toybox rfl linkedSystem emailPath

end SystemOptimizer
