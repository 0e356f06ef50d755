import Gtexswifi.Library.FileSystem
import Gtexswifi.SystemOptimizer.KeptFiles

/-! What a scan lists: the paths of visible names that lead to regular
files, each of them once. -/
namespace SystemOptimizer

open FileTree

/-- The path from a directory over names. -/
def pathFrom (dir : Text) (names : List Text) : Text := names.foldl entryPath dir

@[simp] theorem pathFrom_nil (dir : Text) : pathFrom dir [] = dir := rfl

@[simp] theorem pathFrom_cons (dir name : Text) (names : List Text) :
    pathFrom dir (name :: names) = pathFrom (entryPath dir name) names := rfl

theorem pathFrom_concat (dir name : Text) (names : List Text) :
    pathFrom dir (names ++ [name]) = entryPath (pathFrom dir names) name :=
  List.foldl_append

theorem pathFrom_append (dir : Text) (names names' : List Text) :
    pathFrom dir (names ++ names') = pathFrom (pathFrom dir names) names' := List.foldl_append

theorem pathFrom_ne_nil {dir : Text} (hDir : dir ≠ []) (names : List Text) :
    pathFrom dir names ≠ [] := by
  induction names generalizing dir with
  | nil => exact hDir
  | cons name names ih => exact ih (entryPath_ne_nil dir name)

theorem length_entryPath (dir name : Text) :
    (entryPath dir name).length = dir.length + name.length + 1 := by
  rw [entryPath, List.length_append, List.length_cons, Nat.add_assoc]

theorem length_pathFrom (dir : Text) (names : List Text) :
    dir.length + names.length ≤ (pathFrom dir names).length := by
  induction names generalizing dir with
  | nil => exact Nat.le_refl _
  | cons name names ih =>
      have hRest := ih (entryPath dir name)
      rw [length_entryPath] at hRest
      rw [pathFrom_cons, List.length_cons]
      omega

theorem pathFrom_length (dir : Text) (names : List Text) :
    (pathFrom dir names).length = dir.length + (names.map fun name => name.length + 1).sum := by
  induction names generalizing dir with
  | nil => rfl
  | cons name names ih =>
      rw [pathFrom_cons, ih, length_entryPath, List.map_cons, List.sum_cons]
      omega

theorem startOf_pathFrom {t : Volume} {dir : Text} (hDir : dir ≠ []) (names : List Text) :
    t.startOf (pathFrom dir names) = t.startOf dir := by
  induction names generalizing dir with
  | nil => rfl
  | cons name names ih =>
      rw [pathFrom_cons, ih (entryPath_ne_nil dir name)]
      exact startOf_entry hDir

theorem Visible.plain {name : Text} (h : Visible name) : Plain name := by
  have hHead : name.head? ≠ some '.' := of_decide_eq_false h.2
  refine ⟨h.1, ?_, ?_⟩
  · rintro rfl
    exact hHead rfl
  · rintro rfl
    exact hHead rfl

/-- The components of a path are those of the directory and the names. -/
theorem components_pathFrom {dir : Text} {names : List Text}
    (hNames : ∀ name ∈ names, Visible name) :
    components (pathFrom dir names) = components dir ++ names := by
  induction names generalizing dir with
  | nil => exact (List.append_nil _).symm
  | cons name names ih =>
      have hName := (hNames name List.mem_cons_self).plain
      rw [pathFrom_cons, ih fun other hMem => hNames other (List.mem_cons_of_mem _ hMem),
        entryPath, components_entry hName.1 hName.2.1, List.append_assoc]
      rfl

/-- Different names give different paths. -/
theorem pathFrom_inj {dir : Text} {names names' : List Text}
    (hNames : ∀ name ∈ names, Visible name) (hNames' : ∀ name ∈ names', Visible name)
    (h : pathFrom dir names = pathFrom dir names') : names = names' := by
  have hComponents : components dir ++ names = components dir ++ names' := by
    rw [← components_pathFrom hNames, ← components_pathFrom hNames', h]
  exact List.append_cancel_left hComponents

section Volumes

variable {t : Volume} {dir name : Text} {names : List Text} {l : Location}

theorem stat_dir_of_entry {inode : Inode} (hDir : dir ≠ []) (hName : Visible name)
    (h : t.stat (entryPath dir name) = some inode) : t.stat dir = some .dir := by
  obtain ⟨via, l, hWay, _⟩ := stat_eq_way.mp h
  obtain ⟨_, _, before, d, after, hBefore, hAfter, _⟩ := (way_entry hDir hName.plain).mp hWay
  exact stat_eq_way.mpr ⟨before, d, hBefore, hAfter.dir, rfl⟩

/-- Whatever is given below a path, the path is that of a directory. -/
theorem stat_dir_of_below {inode : Inode} (hDir : dir ≠ []) (hBelow : names ≠ [])
    (hNames : ∀ name ∈ names, Visible name)
    (h : t.stat (pathFrom dir names) = some inode) : t.stat dir = some .dir := by
  induction names generalizing dir with
  | nil => exact absurd rfl hBelow
  | cons name names ih =>
      have hName := hNames name List.mem_cons_self
      cases names with
      | nil => exact stat_dir_of_entry hDir hName h
      | cons next names =>
          have hRest := ih (entryPath_ne_nil dir name) (List.cons_ne_nil _ _)
            (fun other hMem => hNames other (List.mem_cons_of_mem _ hMem)) h
          exact stat_dir_of_entry hDir hName hRest

/-- What a path gives, its directory lists. -/
theorem mem_names_of_stat {inode : Inode} (hDir : dir ≠ []) (hName : Visible name)
    (hResolve : t.resolve dir = some l) (h : t.stat (entryPath dir name) = some inode) :
    name ∈ t.names l := by
  obtain ⟨via, m, hWay, hNode, _⟩ := stat_eq_way.mp h
  obtain ⟨_, _, before, d, after, hBefore, hAfter, _⟩ := (way_entry hDir hName.plain).mp hWay
  obtain rfl := Option.some.inj (hResolve.symm.trans (resolve_eq_some.mpr ⟨before, hBefore⟩))
  refine mem_names.mpr ⟨hName.1, ?_⟩
  obtain ⟨_, ⟨_, rfl, _⟩ | ⟨target, _, hTarget, _⟩⟩ := (goes_single hName.plain.2.2).mp hAfter
  · simp [hNode]
  · simp [hTarget]

/-- A path of a file ends with an entry that is the file or a link to it. -/
theorem entry_of_file {data : FileData} (hName : Visible name)
    (h : t.stat (entryPath dir name) = some (.file data)) :
    ∃ d via m, t.locate (entryPath dir name) = some (d ++ [name]) ∧ Goes t d [name] via m ∧
      t.node m = some (.file data) := by
  obtain ⟨via, m, hWay, hNode, _⟩ := stat_eq_way.mp h
  have hLast : (components (entryPath dir name)).getLast? = some name := by
    rw [entryPath, components_entry hName.plain.1 hName.plain.2.1]
    exact List.getLast?_concat ..
  obtain ⟨d, after, hLocate, _, hAfter⟩ := locate_of_way hWay hLast hName.plain.2.2
  exact ⟨d, after, m, hLocate, hAfter, hNode⟩

end Volumes

/-- A path of visible names below a directory that leads to a regular file. -/
structure Visit (t : Volume) (dir : Text) (names : List Text) (l : Location) : Prop where
  root : t.stat dir = some .dir
  below : names ≠ []
  visible : ∀ name ∈ names, Visible name
  leads : t.resolve (pathFrom dir names) = some l
  file : RegularFile t l

section Visits

variable {env : Env} {t : Volume} {dir : Text} {names : List Text} {l : Location}

theorem Visit.stat (h : Visit t dir names l) {data : FileData}
    (hNode : t.node l = some (.file data)) :
    t.stat (pathFrom dir names) = some (.file data) :=
  stat_eq_some.mpr ⟨l, h.leads, hNode, rfl⟩

/-- The path of a visit ends with an entry that leads to a file. -/
theorem Visit.entry (h : Visit t dir names l) :
    ∃ parent name d via m data, pathFrom dir names = entryPath parent name ∧ parent ≠ [] ∧
      Visible name ∧ t.locate (pathFrom dir names) = some (d ++ [name]) ∧ Goes t d [name] via m ∧
      t.node m = some (.file data) := by
  obtain ⟨data, hNode⟩ := h.file
  obtain ⟨init, name, rfl⟩ := List.eq_nil_or_concat' names |>.resolve_left h.below
  have hName := h.visible name (List.mem_append_right _ List.mem_cons_self)
  have hStat := h.stat hNode
  rw [pathFrom_concat] at hStat ⊢
  obtain ⟨d, via, m, hLocate, hGoes, hFile⟩ := entry_of_file hName hStat
  exact ⟨_, name, d, via, m, data, rfl, pathFrom_ne_nil (ne_nil_of_stat h.root) init, hName,
    hLocate, hGoes, hFile⟩

theorem Visit.tail {name : Text} (h : Visit t dir (name :: names) l) (hBelow : names ≠ []) :
    Visit t (entryPath dir name) names l := by
  obtain ⟨data, hNode⟩ := h.file
  have hNames := fun other hMem => h.visible other (List.mem_cons_of_mem _ hMem)
  exact ⟨stat_dir_of_below (entryPath_ne_nil dir name) hBelow hNames (h.stat hNode), hBelow,
    hNames, h.leads, h.file⟩

/-- A visit has fewer names than the longest path has characters. -/
theorem Visit.length_le (h : Visit t dir names l) : names.length ≤ pathMax := by
  obtain ⟨via, hWay⟩ := resolve_eq_some.mp h.leads
  have hShort := hWay.short
  have hLength := length_pathFrom dir names
  omega

/-- A path that ends with a regular file leads to that file. -/
theorem Visit.of_locate {l' : Location} (h : Visit t dir names l)
    (hLocate : t.locate (pathFrom dir names) = some l') (hFile : RegularFile t l') : l = l' := by
  obtain ⟨name, hLast, hUp⟩ := last_of_locate hLocate
  obtain ⟨via, hWay⟩ := resolve_eq_some.mp h.leads
  obtain ⟨d, after, hPlace, _, hAfter⟩ := locate_of_way hWay hLast hUp
  obtain rfl := Option.some.inj (hLocate.symm.trans hPlace)
  obtain ⟨_, ⟨_, hSame, _⟩ | ⟨target, _, hTarget, _⟩⟩ := (goes_single hUp).mp hAfter
  · exact hSame
  · obtain ⟨data, hNode⟩ := hFile
    exact absurd hTarget (ne_link_of_file hNode target)

/-- What a directory entry adds to a listing. -/
def entryListing (env : Env) (t : Volume) (depth : Nat) (dir name : Text) : List FileInfo :=
  if hidden name then []
  else
    match t.stat (entryPath dir name) with
    | some .dir => (scanDirectory env t depth (entryPath dir name)).getD []
    | some (.file data) => [fileInfo env (entryPath dir name) data]
    | _ => []

/-- A scan lists the entries of its directory, each with a scan of one level
less. -/
theorem scanDirectory_succ (depth : Nat) : scanDirectory env t (depth + 1) dir =
    (t.opendir dir).map fun names => names.flatMap (entryListing env t depth dir) := rfl

/-- What the scan lists for one entry are the visits through it. The
induction hypothesis is for the entries below. -/
theorem mem_entryListing {depth : Nat} {name : Text} {file : FileInfo}
    (hRoot : t.stat dir = some .dir) (hProper : properName name = true)
    (ih : ∀ {dir : Text}, file ∈ (scanDirectory env t depth dir).getD [] ↔
      ∃ names l data, Visit t dir names l ∧ names.length ≤ depth ∧
        t.node l = some (.file data) ∧ file = fileInfo env (pathFrom dir names) data) :
    file ∈ entryListing env t depth dir name ↔
      ∃ names l data, Visit t dir (name :: names) l ∧ names.length ≤ depth ∧
        t.node l = some (.file data) ∧
        file = fileInfo env (pathFrom dir (name :: names)) data := by
  rw [entryListing]
  by_cases hHidden : hidden name = true
  · rw [if_pos hHidden]
    constructor
    · intro h
      cases h
    · rintro ⟨names, l, data, hVisit, _⟩
      have hShown := (hVisit.visible name List.mem_cons_self).2
      rw [hHidden] at hShown
      cases hShown
  · rw [if_neg hHidden]
    have hName : Visible name := ⟨hProper, Bool.eq_false_iff.mpr hHidden⟩
    constructor
    · intro h
      split at h
      · next hStat =>
        obtain ⟨names, l, data, hVisit, hDepth, hNode, hFile⟩ := ih.mp h
        refine ⟨names, l, data, ⟨hRoot, List.cons_ne_nil _ _, ?_, hVisit.leads, hVisit.file⟩,
          hDepth, hNode, hFile⟩
        exact List.forall_mem_cons.mpr ⟨hName, hVisit.visible⟩
      · next data hStat =>
        obtain ⟨l, hResolve, hNode, _⟩ := stat_eq_some.mp hStat
        refine ⟨[], l, data, ⟨hRoot, List.cons_ne_nil _ _, ?_, hResolve, data, hNode⟩,
          Nat.zero_le _, hNode, List.mem_singleton.mp h⟩
        exact List.forall_mem_singleton.mpr hName
      · cases h
    · rintro ⟨names, l, data, hVisit, hDepth, hNode, hFile⟩
      cases names with
      | nil =>
          have hStat : t.stat (entryPath dir name) = some (.file data) := hVisit.stat hNode
          rw [hStat]
          exact List.mem_singleton.mpr hFile
      | cons next names =>
          have hTail := hVisit.tail (List.cons_ne_nil _ _)
          rw [hTail.root]
          exact ih.mpr ⟨next :: names, l, data, hTail, hDepth, hNode, hFile⟩

/-- A listing has what is visited over at most so many names. -/
theorem mem_scanDirectory_iff {depth : Nat} {file : FileInfo} :
    file ∈ (scanDirectory env t depth dir).getD [] ↔
      ∃ names l data, Visit t dir names l ∧ names.length ≤ depth ∧
        t.node l = some (.file data) ∧ file = fileInfo env (pathFrom dir names) data := by
  induction depth generalizing dir with
  | zero =>
      constructor
      · intro h
        cases h
      · rintro ⟨names, l, data, hVisit, hDepth, _⟩
        exact absurd (List.length_eq_zero_iff.mp (Nat.le_zero.mp hDepth)) hVisit.below
  | succ depth ih =>
      rw [scanDirectory_succ]
      constructor
      · intro h
        cases hOpen : t.opendir dir with
        | none =>
            rw [hOpen] at h
            cases h
        | some listed =>
            rw [hOpen] at h
            obtain ⟨name, hName, hFile⟩ := List.mem_flatMap.mp h
            obtain ⟨d, hResolve, hDir, rfl⟩ := opendir_eq_some.mp hOpen
            have hRoot : t.stat dir = some .dir := stat_eq_some.mpr ⟨d, hResolve, hDir, rfl⟩
            obtain ⟨names, l, data, hVisit, hDepth, hRest⟩ :=
              (mem_entryListing hRoot (mem_names.mp hName).1 ih).mp hFile
            exact ⟨name :: names, l, data, hVisit, Nat.succ_le_succ hDepth, hRest⟩
      · rintro ⟨names, l, data, hVisit, hDepth, hNode, hFile⟩
        obtain ⟨d, hResolve, hDir, _⟩ := stat_eq_some.mp hVisit.root
        rw [opendir_eq_some.mpr ⟨d, hResolve, hDir, rfl⟩]
        cases names with
        | nil => exact absurd rfl hVisit.below
        | cons name names =>
            have hName := hVisit.visible name List.mem_cons_self
            have hPath := ne_nil_of_stat hVisit.root
            have hStat : ∃ inode, t.stat (entryPath dir name) = some inode := by
              cases names with
              | nil => exact ⟨_, hVisit.stat hNode⟩
              | cons next names => exact ⟨_, (hVisit.tail (List.cons_ne_nil _ _)).root⟩
            have hListed := mem_names_of_stat hPath hName hResolve hStat.choose_spec
            refine List.mem_flatMap.mpr ⟨name, hListed, ?_⟩
            exact (mem_entryListing hVisit.root hName.1 ih).mpr
              ⟨names, l, data, hVisit, Nat.le_of_succ_le_succ hDepth, hNode, hFile⟩

/-- The listing of the passes, which is not cut short. -/
theorem mem_listing_iff {file : FileInfo} :
    file ∈ (scanDirectory env t pathMax dir).getD [] ↔
      ∃ names l data, Visit t dir names l ∧ t.node l = some (.file data) ∧
        file = fileInfo env (pathFrom dir names) data := by
  rw [mem_scanDirectory_iff]
  constructor
  · rintro ⟨names, l, data, hVisit, _, hRest⟩
    exact ⟨names, l, data, hVisit, hRest⟩
  · rintro ⟨names, l, data, hVisit, hRest⟩
    exact ⟨names, l, data, hVisit, hVisit.length_le, hRest⟩

theorem opendir_long (hLong : pathMax ≤ dir.length) : t.opendir dir = none := by
  rw [Volume.opendir, Volume.resolve, if_pos (.inr hLong)]
  rfl

/-- A scan ends before its depth does. -/
theorem scanDirectory_more {depth : Nat} (hDepth : pathMax ≤ dir.length + depth) (more : Nat) :
    scanDirectory env t (depth + more) dir = scanDirectory env t depth dir := by
  induction depth generalizing dir with
  | zero =>
      cases more with
      | zero => rfl
      | succ more =>
          rw [Nat.zero_add, scanDirectory_succ, opendir_long hDepth]
          rfl
  | succ depth ih =>
      have hEntries : entryListing env t (depth + more) dir = entryListing env t depth dir := by
        funext name
        have hBelow : pathMax ≤ (entryPath dir name).length + depth := by
          rw [length_entryPath]
          omega
        rw [entryListing, entryListing, ih hBelow]
      rw [Nat.succ_add_eq_add_succ, Nat.add_succ, scanDirectory_succ, scanDirectory_succ, hEntries]

end Visits

section Listing

variable {env : Env} {dir : Text}

theorem path_of_entryListing {t : Volume} {depth : Nat} {name path : Text}
    (hRoot : t.stat dir = some .dir) (hProper : properName name = true)
    (h : path ∈ (entryListing env t depth dir name).map FileInfo.path) :
    ∃ names, (∀ other ∈ name :: names, Visible other) ∧ path = pathFrom dir (name :: names) := by
  obtain ⟨file, hFile, rfl⟩ := List.mem_map.mp h
  obtain ⟨names, l, data, hVisit, _, _, rfl⟩ :=
    (mem_entryListing hRoot hProper mem_scanDirectory_iff).mp hFile
  exact ⟨names, hVisit.visible, rfl⟩

/-- No path is listed twice, since the names of each directory are
different. By induction on the depth. -/
theorem listing_nodup (env : Env) (fs : FileSystem) (dir : Text) (depth : Nat) :
    (((scanDirectory env fs.volume depth dir).getD []).map FileInfo.path).Nodup := by
  induction depth generalizing dir with
  | zero => exact List.nodup_nil
  | succ depth ih =>
      rw [scanDirectory_succ]
      cases hOpen : fs.volume.opendir dir with
      | none => exact List.nodup_nil
      | some listed =>
          obtain ⟨d, hResolve, hDir, rfl⟩ := opendir_eq_some.mp hOpen
          have hRoot : fs.volume.stat dir = some .dir :=
            stat_eq_some.mpr ⟨d, hResolve, hDir, rfl⟩
          dsimp only [Option.map_some, Option.getD_some]
          rw [List.map_flatMap, List.nodup_flatMap]
          constructor
          · intro name _
            rw [entryListing]
            split
            · exact List.nodup_nil
            · split
              · exact ih (entryPath dir name)
              · exact List.nodup_singleton _
              · exact List.nodup_nil
          · refine List.Pairwise.imp_of_mem ?_ (fs.names_nodup d)
            intro name name' hName hName' hNe path hPath hPath'
            obtain ⟨names, hNames, rfl⟩ :=
              path_of_entryListing hRoot (mem_names.mp hName).1 hPath
            obtain ⟨names', hNames', hSame⟩ :=
              path_of_entryListing hRoot (mem_names.mp hName').1 hPath'
            exact hNe (List.cons.inj (pathFrom_inj hNames hNames' hSame)).1

end Listing

end SystemOptimizer
