import Mathlib.Data.List.Basic

/-! File trees with symbolic links: how paths are resolved, and what
removing and writing files changes, for the nodes and for where paths lead. -/
namespace FileTree

abbrev Text := List Char

/-- The names on the way from the root. -/
abbrev Location := List Text

structure FileData where
  content : List UInt8
  modified : Int
  executable : Bool
  deriving DecidableEq

inductive Inode where
  | file (data : FileData)
  | dir
  | link (target : Text)
  deriving DecidableEq

/-- What stands below the root, in the order in which directories list it,
as a process with a working directory sees it. -/
structure Volume where
  entries : List (Location × Inode)
  cwd : Location

deriving instance DecidableEq for Volume

def Volume.node (t : Volume) (l : Location) : Option Inode :=
  if l = [] then some .dir else t.entries.lookup l

/-- What can be the name of an entry. -/
def properName (name : Text) : Bool := decide (name ≠ []) && !name.contains '/'

/-- The names in a directory. -/
def Volume.names (t : Volume) (l : Location) : List Text :=
  (t.entries.filterMap fun entry =>
    if entry.1.dropLast = l then entry.1.getLast? else none).filter properName

/-- `PATH_MAX`. A path of this length or more is too long for every call. -/
def pathMax : Nat := 4096

/-- The names that a path goes through. -/
def components (path : Text) : List Text :=
  (path.splitOnP (· = '/')).filter fun name => name ≠ [] ∧ name ≠ ['.']

def Volume.startOf (t : Volume) (path : Text) : Location :=
  if path.head? = some '/' then [] else t.cwd

/-- Walk over names, with `follow` for what a link leads to. The last name
need not exist. -/
def Volume.walkWith (t : Volume) (follow : Location → List Text → Option Location) :
    Location → List Text → Option Location
  | cur, [] => some cur
  | cur, name :: rest =>
      if t.node cur ≠ some .dir then none
      else if name = ['.', '.'] then t.walkWith follow cur.dropLast rest
      else
        match t.node (cur ++ [name]) with
        | some (.link target) =>
            follow (if target.head? = some '/' then [] else cur) (components target ++ rest)
        | _ => t.walkWith follow (cur ++ [name]) rest

/-- A walk that follows at most so many links. -/
def Volume.walk (t : Volume) : Nat → Location → List Text → Option Location
  | 0 => t.walkWith fun _ _ => none
  | links + 1 => t.walkWith (t.walk links)

/-- How many links a walk may follow. -/
def linksMax : Nat := 40

/-- Where a path leads, all links followed. -/
def Volume.resolve (t : Volume) (path : Text) : Option Location :=
  if path = [] ∨ pathMax ≤ path.length then none
  else t.walk linksMax (t.startOf path) (components path)

/-- The place that the last name of a path has in its directory, whatever
stands there. -/
def Volume.locate (t : Volume) (path : Text) : Option Location :=
  if path = [] ∨ pathMax ≤ path.length then none
  else
    match (components path).getLast? with
    | none => none
    | some name =>
        if name = ['.', '.'] then none
        else
          match t.walk linksMax (t.startOf path) (components path).dropLast with
          | none => none
          | some parent => if t.node parent = some .dir then some (parent ++ [name]) else none

def Inode.isLink : Inode → Bool
  | link _ => true
  | _ => false

/-- What a path leads to, which is never a link. -/
def Volume.stat (t : Volume) (path : Text) : Option Inode :=
  ((t.resolve path).bind t.node).filter (!·.isLink)

/-- The names that `opendir` and `readdir` give. -/
def Volume.opendir (t : Volume) (path : Text) : Option (List Text) :=
  (t.resolve path).bind fun l => if t.node l = some .dir then some (t.names l) else none

/-- Set what stands at a location. A new entry goes to the end of its
directory. -/
def Volume.put (t : Volume) (l : Location) (inode : Inode) : Volume :=
  if l ∈ t.entries.map Prod.fst then
    { t with entries := t.entries.map fun entry => if entry.1 = l then (l, inode) else entry }
  else { t with entries := t.entries ++ [(l, inode)] }

def Volume.remove (t : Volume) (l : Location) : Volume :=
  { t with entries := t.entries.filter fun entry => entry.1 ≠ l }

/-- A change at one location. -/
inductive Effect where
  | remove (l : Location)
  | write (l : Location) (data : FileData)
  | mkdir (l : Location)

def Effect.target : Effect → Location
  | remove l => l
  | write l _ => l
  | mkdir l => l

def Effect.apply (t : Volume) : Effect → Volume
  | remove l => t.remove l
  | write l data => t.put l (.file data)
  | mkdir l => t.put l .dir

section Effects

variable {t : Volume} {l l' : Location}

theorem lookup_filter_ne (entries : List (Location × Inode)) (h : l' ≠ l) :
    (entries.filter fun entry => entry.1 ≠ l).lookup l' = entries.lookup l' := by
  induction entries with
  | nil => rfl
  | cons entry entries ih =>
      obtain ⟨place, inode⟩ := entry
      by_cases hSame : place = l
      · have hOther : (l' == place) = false := beq_eq_false_iff_ne.mpr (hSame ▸ h)
        rw [List.filter_cons_of_neg (by simpa using hSame), ih, List.lookup_cons, hOther]
      · rw [List.filter_cons_of_pos (by simpa using hSame), List.lookup_cons, List.lookup_cons, ih]

theorem lookup_filter_self (entries : List (Location × Inode)) (l : Location) :
    (entries.filter fun entry => entry.1 ≠ l).lookup l = none := by
  rw [List.lookup_eq_none_iff]
  intro entry hEntry
  have hNe : entry.1 ≠ l := by simpa using (List.mem_filter.mp hEntry).2
  simpa using Ne.symm hNe

theorem lookup_map_ne (entries : List (Location × Inode)) (inode : Inode) (h : l' ≠ l) :
    (entries.map fun entry => if entry.1 = l then (l, inode) else entry).lookup l' =
      entries.lookup l' := by
  induction entries with
  | nil => rfl
  | cons entry entries ih =>
      obtain ⟨place, old⟩ := entry
      by_cases hSame : place = l
      · have hOther : (l' == place) = false := beq_eq_false_iff_ne.mpr (hSame ▸ h)
        have hOther' : (l' == l) = false := beq_eq_false_iff_ne.mpr h
        rw [List.map_cons, if_pos hSame, List.lookup_cons, hOther', ih, List.lookup_cons, hOther]
      · rw [List.map_cons, if_neg hSame, List.lookup_cons, ih, List.lookup_cons]

/-- An entry that has been replaced is found with its new content. -/
theorem lookup_map_self (entries : List (Location × Inode)) (inode : Inode)
    (h : l ∈ entries.map Prod.fst) :
    (entries.map fun entry => if entry.1 = l then (l, inode) else entry).lookup l =
      some inode := by
  induction entries with
  | nil => cases h
  | cons entry entries ih =>
      obtain ⟨place, old⟩ := entry
      rw [List.map_cons]
      by_cases hSame : place = l
      · rw [if_pos hSame, List.lookup_cons, beq_self_eq_true]
      · have hOther : (l == place) = false := beq_eq_false_iff_ne.mpr (Ne.symm hSame)
        rw [if_neg hSame, List.lookup_cons, hOther]
        exact ih ((List.mem_cons.mp h).resolve_left (Ne.symm hSame))

theorem node_put_of_ne (inode : Inode) (h : l' ≠ l) : (t.put l inode).node l' = t.node l' := by
  unfold Volume.node
  by_cases hRoot : l' = []
  · rw [if_pos hRoot, if_pos hRoot]
  · rw [if_neg hRoot, if_neg hRoot, Volume.put]
    split
    · exact lookup_map_ne t.entries inode h
    · have hOther : (l' == l) = false := beq_eq_false_iff_ne.mpr h
      rw [List.lookup_append, List.lookup_cons, hOther, List.lookup_nil, Option.or_none]

/-- What is put at a location is found there. The root stays a directory. -/
theorem node_put_self (inode : Inode) (h : l ≠ []) : (t.put l inode).node l = some inode := by
  rw [Volume.node, if_neg h, Volume.put]
  split
  · next hMem => exact lookup_map_self t.entries inode hMem
  · next hMem =>
    have hNone : t.entries.lookup l = none := by
      rw [List.lookup_eq_none_iff]
      intro entry hEntry
      have hNe : entry.1 ≠ l := fun hSame => hMem (List.mem_map.mpr ⟨entry, hEntry, hSame⟩)
      simpa using Ne.symm hNe
    rw [List.lookup_append, hNone, List.lookup_cons, beq_self_eq_true]
    rfl

theorem node_remove_of_ne (h : l' ≠ l) : (t.remove l).node l' = t.node l' := by
  unfold Volume.node
  by_cases hRoot : l' = []
  · rw [if_pos hRoot, if_pos hRoot]
  · rw [if_neg hRoot, if_neg hRoot, Volume.remove]
    exact lookup_filter_ne t.entries h

theorem node_remove_self (h : l ≠ []) : (t.remove l).node l = none := by
  unfold Volume.node Volume.remove
  rw [if_neg h]
  exact lookup_filter_self t.entries l

theorem node_apply_of_ne {e : Effect} (h : l ≠ e.target) : (e.apply t).node l = t.node l := by
  cases e with
  | remove _ => exact node_remove_of_ne h
  | write _ data => exact node_put_of_ne _ h
  | mkdir _ => exact node_put_of_ne _ h

@[simp] theorem cwd_put (inode : Inode) : (t.put l inode).cwd = t.cwd := by
  rw [Volume.put]
  split
  · rfl
  · rfl

@[simp] theorem cwd_apply (e : Effect) : (e.apply t).cwd = t.cwd := by
  cases e with
  | remove _ => rfl
  | write _ data => exact cwd_put _
  | mkdir _ => exact cwd_put _

end Effects

/-- What a path leads through in `t` is also in `s`. -/
structure Volume.Keeps (t s : Volume) : Prop where
  cwd : s.cwd = t.cwd
  dir : ∀ l, t.node l = some .dir → s.node l = some .dir
  link : ∀ l target, t.node l = some (.link target) → s.node l = some (.link target)

section Keeps

variable {t s : Volume}

/-- `stat` finds what the path resolves to, with links followed to their
end. -/
theorem stat_eq_some {path : Text} {inode : Inode} :
    t.stat path = some inode ↔
      ∃ l, t.resolve path = some l ∧ t.node l = some inode ∧ inode.isLink = false := by
  rw [Volume.stat, Option.filter_eq_some_iff, Option.bind_eq_some_iff]
  constructor
  · rintro ⟨⟨l, hResolve, hNode⟩, hLink⟩
    exact ⟨l, hResolve, hNode, by simpa using hLink⟩
  · rintro ⟨l, hResolve, hNode, hLink⟩
    exact ⟨⟨l, hResolve, hNode⟩, by simpa using hLink⟩

/-- What is kept by one change and by the next is kept by both. -/
theorem Volume.Keeps.trans {r : Volume} (h : t.Keeps s) (h' : s.Keeps r) : t.Keeps r where
  cwd := h'.cwd.trans h.cwd
  dir l hDir := h'.dir l (h.dir l hDir)
  link l target hLink := h'.link l target (h.link l target hLink)

theorem ne_link_of_dir {l : Location} (h : t.node l = some .dir) (target : Text) :
    t.node l ≠ some (.link target) := by
  rw [h]
  exact fun hSame => nomatch hSame

theorem ne_link_of_file {l : Location} {data : FileData} (h : t.node l = some (.file data))
    (target : Text) : t.node l ≠ some (.link target) := by
  rw [h]
  exact fun hSame => nomatch hSame

/-- Writing a file where one stands leaves directories and links as they
are. -/
theorem Volume.Keeps.put_file {l : Location} {old data : FileData}
    (h : t.node l = some (.file old)) : t.Keeps (t.put l (.file data)) where
  cwd := cwd_put _
  dir l' hDir := by
    rw [node_put_of_ne _ fun hSame => ?_]
    · exact hDir
    · cases (hSame ▸ hDir).symm.trans h
  link l' target hLink := by
    rw [node_put_of_ne _ fun hSame => ?_]
    · exact hLink
    · cases (hSame ▸ hLink).symm.trans h

theorem walkWith_dir {follow : Location → List Text → Option Location} {cur l : Location}
    {name : Text} {rest : List Text} (h : t.walkWith follow cur (name :: rest) = some l) :
    t.node cur = some .dir := by
  by_contra hDir
  rw [Volume.walkWith, if_pos hDir] at h
  cases h

/-- A name of two dots leads to the directory above, and from the root to
the root. -/
theorem walkWith_up {follow : Location → List Text → Option Location} {cur : Location}
    {rest : List Text} (hDir : t.node cur = some .dir) :
    t.walkWith follow cur (['.', '.'] :: rest) = t.walkWith follow cur.dropLast rest := by
  rw [Volume.walkWith, if_neg (not_not_intro hDir), if_pos rfl]

/-- A link is followed, with the names behind it still to be walked. -/
theorem walkWith_link {follow : Location → List Text → Option Location} {cur : Location}
    {name target : Text} {rest : List Text} (hDir : t.node cur = some .dir)
    (hName : name ≠ ['.', '.']) (hLink : t.node (cur ++ [name]) = some (.link target)) :
    t.walkWith follow cur (name :: rest) =
      follow (if target.head? = some '/' then [] else cur) (components target ++ rest) := by
  rw [Volume.walkWith, if_neg (not_not_intro hDir), if_neg hName, hLink]

theorem walkWith_name {follow : Location → List Text → Option Location} {cur : Location}
    {name : Text} {rest : List Text} (hDir : t.node cur = some .dir)
    (hName : name ≠ ['.', '.']) (hLink : ∀ target, t.node (cur ++ [name]) ≠ some (.link target)) :
    t.walkWith follow cur (name :: rest) = t.walkWith follow (cur ++ [name]) rest := by
  rw [Volume.walkWith, if_neg (not_not_intro hDir), if_neg hName]
  cases hNode : t.node (cur ++ [name]) with
  | none => rfl
  | some inode =>
      cases inode with
      | file data => rfl
      | dir => rfl
      | link target => exact absurd hNode (hLink target)

/-- A walk in a volume goes the same way in one that keeps its directories
and links. -/
theorem Volume.Keeps.walkWith (h : t.Keeps s)
    {follow follow' : Location → List Text → Option Location} {l : Location}
    (hEnd : ∀ target, s.node l ≠ some (.link target))
    (hFollow : ∀ cur names, follow cur names = some l → follow' cur names = some l)
    {cur : Location} {names : List Text} (hWalk : t.walkWith follow cur names = some l) :
    s.walkWith follow' cur names = some l := by
  induction names generalizing cur with
  | nil => exact hWalk
  | cons name rest ih =>
      have hDir := walkWith_dir hWalk
      have hDir' := h.dir cur hDir
      by_cases hUp : name = ['.', '.']
      · subst hUp
        rw [walkWith_up hDir] at hWalk
        rw [walkWith_up hDir']
        exact ih hWalk
      · by_cases hLink : ∃ target, t.node (cur ++ [name]) = some (.link target)
        · obtain ⟨target, hTarget⟩ := hLink
          rw [walkWith_link hDir hUp hTarget] at hWalk
          rw [walkWith_link hDir' hUp (h.link _ target hTarget)]
          exact hFollow _ _ hWalk
        · rw [walkWith_name hDir hUp (not_exists.mp hLink)] at hWalk
          rw [walkWith_name hDir' hUp]
          · exact ih hWalk
          · cases rest with
            | nil => exact Option.some.inj hWalk ▸ hEnd
            | cons next rest =>
                exact ne_link_of_dir (h.dir _ (walkWith_dir hWalk))

/-- A walk whose end is no link in `s` ends there in `s` too. -/
theorem Volume.Keeps.walk (h : t.Keeps s) {l : Location}
    (hEnd : ∀ target, s.node l ≠ some (.link target)) {links : Nat} {cur : Location}
    {names : List Text} (hWalk : t.walk links cur names = some l) :
    s.walk links cur names = some l := by
  induction links generalizing cur names with
  | zero => exact h.walkWith hEnd (fun _ _ hFollow => hFollow) hWalk
  | succ links ih => exact h.walkWith hEnd (fun _ _ hFollow => ih hFollow) hWalk

/-- A path starts at the root or at the working directory, which is kept. -/
theorem Volume.Keeps.startOf (h : t.Keeps s) (path : Text) : s.startOf path = t.startOf path := by
  rw [Volume.startOf, Volume.startOf, h.cwd]

theorem Volume.Keeps.resolve (h : t.Keeps s) {path : Text} {l : Location}
    (hEnd : ∀ target, s.node l ≠ some (.link target)) (hResolve : t.resolve path = some l) :
    s.resolve path = some l := by
  unfold Volume.resolve at hResolve ⊢
  split at hResolve
  · cases hResolve
  · next hLength =>
    rw [if_neg hLength, h.startOf]
    exact h.walk hEnd hResolve

theorem Volume.Keeps.stat_dir (h : t.Keeps s) {path : Text} (hStat : t.stat path = some .dir) :
    s.stat path = some .dir := by
  obtain ⟨l, hResolve, hNode, hLink⟩ := stat_eq_some.mp hStat
  have hDir := h.dir l hNode
  exact stat_eq_some.mpr ⟨l, h.resolve (ne_link_of_dir hDir) hResolve, hDir, hLink⟩

/-- The entry that a path names is where it was, whether or not something
stands there. -/
theorem Volume.Keeps.locate (h : t.Keeps s) {path : Text} {l : Location}
    (hLocate : t.locate path = some l) : s.locate path = some l := by
  unfold Volume.locate at hLocate ⊢
  split at hLocate
  · cases hLocate
  · next hLength =>
    rw [if_neg hLength, h.startOf]
    cases hLast : (components path).getLast? with
    | none =>
        rw [hLast] at hLocate
        cases hLocate
    | some name =>
        rw [hLast] at hLocate
        dsimp only at hLocate ⊢
        split at hLocate
        · cases hLocate
        · next hUp =>
          rw [if_neg hUp]
          cases hWalk : t.walk linksMax (t.startOf path) (components path).dropLast with
          | none =>
              rw [hWalk] at hLocate
              cases hLocate
          | some parent =>
              rw [hWalk] at hLocate
              dsimp only at hLocate
              split at hLocate
              · next hDir =>
                have hDir' := h.dir parent hDir
                rw [h.walk (ne_link_of_dir hDir') hWalk]
                dsimp only
                rw [if_pos hDir']
                exact hLocate
              · cases hLocate

end Keeps

theorem locate_ne_root {t : Volume} {path : Text} {l : Location} (h : t.locate path = some l) :
    l ≠ [] := by
  unfold Volume.locate at h
  split at h
  · cases h
  · split at h
    · cases h
    · split at h
      · cases h
      · split at h
        · cases h
        · split at h
          · obtain rfl := Option.some.inj h
            exact List.append_ne_nil_of_right_ne_nil _ (List.cons_ne_nil _ _)
          · cases h

/-- The tree after effects, taken in order. -/
def Volume.after (t : Volume) (effects : List Effect) : Volume := effects.foldl Effect.apply t

/-- An effect removes what may be lost or writes a file that may be written. -/
def Effect.Within (written lost : Location → Prop) : Effect → Prop
  | remove l => lost l
  | write l _ => written l
  | mkdir _ => False

/-- A path leads to a location where a file stands, or would lead there if
one stood there. -/
def Volume.Leads (t : Volume) (path : Text) (l : Location) : Prop :=
  ∃ data, (t.put l (.file data)).resolve path = some l

section Histories

variable {t : Volume} {effects : List Effect} {l : Location} {written lost : Location → Prop}

theorem Effect.Within.mono {written' lost' : Location → Prop} {e : Effect}
    (hWritten : ∀ l, written l → written' l) (hLost : ∀ l, lost l → lost' l)
    (h : e.Within written lost) : e.Within written' lost' := by
  cases e with
  | remove l => exact hLost l h
  | write l _ => exact hWritten l h
  | mkdir _ => exact h

@[simp] theorem after_nil : t.after [] = t := rfl

@[simp] theorem after_cons (e : Effect) : t.after (e :: effects) = (e.apply t).after effects := rfl

theorem after_append (more : List Effect) :
    t.after (effects ++ more) = (t.after effects).after more := List.foldl_append

@[simp] theorem cwd_after : (t.after effects).cwd = t.cwd := by
  induction effects generalizing t with
  | nil => rfl
  | cons e effects ih => rw [after_cons, ih, cwd_apply]

/-- What no effect is about stays as it is. -/
theorem node_after_of_ne (h : ∀ e ∈ effects, l ≠ e.target) :
    (t.after effects).node l = t.node l := by
  induction effects generalizing t with
  | nil => rfl
  | cons e effects ih =>
      have hRest : ∀ e ∈ effects, l ≠ e.target := fun e hMem => h e (List.mem_cons_of_mem _ hMem)
      rw [after_cons, ih hRest, node_apply_of_ne (h e List.mem_cons_self)]

theorem node_root : t.node [] = some .dir := by rw [Volume.node, if_pos rfl]

/-- What stands at a location other than the root is in the list of entries. -/
theorem mem_entries_of_node {inode : Inode} (hRoot : l ≠ []) (h : t.node l = some inode) :
    (l, inode) ∈ t.entries := by
  rw [Volume.node, if_neg hRoot] at h
  obtain ⟨before, after, hEntries, _⟩ := List.lookup_eq_some_iff.mp h
  rw [hEntries]
  exact List.mem_append_right _ List.mem_cons_self

/-- What stands in the tree afterwards stood there before, or is a file that
was written. -/
theorem node_after (h : ∀ e ∈ effects, e.Within written lost) {inode : Inode}
    (hNode : (t.after effects).node l = some inode) :
    t.node l = some inode ∨ (∃ data, inode = .file data) ∧ written l := by
  induction effects generalizing t with
  | nil => exact .inl hNode
  | cons e effects ih =>
      have hRest : ∀ e ∈ effects, e.Within written lost :=
        fun e hMem => h e (List.mem_cons_of_mem _ hMem)
      have hFirst := h e List.mem_cons_self
      rw [after_cons] at hNode
      cases ih hRest hNode with
      | inr hWritten => exact .inr hWritten
      | inl hNode =>
          by_cases hOther : l = e.target
          · by_cases hRoot : l = []
            · subst hRoot
              rw [node_root] at hNode ⊢
              exact .inl hNode
            · subst hOther
              cases e with
              | remove l =>
                  have hGone : (t.remove l).node l = none := node_remove_self hRoot
                  exact nomatch hGone.symm.trans hNode
              | write l data =>
                  have hPut : (t.put l (.file data)).node l = some (.file data) :=
                    node_put_self _ hRoot
                  exact .inr ⟨⟨data, Option.some.inj (hNode.symm.trans hPut)⟩, hFirst⟩
              | mkdir _ => exact hFirst.elim
          · rw [node_apply_of_ne hOther] at hNode
            exact .inl hNode

/-- A file that may not be lost is still a file afterwards. -/
theorem file_after (h : ∀ e ∈ effects, e.Within written lost) (hKept : ¬ lost l)
    (hFile : ∃ data, t.node l = some (.file data)) :
    ∃ data, (t.after effects).node l = some (.file data) := by
  induction effects generalizing t with
  | nil => exact hFile
  | cons e effects ih =>
      apply ih fun e hMem => h e (List.mem_cons_of_mem _ hMem)
      have hFirst := h e List.mem_cons_self
      by_cases hOther : l = e.target
      · have hRoot : l ≠ [] := by
          rintro rfl
          obtain ⟨data, hData⟩ := hFile
          exact nomatch node_root.symm.trans hData
        subst hOther
        cases e with
        | remove l => exact absurd hFirst hKept
        | write l data => exact ⟨data, node_put_self _ hRoot⟩
        | mkdir _ => exact hFirst.elim
      · rw [node_apply_of_ne hOther]
        exact hFile

/-- All directories and links of a later tree stand in the earlier one. -/
theorem after_keeps (h : ∀ e ∈ effects, e.Within written lost) : (t.after effects).Keeps t where
  cwd := cwd_after.symm
  dir _ hNode := (node_after h hNode).resolve_right fun hFile => nomatch hFile.1.choose_spec
  link _ _ hNode := (node_after h hNode).resolve_right fun hFile => nomatch hFile.1.choose_spec

theorem Volume.Keeps.leads {s : Volume} (h : s.Keeps t) {path : Text}
    (hLeads : s.Leads path l) : t.Leads path l := by
  obtain ⟨data, hResolve⟩ := hLeads
  have hOwn : (t.put l (.file data)).node l = (s.put l (.file data)).node l := by
    by_cases hRoot : l = []
    · rw [hRoot, node_root, node_root]
    · rw [node_put_self _ hRoot, node_put_self _ hRoot]
  have hPut : (s.put l (.file data)).Keeps (t.put l (.file data)) := {
    cwd := by rw [cwd_put, cwd_put, h.cwd]
    dir := by
      intro l' hDir
      by_cases hSame : l' = l
      · exact hSame ▸ hOwn.trans (hSame ▸ hDir)
      · rw [node_put_of_ne _ hSame] at hDir ⊢
        exact h.dir l' hDir
    link := by
      intro l' target hLink
      by_cases hSame : l' = l
      · exact hSame ▸ hOwn.trans (hSame ▸ hLink)
      · rw [node_put_of_ne _ hSame] at hLink ⊢
        exact h.link l' target hLink }
  refine ⟨data, hPut.resolve ?_ hResolve⟩
  by_cases hRoot : l = []
  · exact ne_link_of_dir (hRoot ▸ node_root)
  · exact ne_link_of_file (node_put_self _ hRoot)

/-- A location that a path leads to behind the effects is one that it led to
in front of them, unless an entry on the way has been made by them. -/
theorem leads_after (h : ∀ e ∈ effects, e.Within written lost) {path : Text}
    (hDir : (t.after effects).node l ≠ some .dir)
    (hLink : ∀ target, (t.after effects).node l ≠ some (.link target))
    (hResolve : (t.after effects).resolve path = some l) : t.Leads path l := by
  have hRoot : l ≠ [] := fun hRoot => hDir (hRoot ▸ node_root)
  let blank : FileData := { content := [], modified := 0, executable := false }
  have hKeeps : (t.after effects).Keeps (t.put l (.file blank)) := {
    cwd := by rw [cwd_put, cwd_after]
    dir := by
      intro l' hNode
      have hNe : l' ≠ l := fun hSame => hDir (hSame ▸ hNode)
      rw [node_put_of_ne _ hNe]
      exact (after_keeps h).dir l' hNode
    link := by
      intro l' target hNode
      have hNe : l' ≠ l := fun hSame => hLink target (hSame ▸ hNode)
      rw [node_put_of_ne _ hNe]
      exact (after_keeps h).link l' target hNode }
  exact ⟨blank, hKeeps.resolve (ne_link_of_file (node_put_self _ hRoot)) hResolve⟩

/-- A path that gives a file afterwards gave the same file before, or leads
to what was written. -/
theorem stat_file_after (h : ∀ e ∈ effects, e.Within written lost) {path : Text}
    {data : FileData} (hStat : (t.after effects).stat path = some (.file data)) :
    t.stat path = some (.file data) ∨ ∃ l, written l ∧ t.Leads path l := by
  obtain ⟨l, hResolve, hNode, hLink⟩ := stat_eq_some.mp hStat
  have hDir : (t.after effects).node l ≠ some .dir := by
    rw [hNode]
    exact fun hSame => nomatch hSame
  cases node_after h hNode with
  | inl hBefore =>
      have hBeforeResolve := (after_keeps h).resolve (ne_link_of_file hBefore) hResolve
      exact .inl (stat_eq_some.mpr ⟨l, hBeforeResolve, hBefore, hLink⟩)
  | inr hWritten =>
      exact .inr ⟨l, hWritten.2, leads_after h hDir (ne_link_of_file hNode) hResolve⟩

/-- An effect that keeps every directory, every link and every file's place. -/
def Effect.Grows (t : Volume) : Effect → Prop
  | remove _ => False
  | write l _ => t.node l = none ∨ ∃ data, t.node l = some (.file data)
  | mkdir l => t.node l = none

/-- Each effect grows the tree that it meets. -/
def Volume.Grows : Volume → List Effect → Prop
  | _, [] => True
  | t, e :: effects => e.Grows t ∧ (e.apply t).Grows effects

theorem grows_append (more : List Effect) :
    t.Grows (effects ++ more) ↔ t.Grows effects ∧ (t.after effects).Grows more := by
  induction effects generalizing t with
  | nil => exact ⟨fun h => ⟨trivial, h⟩, And.right⟩
  | cons e effects ih =>
      rw [List.cons_append, Volume.Grows, ih, Volume.Grows, and_assoc, after_cons]

theorem apply_keeps {e : Effect} (h : e.Grows t) : t.Keeps (e.apply t) := by
  have hFree : ∀ l inode, t.node l = some inode → (inode = .dir ∨ ∃ target, inode = .link target) →
      l ≠ e.target := by
    intro l inode hNode hInode hSame
    subst hSame
    cases e with
    | remove _ => exact h
    | mkdir l => exact nomatch h.symm.trans hNode
    | write l data =>
        cases h with
        | inl hNone => exact nomatch hNone.symm.trans hNode
        | inr hFile =>
            obtain ⟨old, hOld⟩ := hFile
            obtain rfl := Option.some.inj (hOld.symm.trans hNode)
            cases hInode with
            | inl hDir => cases hDir
            | inr hLink => exact nomatch hLink.choose_spec
  constructor
  · exact cwd_apply e
  · intro l hNode
    rw [node_apply_of_ne (hFree l _ hNode (.inl rfl))]
    exact hNode
  · intro l target hNode
    rw [node_apply_of_ne (hFree l _ hNode (.inr ⟨target, rfl⟩))]
    exact hNode

theorem file_apply {e : Effect} (h : e.Grows t) (hFile : ∃ data, t.node l = some (.file data)) :
    ∃ data, (e.apply t).node l = some (.file data) := by
  obtain ⟨data, hData⟩ := hFile
  have hRoot : l ≠ [] := by
    rintro rfl
    exact nomatch node_root.symm.trans hData
  by_cases hOther : l = e.target
  · subst hOther
    cases e with
    | remove _ => exact h.elim
    | mkdir l => exact nomatch h.symm.trans hData
    | write l new => exact ⟨new, node_put_self _ hRoot⟩
  · exact ⟨data, (node_apply_of_ne hOther).trans hData⟩

theorem grows_keeps (h : t.Grows effects) : t.Keeps (t.after effects) := by
  induction effects generalizing t with
  | nil => exact ⟨rfl, fun _ hDir => hDir, fun _ _ hLink => hLink⟩
  | cons e effects ih => exact (apply_keeps h.1).trans (ih h.2)

theorem grows_file (h : t.Grows effects) (hFile : ∃ data, t.node l = some (.file data)) :
    ∃ data, (t.after effects).node l = some (.file data) := by
  induction effects generalizing t with
  | nil => exact hFile
  | cons e effects ih => exact ih h.2 (file_apply h.1 hFile)

end Histories

def Volume.LinkFree (t : Volume) : Prop := ∀ l target, t.node l ≠ some (.link target)

section LinkFree

variable {t : Volume} {path name : Text} {l : Location}

/-- A volume without an entry that is a link has no link anywhere. -/
theorem linkFree_of_entries (h : ∀ entry ∈ t.entries, entry.2.isLink = false) :
    t.LinkFree := by
  intro l target hNode
  by_cases hRoot : l = []
  · subst hRoot
    exact nomatch node_root.symm.trans hNode
  · exact nomatch h _ (mem_entries_of_node hRoot hNode)

theorem components_entry (hProper : properName name = true) (hDot : name ≠ ['.']) :
    components (path ++ '/' :: name) = components path ++ [name] := by
  rw [properName, Bool.and_eq_true, decide_eq_true_iff, Bool.not_eq_true',
    List.contains_eq_mem, decide_eq_false_iff_not] at hProper
  have hSingle : name.splitOnP (· = '/') = [name] := by
    apply List.splitOnP_eq_singleton
    intro c hMem
    exact decide_eq_false fun hSlash => hProper.2 (hSlash ▸ hMem)
  rw [components, List.splitOnP_append_cons _ _ (by decide), List.filter_append, hSingle,
    List.filter_cons_of_pos (by simp [hProper.1, hDot]), List.filter_nil, components]

/-- Without links the names are walked one part after the other. -/
theorem walkWith_append (hFree : t.LinkFree) (follow : Location → List Text → Option Location)
    (cur : Location) (first second : List Text) :
    t.walkWith follow cur (first ++ second) =
      (t.walkWith follow cur first).bind fun l => t.walkWith follow l second := by
  induction first generalizing cur with
  | nil => rfl
  | cons next first ih =>
      by_cases hDir : t.node cur = some .dir
      · by_cases hUp : next = ['.', '.']
        · subst hUp
          rw [List.cons_append, walkWith_up hDir, walkWith_up hDir, ih]
        · rw [List.cons_append, walkWith_name hDir hUp (hFree _),
            walkWith_name hDir hUp (hFree _), ih]
      · rw [List.cons_append, Volume.walkWith, if_pos hDir, Volume.walkWith, if_pos hDir]
        rfl

/-- Without links the names are walked one part after the other, within any
limit on links. -/
theorem walk_append (hFree : t.LinkFree) (links : Nat) (cur : Location)
    (first second : List Text) :
    t.walk links cur (first ++ second) =
      (t.walk links cur first).bind fun l => t.walk links l second := by
  cases links with
  | zero => exact walkWith_append hFree _ cur first second
  | succ links => exact walkWith_append hFree _ cur first second

theorem walk_single (hFree : t.LinkFree) {links : Nat} {cur : Location}
    (hName : name ≠ ['.', '.']) :
    t.walk links cur [name] = if t.node cur = some .dir then some (cur ++ [name]) else none := by
  have hStep : ∀ follow, t.walkWith follow cur [name] =
      if t.node cur = some .dir then some (cur ++ [name]) else none := by
    intro follow
    split
    · next hDir => rw [walkWith_name hDir hName (hFree _), Volume.walkWith]
    · next hDir => rw [Volume.walkWith, if_pos hDir]
  cases links with
  | zero => exact hStep _
  | succ links => exact hStep _

/-- Without links a path gives the same place with its last name followed or
not. -/
theorem resolve_of_locate (hFree : t.LinkFree) (h : t.locate path = some l) :
    t.resolve path = some l := by
  unfold Volume.locate at h
  unfold Volume.resolve
  split at h
  · cases h
  · next hLength =>
    rw [if_neg hLength]
    split at h
    · cases h
    · next name hLast =>
      split at h
      · cases h
      · next hUp =>
        split at h
        · cases h
        · next parent hWalk =>
          have hSplit : components path = (components path).dropLast ++ [name] :=
            (List.dropLast_append_getLast? name hLast).symm
          rw [hSplit, walk_append hFree, hWalk, Option.bind_some, walk_single hFree hUp]
          exact h

/-- Without links an entry of a directory lies where the directory does. -/
theorem resolve_entry (hFree : t.LinkFree) (hPath : path ≠ [])
    (hProper : properName name = true) (hDot : name.head? ≠ some '.')
    (h : t.resolve (path ++ '/' :: name) = some l) :
    ∃ base, t.resolve path = some base ∧ l = base ++ [name] := by
  have hNotDot : name ≠ ['.'] := fun hSame => hDot (hSame ▸ rfl)
  have hNotUp : name ≠ ['.', '.'] := fun hSame => hDot (hSame ▸ rfl)
  unfold Volume.resolve at h ⊢
  split at h
  · cases h
  · next hLength =>
    rw [List.length_append] at hLength
    rw [if_neg (by
      rintro (hEmpty | hLong)
      · exact hPath hEmpty
      · exact hLength (.inr (by omega)))]
    have hStart : t.startOf (path ++ '/' :: name) = t.startOf path := by
      rw [Volume.startOf, Volume.startOf, List.head?_append_of_ne_nil _ hPath]
    rw [components_entry hProper hNotDot, hStart, walk_append hFree] at h
    obtain ⟨base, hBase, hEntry⟩ := Option.bind_eq_some_iff.mp h
    rw [walk_single hFree hNotUp] at hEntry
    split at hEntry
    · exact ⟨base, hBase, (Option.some.inj hEntry).symm⟩
    · cases hEntry

end LinkFree

end FileTree
