import Gtexswifi.Library.FileTree

/-! Ways through a file tree: the links that a walk follows, how walks are
put together and taken apart, and which of them are still open in another
tree. -/
namespace FileTree

/-- Where the target of a link is read from, for a link in a directory. -/
def linkStart (cur : Location) (target : Text) : Location :=
  if target.head? = some '/' then [] else cur

/-- A walk over names, with the places of the links that it follows. -/
inductive Goes (t : Volume) : Location → List Text → List Location → Location → Prop where
  | done (cur : Location) : Goes t cur [] [] cur
  | up {cur l : Location} {rest : List Text} {via : List Location} :
      t.node cur = some .dir → Goes t cur.dropLast rest via l →
      Goes t cur (['.', '.'] :: rest) via l
  | name {cur l : Location} {name : Text} {rest : List Text} {via : List Location} :
      t.node cur = some .dir → name ≠ ['.', '.'] →
      (∀ target, t.node (cur ++ [name]) ≠ some (.link target)) →
      Goes t (cur ++ [name]) rest via l → Goes t cur (name :: rest) via l
  | link {cur l : Location} {name target : Text} {rest : List Text} {via : List Location} :
      t.node cur = some .dir → name ≠ ['.', '.'] →
      t.node (cur ++ [name]) = some (.link target) →
      Goes t (linkStart cur target) (components target ++ rest) via l →
      Goes t cur (name :: rest) ((cur ++ [name]) :: via) l

section Goes

variable {t s : Volume} {cur l : Location} {names : List Text} {via : List Location}

/-- A walk goes a way. The links that it follows are those on the way. -/
theorem walkWith_goes {follow : Location → List Text → Option Location} {links : Nat}
    (hFollow : ∀ cur names, follow cur names = some l →
      ∃ via, via.length + 1 ≤ links ∧ Goes t cur names via l)
    (h : t.walkWith follow cur names = some l) :
    ∃ via, via.length ≤ links ∧ Goes t cur names via l := by
  induction names generalizing cur with
  | nil =>
      obtain rfl := Option.some.inj h
      exact ⟨[], Nat.zero_le _, .done cur⟩
  | cons name rest ih =>
      have hDir := walkWith_dir h
      by_cases hUp : name = ['.', '.']
      · subst hUp
        rw [walkWith_up hDir] at h
        obtain ⟨via, hLinks, hGoes⟩ := ih h
        exact ⟨via, hLinks, .up hDir hGoes⟩
      · by_cases hLink : ∃ target, t.node (cur ++ [name]) = some (.link target)
        · obtain ⟨target, hTarget⟩ := hLink
          rw [walkWith_link hDir hUp hTarget] at h
          obtain ⟨via, hLinks, hGoes⟩ := hFollow _ _ h
          exact ⟨(cur ++ [name]) :: via, hLinks, .link hDir hUp hTarget hGoes⟩
        · rw [walkWith_name hDir hUp (not_exists.mp hLink)] at h
          obtain ⟨via, hLinks, hGoes⟩ := ih h
          exact ⟨via, hLinks, .name hDir hUp (not_exists.mp hLink) hGoes⟩

/-- A walk within a limit on links goes a way with not more of them. -/
theorem goes_of_walk {links : Nat} (h : t.walk links cur names = some l) :
    ∃ via, via.length ≤ links ∧ Goes t cur names via l := by
  induction links generalizing cur names with
  | zero =>
      refine walkWith_goes ?_ h
      intro cur names hFollow
      cases hFollow
  | succ links ih =>
      refine walkWith_goes ?_ h
      intro cur names hFollow
      obtain ⟨via, hLinks, hGoes⟩ := ih hFollow
      exact ⟨via, Nat.succ_le_succ hLinks, hGoes⟩

/-- A way with not more links than allowed is walked to its end. -/
theorem Goes.walk (h : Goes t cur names via l) {links : Nat} (hLinks : via.length ≤ links) :
    t.walk links cur names = some l := by
  induction h generalizing links with
  | done cur =>
      cases links with
      | zero => rfl
      | succ links => rfl
  | up hDir _ ih =>
      have hRest := ih hLinks
      cases links with
      | zero => exact (walkWith_up hDir).trans hRest
      | succ links => exact (walkWith_up hDir).trans hRest
  | name hDir hUp hLink _ ih =>
      have hRest := ih hLinks
      cases links with
      | zero => exact (walkWith_name hDir hUp hLink).trans hRest
      | succ links => exact (walkWith_name hDir hUp hLink).trans hRest
  | link hDir hUp hTarget _ ih =>
      cases links with
      | zero => exact absurd hLinks (Nat.not_succ_le_zero _)
      | succ links =>
          exact (walkWith_link hDir hUp hTarget).trans (ih (Nat.le_of_succ_le_succ hLinks))

theorem Goes.dir {name : Text} (h : Goes t cur (name :: names) via l) : t.node cur = some .dir := by
  cases h with
  | up hDir _ => exact hDir
  | name hDir _ _ _ => exact hDir
  | link hDir _ _ _ => exact hDir

/-- A walk has one course. -/
theorem Goes.eq (h : Goes t cur names via l) {via' : List Location} {l' : Location}
    (h' : Goes t cur names via' l') : via = via' ∧ l = l' := by
  induction h generalizing via' with
  | done cur =>
      cases h' with
      | done _ => exact ⟨rfl, rfl⟩
  | up _ _ ih =>
      cases h' with
      | up _ hRest => exact ih hRest
      | name _ hUp _ _ => exact absurd rfl hUp
      | link _ hUp _ _ => exact absurd rfl hUp
  | name _ hUp hLink _ ih =>
      cases h' with
      | up _ _ => exact absurd rfl hUp
      | name _ _ _ hRest => exact ih hRest
      | link _ _ hTarget _ => exact absurd hTarget (hLink _)
  | link _ hUp hTarget _ ih =>
      cases h' with
      | up _ _ => exact absurd rfl hUp
      | name _ _ hLink _ => exact absurd hTarget (hLink _)
      | link _ _ hTarget' hRest =>
          obtain rfl := Inode.link.inj (Option.some.inj (hTarget.symm.trans hTarget'))
          obtain ⟨rfl, rfl⟩ := ih hRest
          exact ⟨rfl, rfl⟩

/-- Two ways, the second from where the first has come to, are one. -/
theorem Goes.append (h : Goes t cur names via l) {names' : List Text} {via' : List Location}
    {l' : Location} (h' : Goes t l names' via' l') :
    Goes t cur (names ++ names') (via ++ via') l' := by
  induction h with
  | done cur => exact h'
  | up hDir _ ih => exact .up hDir (ih h')
  | name hDir hUp hLink _ ih => exact .name hDir hUp hLink (ih h')
  | link hDir hUp hTarget _ ih =>
      have hRest := ih h'
      rw [List.append_assoc] at hRest
      exact .link hDir hUp hTarget hRest

/-- A way over two runs of names comes by a place between them. -/
theorem Goes.split {first second : List Text} (h : Goes t cur (first ++ second) via l) :
    ∃ before middle after, Goes t cur first before middle ∧ Goes t middle second after l ∧
      via = before ++ after := by
  generalize hNames : first ++ second = names at h
  induction h generalizing first with
  | done cur =>
      obtain ⟨rfl, rfl⟩ := List.append_eq_nil_iff.mp hNames
      exact ⟨[], cur, [], .done cur, .done cur, rfl⟩
  | @up cur l rest via hDir hRest ih =>
      cases first with
      | nil =>
          subst hNames
          exact ⟨[], cur, via, .done cur, .up hDir hRest, rfl⟩
      | cons name first =>
          obtain ⟨rfl, hFirst⟩ := List.cons.inj hNames
          obtain ⟨before, middle, after, hBefore, hAfter, rfl⟩ := ih hFirst
          exact ⟨before, middle, after, .up hDir hBefore, hAfter, rfl⟩
  | @name cur l name rest via hDir hUp hLink hRest ih =>
      cases first with
      | nil =>
          subst hNames
          exact ⟨[], cur, via, .done cur, .name hDir hUp hLink hRest, rfl⟩
      | cons name first =>
          obtain ⟨rfl, hFirst⟩ := List.cons.inj hNames
          obtain ⟨before, middle, after, hBefore, hAfter, rfl⟩ := ih hFirst
          exact ⟨before, middle, after, .name hDir hUp hLink hBefore, hAfter, rfl⟩
  | @link cur l name target rest via hDir hUp hTarget hRest ih =>
      cases first with
      | nil =>
          subst hNames
          exact ⟨[], cur, _, .done cur, .link hDir hUp hTarget hRest, rfl⟩
      | cons name first =>
          obtain ⟨rfl, hFirst⟩ := List.cons.inj hNames
          have hTail : (components target ++ first) ++ second = components target ++ rest := by
            rw [List.append_assoc, ← hFirst]
            rfl
          obtain ⟨before, middle, after, hBefore, hAfter, rfl⟩ := ih hTail
          exact ⟨_, middle, after, .link hDir hUp hTarget hBefore, hAfter, rfl⟩

/-- A walk over one name ends at the entry, or goes on where the entry links
to. -/
theorem goes_single {name : Text} (hUp : name ≠ ['.', '.']) :
    Goes t cur [name] via l ↔ t.node cur = some .dir ∧
      ((via = [] ∧ l = cur ++ [name] ∧ ∀ target, t.node l ≠ some (.link target)) ∨
        ∃ target rest, t.node (cur ++ [name]) = some (.link target) ∧
          via = (cur ++ [name]) :: rest ∧
          Goes t (linkStart cur target) (components target) rest l) := by
  constructor
  · intro h
    refine ⟨h.dir, ?_⟩
    cases h with
    | up _ _ => exact absurd rfl hUp
    | name _ _ hLink hRest =>
        cases hRest with
        | done _ => exact .inl ⟨rfl, rfl, hLink⟩
    | link _ _ hTarget hRest =>
        rw [List.append_nil] at hRest
        exact .inr ⟨_, _, hTarget, rfl, hRest⟩
  · rintro ⟨hDir, ⟨rfl, rfl, hLink⟩ | ⟨target, rest, hTarget, rfl, hRest⟩⟩
    · exact .name hDir hUp hLink (.done _)
    · apply Goes.link hDir hUp hTarget
      rw [List.append_nil]
      exact hRest

/-- A walk is open in every tree that has the directories and the links that
it goes through. -/
theorem Goes.transfer (h : Goes t cur names via l)
    (hDir : ∀ l, t.node l = some .dir → s.node l = some .dir)
    (hVia : ∀ e ∈ via, ∀ target, t.node e = some (.link target) →
      s.node e = some (.link target))
    (hEnd : ∀ target, s.node l ≠ some (.link target)) : Goes s cur names via l := by
  induction h with
  | done cur => exact .done cur
  | up hCur _ ih => exact .up (hDir _ hCur) (ih hVia hEnd)
  | @name cur l name rest via hCur hUp hLink hRest ih =>
      refine .name (hDir _ hCur) hUp ?_ (ih hVia hEnd)
      cases hRest with
      | done _ => exact hEnd
      | up hNext _ => exact ne_link_of_dir (hDir _ hNext)
      | name hNext _ _ _ => exact ne_link_of_dir (hDir _ hNext)
      | link hNext _ _ _ => exact ne_link_of_dir (hDir _ hNext)
  | link hCur hUp hTarget _ ih =>
      apply Goes.link (hDir _ hCur) hUp (hVia _ List.mem_cons_self _ hTarget)
      exact ih (fun e hMem => hVia e (List.mem_cons_of_mem _ hMem)) hEnd

/-- A way can still be gone in a volume that keeps its directories and
links. -/
theorem Volume.Keeps.goes (hKeeps : t.Keeps s) (h : Goes t cur names via l)
    (hEnd : ∀ target, s.node l ≠ some (.link target)) : Goes s cur names via l :=
  h.transfer hKeeps.dir (fun e _ => hKeeps.link e) hEnd

/-- What a walk goes over by following it is a link. -/
theorem Goes.link_of_mem (h : Goes t cur names via l) {e : Location} (hMem : e ∈ via) :
    ∃ target, t.node e = some (.link target) := by
  induction h with
  | done _ => cases hMem
  | up _ _ ih => exact ih hMem
  | name _ _ _ _ ih => exact ih hMem
  | link _ _ hTarget _ ih =>
      cases List.mem_cons.mp hMem with
      | inl hSame => exact ⟨_, hSame ▸ hTarget⟩
      | inr hLater => exact ih hLater

/-- How a walk goes on from a link that it follows. -/
theorem Goes.onward (h : Goes t cur names via l) {d : Location} {name : Text}
    (hMem : d ++ [name] ∈ via) :
    ∃ target rest before after, t.node (d ++ [name]) = some (.link target) ∧
      Goes t (linkStart d target) (components target ++ rest) after l ∧
      via = before ++ (d ++ [name]) :: after := by
  induction h with
  | done _ => cases hMem
  | up _ _ ih => exact ih hMem
  | name _ _ _ _ ih => exact ih hMem
  | @link cur l name' target rest via _ _ hTarget hRest ih =>
      cases List.mem_cons.mp hMem with
      | inl hSame =>
          obtain ⟨rfl, hName⟩ := List.append_inj' hSame rfl
          obtain rfl := List.singleton_inj.mp hName
          exact ⟨target, rest, [], via, hTarget, hRest, rfl⟩
      | inr hLater =>
          obtain ⟨next, more, before, after, hNext, hAfter, rfl⟩ := ih hLater
          exact ⟨next, more, (cur ++ [name']) :: before, after, hNext, hAfter, rfl⟩

/-- A walk that follows a link which leads to no directory ends where the
link leads. -/
theorem Goes.ends_at (h : Goes t cur names via l) {d m : Location} {name : Text}
    {via' : List Location} (hUp : name ≠ ['.', '.']) (hMem : d ++ [name] ∈ via)
    (hEntry : Goes t d [name] via' m) (hDir : t.node m ≠ some .dir) :
    l = m ∧ ∀ e ∈ via', e ∈ via := by
  obtain ⟨target, rest, before, after, hTarget, hAfter, rfl⟩ := h.onward hMem
  obtain ⟨_, ⟨_, rfl, hLink⟩ | ⟨target', rest', hTarget', rfl, hEntry'⟩⟩ :=
    (goes_single hUp).mp hEntry
  · exact absurd hTarget (hLink _)
  · obtain rfl := Inode.link.inj (Option.some.inj (hTarget.symm.trans hTarget'))
    obtain ⟨first, middle, last, hFirst, hLast, rfl⟩ := hAfter.split
    obtain ⟨rfl, rfl⟩ := hFirst.eq hEntry'
    cases rest with
    | nil =>
        cases hLast with
        | done _ =>
            refine ⟨rfl, ?_⟩
            intro e hE
            rw [List.append_nil]
            exact List.mem_append_right _ hE
    | cons next rest => exact absurd hLast.dir hDir

end Goes

/-- A name under which a directory can list an entry of its own. -/
def Plain (name : Text) : Prop := properName name = true ∧ name ≠ ['.'] ∧ name ≠ ['.', '.']

instance (name : Text) : Decidable (Plain name) :=
  inferInstanceAs (Decidable (_ ∧ _ ∧ _))

/-- What a path leads to, with the links on its way. -/
structure Volume.Way (t : Volume) (path : Text) (via : List Location) (l : Location) : Prop where
  nonempty : path ≠ []
  short : path.length < pathMax
  links : via.length ≤ linksMax
  goes : Goes t (t.startOf path) (components path) via l

section Paths

variable {t s : Volume} {path name : Text} {l : Location}

theorem resolve_eq_some : t.resolve path = some l ↔ ∃ via, t.Way path via l := by
  rw [Volume.resolve]
  constructor
  · intro h
    split at h
    · cases h
    · next hLength =>
      rw [not_or, Nat.not_le] at hLength
      obtain ⟨via, hLinks, hGoes⟩ := goes_of_walk h
      exact ⟨via, hLength.1, hLength.2, hLinks, hGoes⟩
  · rintro ⟨via, hNonempty, hShort, hLinks, hGoes⟩
    rw [if_neg (not_or.mpr ⟨hNonempty, Nat.not_le.mpr hShort⟩)]
    exact hGoes.walk hLinks

theorem stat_eq_way {inode : Inode} : t.stat path = some inode ↔
    ∃ via l, t.Way path via l ∧ t.node l = some inode ∧ inode.isLink = false := by
  rw [stat_eq_some]
  constructor
  · rintro ⟨l, hResolve, hNode, hLink⟩
    obtain ⟨via, hWay⟩ := resolve_eq_some.mp hResolve
    exact ⟨via, l, hWay, hNode, hLink⟩
  · rintro ⟨via, l, hWay, hNode, hLink⟩
    exact ⟨l, resolve_eq_some.mpr ⟨via, hWay⟩, hNode, hLink⟩

/-- The path of an entry starts where the path of its directory does. -/
theorem startOf_entry (hPath : path ≠ []) : t.startOf (path ++ '/' :: name) = t.startOf path := by
  rw [Volume.startOf, Volume.startOf, List.head?_append_of_ne_nil _ hPath]

/-- The way to an entry is the way to its directory and one step more. -/
theorem way_entry (hPath : path ≠ []) (hName : Plain name) {via : List Location} :
    t.Way (path ++ '/' :: name) via l ↔
      (path ++ '/' :: name).length < pathMax ∧ via.length ≤ linksMax ∧
        ∃ before d after, t.Way path before d ∧ Goes t d [name] after l ∧
          via = before ++ after := by
  constructor
  · rintro ⟨_, hShort, hLinks, hGoes⟩
    rw [components_entry hName.1 hName.2.1, startOf_entry hPath] at hGoes
    obtain ⟨before, d, after, hBefore, hAfter, rfl⟩ := hGoes.split
    refine ⟨hShort, hLinks, before, d, after, ?_, hAfter, rfl⟩
    rw [List.length_append] at hShort hLinks
    exact ⟨hPath, by omega, by omega, hBefore⟩
  · rintro ⟨hShort, hLinks, before, d, after, hBefore, hAfter, rfl⟩
    refine ⟨List.append_ne_nil_of_left_ne_nil hPath _, hShort, hLinks, ?_⟩
    rw [components_entry hName.1 hName.2.1, startOf_entry hPath]
    exact hBefore.goes.append hAfter

/-- An entry is located in the directory that the path resolves to, as long
as the path is not too long. -/
theorem locate_entry (hPath : path ≠ []) (hName : Plain name) :
    t.locate (path ++ '/' :: name) = some l ↔
      (path ++ '/' :: name).length < pathMax ∧
        ∃ d, t.resolve path = some d ∧ t.node d = some .dir ∧ l = d ++ [name] := by
  have hLast : (components path ++ [name]).getLast? = some name := List.getLast?_concat ..
  rw [Volume.locate, components_entry hName.1 hName.2.1, startOf_entry hPath, hLast,
    List.dropLast_concat]
  dsimp only
  rw [if_neg hName.2.2]
  constructor
  · intro h
    split at h
    · cases h
    · next hLength =>
      rw [not_or, Nat.not_le] at hLength
      have hShort : ¬ (path = [] ∨ pathMax ≤ path.length) := by
        rw [List.length_append] at hLength
        rw [not_or, Nat.not_le]
        exact ⟨hPath, by omega⟩
      refine ⟨hLength.2, ?_⟩
      rw [Volume.resolve, if_neg hShort]
      split at h
      · cases h
      · next d hWalk =>
        split at h
        · next hDir => exact ⟨d, hWalk, hDir, (Option.some.inj h).symm⟩
        · cases h
  · rintro ⟨hShort, d, hResolve, hDir, rfl⟩
    rw [if_neg (not_or.mpr ⟨List.append_ne_nil_of_left_ne_nil hPath _, Nat.not_le.mpr hShort⟩)]
    rw [Volume.resolve] at hResolve
    split at hResolve
    · cases hResolve
    · rw [hResolve]
      dsimp only
      rw [if_pos hDir]

/-- The last step of a way goes over the entry that its last name names. -/
theorem locate_of_way {via : List Location} (h : t.Way path via l)
    (hLast : (components path).getLast? = some name) (hUp : name ≠ ['.', '.']) :
    ∃ d after, t.locate path = some (d ++ [name]) ∧ t.node d = some .dir ∧
      Goes t d [name] after l := by
  have hGoes := h.goes
  have hLinks := h.links
  rw [← List.dropLast_append_getLast? name hLast] at hGoes
  obtain ⟨before, d, after, hBefore, hAfter, rfl⟩ := hGoes.split
  rw [List.length_append] at hLinks
  refine ⟨d, after, ?_, hAfter.dir, hAfter⟩
  rw [Volume.locate, if_neg (not_or.mpr ⟨h.nonempty, Nat.not_le.mpr h.short⟩), hLast]
  dsimp only
  rw [if_neg hUp, hBefore.walk (Nat.le_of_add_right_le hLinks)]
  dsimp only
  rw [if_pos hAfter.dir]

/-- What is located is named by the last component, which is not two dots. -/
theorem last_of_locate (h : t.locate path = some l) :
    ∃ name, (components path).getLast? = some name ∧ name ≠ ['.', '.'] := by
  unfold Volume.locate at h
  split at h
  · cases h
  · split at h
    · cases h
    · next name hLast =>
      split at h
      · cases h
      · next hUp => exact ⟨name, hLast, hUp⟩

/-- An entry whose path gives a file is that file or a link. -/
theorem node_of_locate {data : FileData} (hLocate : t.locate path = some l)
    (hStat : t.stat path = some (.file data)) : t.node l ≠ none ∧ t.node l ≠ some .dir := by
  obtain ⟨name, hLast, hUp⟩ := last_of_locate hLocate
  obtain ⟨via, m, hWay, hNode, _⟩ := stat_eq_way.mp hStat
  obtain ⟨d, after, hPlace, _, hAfter⟩ := locate_of_way hWay hLast hUp
  obtain rfl := Option.some.inj (hLocate.symm.trans hPlace)
  obtain ⟨_, ⟨_, rfl, _⟩ | ⟨target, _, hTarget, _⟩⟩ := (goes_single hUp).mp hAfter
  · rw [hNode]
    exact ⟨Option.some_ne_none _, fun h => by cases h⟩
  · rw [hTarget]
    exact ⟨Option.some_ne_none _, fun h => by cases h⟩

/-- The path of an entry that is no link leads to it. -/
theorem resolve_of_entry (hLocate : t.locate path = some l)
    (hEnd : ∀ target, t.node l ≠ some (.link target)) : t.resolve path = some l := by
  obtain ⟨name, hLast, hUp⟩ := last_of_locate hLocate
  unfold Volume.locate at hLocate
  rw [hLast] at hLocate
  unfold Volume.resolve
  split at hLocate
  · cases hLocate
  · next hLength =>
    rw [if_neg hLength]
    dsimp only at hLocate
    rw [if_neg hUp] at hLocate
    split at hLocate
    · cases hLocate
    · next d hWalk =>
      split at hLocate
      · next hParent =>
        obtain rfl := Option.some.inj hLocate
        obtain ⟨via, hLinks, hGoes⟩ := goes_of_walk hWalk
        have hStep : Goes t d [name] [] (d ++ [name]) :=
          (goes_single hUp).mpr ⟨hParent, .inl ⟨rfl, rfl, hEnd⟩⟩
        have hAll := hGoes.append hStep
        rw [List.dropLast_append_getLast? name hLast, List.append_nil] at hAll
        exact hAll.walk hLinks
      · cases hLocate

theorem resolve_of_dir (hLocate : t.locate path = some l) (hDir : t.node l = some .dir) :
    t.resolve path = some l := resolve_of_entry hLocate (ne_link_of_dir hDir)

theorem stat_of_entry {data : FileData} (hLocate : t.locate path = some l)
    (hFile : t.node l = some (.file data)) : t.stat path = some (.file data) :=
  stat_eq_some.mpr ⟨l, resolve_of_entry hLocate (ne_link_of_file hFile), hFile, rfl⟩

/-- What a directory lists is what stands in it. -/
theorem mem_names : name ∈ t.names l ↔ properName name = true ∧ t.node (l ++ [name]) ≠ none := by
  rw [Volume.names, List.mem_filter, and_comm, List.mem_filterMap, Volume.node,
    if_neg (List.append_ne_nil_of_right_ne_nil _ (List.cons_ne_nil _ _)), ne_eq,
    List.lookup_eq_none_iff]
  apply and_congr_right'
  constructor
  · rintro ⟨entry, hEntry, hName⟩ hNone
    split at hName
    · next hParent =>
      have hPlace : entry.1 = l ++ [name] := by
        rw [← hParent, List.dropLast_append_getLast? name hName]
      exact absurd (hNone entry hEntry) (by simp [hPlace])
    · cases hName
  · intro hSome
    simp only [not_forall] at hSome
    obtain ⟨entry, hEntry, hSame⟩ := hSome
    have hPlace : entry.1 = l ++ [name] := by simpa using (Eq.symm (by simpa using hSame))
    exact ⟨entry, hEntry, by simp [hPlace]⟩

theorem Volume.Keeps.way (hKeeps : t.Keeps s) {via : List Location} (h : t.Way path via l)
    (hEnd : ∀ target, s.node l ≠ some (.link target)) : s.Way path via l where
  nonempty := h.nonempty
  short := h.short
  links := h.links
  goes := by
    rw [hKeeps.startOf]
    exact hKeeps.goes h.goes hEnd

/-- All that stands in the first volume stands in the second. -/
structure Volume.PartOf (s t : Volume) : Prop where
  cwd : s.cwd = t.cwd
  node : ∀ l inode, s.node l = some inode → t.node l = some inode

theorem Volume.PartOf.refl (t : Volume) : t.PartOf t := ⟨rfl, fun _ _ hNode => hNode⟩

theorem Volume.PartOf.trans {r : Volume} (h : r.PartOf s) (h' : s.PartOf t) : r.PartOf t :=
  ⟨h.cwd.trans h'.cwd, fun l inode hNode => h'.node l inode (h.node l inode hNode)⟩

theorem Volume.PartOf.keeps (h : s.PartOf t) : s.Keeps t where
  cwd := h.cwd.symm
  dir l := h.node l .dir
  link l target := h.node l (.link target)

theorem Volume.PartOf.stat (h : s.PartOf t) {inode : Inode} (hStat : s.stat path = some inode) :
    t.stat path = some inode := by
  obtain ⟨l, hResolve, hNode, hLink⟩ := stat_eq_some.mp hStat
  have hKept := h.node l inode hNode
  refine stat_eq_some.mpr ⟨l, h.keeps.resolve ?_ hResolve, hKept, hLink⟩
  intro target hTarget
  obtain rfl := Option.some.inj (hKept.symm.trans hTarget)
  cases hLink

theorem Volume.PartOf.remove (t : Volume) (l : Location) : (t.remove l).PartOf t where
  cwd := rfl
  node l' inode hNode := by
    by_cases hSame : l' = l
    · subst hSame
      by_cases hRoot : l' = []
      · subst hRoot
        rw [← hNode, node_root]
        exact node_root.symm
      · cases (node_remove_self hRoot).symm.trans hNode
    · exact (node_remove_of_ne hSame).symm.trans hNode

/-- Effects that only remove leave a part. -/
theorem part_after {effects : List Effect} {lost : Location → Prop}
    (h : ∀ e ∈ effects, e.Within (fun _ => False) lost) : (t.after effects).PartOf t := by
  induction effects generalizing t with
  | nil => exact .refl t
  | cons e effects ih =>
      obtain ⟨hFirst, hRest⟩ := List.forall_mem_cons.mp h
      cases e with
      | remove l => exact (ih hRest).trans (.remove t l)
      | write _ _ => exact hFirst.elim
      | mkdir _ => exact hFirst.elim

/-- What is gone has been removed. -/
theorem remove_of_gone {effects : List Effect} {lost : Location → Prop}
    (h : ∀ e ∈ effects, e.Within (fun _ => False) lost) (hBefore : t.node l ≠ none)
    (hGone : (t.after effects).node l = none) : .remove l ∈ effects := by
  by_contra hKept
  apply hBefore
  rw [← hGone, node_after_of_ne]
  rintro e hMem rfl
  cases e with
  | remove _ => exact hKept hMem
  | write _ _ => exact (h _ hMem).elim
  | mkdir _ => exact (h _ hMem).elim

/-- A directory is opened where the path resolves to one, and its names are
listed. -/
theorem opendir_eq_some {names : List Text} : t.opendir path = some names ↔
    ∃ l, t.resolve path = some l ∧ t.node l = some .dir ∧ names = t.names l := by
  rw [Volume.opendir, Option.bind_eq_some_iff]
  apply exists_congr
  intro l
  apply and_congr_right'
  constructor
  · intro h
    split at h
    · next hDir => exact ⟨hDir, (Option.some.inj h).symm⟩
    · cases h
  · rintro ⟨hDir, rfl⟩
    rw [if_pos hDir]

end Paths

end FileTree
