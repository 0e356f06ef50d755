import Gtexswifi.Dtbtool.Scan
import Gtexswifi.Library.LinkedNodes
import Gtexswifi.Library.Transition

/-! The list behind `chip_list`: nodes in memory that `chip_add` links to
each other. Of a node that is not yet in the list, the links may be
anything. -/
namespace Dtbtool

open LinkedNodes

/-- The nodes in memory, and the first one of the list. -/
structure ChipHeap (α : Type*) where
  nodes : Nodes α ChipInfo
  chipList : Option α

namespace ChipHeap

variable {α : Type*} [DecidableEq α]

/-- Before the first call. -/
def empty : ChipHeap α := ⟨fun _ => none, none⟩

def setPrev (s : ChipHeap α) (p q : Option α) : Option (ChipHeap α) :=
  (s.nodes.setPrev p q).map fun nodes => { s with nodes := nodes }

def setNext (s : ChipHeap α) (p q : Option α) : Option (ChipHeap α) :=
  (s.nodes.setNext p q).map fun nodes => { s with nodes := nodes }

/-- The loop of `chip_add` from the node `x` on, with at most so many
passes. The result is `none` after an access to no node, and when the passes
are used up. -/
def chipAddLoop (c : Option α) : Nat → ChipHeap α → Option α → Option (Int × ChipHeap α)
  | 0, _, _ => none
  | passes + 1, s, x => do
      let new ← s.nodes.load c
      let old ← s.nodes.load x
      if new.item.id.precedes old.item.id then
        if old.prev = none then
          let s ← s.setNext c x
          let s ← s.setPrev c none
          let s ← s.setPrev x c
          return (rcSuccess, { s with chipList := c })
        else
          let s ← s.setNext c x
          let s ← s.setPrev c (← s.nodes.load x).prev
          let s ← s.setNext (← s.nodes.load x).prev c
          let s ← s.setPrev x c
          return (rcSuccess, s)
      else if new.item.id.chipset = old.item.id.chipset ∧
          new.item.id.platform = old.item.id.platform ∧
          new.item.id.revNum = old.item.id.revNum then
        return (rcError, s)
      else if old.next = none then
        let s ← s.setPrev c x
        let s ← s.setNext c none
        let s ← s.setNext x c
        return (rcSuccess, s)
      else chipAddLoop c passes s old.next

/-- `chip_add`. -/
def chipAdd (passes : Nat) (s : ChipHeap α) (c : Option α) : Option (Int × ChipHeap α) :=
  if s.chipList = none then do
    let s := { s with chipList := c }
    let s ← s.setNext c none
    let s ← s.setPrev c none
    return (rcSuccess, s)
  else chipAddLoop c passes s s.chipList

variable {s t : ChipHeap α} {a b c x : α} {n : Node α ChipInfo} {passes : Nat}
  {old item : ChipInfo} {front back chain : List (α × ChipInfo)}

/-- The list in memory, as the addresses of its nodes with what they carry. -/
structure Holds (s : ChipHeap α) (chain : List (α × ChipInfo)) : Prop where
  linked : Linked s.nodes none chain none
  head : s.chipList = entry chain none
  nodup : (chain.map Prod.fst).Nodup

/-- A node that is not in the list. -/
structure Offered (s : ChipHeap α) (chain : List (α × ChipInfo)) (c : α)
    (n : Node α ChipInfo) : Prop extends s.Holds chain where
  node : s.nodes c = some n
  away : c ∉ chain.map Prod.fst

omit [DecidableEq α] in
/-- The chip that is offered is at none of the addresses of the list, so
that it can be put anywhere into it. -/
theorem Offered.nodup_insert (h : s.Offered (front ++ back) c n) :
    ((front ++ (c, n.item) :: back).map Prod.fst).Nodup := by
  have hAway := h.away
  have hNodup := h.nodup
  rw [List.map_append] at hAway hNodup
  rw [List.map_append, List.map_cons, List.nodup_middle, List.nodup_cons]
  exact ⟨hAway, hNodup⟩

/-- In front of the first node. -/
theorem chipAddLoop_first (h : s.Offered ((x, old) :: back) c n)
    (hLess : n.item.id.precedes old.id = true) :
    ∃ t, chipAddLoop (some c) (passes + 1) s (some x) = some (rcSuccess, t) ∧
      t.Holds ((c, n.item) :: (x, old) :: back) := by
  have hNode := h.node
  have hOld := h.linked.1
  have hList := h.linked.put (n := ⟨n.item, none, some x⟩) h.away
  obtain ⟨nodes, hSet, hBack, hSame⟩ :=
    hList.relink_prev (q := some c) (List.nodup_cons.mp h.nodup).1
  have hNew : nodes c = some ⟨n.item, none, some x⟩ := by
    rw [hSame c (List.ne_of_not_mem_cons h.away), Nodes.put_self]
  have hNodup := @Offered.nodup_insert _ s c n [] ((x, old) :: back) h
  refine ⟨⟨nodes, some c⟩, ?_, ⟨hNew, hBack⟩, rfl, hNodup⟩
  simp [chipAddLoop, hNode, hOld, hLess, setPrev, setNext, Nodes.setNext_eq, hSet]

/-- Between two nodes. -/
theorem chipAddLoop_between (h : s.Offered (front ++ [(b, item)] ++ (x, old) :: back) c n)
    (hLess : n.item.id.precedes old.id = true) :
    ∃ t, chipAddLoop (some c) (passes + 1) s (some x) = some (rcSuccess, t) ∧
      t.Holds (front ++ [(b, item)] ++ (c, n.item) :: (x, old) :: back) := by
  have hNode := h.node
  have hEnd : exit none (front ++ [(b, item)]) = some b := exit_append ..
  have hOld := h.linked.node
  rw [hEnd] at hOld
  have hApart : c ≠ b ∧ c ≠ x := by
    have hAway := h.away
    simp only [List.map_append, List.map_cons, List.mem_append, List.mem_cons, not_or] at hAway
    exact ⟨hAway.1.2.1, hAway.2.1⟩
  have hList := h.linked.put (n := ⟨n.item, some b, some x⟩) h.away
  obtain ⟨nodes₁, nodes₂, hNext, hPrev, hFront, hBack, hSame⟩ :=
    hList.relink_between (q := some c) h.nodup
  have hNew : nodes₂ c = some ⟨n.item, some b, some x⟩ := by
    rw [hSame c hApart.1 hApart.2, Nodes.put_self]
  refine ⟨⟨nodes₂, s.chipList⟩, ?_, linked_append.mpr ⟨hFront, ?_, hBack⟩, ?_, h.nodup_insert⟩
  · simp [chipAddLoop, hNode, hOld, hLess, setPrev, setNext, Nodes.setNext_eq,
      Nodes.put_of_ne hApart.2.symm, hNext, hPrev]
  · rw [hEnd]
    exact hNew
  · rw [h.head, entry_append, entry_append, entry_append, entry_append]
    rfl

/-- Behind the last node. -/
theorem chipAddLoop_last (h : s.Offered (front ++ [(x, old)]) c n)
    (hLess : ¬n.item.id.precedes old.id = true) (hDiffers : n.item.id.rank ≠ old.id.rank) :
    ∃ t, chipAddLoop (some c) (passes + 1) s (some x) = some (rcSuccess, t) ∧
      t.Holds (front ++ [(x, old)] ++ [(c, n.item)]) := by
  have hNode := h.node
  have hOld := h.linked.node
  have hApart := h.nodup
  rw [List.map_append, List.nodup_append] at hApart
  have hLast : x ∉ front.map Prod.fst := fun hMem => hApart.2.2 x hMem x (by simp) rfl
  have hNe : c ≠ x := fun hc => h.away (by simp [hc])
  have hList := h.linked.put (n := ⟨n.item, some x, none⟩) h.away
  obtain ⟨nodes, hSet, hFront, hSame⟩ := hList.relink_next (q := some c) hLast
  have hNew : nodes c = some ⟨n.item, some x, none⟩ := by
    rw [hSame c hNe, Nodes.put_self]
  have hNodup := @Offered.nodup_insert _ s c n (front ++ [(x, old)]) []
    (by rw [List.append_nil]; exact h)
  refine ⟨⟨nodes, s.chipList⟩, ?_, linked_append.mpr ⟨hFront, ?_, trivial⟩, ?_, hNodup⟩
  · simp [chipAddLoop, hNode, hOld, hLess, same_parts, hDiffers, setPrev, setNext,
      Nodes.setPrev_eq, hSet, entry]
  · rw [exit_append]
    exact hNew
  · rw [h.head, entry_append, entry_append, entry_append]
    rfl

/-- What a call comes to: a new list, or none for a duplicate. -/
def Answers (s : ChipHeap α) (result : Option (Int × ChipHeap α)) :
    Option (List (α × ChipInfo)) → Prop
  | none => result = some (rcError, s)
  | some chain => ∃ t, result = some (rcSuccess, t) ∧ t.Holds chain

/-- The key of a node of the list. -/
abbrev key (e : α × ChipInfo) : Nat := e.2.rank

/-- From any node on, the loop puts the new one into the rest of the list. -/
theorem chipAddLoop_spec (h : s.Offered (front ++ (x, old) :: back) c n)
    (hPasses : back.length < passes) :
    s.Answers (chipAddLoop (some c) passes s (some x))
      ((SortedTable.insertUnique key (c, n.item) ((x, old) :: back)).map (front ++ ·)) := by
  induction passes generalizing front x old back with
  | zero => exact absurd hPasses (Nat.not_lt_zero _)
  | succ passes ih =>
      rw [SortedTable.insertUnique]
      by_cases hLess : n.item.id.precedes old.id = true
      · have hRank : key (c, n.item) < key (x, old) := ChipId.precedes_iff.mp hLess
        rw [if_pos hRank]
        cases List.eq_nil_or_concat front with
        | inl hFront =>
            subst hFront
            exact chipAddLoop_first h hLess
        | inr hFront =>
            obtain ⟨front, ⟨b, item⟩, rfl⟩ := hFront
            rw [List.concat_eq_append] at h ⊢
            exact chipAddLoop_between h hLess
      have hRank : ¬key (c, n.item) < key (x, old) := mt ChipId.precedes_iff.mpr hLess
      rw [if_neg hRank]
      by_cases hSame : n.item.id.rank = old.id.rank
      · have hKey : key (c, n.item) = key (x, old) := hSame
        rw [if_pos hKey]
        simp [Answers, chipAddLoop, h.node, h.linked.node, hLess, same_parts, hSame]
      have hKey : ¬key (c, n.item) = key (x, old) := hSame
      rw [if_neg hKey]
      have hAssoc : ∀ rest, front ++ (x, old) :: rest = front ++ [(x, old)] ++ rest := by simp
      rw [Option.map_map, Function.comp_def, funext hAssoc]
      cases back with
      | nil => exact chipAddLoop_last h hLess hSame
      | cons next back =>
          have hStep : chipAddLoop (some c) (passes + 1) s (some x) =
              chipAddLoop (some c) passes s (some next.1) := by
            simp [chipAddLoop, h.node, h.linked.node, hLess, same_parts, hSame, entry]
          rw [hStep]
          rw [hAssoc] at h
          exact ih h (Nat.lt_of_succ_lt_succ hPasses)

/-- `chip_add` puts a node that is not in the list into its place. -/
theorem chipAdd_spec (h : s.Offered chain c n) (hPasses : chain.length ≤ passes) :
    s.Answers (chipAdd passes s (some c))
      (SortedTable.insertUnique key (c, n.item) chain) := by
  cases chain with
  | nil =>
      have hNode := h.node
      have hLinks : Linked (s.nodes.put c ⟨n.item, none, none⟩) none [(c, n.item)] none :=
        ⟨Nodes.put_self .., trivial⟩
      refine ⟨⟨s.nodes.put c ⟨n.item, none, none⟩, some c⟩, ?_, hLinks, rfl,
        List.nodup_singleton c⟩
      simp [chipAdd, h.head, entry, setPrev, setNext, Nodes.setNext_eq hNode]
  | cons e rest =>
      obtain ⟨x, old⟩ := e
      have hLoop := @chipAddLoop_spec _ _ s c x n passes old [] rest h hPasses
      simp only [List.nil_append, Option.map_id'] at hLoop
      rw [chipAdd, h.head, entry, if_neg (Option.some_ne_none x)]
      exact hLoop

/-- What the nodes carry goes through `chip_add` as through the list of a
scan. -/
theorem chipAdd_refines (h : s.Offered chain c n) (hPasses : chain.length ≤ passes) :
    match Dtbtool.chipAdd n.item (chain.map Prod.snd) with
    | none => chipAdd passes s (some c) = some (rcError, s)
    | some chips => ∃ t chain', chipAdd passes s (some c) = some (rcSuccess, t) ∧
        t.Holds chain' ∧ chain'.map Prod.snd = chips := by
  have hAnswers := chipAdd_spec h hPasses
  have hMap := @SortedTable.insertUnique_map _ _ _ ChipInfo.rank _ Prod.snd (c, n.item) chain
  rw [chipAdd_eq, ← hMap]
  change s.Answers _ (SortedTable.insertUnique (ChipInfo.rank ∘ Prod.snd) _ _) at hAnswers
  cases hInsert : SortedTable.insertUnique (ChipInfo.rank ∘ Prod.snd) (c, n.item) chain with
  | none =>
      rw [hInsert] at hAnswers
      exact hAnswers
  | some chain' =>
      rw [hInsert] at hAnswers
      obtain ⟨t, hCall, hHolds⟩ := hAnswers
      exact ⟨t, chain', hCall, hHolds, rfl⟩

section Links

omit [DecidableEq α]

/-- The links from `chip_list` on lead to the node. -/
def OnList (s : ChipHeap α) (a : α) : Prop :=
  ∃ first, s.chipList = some first ∧ Relation.ReflTransGen (Next s.nodes) first a

/-- The keys of the list. -/
def keys (s : ChipHeap α) : Set ChipId :=
  {id | ∃ a n, s.OnList a ∧ s.nodes a = some n ∧ n.item.id = id}

/-- A consistent list, strictly increasing and without duplicates. -/
structure SortedSet (s : ChipHeap α) : Prop where
  inMemory : ∀ a, s.OnList a → ∃ n, s.nodes a = some n
  first_prev : ∀ a n, s.chipList = some a → s.nodes a = some n → n.prev = none
  next_prev : ∀ a b n m, s.OnList a → s.nodes a = some n → n.next = some b →
    s.nodes b = some m → m.prev = some a
  ends : s.chipList = none ∨ ∃ a n, s.OnList a ∧ s.nodes a = some n ∧ n.next = none
  increasing : ∀ a b n m, s.OnList a → Relation.TransGen (Next s.nodes) a b →
    s.nodes a = some n → s.nodes b = some m → n.item.id.precedes m.item.id = true
  unique : ∀ a b n m, s.OnList a → s.OnList b → s.nodes a = some n → s.nodes b = some m →
    n.item.id = m.item.id → a = b

/-- The nodes that can be reached from the head of the list are those of the
chain. -/
theorem Holds.onList_iff (h : s.Holds chain) : s.OnList a ↔ a ∈ chain.map Prod.fst := by
  rw [OnList, h.head]
  cases chain with
  | nil => simp [entry]
  | cons e rest => simpa [entry] using h.linked.reaches_iff

/-- A node of the chain is linked to the one in front of it and the one
behind it. -/
theorem Holds.nodes_eq (h : s.Holds (front ++ (a, item) :: back)) :
    s.nodes a = some ⟨item, exit none front, entry back none⟩ := h.linked.node

/-- A node of the list carries what the list has for it. -/
theorem Holds.exists_item (h : s.Holds chain) (hList : s.OnList a) :
    ∃ n, s.nodes a = some n ∧ (a, n.item) ∈ chain := by
  obtain ⟨⟨a, item⟩, hMem, rfl⟩ := List.mem_map.mp (h.onList_iff.mp hList)
  obtain ⟨front, back, rfl⟩ := List.append_of_mem hMem
  exact ⟨_, h.nodes_eq, hMem⟩

/-- A node of the list is in the chain with the chip that it has in memory. -/
theorem Holds.mem (h : s.Holds chain) (hList : s.OnList a) (hNode : s.nodes a = some n) :
    (a, n.item) ∈ chain := by
  obtain ⟨m, hItem, hMem⟩ := h.exists_item hList
  obtain rfl := Option.some.inj (hNode.symm.trans hItem)
  exact hMem

theorem Holds.mem_keys_iff (h : s.Holds chain) {id : ChipId} :
    id ∈ s.keys ↔ id.rank ∈ chain.map key := by
  rw [List.mem_map]
  constructor
  · rintro ⟨a, n, hList, hNode, rfl⟩
    exact ⟨_, h.mem hList hNode, rfl⟩
  · rintro ⟨⟨a, item⟩, hMem, hRank⟩
    have hList : s.OnList a := h.onList_iff.mpr (List.mem_map_of_mem hMem)
    obtain ⟨front, back, rfl⟩ := List.append_of_mem hMem
    exact ⟨a, _, hList, h.nodes_eq, ChipId.rank_inj.mp hRank⟩

theorem OnList.next (h : s.OnList a) {b : α} (hNext : Next s.nodes a b) : s.OnList b := by
  obtain ⟨first, hFirst, hReach⟩ := h
  exact ⟨first, hFirst, hReach.tail hNext⟩

/-- One link leads to a larger key. -/
theorem Holds.rank_lt (h : s.Holds chain) (hSorted : SortedTable.Sorted key chain)
    (hList : s.OnList a) {b : α} (hNext : Next s.nodes a b) {n m : Node α ChipInfo}
    (ha : s.nodes a = some n) (hb : s.nodes b = some m) : n.item.rank < m.item.rank := by
  obtain ⟨front, item, item', back, rfl⟩ :=
    h.linked.neighbour (h.onList_iff.mp hList) hNext
  obtain rfl := Option.some.inj (ha.symm.trans h.nodes_eq)
  have hFront : s.Holds (front ++ [(a, item)] ++ (b, item') :: back) := by
    rw [List.append_assoc]
    exact h
  obtain rfl := Option.some.inj (hb.symm.trans hFront.nodes_eq)
  have hBehind := (List.pairwise_append.mp hSorted).2.1
  exact (List.pairwise_cons.mp hBehind).1 (b, item') List.mem_cons_self

/-- Along the links the ranks grow. By induction on the path that leads from
one node to the other. -/
theorem Holds.rank_lt_of_transGen (h : s.Holds chain)
    (hSorted : SortedTable.Sorted key chain) (hList : s.OnList a) {b : α}
    (hReach : Relation.TransGen (Next s.nodes) a b) {n m : Node α ChipInfo}
    (ha : s.nodes a = some n) (hb : s.nodes b = some m) : n.item.rank < m.item.rank := by
  induction hReach generalizing m with
  | single hNext => exact h.rank_lt hSorted hList hNext ha hb
  | tail hReach hNext ih =>
      obtain ⟨first, hFirst, hPath⟩ := hList
      have hMiddle : s.OnList _ := ⟨first, hFirst, hPath.trans hReach.to_reflTransGen⟩
      obtain ⟨k, hNode, -⟩ := h.exists_item hMiddle
      exact (ih hNode).trans (h.rank_lt hSorted hMiddle hNext hNode hb)

/-- The list is empty, or has a last node, whose link is a null pointer. -/
theorem Holds.ends (h : s.Holds chain) :
    s.chipList = none ∨ ∃ a n, s.OnList a ∧ s.nodes a = some n ∧ n.next = none := by
  cases List.eq_nil_or_concat chain with
  | inl hNil => exact Or.inl (by rw [h.head, hNil, entry])
  | inr hLast =>
      obtain ⟨front, ⟨a, item⟩, rfl⟩ := hLast
      rw [List.concat_eq_append] at h
      exact Or.inr ⟨a, _, h.onList_iff.mpr (by simp), h.nodes_eq, rfl⟩

/-- A sorted chain in memory is a sorted set of chips, as the specification
puts it without the chain. -/
theorem Holds.sortedSet (h : s.Holds chain) (hSorted : SortedTable.Sorted key chain) :
    s.SortedSet where
  inMemory a hList := (h.exists_item hList).imp fun _ hn => hn.1
  first_prev a n hFirst hNode := by
    rw [h.head] at hFirst
    cases chain with
    | nil => cases hFirst
    | cons e rest =>
        obtain rfl := Option.some.inj hFirst
        obtain rfl := Option.some.inj (hNode.symm.trans h.linked.1)
        rfl
  next_prev a b n m hList ha hNext hb := by
    obtain ⟨front, item, item', back, rfl⟩ :=
      h.linked.neighbour (h.onList_iff.mp hList) ⟨n, ha, hNext⟩
    have hFront : s.Holds (front ++ [(a, item)] ++ (b, item') :: back) := by
      rw [List.append_assoc]
      exact h
    obtain rfl := Option.some.inj (hb.symm.trans hFront.nodes_eq)
    exact exit_append ..
  ends := h.ends
  increasing a b n m hList hReach ha hb :=
    ChipId.precedes_iff.mpr (h.rank_lt_of_transGen hSorted hList hReach ha hb)
  unique a b n m hListA hListB ha hb hId := by
    have hRank : key (a, n.item) = key (b, m.item) := congrArg ChipId.rank hId
    exact congrArg Prod.fst (hSorted.eq_of_key_eq (h.mem hListA ha) (h.mem hListB hb) hRank)

end Links

/-- A call of `chip_add`: the address of the node that it is given, and the
node. -/
structure Call (α : Type*) where
  addr : α
  node : Node α ChipInfo

/-- The node of the call is in memory. -/
def hand (s : ChipHeap α) (call : Call α) : ChipHeap α :=
  { s with nodes := s.nodes.put call.addr call.node }

/-- What the call leaves. -/
def add (passes : Nat) (s : ChipHeap α) (call : Call α) : Option (ChipHeap α) :=
  (chipAdd passes (s.hand call) (some call.addr)).map Prod.snd

/-- None of the calls is given a node that is in the list when it comes. -/
def Fresh (passes : Nat) : ChipHeap α → List (Call α) → Prop
  | _, [] => True
  | s, call :: rest => ¬s.OnList call.addr ∧ ∀ t, s.add passes call = some t → Fresh passes t rest

/-- The returned value and the state in order: an error exactly for a key of
the list, without any effect on its nodes; otherwise this key and no other
is new. -/
structure Added (s : ChipHeap α) (call : Call α) (rc : Int) (t : ChipHeap α) : Prop where
  sortedSet : t.SortedSet
  error_iff : rc = rcError ↔ call.node.item.id ∈ s.keys
  unchanged : rc = rcError → t = s.hand call ∧ (∀ a, t.OnList a ↔ s.OnList a) ∧
    ∀ a, s.OnList a → t.nodes a = s.nodes a
  grown : rc ≠ rcError → rc = rcSuccess ∧ t.keys = insert call.node.item.id s.keys ∧
    ∀ a, t.OnList a ↔ a = call.addr ∨ s.OnList a

variable {call : Call α} {calls : List (Call α)}

omit [DecidableEq α] in
theorem empty_holds : (empty : ChipHeap α).Holds [] where
  linked := trivial
  head := rfl
  nodup := List.nodup_nil

theorem Holds.offered (h : s.Holds chain) (hFresh : ¬s.OnList call.addr) :
    (s.hand call).Offered chain call.addr call.node := by
  have hAway : call.addr ∉ chain.map Prod.fst := mt h.onList_iff.mpr hFresh
  exact ⟨⟨h.linked.put hAway, h.head, h.nodup⟩, Nodes.put_self .., hAway⟩

/-- One call on a fresh node. -/
theorem Holds.added (h : s.Holds chain) (hSorted : SortedTable.Sorted key chain)
    (hFresh : ¬s.OnList call.addr) (hPasses : chain.length ≤ passes) :
    ∃ rc t chain', chipAdd passes (s.hand call) (some call.addr) = some (rc, t) ∧
      s.Added call rc t ∧ t.Holds chain' ∧ SortedTable.Sorted key chain' ∧
      chain'.length ≤ chain.length + 1 := by
  have hOffered := h.offered hFresh
  have hAnswers := chipAdd_spec hOffered hPasses
  have hKey : SortedTable.insertUnique key (call.addr, call.node.item) chain = none ↔
      call.node.item.id ∈ s.keys := (SortedTable.insertUnique_eq_none hSorted).trans
        h.mem_keys_iff.symm
  cases hInsert : SortedTable.insertUnique key (call.addr, call.node.item) chain with
  | none =>
      rw [hInsert] at hAnswers
      have hSame : ∀ a, s.OnList a → (s.hand call).nodes a = s.nodes a := by
        intro a hList
        have hNe : a ≠ call.addr := fun hEq => hFresh (hEq ▸ hList)
        exact Nodes.put_of_ne hNe
      have hNodes : ∀ a, (s.hand call).OnList a ↔ s.OnList a := fun a => by
        rw [hOffered.onList_iff, h.onList_iff]
      refine ⟨rcError, s.hand call, chain, hAnswers, ?_, hOffered.toHolds, hSorted,
        Nat.le_succ _⟩
      exact ⟨hOffered.sortedSet hSorted, iff_of_true rfl (hKey.mp hInsert),
        fun _ => ⟨rfl, hNodes, hSame⟩, fun hNe => absurd rfl hNe⟩
  | some chain' =>
      rw [hInsert] at hAnswers
      obtain ⟨t, hCall, hHolds⟩ := hAnswers
      have hSorted' := SortedTable.sorted_insertUnique hSorted hInsert
      have hPerm := SortedTable.perm_insertUnique hInsert
      have hCode : rcSuccess ≠ rcError := by decide
      have hNew : call.node.item.id ∉ s.keys := fun hMem => by
        rw [hKey.mpr hMem] at hInsert
        cases hInsert
      have hKeys : t.keys = insert call.node.item.id s.keys := by
        ext id
        rw [Set.mem_insert_iff, hHolds.mem_keys_iff, h.mem_keys_iff, (hPerm.map key).mem_iff,
          List.map_cons, List.mem_cons]
        exact or_congr_left ChipId.rank_inj
      have hNodes : ∀ a, t.OnList a ↔ a = call.addr ∨ s.OnList a := by
        intro a
        rw [hHolds.onList_iff, h.onList_iff, (hPerm.map Prod.fst).mem_iff, List.map_cons,
          List.mem_cons]
      refine ⟨rcSuccess, t, chain', hCall, ?_, hHolds, hSorted',
        (SortedTable.length_insertUnique hInsert).le⟩
      exact ⟨hHolds.sortedSet hSorted', iff_of_false hCode hNew, fun hEq => absurd hEq hCode,
        fun _ => ⟨rfl, hKeys, hNodes⟩⟩

/-- A run of calls on fresh nodes comes to its end, with a sorted list. -/
theorem Holds.run (h : s.Holds chain) (hSorted : SortedTable.Sorted key chain)
    (hPasses : chain.length + calls.length ≤ passes) (hFresh : Fresh passes s calls) :
    ∃ t chain', Transition.run (add passes) s calls = some t ∧ t.Holds chain' ∧
      SortedTable.Sorted key chain' ∧ chain'.length ≤ chain.length + calls.length := by
  induction calls generalizing s chain with
  | nil => exact ⟨s, chain, rfl, h, hSorted, le_rfl⟩
  | cons call calls ih =>
      rw [List.length_cons] at hPasses
      obtain ⟨hFirst, hRest⟩ := hFresh
      have hFits : chain.length ≤ passes := by omega
      obtain ⟨rc, middle, chain', hCall, -, hHolds, hMiddle, hLength⟩ :=
        h.added hSorted hFirst hFits
      have hAdd : s.add passes call = some middle := by rw [add, hCall, Option.map_some]
      obtain ⟨t, last, hRun, hLast, hSortedLast, hLengthLast⟩ :=
        ih hHolds hMiddle (by omega) (hRest middle hAdd)
      refine ⟨t, last, ?_, hLast, hSortedLast, ?_⟩
      · rw [Transition.run_cons, hAdd, Option.bind_some, hRun]
      · rw [List.length_cons]
        omega

/-- After a call the list has no node but the earlier ones and the chip that
was offered. -/
theorem Added.eq_or_onList {rc : Int} (h : s.Added call rc t) (hList : t.OnList a) :
    a = call.addr ∨ s.OnList a := by
  by_cases hCode : rc = rcError
  · exact Or.inr (((h.unchanged hCode).2.1 a).mp hList)
  · exact ((h.grown hCode).2.2 a).mp hList

/-- Nodes at addresses of their own are fresh. -/
theorem Holds.fresh (h : s.Holds chain) (hSorted : SortedTable.Sorted key chain)
    (hPasses : chain.length + calls.length ≤ passes) (hNodup : (calls.map Call.addr).Nodup)
    (hAway : ∀ call ∈ calls, ¬s.OnList call.addr) : Fresh passes s calls := by
  induction calls generalizing s chain with
  | nil => trivial
  | cons call calls ih =>
      rw [List.length_cons] at hPasses
      obtain ⟨hFirst, hRest⟩ := List.forall_mem_cons.mp hAway
      obtain ⟨hNew, hNodup⟩ := List.nodup_cons.mp hNodup
      have hFits : chain.length ≤ passes := by omega
      obtain ⟨rc, middle, chain', hCall, hAdded, hHolds, hMiddle, hLength⟩ :=
        h.added hSorted hFirst hFits
      refine ⟨hFirst, fun t hAdd => ?_⟩
      rw [add, hCall, Option.map_some] at hAdd
      obtain rfl := Option.some.inj hAdd
      refine ih hHolds hMiddle (by omega) hNodup fun later hMem hList => ?_
      cases hAdded.eq_or_onList hList with
      | inl hEq => exact hNew (hEq ▸ List.mem_map_of_mem hMem)
      | inr hOld => exact hRest later hMem hOld

/-- From the empty list on, any calls on fresh nodes leave a sorted set, and
so does the next one, which is an error exactly for a key of the set. -/
theorem chipList_sortedSet (passes : Nat) (calls : List (Call α))
    (hPasses : calls.length < passes) (hFresh : Fresh passes empty calls) :
    ∃ s, Transition.run (add passes) empty calls = some s ∧ s.SortedSet ∧
      ∀ call, ¬s.OnList call.addr →
        ∃ rc t, chipAdd passes (s.hand call) (some call.addr) = some (rc, t) ∧
          s.Added call rc t := by
  have hStart : ([] : List (α × ChipInfo)).length + calls.length ≤ passes := by
    rw [List.length_nil]
    omega
  obtain ⟨s, chain, hRun, hHolds, hSorted, hLength⟩ :=
    empty_holds.run List.Pairwise.nil hStart hFresh
  refine ⟨s, hRun, hHolds.sortedSet hSorted, fun call hNew => ?_⟩
  have hFits : chain.length ≤ passes := by
    rw [List.length_nil] at hLength
    omega
  obtain ⟨rc, t, -, hCall, hAdded, -⟩ := hHolds.added hSorted hNew hFits
  exact ⟨rc, t, hCall, hAdded⟩

/-- A board of revision 1, one of revision 0, and revision 1 once more at
another address. -/
def threeCalls : List (Call Nat) :=
  [⟨0, ⟨⟨⟨8000, 5, 1⟩, 0⟩, none, none⟩⟩, ⟨1, ⟨⟨⟨8000, 5, 0⟩, 1⟩, some 7, some 1⟩⟩,
    ⟨2, ⟨⟨⟨8000, 5, 1⟩, 2⟩, none, some 0⟩⟩]

theorem threeCalls_fresh : Fresh 4 empty threeCalls := by
  refine empty_holds.fresh List.Pairwise.nil (by decide) (by decide) ?_
  rintro call - ⟨first, hFirst, -⟩
  cases hFirst

/-- Three calls, of which the last offers a chip that is in the list
already. The set stays sorted and its state is one that further calls can
start from. -/
theorem chipList_sortedSet_three :
    ∃ s, Transition.run (add 4) empty threeCalls = some s ∧ s.SortedSet ∧
      ∀ call, ¬s.OnList call.addr →
        ∃ rc t, chipAdd 4 (s.hand call) (some call.addr) = some (rc, t) ∧
          s.Added call rc t :=
  chipList_sortedSet 4 threeCalls (by decide) threeCalls_fresh

end ChipHeap

end Dtbtool
