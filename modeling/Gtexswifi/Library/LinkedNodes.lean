import Mathlib.Data.List.Basic
import Mathlib.Logic.Function.Basic
import Mathlib.Logic.Relation

/-! Nodes with links in both directions, in a memory with addresses of any
type. A link is `none` where there is no neighbour. The nodes of a list are
given as pairs of an address and what the node carries. -/
namespace LinkedNodes

structure Node (α ι : Type*) where
  item : ι
  prev : Option α
  next : Option α
  deriving DecidableEq

/-- The nodes by their addresses. -/
abbrev Nodes (α ι : Type*) := α → Option (Node α ι)

variable {α ι : Type*}

namespace Nodes

/-- The node behind a link; no node is behind `none`. -/
def load (nodes : Nodes α ι) (p : Option α) : Option (Node α ι) := p.bind nodes

@[simp] theorem load_some (nodes : Nodes α ι) (a : α) : nodes.load (some a) = nodes a := rfl

variable [DecidableEq α]

/-- Put a node at an address. -/
def put (nodes : Nodes α ι) (a : α) (n : Node α ι) : Nodes α ι :=
  Function.update nodes a (some n)

/-- Assign the link `prev` of the node behind a link. -/
def setPrev (nodes : Nodes α ι) (p q : Option α) : Option (Nodes α ι) :=
  p.bind fun a => (nodes a).map fun n => nodes.put a { n with prev := q }

/-- Assign the link `next` of the node behind a link. -/
def setNext (nodes : Nodes α ι) (p q : Option α) : Option (Nodes α ι) :=
  p.bind fun a => (nodes a).map fun n => nodes.put a { n with next := q }

variable {nodes : Nodes α ι} {a b : α} {n : Node α ι} {q : Option α}

@[simp] theorem put_self (nodes : Nodes α ι) (a : α) (n : Node α ι) :
    nodes.put a n a = some n := Function.update_self ..

theorem put_of_ne (h : b ≠ a) : nodes.put a n b = nodes b := Function.update_of_ne h ..

@[simp] theorem put_put (nodes : Nodes α ι) (a : α) (n m : Node α ι) :
    (nodes.put a n).put a m = nodes.put a m := Function.update_idem ..

/-- Setting the backward link of a node that is there leaves the rest of it. -/
theorem setPrev_eq (h : nodes a = some n) :
    nodes.setPrev (some a) q = some (nodes.put a { n with prev := q }) := by
  simp [setPrev, h]

/-- Setting the forward link of a node that is there leaves the rest of it. -/
theorem setNext_eq (h : nodes a = some n) :
    nodes.setNext (some a) q = some (nodes.put a { n with next := q }) := by
  simp [setNext, h]

@[simp] theorem put_setPrev (nodes : Nodes α ι) (a : α) (n : Node α ι) (q : Option α) :
    (nodes.put a n).setPrev (some a) q = some (nodes.put a { n with prev := q }) := by
  rw [setPrev_eq (put_self nodes a n), put_put]

@[simp] theorem put_setNext (nodes : Nodes α ι) (a : α) (n : Node α ι) (q : Option α) :
    (nodes.put a n).setNext (some a) q = some (nodes.put a { n with next := q }) := by
  rw [setNext_eq (put_self nodes a n), put_put]

end Nodes

/-- The address of the first node, or the one behind the list. -/
def entry : List (α × ι) → Option α → Option α
  | [], behind => behind
  | (a, _) :: _, _ => some a

/-- The address of the last node, or the one in front of the list. -/
def exit : Option α → List (α × ι) → Option α
  | before, [] => before
  | _, (a, _) :: rest => exit (some a) rest

/-- The nodes are in memory, and each is linked to its neighbours in both
directions. -/
def Linked (nodes : Nodes α ι) : Option α → List (α × ι) → Option α → Prop
  | _, [], _ => True
  | before, (a, item) :: rest, behind =>
      nodes a = some ⟨item, before, entry rest behind⟩ ∧ Linked nodes (some a) rest behind

variable {nodes nodes' : Nodes α ι} {before behind q : Option α} {a : α} {item : ι}
  {front back chain : List (α × ι)}

@[simp] theorem linked_nil : Linked nodes before [] behind := trivial

/-- The first node links back to what is in front of the chain, and on to
the next one. -/
theorem linked_cons :
    Linked nodes before ((a, item) :: back) behind ↔
      nodes a = some ⟨item, before, entry back behind⟩ ∧ Linked nodes (some a) back behind :=
  Iff.rfl

theorem entry_append (front back : List (α × ι)) (behind : Option α) :
    entry (front ++ back) behind = entry front (entry back behind) := by
  cases front <;> rfl

theorem exit_append (before : Option α) (front back : List (α × ι)) :
    exit before (front ++ back) = exit (exit before front) back := by
  induction front generalizing before with
  | nil => rfl
  | cons e front ih => exact ih (some e.1)

/-- A list is linked when its parts are, each to the other. -/
theorem linked_append :
    Linked nodes before (front ++ back) behind ↔
      Linked nodes before front (entry back behind) ∧
        Linked nodes (exit before front) back behind := by
  induction front generalizing before with
  | nil => simp [exit]
  | cons e front ih =>
      obtain ⟨a, item⟩ := e
      rw [List.cons_append, linked_cons, linked_cons, ih, entry_append, and_assoc]
      rfl

/-- The node between two parts of a list. -/
theorem Linked.node (h : Linked nodes before (front ++ (a, item) :: back) behind) :
    nodes a = some ⟨item, exit before front, entry back behind⟩ :=
  (linked_append.mp h).2.1

/-- What happens elsewhere does not matter to a list. -/
theorem Linked.frame (h : Linked nodes before chain behind)
    (hSame : ∀ a ∈ chain.map Prod.fst, nodes' a = nodes a) :
    Linked nodes' before chain behind := by
  induction chain generalizing before with
  | nil => trivial
  | cons e chain ih =>
      obtain ⟨hFirst, hRest⟩ := List.forall_mem_cons.mp hSame
      exact ⟨hFirst.trans h.1, ih h.2 hRest⟩

section Memory

variable [DecidableEq α] {n : Node α ι}

theorem Linked.put (h : Linked nodes before chain behind) (hAway : a ∉ chain.map Prod.fst) :
    Linked (nodes.put a n) before chain behind :=
  h.frame fun _ hMem => Nodes.put_of_ne (ne_of_mem_of_not_mem hMem hAway)

/-- Linking the first node of a list to another one in front of it. -/
theorem Linked.relink_prev (h : Linked nodes before ((a, item) :: back) behind)
    (hAway : a ∉ back.map Prod.fst) :
    ∃ nodes', nodes.setPrev (some a) q = some nodes' ∧
      Linked nodes' q ((a, item) :: back) behind ∧ ∀ b, b ≠ a → nodes' b = nodes b :=
  ⟨_, Nodes.setPrev_eq h.1, ⟨Nodes.put_self .., h.2.put hAway⟩, fun _ => Nodes.put_of_ne⟩

/-- Linking the last node of a list to another one behind it. -/
theorem Linked.relink_next (h : Linked nodes before (front ++ [(a, item)]) behind)
    (hAway : a ∉ front.map Prod.fst) :
    ∃ nodes', nodes.setNext (some a) q = some nodes' ∧
      Linked nodes' before (front ++ [(a, item)]) q ∧ ∀ b, b ≠ a → nodes' b = nodes b := by
  obtain ⟨hFront, hLast, -⟩ := linked_append.mp h
  refine ⟨_, Nodes.setNext_eq hLast, ?_, fun _ => Nodes.put_of_ne⟩
  exact linked_append.mpr ⟨hFront.put hAway, Nodes.put_self .., trivial⟩

/-- Linking the two neighbours at a place in a list to another node there. -/
theorem Linked.relink_between {b : α} {other : ι}
    (h : Linked nodes before (front ++ [(b, other)] ++ (a, item) :: back) behind)
    (hNodup : ((front ++ [(b, other)] ++ (a, item) :: back).map Prod.fst).Nodup) :
    ∃ nodes₁ nodes₂, nodes.setNext (some b) q = some nodes₁ ∧
      nodes₁.setPrev (some a) q = some nodes₂ ∧
      Linked nodes₂ before (front ++ [(b, other)]) q ∧
      Linked nodes₂ q ((a, item) :: back) behind ∧
      ∀ c, c ≠ b → c ≠ a → nodes₂ c = nodes c := by
  rw [List.map_append, List.nodup_append] at hNodup
  obtain ⟨hNodupFront, hNodupBack, hApart⟩ := hNodup
  rw [List.map_append, List.map_singleton, List.nodup_append] at hNodupFront
  obtain ⟨hFront, hBack⟩ := linked_append.mp h
  have hLast : b ∉ front.map Prod.fst := fun hMem =>
    hNodupFront.2.2 b hMem b (List.mem_singleton_self b) rfl
  obtain ⟨nodes₁, hNext, hFront, hSame₁⟩ := hFront.relink_next (q := q) hLast
  have hBack : Linked nodes₁ (exit before (front ++ [(b, other)])) ((a, item) :: back) behind := by
    refine hBack.frame fun c hMem => hSame₁ c ?_
    rintro rfl
    exact hApart c (by simp) c hMem rfl
  obtain ⟨nodes₂, hPrev, hBack, hSame₂⟩ :=
    hBack.relink_prev (q := q) (List.nodup_cons.mp hNodupBack).1
  have hFront : Linked nodes₂ before (front ++ [(b, other)]) q := by
    refine hFront.frame fun c hMem => hSame₂ c ?_
    rintro rfl
    exact hApart c hMem c List.mem_cons_self rfl
  refine ⟨nodes₁, nodes₂, hNext, hPrev, hFront, hBack, fun c hb ha => ?_⟩
  rw [hSame₂ c ha, hSame₁ c hb]

end Memory

/-- The node at the first address is linked to the one at the second. -/
def Next (nodes : Nodes α ι) (a b : α) : Prop := ∃ n, nodes a = some n ∧ n.next = some b

/-- In a list, a link leads to the neighbour. -/
theorem Linked.neighbour (h : Linked nodes before chain none) (hMem : a ∈ chain.map Prod.fst)
    {b : α} (hNext : Next nodes a b) :
    ∃ front item item' back, chain = front ++ (a, item) :: (b, item') :: back := by
  obtain ⟨⟨a, item⟩, hEntry, rfl⟩ := List.mem_map.mp hMem
  obtain ⟨front, back, rfl⟩ := List.append_of_mem hEntry
  obtain ⟨n, hNode, hLink⟩ := hNext
  obtain rfl := Option.some.inj (hNode.symm.trans h.node)
  cases back with
  | nil => cases hLink
  | cons e back =>
      obtain rfl := Option.some.inj hLink
      exact ⟨front, item, e.2, back, rfl⟩

/-- The links of a list lead to its nodes and to no other. -/
theorem Linked.reaches_iff (h : Linked nodes before ((a, item) :: back) none) {b : α} :
    Relation.ReflTransGen (Next nodes) a b ↔ b ∈ ((a, item) :: back).map Prod.fst := by
  constructor
  · intro hReach
    induction hReach with
    | refl => exact List.mem_cons_self
    | tail _ hNext ih =>
        obtain ⟨front, item, item', back, hChain⟩ := h.neighbour ih hNext
        simp [hChain]
  · intro hMem
    induction back generalizing before a item with
    | nil =>
        obtain rfl := List.mem_singleton.mp hMem
        exact .refl
    | cons e back ih =>
        obtain hSame | hLater := List.mem_cons.mp hMem
        · exact hSame ▸ .refl
        · exact .head ⟨_, h.1, rfl⟩ (ih h.2 hLater)

end LinkedNodes
