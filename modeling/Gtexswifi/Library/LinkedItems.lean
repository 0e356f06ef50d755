import Gtexswifi.Library.LinkedNodes

/-! Items with a link to the next one, in a memory with addresses of any
type. A link is `none` behind the last item. The items of a chain are given
as pairs of an address and the data. -/
namespace LinkedItems

open LinkedNodes

structure Item (α δ : Type*) where
  next : Option α
  data : δ
  deriving DecidableEq

/-- The items by their addresses. -/
abbrev Items (α δ : Type*) := α → Option (Item α δ)

variable {α δ : Type*}

namespace Items

variable [DecidableEq α]

/-- Put an item at an address. -/
def put (items : Items α δ) (a : α) (item : Item α δ) : Items α δ :=
  Function.update items a (some item)

/-- Give an address back. -/
def release (items : Items α δ) (a : α) : Items α δ := Function.update items a none

/-- Assign the link of the item behind a link. -/
def setNext (items : Items α δ) (p q : Option α) : Option (Items α δ) :=
  p.bind fun a => (items a).map fun item => items.put a { item with next := q }

variable {items : Items α δ} {a b : α} {item : Item α δ} {q : Option α}

@[simp] theorem put_self (items : Items α δ) (a : α) (item : Item α δ) :
    items.put a item a = some item := Function.update_self ..

theorem put_of_ne (h : b ≠ a) : items.put a item b = items b := Function.update_of_ne h ..

@[simp] theorem release_self (items : Items α δ) (a : α) : items.release a a = none :=
  Function.update_self ..

theorem release_of_ne (h : b ≠ a) : items.release a b = items b := Function.update_of_ne h ..

theorem setNext_eq (h : items a = some item) :
    items.setNext (some a) q = some (items.put a { item with next := q }) := by
  simp [setNext, h]

/-- What is there behind a release is what was there, without the released
address. -/
theorem isSome_release (items : Items α δ) (a b : α) :
    (items.release a b).isSome ↔ b ≠ a ∧ (items b).isSome := by
  by_cases h : b = a
  · simp [h]
  · simp [h, release_of_ne h]

end Items

/-- The items are in memory, each linked to the one behind it and the last
one to `behind`. -/
def Chained (items : Items α δ) : List (α × δ) → Option α → Prop
  | [], _ => True
  | (a, data) :: rest, behind =>
      items a = some ⟨entry rest behind, data⟩ ∧ Chained items rest behind

variable {items items' : Items α δ} {behind q : Option α} {a b : α} {data other : δ}
  {front back chain : List (α × δ)}

@[simp] theorem chained_nil : Chained items [] behind := trivial

/-- The first item links to the next one, or to what is behind the chain. -/
theorem chained_cons : Chained items ((a, data) :: back) behind ↔
    items a = some ⟨entry back behind, data⟩ ∧ Chained items back behind := Iff.rfl

/-- A list is chained when its parts are, the first to the second. -/
theorem chained_append : Chained items (front ++ back) behind ↔
    Chained items front (entry back behind) ∧ Chained items back behind := by
  induction front with
  | nil => simp
  | cons e front ih =>
      obtain ⟨a, data⟩ := e
      rw [List.cons_append, chained_cons, chained_cons, ih, entry_append, and_assoc]

/-- The item between two parts of a chain. -/
theorem Chained.item (h : Chained items (front ++ (a, data) :: back) behind) :
    items a = some ⟨entry back behind, data⟩ :=
  (chained_append.mp h).2.1

theorem Chained.isSome (h : Chained items chain behind) (hMem : a ∈ chain.map Prod.fst) :
    (items a).isSome := by
  obtain ⟨⟨a, data⟩, hEntry, rfl⟩ := List.mem_map.mp hMem
  obtain ⟨front, back, rfl⟩ := List.append_of_mem hEntry
  rw [h.item]
  rfl

/-- What happens elsewhere does not matter to a chain. -/
theorem Chained.frame (h : Chained items chain behind)
    (hSame : ∀ a ∈ chain.map Prod.fst, items' a = items a) : Chained items' chain behind := by
  induction chain with
  | nil => trivial
  | cons e chain ih =>
      obtain ⟨hFirst, hRest⟩ := List.forall_mem_cons.mp hSame
      exact ⟨hFirst.trans h.1, ih h.2 hRest⟩

section Memory

variable [DecidableEq α] {item : Item α δ}

theorem Chained.put (h : Chained items chain behind) (hAway : a ∉ chain.map Prod.fst) :
    Chained (items.put a item) chain behind :=
  h.frame fun _ hMem => Items.put_of_ne (ne_of_mem_of_not_mem hMem hAway)

theorem Chained.release (h : Chained items chain behind) (hAway : a ∉ chain.map Prod.fst) :
    Chained (items.release a) chain behind :=
  h.frame fun _ hMem => Items.release_of_ne (ne_of_mem_of_not_mem hMem hAway)

/-- Linking the last item of a chain to another one behind it. -/
theorem Chained.relink (h : Chained items (front ++ [(a, data)]) behind)
    (hAway : a ∉ front.map Prod.fst) :
    items.setNext (some a) q = some (items.put a ⟨q, data⟩) ∧
      Chained (items.put a ⟨q, data⟩) (front ++ [(a, data)]) q := by
  obtain ⟨hFront, hLast, -⟩ := chained_append.mp h
  refine ⟨Items.setNext_eq hLast, chained_append.mpr ⟨hFront.put hAway, ?_, trivial⟩⟩
  exact Items.put_self ..

/-- Linking the item in front of one past it. -/
theorem Chained.unlink
    (h : Chained items (front ++ (b, other) :: (a, data) :: back) behind)
    (hNodup : ((front ++ (b, other) :: (a, data) :: back).map Prod.fst).Nodup) :
    items.setNext (some b) (entry back behind) =
        some (items.put b ⟨entry back behind, other⟩) ∧
      Chained (items.put b ⟨entry back behind, other⟩) (front ++ (b, other) :: back) behind := by
  obtain ⟨hFront, hMiddle, -, hBack⟩ := chained_append.mp h
  rw [List.map_append, List.nodup_append] at hNodup
  obtain ⟨-, hNodup, hApart⟩ := hNodup
  have hInFront : b ∉ front.map Prod.fst := fun hMem => hApart b hMem b List.mem_cons_self rfl
  have hInBack : b ∉ back.map Prod.fst := fun hMem =>
    (List.nodup_cons.mp hNodup).1 (List.mem_cons_of_mem _ hMem)
  refine ⟨Items.setNext_eq hMiddle, chained_append.mpr ⟨hFront.put hInFront, ?_, hBack.put hInBack⟩⟩
  exact Items.put_self ..

end Memory

end LinkedItems
