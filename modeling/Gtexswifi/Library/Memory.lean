import Mathlib.Data.List.Basic

/-! Memory objects as lists of cells. A read or a write that leaves the
object is undefined and gives `none`. -/
namespace Memory

variable {Cell : Type*}

/-- The `len` cells from `offset` on. A read of no cells touches nothing. -/
def slice (object : List Cell) (offset len : Nat) : Option (List Cell) :=
  if len = 0 ∨ offset + len ≤ object.length then some ((object.drop offset).take len) else none

/-- Store `cells` from `offset` on. -/
def write (object : List Cell) (offset : Nat) (cells : List Cell) : Option (List Cell) :=
  if offset + cells.length ≤ object.length then
    some (object.take offset ++ cells ++ object.drop (offset + cells.length))
  else none

theorem slice_eq_some {object : List Cell} {offset len : Nat}
    (h : offset + len ≤ object.length) :
    slice object offset len = some ((object.drop offset).take len) := if_pos (Or.inr h)

theorem length_of_slice {object cells : List Cell} {offset len : Nat}
    (h : slice object offset len = some cells) : cells.length = len := by
  unfold slice at h
  split at h
  · next hBound =>
      obtain rfl := Option.some.inj h
      simp only [List.length_take, List.length_drop]
      omega
  · cases h

theorem length_of_write {object cells stored : List Cell} {offset : Nat}
    (h : write object offset cells = some stored) : stored.length = object.length := by
  unfold write at h
  split at h
  · next hBound =>
      obtain rfl := Option.some.inj h
      simp only [List.length_append, List.length_take, List.length_drop]
      omega
  · cases h

/-- A slice is found again inside a larger object that holds it at its
offset. -/
theorem slice_append (before cells after : List Cell) :
    slice (before ++ cells ++ after) before.length cells.length = some cells := by
  rw [slice_eq_some (by simp only [List.length_append]; omega)]
  simp

theorem slice_zero_append (cells after : List Cell) :
    slice (cells ++ after) 0 cells.length = some cells := slice_append [] cells after

/-- A store inside the object keeps its size and puts the cells after the
prefix below them. -/
theorem exists_write (object : List Cell) (offset : Nat) (cells : List Cell)
    (h : offset + cells.length ≤ object.length) :
    ∃ stored, write object offset cells = some stored ∧ stored.length = object.length ∧
      stored.take (offset + cells.length) = object.take offset ++ cells := by
  refine ⟨_, if_pos h, ?_, ?_⟩
  · simp only [List.length_append, List.length_take, List.length_drop]
    omega
  · have hPrefix : (object.take offset ++ cells).length = offset + cells.length := by
      simp only [List.length_append, List.length_take]
      omega
    rw [← hPrefix, List.take_left]

/-- A store replaces the cells of a segment. -/
theorem write_append (before old cells after : List Cell)
    (h : old.length = cells.length) :
    write (before ++ old ++ after) before.length cells = some (before ++ cells ++ after) := by
  have hTake : (before ++ old ++ after).take before.length = before := by
    rw [List.append_assoc, List.take_left]
  have hDrop : (before ++ old ++ after).drop (before.length + cells.length) = after := by
    rw [← h, ← List.length_append, List.drop_left]
  rw [write, if_pos (by simp only [List.length_append]; omega), hTake, hDrop]

/-- A store behind the cells that are filled already fills the next ones. -/
theorem write_next (object : List Cell) {filled cells : List Cell} {offset : Nat}
    (hOffset : filled.length = offset) (h : offset + cells.length ≤ object.length) :
    write (filled ++ object.drop offset) offset cells =
      some ((filled ++ cells) ++ object.drop (offset + cells.length)) := by
  have hSplit : object.drop offset =
      (object.drop offset).take cells.length ++ object.drop (offset + cells.length) := by
    rw [← List.drop_drop, List.take_append_drop]
  have hOld : ((object.drop offset).take cells.length).length = cells.length := by
    rw [List.length_take, List.length_drop]
    omega
  rw [hSplit, ← List.append_assoc, ← hOffset, write_append _ _ _ _ (hOffset ▸ hOld)]

end Memory
