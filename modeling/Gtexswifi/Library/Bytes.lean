import Mathlib.Data.List.Flatten
import Mathlib.Data.List.GetD
import Mathlib.Data.List.Range

/-! Memory as a function of the address, with stores of consecutive cells. -/
namespace Bytes

variable {α : Type*}

/-- The cells from `addr` on become those of `cells`. -/
def store (mem : Nat → α) (addr : Nat) (cells : List α) : Nat → α := fun a =>
  if addr ≤ a then cells.getD (a - addr) (mem a) else mem a

/-- The `size` cells from `addr` on. -/
def fetch (mem : Nat → α) (addr size : Nat) : List α :=
  (List.range size).map fun i => mem (addr + i)

@[simp] theorem length_fetch (mem : Nat → α) (addr size : Nat) :
    (fetch mem addr size).length = size := by
  simp [fetch]

@[simp] theorem store_nil (mem : Nat → α) (addr : Nat) : store mem addr [] = mem := by
  funext a
  simp [store]

theorem store_before (mem : Nat → α) {addr a : Nat} (cells : List α) (h : a < addr) :
    store mem addr cells a = mem a := if_neg (Nat.not_le.mpr h)

theorem store_behind (mem : Nat → α) {addr a : Nat} {cells : List α}
    (h : addr + cells.length ≤ a) : store mem addr cells a = mem a := by
  rw [store, if_pos (by omega), List.getD_eq_default _ _ (by omega)]

theorem store_inside (mem : Nat → α) (addr : Nat) {cells : List α} {i : Nat}
    (h : i < cells.length) : store mem addr cells (addr + i) = cells[i] := by
  rw [store, if_pos (Nat.le_add_right addr i), Nat.add_sub_cancel_left, List.getD_eq_getElem]

/-- A store behind a store is one store. -/
theorem store_append (mem : Nat → α) (addr : Nat) (first second : List α) :
    store (store mem addr first) (addr + first.length) second = store mem addr (first ++ second) := by
  funext a
  rcases Nat.lt_or_ge a (addr + first.length) with hFirst | hFirst
  · rw [store_before _ second hFirst]
    rcases Nat.lt_or_ge a addr with hBefore | hInside
    · rw [store_before mem first hBefore, store_before mem _ hBefore]
    · obtain ⟨i, rfl⟩ := Nat.exists_eq_add_of_le hInside
      rw [store_inside mem addr (by omega), store_inside mem addr (by simp; omega),
        List.getElem_append_left]
  · obtain ⟨i, rfl⟩ := Nat.exists_eq_add_of_le hFirst
    rcases Nat.lt_or_ge i second.length with hSecond | hBehind
    · rw [store_inside _ _ hSecond, Nat.add_assoc, store_inside mem addr (by simp; omega),
        List.getElem_append_right (by omega)]
      simp
    · rw [store_behind _ (by omega), store_behind mem hFirst, store_behind mem (by simp; omega)]

/-- A store somewhere else is not seen. -/
theorem fetch_store_of_disjoint (mem : Nat → α) {addr addr' size : Nat} {cells : List α}
    (h : addr' + size ≤ addr ∨ addr + cells.length ≤ addr') :
    fetch (store mem addr cells) addr' size = fetch mem addr' size := by
  apply List.map_congr_left
  intro i hi
  rw [List.mem_range] at hi
  rcases h with hBefore | hBehind
  · exact store_before mem cells (by omega)
  · exact store_behind mem (by omega)

/-- What is stored is found again. -/
theorem fetch_store (mem : Nat → α) (addr : Nat) (cells : List α) :
    fetch (store mem addr cells) addr cells.length = cells := by
  apply List.ext_getElem (length_fetch _ _ _)
  intro i hFetch hi
  simp only [fetch, List.getElem_map, List.getElem_range]
  exact store_inside mem addr hi

theorem fetch_add (mem : Nat → α) (addr first second : Nat) :
    fetch mem addr (first + second) = fetch mem addr first ++ fetch mem (addr + first) second := by
  rw [fetch, List.range_add, List.map_append, List.map_map]
  congr 1
  apply List.map_congr_left
  intro i _
  rw [Function.comp_apply, Nat.add_assoc]

/-- Elements of one size, one behind the other. -/
theorem fetch_mul (mem : Nat → α) (addr size count : Nat) :
    fetch mem addr (count * size) =
      (List.range count).flatMap fun i => fetch mem (addr + i * size) size := by
  induction count with
  | zero => simp [fetch]
  | succ count ih =>
      rw [Nat.succ_mul, fetch_add, ih, List.range_succ, List.flatMap_append,
        List.flatMap_singleton]

/-- An array that is stored holds its elements, and the elements behind it
stay. -/
theorem fetch_store_array (mem : Nat → α) (addr : Nat) {size : Nat} {array : List (List α)}
    (hSize : ∀ element ∈ array, element.length = size) (j : Nat) :
    fetch (store mem addr array.flatten) (addr + j * size) size =
      array.getD j (fetch mem (addr + j * size) size) := by
  induction array generalizing addr mem j with
  | nil => simp
  | cons element array ih =>
      have hElement : element.length = size := hSize element List.mem_cons_self
      have hArray : ∀ element ∈ array, element.length = size :=
        fun x hx => hSize x (List.mem_cons_of_mem element hx)
      rw [List.flatten_cons, ← store_append, hElement]
      cases j with
      | zero =>
          rw [Nat.zero_mul, Nat.add_zero, fetch_store_of_disjoint _ (Or.inl (Nat.le_refl _))]
          have hSame := fetch_store mem addr element
          rw [hElement] at hSame
          exact hSame
      | succ j =>
          have hNext : addr + (j + 1) * size = addr + size + j * size := by
            rw [Nat.succ_mul]
            omega
          rw [hNext, ih _ _ hArray j, List.getD_cons_succ,
            fetch_store_of_disjoint _ (Or.inr (by rw [hElement]; omega))]

end Bytes
