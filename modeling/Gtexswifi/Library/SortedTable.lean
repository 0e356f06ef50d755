import Mathlib.Data.List.Basic
import Mathlib.Data.List.Nodup
import Mathlib.Order.Lattice

/-! Tables whose entries are strictly increasing in a key, under insertion. -/
namespace SortedTable

variable {α κ : Type*} [LinearOrder κ] (key : α → κ)

/-- Put an entry before the first one with a larger key. An entry whose key
is in the table is a duplicate. -/
def insertUnique (c : α) : List α → Option (List α)
  | [] => some [c]
  | x :: rest =>
      if key c < key x then some (c :: x :: rest)
      else if key c = key x then none
      else (insertUnique c rest).map (x :: ·)

/-- Strictly increasing in the key. -/
def Sorted (table : List α) : Prop := table.Pairwise fun a b => key a < key b

variable {key} {c : α} {table table' : List α}

theorem perm_insertUnique (h : insertUnique key c table = some table') :
    table'.Perm (c :: table) := by
  induction table generalizing table' with
  | nil =>
      obtain rfl := Option.some.inj h
      exact List.Perm.refl _
  | cons x rest ih =>
      rw [insertUnique] at h
      split_ifs at h with hLess hSame
      · obtain rfl := Option.some.inj h
        exact List.Perm.refl _
      · obtain ⟨rest', hRest, rfl⟩ := Option.map_eq_some_iff.mp h
        exact ((ih hRest).cons x).trans (List.Perm.swap c x rest)

theorem mem_insertUnique (h : insertUnique key c table = some table') {x : α} :
    x ∈ table' ↔ x = c ∨ x ∈ table := by
  rw [(perm_insertUnique h).mem_iff, List.mem_cons]

theorem length_insertUnique (h : insertUnique key c table = some table') :
    table'.length = table.length + 1 := (perm_insertUnique h).length_eq

theorem sorted_insertUnique (hSorted : Sorted key table)
    (h : insertUnique key c table = some table') : Sorted key table' := by
  induction table generalizing table' with
  | nil =>
      obtain rfl := Option.some.inj h
      exact List.pairwise_singleton _ _
  | cons x rest ih =>
      obtain ⟨hFirst, hRest⟩ := List.pairwise_cons.mp hSorted
      rw [insertUnique] at h
      split_ifs at h with hLess hSame
      · obtain rfl := Option.some.inj h
        refine List.Pairwise.cons ?_ hSorted
        intro y hy
        cases hy with
        | head => exact hLess
        | tail _ hMem => exact hLess.trans (hFirst y hMem)
      · obtain ⟨rest', hInsert, rfl⟩ := Option.map_eq_some_iff.mp h
        refine List.Pairwise.cons ?_ (ih hRest hInsert)
        intro y hy
        cases (mem_insertUnique hInsert).mp hy with
        | inl hNew =>
            rw [hNew]
            exact lt_of_le_of_ne (not_lt.mp hLess) (Ne.symm hSame)
        | inr hMem => exact hFirst y hMem

/-- In a sorted table, exactly the keys that it has are duplicates. -/
theorem insertUnique_eq_none (hSorted : Sorted key table) :
    insertUnique key c table = none ↔ key c ∈ table.map key := by
  induction table with
  | nil => simp [insertUnique]
  | cons x rest ih =>
      obtain ⟨hFirst, hRest⟩ := List.pairwise_cons.mp hSorted
      rw [insertUnique, List.map_cons, List.mem_cons]
      split_ifs with hLess hSame
      · refine iff_of_false id ?_
        rintro (hSame | hLater)
        · exact hLess.ne hSame
        · obtain ⟨y, hMem, hy⟩ := List.mem_map.mp hLater
          exact (hLess.trans (hFirst y hMem)).ne hy.symm
      · exact iff_of_true rfl (Or.inl hSame)
      · rw [Option.map_eq_none_iff, ih hRest]
        exact ⟨Or.inr, fun h => h.resolve_left hSame⟩

theorem insertUnique_map {β : Type*} (f : β → α) (c : β) (table : List β) :
    (insertUnique (key ∘ f) c table).map (List.map f) =
      insertUnique key (f c) (table.map f) := by
  induction table with
  | nil => rfl
  | cons x rest ih =>
      rw [List.map_cons, insertUnique, insertUnique, ← ih]
      simp only [Function.comp_apply]
      split_ifs
      · rfl
      · rfl
      · simp only [Option.map_map, Function.comp_def, List.map_cons]

/-- Entries of a sorted table with one key are one entry. -/
theorem Sorted.eq_of_key_eq (hSorted : Sorted key table) {x y : α} (hx : x ∈ table)
    (hy : y ∈ table) (hKey : key x = key y) : x = y := by
  have hNodup : (table.map key).Nodup := List.pairwise_map.mpr (hSorted.imp ne_of_lt)
  exact List.inj_on_of_nodup_map hNodup hx hy hKey

end SortedTable
