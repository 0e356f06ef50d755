import Mathlib.Algebra.Ring.Nat
import Mathlib.Data.List.Basic
import Mathlib.Data.Nat.Basic

/-! Regions laid out one behind the other, one for each distinct name of a
sequence, in the order in which the names first appear. -/
namespace Regions

variable {ι β : Type*} [DecidableEq ι]

/-- The names seen, extended by the new ones of a sequence. -/
def firsts (seen : List ι) : List ι → List ι
  | [] => seen
  | r :: rest => firsts (if r ∈ seen then seen else seen ++ [r]) rest

/-- Where the region of a name starts. -/
def start (size : ι → Nat) : List ι → ι → Nat
  | [], _ => 0
  | q :: order, r => if q = r then 0 else size q + start size order r

/-- What all regions take together. -/
def total (size : ι → Nat) (order : List ι) : Nat := (order.map size).sum

variable {seen order : List ι} {r s : ι} {size : ι → Nat}

theorem firsts_cons_of_mem (h : r ∈ seen) (rest : List ι) :
    firsts seen (r :: rest) = firsts seen rest := by
  rw [firsts, if_pos h]

theorem firsts_cons_of_not_mem (h : r ∉ seen) (rest : List ι) :
    firsts seen (r :: rest) = firsts (seen ++ [r]) rest := by
  rw [firsts, if_neg h]

theorem prefix_firsts (seen names : List ι) : seen <+: firsts seen names := by
  induction names generalizing seen with
  | nil => exact List.prefix_rfl
  | cons r rest ih =>
      by_cases h : r ∈ seen
      · rw [firsts_cons_of_mem h]
        exact ih seen
      · rw [firsts_cons_of_not_mem h]
        exact (List.prefix_append seen [r]).trans (ih _)

theorem mem_firsts {names : List ι} : r ∈ firsts seen names ↔ r ∈ seen ∨ r ∈ names := by
  induction names generalizing seen with
  | nil => simp [firsts]
  | cons q rest ih =>
      by_cases h : q ∈ seen
      · rw [firsts_cons_of_mem h, ih, List.mem_cons]
        constructor
        · exact Or.imp_right Or.inr
        · rintro (hSeen | rfl | hRest)
          · exact Or.inl hSeen
          · exact Or.inl h
          · exact Or.inr hRest
      · rw [firsts_cons_of_not_mem h, ih, List.mem_append, List.mem_singleton, List.mem_cons,
          or_assoc]

omit [DecidableEq ι] in
theorem total_append (size : ι → Nat) (order more : List ι) :
    total size (order ++ more) = total size order + total size more := by
  rw [total, List.map_append, List.sum_append]
  rfl

/-- Names behind do not move a region. -/
theorem start_append_of_mem (h : r ∈ order) (more : List ι) :
    start size (order ++ more) r = start size order r := by
  induction order with
  | nil => cases h
  | cons q rest ih =>
      rw [List.cons_append, start, start]
      by_cases hSame : q = r
      · rw [if_pos hSame, if_pos hSame]
      · rw [if_neg hSame, if_neg hSame, ih ((List.mem_cons.mp h).resolve_left (Ne.symm hSame))]

theorem start_of_prefix {longer : List ι} (hPrefix : order <+: longer) (h : r ∈ order) :
    start size longer r = start size order r := by
  obtain ⟨more, rfl⟩ := hPrefix
  exact start_append_of_mem h more

/-- A new name gets the first free place. -/
theorem start_append_self (size : ι → Nat) (h : r ∉ order) :
    start size (order ++ [r]) r = total size order := by
  induction order with
  | nil => simp [start, total]
  | cons q rest ih =>
      obtain ⟨hNe, hRest⟩ := not_or.mp (List.mem_cons.not.mp h)
      rw [List.cons_append, start, if_neg (Ne.symm hNe), ih hRest]
      rfl

theorem start_add_size_le (size : ι → Nat) (h : r ∈ order) :
    start size order r + size r ≤ total size order := by
  induction order with
  | nil => cases h
  | cons q rest ih =>
      have hTotal : total size (q :: rest) = size q + total size rest := rfl
      rw [start, hTotal]
      split_ifs with hSame
      · rw [hSame]
        omega
      · have hLater := ih ((List.mem_cons.mp h).resolve_left (Ne.symm hSame))
        omega

theorem disjoint (size : ι → Nat) (hr : r ∈ order) (hs : s ∈ order) (hNe : r ≠ s) :
    start size order r + size r ≤ start size order s ∨
      start size order s + size s ≤ start size order r := by
  induction order with
  | nil => cases hr
  | cons q rest ih =>
      rw [start, start]
      by_cases hqr : q = r
      · subst hqr
        rw [if_pos rfl, if_neg hNe]
        exact Or.inl (by omega)
      · by_cases hqs : q = s
        · subst hqs
          rw [if_pos rfl, if_neg hqr]
          exact Or.inr (by omega)
        · rw [if_neg hqr, if_neg hqs]
          have hRest := ih ((List.mem_cons.mp hr).resolve_left (Ne.symm hqr))
            ((List.mem_cons.mp hs).resolve_left (Ne.symm hqs))
          omega

/-- Where a region starts depends on the sizes of those in front alone. -/
theorem start_congr {size' : ι → Nat} (h : ∀ q ∈ order, size q = size' q) (r : ι) :
    start size order r = start size' order r := by
  induction order with
  | nil => rfl
  | cons q rest ih =>
      rw [start, start, h q List.mem_cons_self, ih fun p hp => h p (List.mem_cons_of_mem q hp)]

omit [DecidableEq ι] in
/-- The total depends on the sizes of the regions that are laid out. -/
theorem total_congr {size' : ι → Nat} (h : ∀ q ∈ order, size q = size' q) :
    total size order = total size' order := by
  rw [total, total, List.map_congr_left h]

/-- With sizes that are multiples of a page, each region starts at a page. -/
theorem dvd_start {d : Nat} (h : ∀ q ∈ order, d ∣ size q) : d ∣ start size order r := by
  induction order with
  | nil => exact Nat.dvd_zero d
  | cons q rest ih =>
      rw [start]
      split_ifs
      · exact Nat.dvd_zero d
      · exact Nat.dvd_add (h q List.mem_cons_self) (ih fun p hp => h p (List.mem_cons_of_mem q hp))

theorem size_le_total (size : ι → Nat) (h : r ∈ order) : size r ≤ total size order :=
  Nat.le_trans (Nat.le_add_left _ _) (start_add_size_le size h)

omit [DecidableEq ι] in
theorem length_flatMap (block : ι → List β) (order : List ι) :
    (order.flatMap block).length = total (fun q => (block q).length) order := by
  rw [List.length_flatMap]
  rfl

/-- The contents of the regions in a row hold each at its start. -/
theorem slice_flatMap (block : ι → List β) (h : r ∈ order) :
    ((order.flatMap block).drop (start (fun q => (block q).length) order r)).take
      (block r).length = block r := by
  induction order with
  | nil => cases h
  | cons q rest ih =>
      rw [List.flatMap_cons, start]
      split_ifs with hSame
      · subst hSame
        rw [List.drop_zero, List.take_left]
      · rw [← List.drop_drop, List.drop_left]
        exact ih ((List.mem_cons.mp h).resolve_left (Ne.symm hSame))

end Regions
