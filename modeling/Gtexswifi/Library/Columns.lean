import Gtexswifi.Library.Radix
import Mathlib.Algebra.BigOperators.Intervals
import Mathlib.Algebra.BigOperators.Ring.Finset

/-! Products column by column: the digits of two factors, sorted by the
place that their product has. -/
namespace Radix

open Digit

variable {α : Type} [Digit α]

/-- The digit at a place, zero behind the last one. -/
def digit (digits : List α) (k : Nat) : Nat := (digits[k]?.map Digit.toNat).getD 0

theorem digit_of_le {digits : List α} {k : Nat} (h : digits.length ≤ k) : digit digits k = 0 := by
  rw [digit, List.getElem?_eq_none h]
  rfl

theorem digit_lt (digits : List α) (k : Nat) : digit digits k < base α := by
  unfold digit
  cases digits[k]? with
  | none => exact base_pos
  | some d => exact toNat_lt d

theorem value_eq_sum (digits : List α) :
    value digits = ∑ k ∈ Finset.range digits.length, digit digits k * base α ^ k := by
  induction digits with
  | nil => rfl
  | cons d digits ih =>
      rw [value_cons, ih, List.length_cons, Finset.sum_range_succ', Finset.mul_sum, Nat.add_comm]
      congr 1
      · apply Finset.sum_congr rfl
        intro k _
        rw [Nat.pow_succ]
        change base α * (digit digits k * base α ^ k) = digit digits k * (base α ^ k * base α)
        ring
      · rw [Nat.pow_zero, Nat.mul_one]
        rfl

/-- One product of a column. -/
def entry (as bs : List α) (i j : Nat) : Nat :=
  if j ≤ i then digit as (i - j) * digit bs j else 0

/-- The products of digits whose places add up to `i`. -/
def column (as bs : List α) (i : Nat) : Nat := ∑ j ∈ Finset.range bs.length, entry as bs i j

/-- The entries of one digit of the second factor, over enough columns, are
its multiple of the first factor. -/
theorem sum_entry (as bs : List α) {j columns : Nat} (h : j + as.length ≤ columns) :
    ∑ i ∈ Finset.range columns, entry as bs i j * base α ^ i =
      value as * (digit bs j * base α ^ j) := by
  obtain ⟨rest, rfl⟩ := Nat.exists_eq_add_of_le h
  have hLow : ∑ i ∈ Finset.range j, entry as bs i j * base α ^ i = 0 := by
    apply Finset.sum_eq_zero
    intro i hi
    rw [entry, if_neg (Nat.not_le.mpr (Finset.mem_range.mp hi)), Nat.zero_mul]
  have hHigh : ∑ k ∈ Finset.range rest, entry as bs (j + as.length + k) j *
      base α ^ (j + as.length + k) = 0 := by
    apply Finset.sum_eq_zero
    intro k _
    rw [entry, if_pos (by omega), digit_of_le (by omega), Nat.zero_mul, Nat.zero_mul]
  rw [Finset.sum_range_add, Finset.sum_range_add, hLow, hHigh, Nat.zero_add, Nat.add_zero,
    value_eq_sum as, Finset.sum_mul]
  apply Finset.sum_congr rfl
  intro k _
  rw [entry, if_pos (Nat.le_add_right j k), Nat.add_sub_cancel_left]
  ring

/-- A product is the sum of its columns. -/
theorem value_mul_value (as bs : List α) :
    value as * value bs =
      ∑ i ∈ Finset.range (as.length + bs.length - 1), column as bs i * base α ^ i := by
  simp only [column, Finset.sum_mul]
  rw [Finset.sum_comm, value_eq_sum bs, Finset.mul_sum]
  apply Finset.sum_congr rfl
  intro j hj
  have hRange := Finset.mem_range.mp hj
  exact (sum_entry as bs (by omega)).symm

end Radix
