import Gtexswifi.Library.Columns
import Gtexswifi.SignImage.BigIntSpec

/-! `Mul_bigint` computes the product: the carry of a column stays far below
the 64 bits of its variable. -/
namespace SignImage

open Radix

theorem toNat_getD (limbs : List UInt32) (k : Nat) : (limbs.getD k 0).toNat = digit limbs k := by
  unfold digit
  rw [List.getD_eq_getElem?_getD]
  cases limbs[k]? <;> rfl

/-- One pass of the inner loop, with its product split over the sum and the
carry. -/
theorem columnStep_spec (as bs : List UInt32) (i j : Nat) {acc : Nat × Nat}
    (hSum : acc.1 < 2 ^ 63) (hCarry : acc.2 < 2 ^ 63) :
    (columnStep as bs i acc j).1 + limbBase * (columnStep as bs i acc j).2 =
        acc.1 + limbBase * acc.2 + entry as bs i j ∧
      (columnStep as bs i acc j).1 ≤ acc.1 + limbBase ∧
        (columnStep as bs i acc j).2 ≤ acc.2 + limbBase := by
  have ha : digit as (i - j) < limbBase := digit_lt as (i - j)
  have hb : digit bs j < limbBase := digit_lt bs j
  have hMul : digit as (i - j) * digit bs j ≤ (limbBase - 1) * (limbBase - 1) :=
    Nat.mul_le_mul (Nat.le_pred_of_lt ha) (Nat.le_pred_of_lt hb)
  unfold columnStep entry
  simp only [toNat_getD]
  by_cases hInside : j ≤ i ∧ i - j < as.length
  · rw [if_pos hInside, if_pos hInside.1]
    generalize digit as (i - j) * digit bs j = product at hMul
    simp only [limbBase] at *
    omega
  · rw [if_neg hInside]
    have hNone : (if j ≤ i then digit as (i - j) * digit bs j else 0) = 0 := by
      split
      · next hLe => rw [digit_of_le (by omega), Nat.zero_mul]
      · rfl
    rw [hNone]
    omega

/-- What the inner loop adds up over the first digits of the second factor. -/
theorem foldl_columnStep (as bs : List UInt32) (i : Nat) {carry n : Nat} (hCarry : carry < 2 ^ 62)
    (hn : n ≤ bigintMaxlen) :
    ((List.range n).foldl (columnStep as bs i) (carry, 0)).1 +
          limbBase * ((List.range n).foldl (columnStep as bs i) (carry, 0)).2 =
        carry + ∑ j ∈ Finset.range n, entry as bs i j ∧
      ((List.range n).foldl (columnStep as bs i) (carry, 0)).1 ≤ carry + n * limbBase ∧
        ((List.range n).foldl (columnStep as bs i) (carry, 0)).2 ≤ n * limbBase := by
  induction n with
  | zero => simp
  | succ n ih =>
      obtain ⟨ihValue, ihSum, ihCarry⟩ := ih (by omega)
      rw [List.range_succ, List.foldl_append, Finset.sum_range_succ]
      simp only [bigintMaxlen, limbBase] at hn ihSum ihCarry
      revert ihValue ihSum ihCarry
      generalize (List.range n).foldl (columnStep as bs i) (carry, 0) = acc
      intro ihValue ihSum ihCarry
      obtain ⟨hValue, hSum, hHigh⟩ :=
        columnStep_spec as bs i n (show acc.1 < 2 ^ 63 by omega) (by omega)
      simp only [List.foldl_cons, List.foldl_nil]
      refine ⟨by omega, ?_, ?_⟩
      · simp only [limbBase] at hSum ⊢
        omega
      · simp only [limbBase] at hHigh ⊢
        omega

/-- The columns from `i` on, with the carry at the place above them. -/
theorem mulColumns_spec (as : List UInt32) {bs : List UInt32} (hb : bs.length ≤ bigintMaxlen) (columns i : Nat)
    {carry : Nat} (hCarry : carry < 2 ^ 62) :
    (mulColumns as bs columns i carry).1.length = columns ∧
      value (mulColumns as bs columns i carry).1 +
          limbBase ^ columns * (mulColumns as bs columns i carry).2 =
        carry + ∑ k ∈ Finset.range columns, column as bs (i + k) * limbBase ^ k := by
  induction columns generalizing i carry with
  | zero => simp [mulColumns]
  | succ columns ih =>
      have hColumn := foldl_columnStep as bs i hCarry hb
      rw [mulColumns]
      revert hColumn
      generalize (List.range bs.length).foldl (columnStep as bs i) (carry, 0) = acc
      obtain ⟨sum, high⟩ := acc
      rintro ⟨hValue, hSum, hHigh⟩
      simp only [bigintMaxlen, limbBase] at hb hSum hHigh
      have hNext : (high + sum / 2 ^ 32) % 2 ^ 64 = high + sum / 2 ^ 32 :=
        Nat.mod_eq_of_lt (by omega)
      obtain ⟨ihLength, ihValue⟩ := ih (i + 1) (show high + sum / 2 ^ 32 < 2 ^ 62 by omega)
      rw [Nat.add_right_comm] at ihValue
      dsimp only at hValue ⊢
      rw [hNext]
      refine ⟨congrArg (· + 1) ihLength, (value_carry ihValue).trans ?_⟩
      rw [Finset.sum_range_succ', Nat.mul_add, Finset.mul_sum, base_uint32, ← Nat.add_assoc, hValue,
        Nat.add_assoc, Nat.add_comm (Finset.sum _ _)]
      congr 2
      · apply Finset.sum_congr rfl
        intro k _
        rw [Nat.pow_succ, show i + 1 + k = i + (k + 1) by omega]
        ring
      · rw [Nat.pow_zero, Nat.mul_one]
        rfl

/-- The columns of `Mul_bigint`, also for a second factor of one limb. -/
def mulByColumns (sIn sIn2 : SBigInt) : Except Fault SBigInt := do
  let as ← sIn.limbs sIn.iLength32
  let bs ← sIn2.limbs sIn2.iLength32
  let (sums, carry) := mulColumns as bs (sIn.iLength32 + sIn2.iLength32 - 1) 0 0
  SBigInt.ofLimbs (if carry ≠ 0 then sums ++ [UInt32.ofNat carry] else sums)

/-- `Mul_bigint` takes the columns unless the second factor has one limb. -/
theorem mulBigint_eq (sIn sIn2 : SBigInt) :
    mulBigint sIn sIn2 =
      if sIn2.iLength32 = 1 then sIn2.fromTop 1 >>= fun d => mulLong sIn d.toNat
      else mulByColumns sIn sIn2 := rfl

namespace Numeral

/-- The product, in as many limbs as `Mul_bigint` gives it. -/
def mul (x y : Numeral) : Numeral :=
  fit (x.value * y.value) (x.length + y.length - 1) (by
    calc
      x.value * y.value < limbBase ^ x.length * limbBase ^ y.length :=
        Nat.mul_lt_mul'' x.bounded y.bounded
      _ = limbBase ^ (x.length + y.length) := (Nat.pow_add _ _ _).symm
      _ ≤ limbBase ^ (x.length + y.length - 1 + 1) :=
        Nat.pow_le_pow_right limbBase_pos (by omega))

@[simp] theorem value_mul (x y : Numeral) : (x.mul y).value = x.value * y.value := rfl

/-- The product of normal numerals that are not zero is normal. -/
theorem mul_normal {a b : Nat} (ha : 0 < a) (hb : 0 < b) :
    (normal a).mul (normal b) = normal (a * b) := by
  have hPosA := length_normal_pos a
  have hPosB := length_normal_pos b
  apply fit_eq_normal
  · omega
  · rw [value_normal, value_normal]
    calc
      limbBase ^ ((normal a).length + (normal b).length - 1 - 1) =
          limbBase ^ ((normal a).length - 1) * limbBase ^ ((normal b).length - 1) := by
        rw [← Nat.pow_add]
        congr 1
        omega
      _ ≤ a * b := Nat.mul_le_mul (pow_le_normal ha) (pow_le_normal hb)

/-- The loop over the columns multiplies stored numerals, if the product
fits. -/
theorem mulByColumns_toBig {x y : Numeral} (hx : 0 < x.length) (hy : 0 < y.length)
    (h : (x.mul y).length ≤ bigintMaxlen) :
    mulByColumns x.toBig y.toBig = .ok (x.mul y).toBig := by
  have hLength : x.length + y.length - 1 ≤ bigintMaxlen := (le_length_fit _ _ _).trans h
  have hyMax : y.length ≤ bigintMaxlen := by omega
  have hb : (encode y.length y.value : List UInt32).length ≤ bigintMaxlen := by
    rwa [length_encode]
  have hColumns := mulColumns_spec (encode x.length x.value) hb (x.length + y.length - 1) 0
    (Nat.two_pow_pos 62)
  have hProduct := value_mul_value (encode x.length x.value : List UInt32)
    (encode y.length y.value)
  unfold mulByColumns
  rw [iLength32_toBig, iLength32_toBig, limbs_toBig _ (by omega), ok_bind, limbs_toBig _ hyMax,
    ok_bind]
  revert hColumns
  generalize mulColumns _ _ _ _ _ = result
  obtain ⟨sums, carry⟩ := result
  rintro ⟨hSums, hValue⟩
  simp only [length_encode, value_encode_limbs x.bounded, value_encode_limbs y.bounded,
    base_uint32] at hProduct
  simp only [Nat.zero_add, ← hProduct] at hValue
  exact ofLimbs_carry hSums hValue _ h

theorem mulBigint_toBig {x y : Numeral} (hx : 0 < x.length) (hy : 0 < y.length)
    (h : (x.mul y).length ≤ bigintMaxlen) : mulBigint x.toBig y.toBig = .ok (x.mul y).toBig := by
  have hLength : x.length + y.length - 1 ≤ bigintMaxlen := (le_length_fit _ _ _).trans h
  have hyMax : y.length ≤ bigintMaxlen := by omega
  rw [mulBigint_eq, iLength32_toBig]
  by_cases hOne : y.length = 1
  · obtain ⟨d, hd, hLimb⟩ := fromTop_toBig (x := y) Nat.one_pos hy hyMax
    have hValue : d.toNat = y.value := by
      rw [hLimb, limbFromTop_one, hOne]
      exact Nat.div_one _
    have hScale : x.scale d = x.mul y := by
      unfold scale mul
      simp only [hValue, hOne, Nat.add_sub_cancel]
    rw [if_pos hOne, hd, ok_bind, mulLong_toBig (hScale ▸ h), hScale]
  · rw [if_neg hOne, mulByColumns_toBig hx hy h]

end Numeral

end SignImage
