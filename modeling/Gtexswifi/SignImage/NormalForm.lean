import Gtexswifi.SignImage.Reduction

/-! The normal form of a bignum: no zero limb at the top of a number of more
than one limb, and zeros above. A number has one normal form. -/
namespace SignImage

open Radix

/-- No zero limb at the top of the limbs that the length counts, unless it
is the only one. The limbs above are left open. -/
structure SBigInt.Normalised (x : SBigInt) : Prop where
  length_le : x.iLength32 ≤ bigintMaxlen
  top : x.iLength32 = 1 ∨ x.TopNonzero

/-- The number in the limbs that the length counts. -/
abbrev SBigInt.limbValue (x : SBigInt) : Nat := x.numeral.value

/-- With zeros in all limbs that the length does not count. -/
structure SBigInt.NormalForm (x : SBigInt) : Prop extends x.Normalised where
  above : ∀ d ∈ x.ulValue.drop x.iLength32, d = 0

open Numeral (normal)

/-- A normalised big integer has the shortest numeral of its value. -/
theorem SBigInt.Normalised.numeral_eq {x : SBigInt} (h : x.Normalised) :
    x.numeral = normal x.limbValue := by
  have hLength : x.numeral.length = x.iLength32 := SBigInt.length_numeral h.length_le
  cases h.top with
  | inl hOne =>
      apply Numeral.ext
      · rfl
      · have hBound := x.numeral.bounded
        rw [hLength, hOne, Nat.pow_one] at hBound
        rw [hLength, hOne, Numeral.length_normal_limb hBound]
  | inr hTop =>
      apply Numeral.eq_normal
      · rw [hLength]
        exact hTop.length_pos
      · exact hTop.pow_le h.length_le

theorem SBigInt.Normalised.holds {x : SBigInt} (h : x.Normalised) :
    x.Holds (normal x.limbValue) := by
  have hHolds := SBigInt.holds_numeral h.length_le
  rwa [h.numeral_eq] at hHolds

/-- A bignum that holds a number without zero limbs at its top. -/
theorem SBigInt.Holds.normalised {x : SBigInt} {v : Nat} (h : x.Holds (normal v)) :
    x.Normalised where
  length_le := h.iLength32_eq.trans_le h.length_le
  top := by
    by_cases hv : v = 0
    · left
      rw [h.iLength32_eq, hv]
      rfl
    · right
      have hPos := Nat.pos_of_ne_zero hv
      obtain ⟨limb, hLimb, hValue⟩ :=
        Numeral.fromTop_toBig (x := normal v) Nat.one_pos (Numeral.length_normal_pos v) h.length_le
      refine ⟨limb, (h.fromTop_eq Nat.one_pos).trans hLimb, ?_⟩
      intro hZero
      have hTop := Nat.div_pos (Numeral.pow_le_normal hPos) (Nat.pow_pos limbBase_pos)
      rw [Numeral.limbFromTop_one, Numeral.value_normal, hZero] at hValue
      rw [← hValue] at hTop
      exact absurd hTop (Nat.lt_irrefl 0)

/-- In normal form the limbs above the length are zero, so that the value
determines the big integer. -/
theorem SBigInt.NormalForm.eq_toBig {x : SBigInt} (h : x.NormalForm) :
    x = (normal x.limbValue).toBig := by
  have hHolds := h.holds
  have hLength : x.iLength32 = (normal x.limbValue).length := hHolds.iLength32_eq
  have hAbove : x.ulValue.drop x.iLength32 =
      List.replicate (bigintMaxlen - x.iLength32) 0 := by
    rw [List.eq_replicate_iff]
    exact ⟨by rw [List.length_drop, x.size], h.above⟩
  apply SBigInt.eq_of hLength
  change _ = encode bigintMaxlen (normal x.limbValue).value
  rw [Numeral.encode_eq_append (normal x.limbValue).bounded hHolds.length_le, ← hLength, ← hAbove]
  have hTake := hHolds.take_eq
  rw [← hLength] at hTake
  calc
    x.ulValue = x.ulValue.take x.iLength32 ++ x.ulValue.drop x.iLength32 :=
      (List.take_append_drop _ _).symm
    _ = _ := by
      rw [hTake, Numeral.limbs, ← hLength]

theorem Numeral.normalForm {v : Nat} (h : (normal v).length ≤ bigintMaxlen) :
    (normal v).toBig.NormalForm where
  toNormalised := (Numeral.holds_toBig h).normalised
  above := by
    intro d hd
    change d ∈ (encode bigintMaxlen (normal v).value : List UInt32).drop (normal v).length at hd
    rw [Numeral.encode_eq_append (normal v).bounded h, List.drop_left' (length_encode _ _)] at hd
    exact List.eq_of_mem_replicate hd

theorem normalForm_small {v : Nat} (h : v < limbBase) :
    (normal v).toBig.NormalForm ∧ (normal v).toBig.limbValue = v ∧
      (normal v).toBig.iLength32 = 1 := by
  have hOne : (normal v).length = 1 := Numeral.length_normal_limb h
  have hMax : (normal v).length ≤ bigintMaxlen := hOne.trans_le (by decide)
  exact ⟨Numeral.normalForm hMax, congrArg Numeral.value (Numeral.holds_toBig hMax).numeral_eq, hOne⟩

theorem Modulus.eq_normal (n : Modulus) : n.toNumeral = normal n.value :=
  Numeral.eq_normal n.length_pos n.top_ne_zero

namespace Numeral

/-- The sum of numerals has the longer one's length, in either order. -/
theorem add_comm (x y : Numeral) : x.add y = y.add x := by
  simp only [add, Nat.add_comm x.value, Nat.max_comm x.length]

theorem ofLimbs_singleton (d : UInt32) : ofLimbs [d] = normal d.toNat := by
  apply Numeral.ext
  · exact value_singleton d
  · exact (length_normal_limb d.toNat_lt).symm

theorem shift_normal {v : Nat} (len : Nat) (h : 0 < v) :
    (normal v).shift len = normal (limbBase ^ len * v) := by
  apply eq_normal
  · exact Nat.add_pos_left (length_normal_pos v) len
  · have hLength : ((normal v).shift len).length - 1 = len + ((normal v).length - 1) := by
      have hPos := length_normal_pos v
      rw [length_shift]
      omega
    rw [hLength, Nat.pow_add]
    exact Nat.mul_le_mul_left _ (pow_le_normal h)

theorem shift_scale (n : Modulus) (len : Nat) {d : UInt32} (h : 0 < d.toNat) :
    (n.scale d).shift len = normal (n.value * (limbBase ^ len * d.toNat)) := by
  have hScale : n.scale d = normal (n.value * d.toNat) :=
    fit_eq_normal _ n.length_pos (n.top_ne_zero.trans (Nat.le_mul_of_pos_right _ h))
  rw [hScale, shift_normal len (Nat.mul_pos n.value_pos h)]
  congr 1
  ring

end Numeral

end SignImage
