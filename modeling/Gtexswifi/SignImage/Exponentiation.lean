import Gtexswifi.SignImage.Reduction

/-! `RsaTrans` carries out the ladder of numerals: it faults exactly where
the ladder has no next numeral, and otherwise ends with the power modulo
`sN`. -/
namespace SignImage

open Radix

namespace Numeral

/-- A modulus of at most 2048 bits leaves room for the two limbs that a
product needs. -/
def maxModulusLength : Nat := 64

theorem length_scale_le (x : Numeral) (d : UInt32) : (x.scale d).length ≤ x.length + 1 :=
  length_fit_le _ _ _

/-- The sum that one pass reduces fits into a bignum. -/
theorem mulModSum_toBig {n : Modulus} (hn : n.length ≤ maxModulusLength) {x t : Numeral}
    (hx : x.length ≤ n.length) (ht : t.length ≤ n.length) (d : UInt32) :
    t.toBig.shiftLimbs 1 = .ok (t.shift 1).toBig ∧
      mulLong x.toBig d.toNat = .ok (x.scale d).toBig ∧
      addBigint (t.shift 1).toBig (x.scale d).toBig = .ok ((t.shift 1).add (x.scale d)).toBig ∧
      ((t.shift 1).add (x.scale d)).length ≤ bigintMaxlen := by
  have hScale := length_scale_le x d
  have hMax : max (t.shift 1).length (x.scale d).length < bigintMaxlen := by
    rw [length_shift]
    simp only [maxModulusLength, bigintMaxlen] at *
    omega
  have hShift : t.length + 1 ≤ bigintMaxlen := by
    simp only [maxModulusLength, bigintMaxlen] at *
    omega
  refine ⟨shiftLimbs_toBig hShift, ?_, addBigint_toBig hMax, ?_⟩
  · exact mulLong_toBig ((Nat.le_max_right _ _).trans hMax.le)
  · exact (length_fit_le _ _ _).trans hMax

/-- One pass over stored numerals is the pass over the numerals. -/
theorem mulModPass_toBig {n : Modulus} (hn : n.length ≤ maxModulusLength) {x t : Numeral}
    (hx : x.length ≤ n.length) (ht : t.length ≤ n.length) (d : UInt32) :
    SignImage.mulModPass x.toBig n.toBig t.toBig d =
      inBounds ((mulModPass n x t d).map toBig) := by
  obtain ⟨hShift, hScale, hAdd, hMax⟩ := mulModSum_toBig hn hx ht d
  rw [SignImage.mulModPass, hShift, ok_bind, hScale, ok_bind, hAdd, ok_bind, modBigint_toBig hMax]
  rfl

/-- By induction on the limbs of the second factor, with the numeral so far
below the modulus. -/
theorem foldlM_toBig {n : Modulus} (hn : n.length ≤ maxModulusLength) {x : Numeral}
    (hx : x.length ≤ n.length) (rest : List UInt32) {t : Numeral} (ht : t.Below n) :
    rest.foldlM (SignImage.mulModPass x.toBig n.toBig) t.toBig =
      inBounds ((rest.foldlM (mulModPass n x) t).map toBig) := by
  induction rest generalizing t with
  | nil => rfl
  | cons d rest ih =>
      rw [List.foldlM_cons, List.foldlM_cons, mulModPass_toBig hn hx ht.length_le]
      cases hPass : mulModPass n x t d with
      | none => rfl
      | some next => exact ih (reduce_spec hPass).1

/-- The first pass scales by the top limb, for which there is room as well. -/
theorem mulModTop_toBig {n : Modulus} (hn : n.length ≤ maxModulusLength) {x y : Numeral}
    (hx : x.length ≤ n.length) (hy : y.length ≤ n.length) (hPos : 0 < y.length) :
    ∃ top : UInt32, y.toBig.fromTop 1 = .ok top ∧
      y.limbs = encode (y.length - 1) y.value ++ [top] ∧
      (x.scale top).length ≤ bigintMaxlen := by
  have hyMax : y.length ≤ bigintMaxlen := hy.trans (hn.trans (by decide))
  obtain ⟨top, hTop, hTopValue⟩ := fromTop_toBig (x := y) Nat.one_pos hPos hyMax
  refine ⟨top, hTop, ?_, ?_⟩
  · have hSplit : y.limbs = encode (y.length - 1 + 1) y.value := by
      rw [Nat.sub_add_cancel hPos]
      rfl
    rw [hSplit, encode_add]
    congr 1
    apply congrArg (fun limb : UInt32 => [limb])
    apply toNat_injective
    rw [Digit.toNat_ofNat, toNat_uint32, hTopValue]
    rfl
  · have hScale := length_scale_le x top
    simp only [maxModulusLength, bigintMaxlen] at *
    omega

/-- The modular product of stored numerals is that of the numerals. -/
theorem mulMod_toBig {n : Modulus} (hn : n.length ≤ maxModulusLength) {x y : Numeral}
    (hx : x.length ≤ n.length) (hy : y.length ≤ n.length) :
    SignImage.mulMod x.toBig y.toBig n.toBig = inBounds ((mulMod n x y).map toBig) := by
  have hyMax : y.length ≤ bigintMaxlen := hy.trans (hn.trans (by decide))
  rcases Nat.eq_zero_or_pos y.length with hNone | hPos
  · have hLimbs : y.limbs.reverse = [] := by
      rw [limbs, hNone]
      rfl
    rw [SignImage.mulMod, SBigInt.fromTop, iLength32_toBig, hNone, mulMod, hLimbs]
    rfl
  · obtain ⟨top, hTop, hLimbs, hScaleMax⟩ := mulModTop_toBig hn hx hy hPos
    rw [SignImage.mulMod, hTop, ok_bind, iLength32_toBig, limbs_toBig _ (by omega), ok_bind,
      mulLong_toBig hScaleMax, ok_bind, modBigint_toBig hScaleMax, mulMod, hLimbs,
      List.reverse_append]
    change _ = inBounds (Option.map toBig ((reduce n (x.scale top)).bind _))
    cases hReduce : reduce n (x.scale top) with
    | none => rfl
    | some t => exact foldlM_toBig hn hx _ (reduce_spec hReduce).1

theorem bit_toBig (e : Numeral) {i : Nat} (h : i / 32 < bigintMaxlen) :
    e.toBig.bit i = .ok (e.value.testBit i) := by
  rw [SBigInt.bit, toBig, getElem?_encode e.value h]
  change Except.ok ((Digit.toNat (Digit.ofNat (α := UInt32) _)).testBit _) = _
  have hPower : limbBase ^ (i / 32) = 2 ^ (32 * (i / 32)) := (Nat.pow_mul 2 32 (i / 32)).symm
  rw [Digit.toNat_ofNat, base_uint32, hPower, limbBase, Nat.testBit_mod_two_pow,
    Nat.testBit_div_two_pow, decide_eq_true (Nat.mod_lt i (by decide)), Bool.true_and,
    Nat.mod_add_div]

/-- The loop counts the bits up to the highest one that is set. -/
theorem countBits_eq {fuel num : Nat} (hPos : num ≠ 0) (h : num < 2 ^ fuel) :
    countBits fuel num = Nat.log 2 num + 1 := by
  induction fuel generalizing num with
  | zero => exact absurd h (by simpa using hPos)
  | succ fuel ih =>
      rw [countBits, if_neg hPos]
      rcases Nat.eq_zero_or_pos (num / 2) with hHalf | hHalf
      · obtain rfl : num = 1 := by omega
        cases fuel <;> rfl
      · rw [ih hHalf.ne' (by rw [Nat.pow_succ] at h; omega), Nat.log_div_base]
        have hLog : 0 < Nat.log 2 num := Nat.log_pos (by decide) (by omega)
        omega

/-- The ladder over stored numerals is the one over the numerals. By
induction on the bits of the exponent. -/
theorem rsaTransLoop_toBig {n : Modulus} (hn : n.length ≤ maxModulusLength) {c e : Numeral}
    (hc : c.length ≤ n.length) {count : Nat} (hCount : count ≤ 32 * bigintMaxlen) {x : Numeral}
    (hx : x.length ≤ n.length) :
    rsaTransLoop c.toBig e.toBig n.toBig count x.toBig =
      inBounds ((ladder n c e.value count x).map toBig) := by
  induction count generalizing x with
  | zero => rfl
  | succ count ih =>
      rw [rsaTransLoop, mulMod_toBig hn hx hx, ladder]
      cases hSquare : mulMod n x x with
      | none => rfl
      | some s =>
          have hs := (mulMod_spec hSquare).1.length_le
          simp only [Option.map_some, Option.bind_some, inBounds, ok_bind,
            bit_toBig e (show count / 32 < bigintMaxlen by omega)]
          split
          · rw [mulMod_toBig hn hc hs]
            cases hMultiply : mulMod n c s with
            | none => rfl
            | some t => exact ih (by omega) (mulMod_spec hMultiply).1.length_le
          · exact ih (by omega) hs

/-- The exponent bit that `RsaTrans` takes for the highest one and starts
below. It is looked for in the top limb only, and is the last bit below that
limb when the top limb is zero. -/
def topBit (e : Numeral) : Nat := max (Nat.log 2 e.value) (32 * (e.length - 1) - 1)

/-- In an exponent of one limb the ladder starts at the highest bit that is
set. -/
theorem topBit_one {e : Numeral} (h : e.length = 1) : e.topBit = Nat.log 2 e.value := by
  rw [topBit, h]
  exact Nat.max_eq_left (Nat.zero_le _)

theorem limbBase_pow (k : Nat) : limbBase ^ k = 2 ^ (32 * k) := (Nat.pow_mul 2 32 k).symm

theorem value_lt_two_pow (e : Numeral) : e.value < 2 ^ (32 * e.length) :=
  limbBase_pow e.length ▸ e.bounded

/-- The count of `RsaTrans` from the top limb. -/
theorem countBits_topBit {e : Numeral} (hPos : 0 < e.length) {top : UInt32}
    (hTop : top.toNat = e.limbFromTop 1) :
    e.length * 32 - 32 + countBits 64 top.toNat - 1 = e.topBit := by
  have hDiv : top.toNat = e.value / 2 ^ (32 * (e.length - 1)) := by
    rw [hTop, limbFromTop_one, limbBase_pow]
  have hBounded := e.value_lt_two_pow
  unfold topBit
  by_cases hZero : top.toNat = 0
  · rw [hZero] at hDiv ⊢
    have hLow : e.value < 2 ^ (32 * (e.length - 1)) := by
      rcases Nat.div_eq_zero_iff.mp hDiv.symm with hNone | hLow
      · exact absurd hNone (Nat.two_pow_pos _).ne'
      · exact hLow
    have hLog : Nat.log 2 e.value ≤ 32 * (e.length - 1) - 1 := by
      rcases Nat.eq_zero_or_pos e.value with hNone | hValue
      · rw [hNone, Nat.log_zero_right]
        exact Nat.zero_le _
      · exact Nat.le_sub_one_of_lt (Nat.log_lt_of_lt_pow hValue.ne' hLow)
    rw [Nat.max_eq_right hLog]
    change e.length * 32 - 32 + 0 - 1 = _
    omega
  · have hLog : Nat.log 2 top.toNat = Nat.log 2 e.value - 32 * (e.length - 1) := by
      rw [hDiv, Nat.log_div_base_pow]
    have hHigh : 32 * (e.length - 1) ≤ Nat.log 2 e.value := by
      apply Nat.le_log_of_pow_le (by decide)
      by_contra hLow
      rw [Nat.div_eq_of_lt (Nat.lt_of_not_le hLow)] at hDiv
      exact hZero hDiv
    rw [countBits_eq hZero (Nat.lt_trans top.toNat_lt (by decide)), hLog,
      Nat.max_eq_left ((Nat.sub_le _ _).trans hHigh)]
    omega

theorem topBit_lt {e : Numeral} (hPos : 0 < e.length) : e.topBit < 32 * e.length := by
  apply Nat.max_lt.mpr
  constructor
  · rcases Nat.eq_zero_or_pos e.value with hNone | hValue
    · rw [hNone, Nat.log_zero_right]
      omega
    · exact Nat.log_lt_of_lt_pow hValue.ne' e.value_lt_two_pow
  · omega

/-- `RsaTrans` is the ladder over the bits below the one it starts from. -/
theorem rsaTrans_ladder {n : Modulus} (hn : n.length ≤ maxModulusLength) {c e : Numeral}
    (hc : c.length ≤ n.length) (hPos : 0 < e.length) (he : e.length ≤ bigintMaxlen) :
    rsaTrans c.toBig e.toBig n.toBig = inBounds ((ladder n c e.value e.topBit c).map toBig) := by
  obtain ⟨top, hTop, hTopValue⟩ := fromTop_toBig (x := e) Nat.one_pos hPos he
  have hBit : e.topBit ≤ 32 * bigintMaxlen :=
    (topBit_lt hPos).le.trans (Nat.mul_le_mul_left 32 he)
  rw [rsaTrans, hTop, ok_bind]
  change rsaTransLoop _ _ _ (e.length * 32 - 32 + countBits 64 top.toNat - 1) _ = _
  rw [countBits_topBit hPos hTopValue, rsaTransLoop_toBig hn hc hBit hc]

/-- `RsaTrans` with an exponent of one limb. -/
theorem rsaTrans_toBig {n : Modulus} (hn : n.length ≤ maxModulusLength) {c : Numeral}
    (hc : c.length ≤ n.length) (d : UInt32) :
    rsaTrans c.toBig (ofLimbs [d]).toBig n.toBig =
      inBounds ((power n c d.toNat).map toBig) := by
  have hValue : (ofLimbs [d]).value = d.toNat := by simp
  have hLength : (ofLimbs [d]).length = 1 := rfl
  rw [rsaTrans_ladder hn hc (hLength ▸ Nat.one_pos) (hLength ▸ by decide), topBit_one hLength,
    hValue, power]

/-- The exponent that `RsaTrans` raises to. -/
def raised (e : Numeral) : Nat := 2 ^ e.topBit + e.value % 2 ^ e.topBit

/-- An exponent is raised to as it is when one of its bits from the last one
below the top limb on is set, and otherwise with that bit added. -/
theorem raised_eq (e : Numeral) :
    e.raised = if 2 ^ (32 * (e.length - 1) - 1) ≤ e.value then e.value
      else 2 ^ (32 * (e.length - 1) - 1) + e.value := by
  unfold raised topBit
  split
  · next hSet =>
      have hPos : e.value ≠ 0 := (Nat.lt_of_lt_of_le (Nat.two_pow_pos _) hSet).ne'
      have hLog : 32 * (e.length - 1) - 1 ≤ Nat.log 2 e.value :=
        Nat.le_log_of_pow_le (by decide) hSet
      have hLow : 2 ^ Nat.log 2 e.value ≤ e.value := Nat.pow_log_le_self 2 hPos
      have hHigh : e.value < 2 ^ (Nat.log 2 e.value + 1) :=
        Nat.lt_pow_succ_log_self (by decide) e.value
      rw [Nat.max_eq_left hLog, Nat.mod_eq_sub_mod hLow, Nat.mod_eq_of_lt (by omega)]
      omega
  · next hClear =>
      have hLess := Nat.lt_of_not_le hClear
      have hLog : Nat.log 2 e.value ≤ 32 * (e.length - 1) - 1 := by
        rcases Nat.eq_zero_or_pos e.value with hNone | hPos
        · rw [hNone, Nat.log_zero_right]
          exact Nat.zero_le _
        · exact (Nat.log_lt_of_lt_pow hPos.ne' hLess).le
      rw [Nat.max_eq_right hLog, Nat.mod_eq_of_lt hLess]

/-- The ladder raises to the exponent of `RsaTrans`, which is the given one
with its top bit added where that is not set. -/
theorem ladder_raised {n : Modulus} {c z e : Numeral} (hBelow : c.Below n)
    (h : ladder n c e.value e.topBit c = some z) :
    z.Below n ∧ z.value = c.value ^ e.raised % n.value := by
  obtain ⟨hzBelow, hzValue⟩ := ladder_spec e.topBit hBelow h
  refine ⟨hzBelow, ?_⟩
  rw [← Nat.pow_add] at hzValue
  rw [← Nat.mod_eq_of_lt hzBelow.value_lt]
  exact hzValue

end Numeral

end SignImage
