import Gtexswifi.SignImage.BigInt
import Gtexswifi.SignImage.Numeral

/-! The bignum operations on the limbs of a numeral compute the numeral that
the arithmetic gives, and a reduction faults on exactly the zeros that
`reduce` rejects. -/
namespace SignImage

open Radix

/-- A big integer is its length and its limbs. That there are as many limbs
as the array has is no further information. -/
theorem SBigInt.eq_of {x y : SBigInt} (hLength : x.iLength32 = y.iLength32)
    (hLimbs : x.ulValue = y.ulValue) : x = y := by
  cases x
  cases y
  cases hLength
  cases hLimbs
  rfl

/-- The bignum that holds a numeral: its limbs, and zeros up to the end of
the array. -/
def Numeral.toBig (x : Numeral) : SBigInt where
  iLength32 := x.length
  ulValue := encode bigintMaxlen x.value
  size := length_encode _ _

/-- The numeral that limbs write down. -/
def Numeral.ofLimbs (limbs : List UInt32) : Numeral where
  value := Radix.value limbs
  length := limbs.length
  bounded := value_lt limbs

namespace Numeral

@[simp] theorem value_ofLimbs (limbs : List UInt32) :
    (ofLimbs limbs).value = Radix.value limbs := rfl

@[simp] theorem length_ofLimbs (limbs : List UInt32) : (ofLimbs limbs).length = limbs.length := rfl

@[simp] theorem iLength32_toBig (x : Numeral) : x.toBig.iLength32 = x.length := rfl

/-- The lower limbs of a stored numeral are the digits of its value. -/
theorem limbs_toBig (x : Numeral) {count : Nat} (h : count ≤ bigintMaxlen) :
    x.toBig.limbs count = .ok (encode count x.value) := by
  rw [SBigInt.limbs, if_pos h, toBig, take_encode _ h]

theorem encode_eq_append {v length width : Nat} (hValue : v < limbBase ^ length)
    (h : length ≤ width) :
    (encode width v : List UInt32) = encode length v ++ List.replicate (width - length) 0 := by
  obtain ⟨rest, rfl⟩ := Nat.exists_eq_add_of_le h
  rw [encode_add, Nat.add_sub_cancel_left, base_uint32, Nat.div_eq_of_lt hValue,
    encode_zero_right]
  rfl

theorem ofLimbs_toBig {limbs : List UInt32} (h : limbs.length ≤ bigintMaxlen) :
    SBigInt.ofLimbs limbs = .ok (ofLimbs limbs).toBig := by
  rw [SBigInt.ofLimbs, dif_pos h]
  congr 2
  change _ = encode bigintMaxlen (Radix.value limbs)
  rw [encode_eq_append (value_lt limbs) h, encode_value]

theorem ofLimbs_encode (x : Numeral) : ofLimbs (encode x.length x.value) = x :=
  Numeral.ext (value_encode_of_lt x.bounded) (length_encode _ _)

/-- The limb `k` places from the end. -/
def limbFromTop (x : Numeral) (k : Nat) : Nat := x.value / limbBase ^ (x.length - k) % limbBase

/-- The limb that is counted from the top of a stored numeral is that of the
numeral. -/
theorem fromTop_toBig {x : Numeral} {k : Nat} (hk : 0 < k) (hLength : k ≤ x.length)
    (hMax : x.length ≤ bigintMaxlen) :
    ∃ limb : UInt32, x.toBig.fromTop k = .ok limb ∧ limb.toNat = x.limbFromTop k := by
  have hIndex := getElem?_encode (α := UInt32) x.value (show x.length - k < bigintMaxlen by omega)
  refine ⟨_, ?_, Digit.toNat_ofNat (α := UInt32) _⟩
  rw [SBigInt.fromTop, iLength32_toBig, if_pos hLength, toBig, hIndex]
  rfl

theorem limbFromTop_one (x : Numeral) : x.limbFromTop 1 = x.value / limbBase ^ (x.length - 1) := by
  rw [limbFromTop, Nat.mod_eq_of_lt]
  rw [Nat.div_lt_iff_lt_mul (Nat.pow_pos limbBase_pos)]
  calc
    x.value < limbBase ^ (x.length - 1 + 1) := value_lt_of_length_le (by omega)
    _ = limbBase * limbBase ^ (x.length - 1) := Nat.pow_succ'

/-- A shift by limbs multiplies by a power of the base, as long as the array
has room. -/
theorem shiftLimbs_toBig {x : Numeral} {len : Nat} (h : x.length + len ≤ bigintMaxlen) :
    x.toBig.shiftLimbs len = .ok (x.shift len).toBig := by
  rw [SBigInt.shiftLimbs, dif_pos (show x.toBig.iLength32 + len ≤ bigintMaxlen from h)]
  congr 2
  change List.replicate len 0 ++ (encode bigintMaxlen x.value).take x.length ++
    (encode bigintMaxlen x.value).drop (x.length + len) =
      encode bigintMaxlen (limbBase ^ len * x.value)
  have hRest : x.value / limbBase ^ (x.length + len) = 0 :=
    Nat.div_eq_of_lt (value_lt_of_length_le (Nat.le_add_right x.length len))
  rw [take_encode _ (by omega), drop_encode _ h, base_uint32, hRest, encode_zero_right]
  apply eq_encode
  · simp only [List.length_append, List.length_replicate, length_encode]
    omega
  · rw [value_append, value_append, value_replicate rfl, value_replicate rfl,
      List.length_replicate, value_encode_of_lt x.bounded, base_uint32]
    ring

/-- The comparison from the top limb down is that of the values. By
induction on the limbs. -/
theorem cmpLimbs_reverse {as bs : List UInt32} (h : as.length = bs.length) :
    cmpLimbs as bs =
      if Radix.value bs.reverse < Radix.value as.reverse then 1
      else if Radix.value as.reverse < Radix.value bs.reverse then -1
      else 0 := by
  induction as generalizing bs with
  | nil =>
      obtain rfl := List.eq_nil_of_length_eq_zero h.symm
      rfl
  | cons a as ih =>
      cases bs with
      | nil => cases h
      | cons b bs =>
          have hTail : as.length = bs.length := Nat.succ.inj h
          have hReverse : as.reverse.length = bs.reverse.length := by
            rw [List.length_reverse, List.length_reverse, hTail]
          simp only [cmpLimbs, List.reverse_cons, UInt32.lt_iff_toNat_lt]
          rcases Nat.lt_trichotomy a.toNat b.toNat with hLt | hEq | hGt
          · have hValue := value_concat_lt hReverse hLt
            rw [if_neg (Nat.not_lt.mpr hLt.le), if_pos hLt, if_neg (Nat.not_lt.mpr hValue.le),
              if_pos hValue]
          · obtain rfl := UInt32.toNat_inj.mp hEq
            rw [if_neg (lt_irrefl _), if_neg (lt_irrefl _), ih hTail, value_append, value_append,
              hReverse]
            simp only [Nat.add_lt_add_iff_right]
          · have hValue := value_concat_lt hReverse.symm hGt
            rw [if_pos hGt, if_pos hValue]

/-- The comparison of stored numerals is that of the numerals, which looks
at the lengths first. -/
theorem cmp_toBig {x y : Numeral} (hx : x.length ≤ bigintMaxlen) :
    SignImage.cmp x.toBig y.toBig = .ok (x.cmp y) := by
  unfold SignImage.cmp cmp
  simp only [iLength32_toBig, limbs_toBig _ hx]
  rcases Nat.lt_trichotomy y.length x.length with hLonger | hSame | hShorter
  · rw [if_pos hLonger, if_pos hLonger]
  · have hValue : Radix.value (encode x.length y.value : List UInt32) = y.value := by
      rw [← hSame, value_encode_of_lt y.bounded]
    simp only [hSame, lt_irrefl, if_false]
    change Except.ok (cmpLimbs _ _) = _
    rw [cmpLimbs_reverse (by simp), List.reverse_reverse, List.reverse_reverse,
      hValue, value_encode_of_lt x.bounded]
  · simp only [hShorter, hShorter.not_gt, if_true, if_false]

/-- A numeral compares as less exactly if it is below the modulus. -/
theorem cmp_neg_iff {x : Numeral} {n : Modulus} : x.cmp n.toNumeral < 0 ↔ x.Below n := by
  unfold cmp Below
  split_ifs <;> simp <;> omega

/-- The loop of the addition gives the sum, with the carry as one more
digit. By induction on the limbs. -/
theorem addLimbs_spec {as bs : List UInt32} {carry : Nat} (hLength : as.length = bs.length)
    (hCarry : carry ≤ 1) :
    (addLimbs carry as bs).1.length = as.length ∧ (addLimbs carry as bs).2 ≤ 1 ∧
      Radix.value (addLimbs carry as bs).1 + limbBase ^ as.length * (addLimbs carry as bs).2 =
        Radix.value as + Radix.value bs + carry := by
  induction as generalizing bs carry with
  | nil =>
      obtain rfl := List.eq_nil_of_length_eq_zero hLength.symm
      simpa [addLimbs] using hCarry
  | cons a as ih =>
      cases bs with
      | nil => cases hLength
      | cons b bs =>
          have ha := a.toNat_lt
          have hb := b.toNat_lt
          have hSum : (a.toNat + b.toNat + carry) % 2 ^ 64 = a.toNat + b.toNat + carry :=
            Nat.mod_eq_of_lt (by omega)
          have hNext : (a.toNat + b.toNat + carry) / 2 ^ 32 ≤ 1 := by omega
          obtain ⟨ihLength, ihCarry, ihValue⟩ := ih (Nat.succ.inj hLength) hNext
          simp only [addLimbs, hSum]
          refine ⟨congrArg (· + 1) ihLength, ihCarry, (value_carry ihValue).trans ?_⟩
          rw [Radix.value_cons, Radix.value_cons, base_uint32]
          change _ = a.toNat + _ + (b.toNat + _) + carry
          ring

/-- The loop of the multiplication by a limb gives the product, with the
carry as one more digit. By induction on the limbs. -/
theorem mulLimbs_spec (as : List UInt32) {ulIn carry : Nat} (hIn : ulIn < limbBase)
    (hCarry : carry < limbBase) :
    (mulLimbs ulIn carry as).1.length = as.length ∧ (mulLimbs ulIn carry as).2 < limbBase ∧
      Radix.value (mulLimbs ulIn carry as).1 + limbBase ^ as.length * (mulLimbs ulIn carry as).2 =
        Radix.value as * ulIn + carry := by
  induction as generalizing carry with
  | nil => simpa [mulLimbs] using hCarry
  | cons a as ih =>
      have hProduct : a.toNat * ulIn ≤ (limbBase - 1) * (limbBase - 1) :=
        Nat.mul_le_mul (Nat.le_pred_of_lt a.toNat_lt) (Nat.le_pred_of_lt hIn)
      simp only [limbBase] at hProduct hCarry hIn
      have hMul : (a.toNat * ulIn + carry) % 2 ^ 64 = a.toNat * ulIn + carry :=
        Nat.mod_eq_of_lt (by omega)
      have hNext : (a.toNat * ulIn + carry) / 2 ^ 32 < limbBase := by
        rw [limbBase]
        omega
      obtain ⟨ihLength, ihCarry, ihValue⟩ := ih hNext
      simp only [mulLimbs, hMul]
      refine ⟨congrArg (· + 1) ihLength, ihCarry, (value_carry ihValue).trans ?_⟩
      rw [Radix.value_cons, base_uint32]
      change _ = (a.toNat + _) * ulIn + carry
      ring

/-- The loop of the subtraction gives the difference where there is one. By
induction on the limbs, with the borrow. -/
theorem subLimbs_spec {as bs : List UInt32} {carry : Nat} (hLength : as.length = bs.length)
    (hCarry : carry ≤ 1) (hLe : Radix.value bs + carry ≤ Radix.value as) :
    (subLimbs carry as bs).length = as.length ∧
      Radix.value (subLimbs carry as bs) = Radix.value as - Radix.value bs - carry := by
  induction as generalizing bs carry with
  | nil =>
      obtain rfl := List.eq_nil_of_length_eq_zero hLength.symm
      exact ⟨rfl, by simp [subLimbs]⟩
  | cons a as ih =>
      cases bs with
      | nil => cases hLength
      | cons b bs =>
          have ha : a.toNat < 2 ^ 32 := a.toNat_lt
          have hb : b.toNat < 2 ^ 32 := b.toNat_lt
          have hTail : as.length = bs.length := Nat.succ.inj hLength
          rw [Radix.value_cons, Radix.value_cons, base_uint32] at hLe
          change b.toNat + limbBase * _ + _ ≤ a.toNat + limbBase * _ at hLe
          rw [limbBase] at hLe
          simp only [subLimbs, UInt32.lt_iff_toNat_lt, ← UInt32.toNat_inj]
          split
          · obtain ⟨ihLength, ihValue⟩ := ih hTail (Nat.zero_le 1) (by omega)
            refine ⟨congrArg (· + 1) ihLength, ?_⟩
            simp only [Radix.value_cons, ihValue, base_uint32, limbBase]
            change (UInt32.ofNat _).toNat + _ = a.toNat + _ - (b.toNat + _) - carry
            rw [UInt32.toNat_ofNat_of_lt' (show _ < 2 ^ 32 by omega)]
            omega
          · obtain ⟨ihLength, ihValue⟩ := ih hTail (Nat.le_refl 1) (by omega)
            refine ⟨congrArg (· + 1) ihLength, ?_⟩
            simp only [Radix.value_cons, ihValue, base_uint32, limbBase]
            change (UInt32.ofNat _).toNat + _ = a.toNat + _ - (b.toNat + _) - carry
            rw [UInt32.toNat_ofNat_of_lt' (show _ < 2 ^ 32 by omega)]
            omega

theorem value_encode_limbs {width v : Nat} (h : v < limbBase ^ width) :
    Radix.value (encode width v : List UInt32) = v := value_encode_of_lt (α := UInt32) h

/-- The addition of stored numerals is that of the numerals, if a limb is
left for the carry. -/
theorem addBigint_toBig {x y : Numeral} (h : max x.length y.length < bigintMaxlen) :
    addBigint x.toBig y.toBig = .ok (x.add y).toBig := by
  have hx := value_lt_of_length_le (Nat.le_max_left x.length y.length)
  have hy := value_lt_of_length_le (Nat.le_max_right x.length y.length)
  have hSame : (encode (max x.length y.length) x.value : List UInt32).length =
      (encode (max x.length y.length) y.value : List UInt32).length := by simp
  have hLimbs := addLimbs_spec hSame (Nat.zero_le 1)
  unfold addBigint
  simp only [iLength32_toBig, limbs_toBig _ h.le, ok_bind]
  revert hLimbs
  generalize addLimbs 0 _ _ = result
  obtain ⟨sums, carry⟩ := result
  rintro ⟨hLength, hCarry, hValue⟩
  simp only [length_encode, value_encode_limbs hx, value_encode_limbs hy, Nat.add_zero]
    at hLength hCarry hValue
  have hSums : Radix.value sums < limbBase ^ max x.length y.length := hLength ▸ value_lt sums
  have hCarryLimb : (UInt32.ofNat carry).toNat = carry :=
    UInt32.toNat_ofNat_of_lt' (show _ < 2 ^ 32 by omega)
  have hFull : Radix.value (sums ++ [UInt32.ofNat carry]) = x.value + y.value := by
    rw [value_append, value_singleton, hLength, base_uint32, toNat_uint32, hCarryLimb, hValue]
  have hTop : max x.length y.length + carry = (x.add y).length := by
    simp only [add, fit]
    interval_cases carry <;> split <;> omega
  rw [ofLimbs_toBig (by simpa [hLength] using h)]
  simp only [ok_bind, pure_eq_ok, toBig, ofLimbs, hFull, hTop, value_add]

/-- Limbs and a carry that is stored above them unless it is zero. -/
theorem ofLimbs_carry {sums : List UInt32} {carry v length : Nat} (hLength : sums.length = length)
    (hValue : Radix.value sums + limbBase ^ length * carry = v)
    (hBound : v < limbBase ^ (length + 1)) (hMax : (fit v length hBound).length ≤ bigintMaxlen) :
    SBigInt.ofLimbs (if carry ≠ 0 then sums ++ [UInt32.ofNat carry] else sums) =
      .ok (fit v length hBound).toBig := by
  have hSums : Radix.value sums < limbBase ^ length := hLength ▸ value_lt sums
  split
  · next hOver =>
      have hGe : limbBase ^ length ≤ v := by
        rw [← hValue]
        exact le_add_left (Nat.le_mul_of_pos_right _ (Nat.pos_of_ne_zero hOver))
      have hFit : (fit v length hBound).length = length + 1 := if_neg (Nat.not_lt.mpr hGe)
      have hCarry : carry < limbBase := by
        rw [Nat.pow_succ] at hBound
        apply Nat.lt_of_mul_lt_mul_left (a := limbBase ^ length)
        omega
      have hLimb : (UInt32.ofNat carry).toNat = carry := UInt32.toNat_ofNat_of_lt' hCarry
      rw [ofLimbs_toBig (by simpa [hLength, hFit] using hMax)]
      congr 2
      apply Numeral.ext
      · rw [value_ofLimbs, value_append, value_singleton, hLength, base_uint32, toNat_uint32, hLimb]
        exact hValue
      · simpa [hLength] using hFit.symm
  · next hNone =>
      obtain rfl : carry = 0 := not_not.mp hNone
      rw [Nat.mul_zero, Nat.add_zero] at hValue
      have hFit : (fit v length hBound).length = length := if_pos (hValue ▸ hSums)
      rw [ofLimbs_toBig (by omega)]
      congr 2
      exact Numeral.ext hValue (hLength.trans hFit.symm)

/-- The multiplication of a stored numeral by a limb is that of the numeral,
if the product fits. -/
theorem mulLong_toBig {x : Numeral} {d : UInt32} (h : (x.scale d).length ≤ bigintMaxlen) :
    mulLong x.toBig d.toNat = .ok (x.scale d).toBig := by
  have hMax : x.length ≤ bigintMaxlen := (le_length_fit _ _ _).trans h
  have hLimbs := mulLimbs_spec (encode x.length x.value) d.toNat_lt limbBase_pos
  unfold mulLong
  simp only [iLength32_toBig, limbs_toBig _ hMax, ok_bind]
  revert hLimbs
  generalize mulLimbs d.toNat 0 _ = result
  obtain ⟨products, carry⟩ := result
  rintro ⟨hLength, hCarry, hValue⟩
  simp only [length_encode, value_encode_limbs x.bounded, Nat.add_zero] at hLength hCarry hValue
  exact ofLimbs_carry hLength hValue _ h

theorem movLong_limb (d : UInt32) : movLong d.toNat = .ok (ofLimbs [d]).toBig := by
  have hLimb : ¬0xffffffff < d.toNat := Nat.not_lt.mpr (Nat.le_pred_of_lt d.toNat_lt)
  rw [movLong, if_neg hLimb, UInt32.ofNat_toNat]
  exact ofLimbs_toBig (show 1 ≤ bigintMaxlen by decide)

theorem movLong_zero : movLong 0 = .ok (normal 0).toBig := by
  rw [show (0 : Nat) = (0 : UInt32).toNat from rfl, movLong_limb]
  rfl

/-- The multiplication that `Mod_bigint` asks for always has a factor of one
limb. -/
theorem mulBigint_movLong {x : Numeral} {d : UInt32} (h : (x.scale d).length ≤ bigintMaxlen) :
    (movLong d.toNat >>= mulBigint x.toBig) = .ok (x.scale d).toBig := by
  obtain ⟨limb, hLimb, hValue⟩ := fromTop_toBig (x := ofLimbs [d]) Nat.one_pos (Nat.le_refl 1)
    (show 1 ≤ bigintMaxlen by decide)
  obtain rfl : limb = d := by
    apply UInt32.toNat_inj.mp
    rw [hValue, limbFromTop_one]
    simp [ofLimbs]
  have hLength : (ofLimbs [limb]).toBig.iLength32 = 1 := rfl
  rw [movLong_limb, ok_bind, mulBigint, if_pos hLength, hLimb, ok_bind]
  exact mulLong_toBig h

theorem dropZeroTop_append (low : List UInt32) {top : UInt32} (hTop : top ≠ 0) (zeros : Nat) :
    dropZeroTop (low ++ [top] ++ List.replicate zeros 0) = .ok (low ++ [top]) := by
  have hScan : (low ++ [top] ++ List.replicate zeros 0).reverse.dropWhile (· = 0) =
      top :: low.reverse := by
    rw [List.reverse_append, List.reverse_replicate, List.reverse_append,
      List.dropWhile_append_of_pos (by simp)]
    exact List.dropWhile_cons_of_neg (by simpa using hTop)
  rw [dropZeroTop, hScan]
  simp

/-- With nothing but zeros the scan leaves the array at its lower end. -/
theorem dropZeroTop_replicate (zeros : Nat) :
    dropZeroTop (List.replicate zeros 0) = .error .outOfBounds := by
  have hScan : (List.replicate zeros (0 : UInt32)).reverse.dropWhile (· = 0) = [] := by simp
  rw [dropZeroTop, hScan]

/-- The scan for a non-zero top limb finds the limbs of the number itself,
and runs below the first limb when the number is zero. -/
theorem dropZeroTop_encode {v length : Nat} (h : v < limbBase ^ length) :
    dropZeroTop (encode length v) =
      if v = 0 then .error .outOfBounds else .ok (normal v).limbs := by
  split
  · next hZero =>
      rw [hZero, encode_zero_right]
      exact dropZeroTop_replicate length
  · next hZero =>
      have hPos := Nat.pos_of_ne_zero hZero
      have hLength : 0 < length := Nat.pos_of_ne_zero fun hNone => by
        rw [hNone, Nat.pow_zero] at h
        omega
      have hWidth : (normal v).length ≤ length := width_le hLength h
      have hLimbs : (normal v).limbs = encode (Nat.log limbBase v) v ++
          [UInt32.ofNat (v / limbBase ^ Nat.log limbBase v)] := encode_add _ 1 v
      have hTop : UInt32.ofNat (v / limbBase ^ Nat.log limbBase v) ≠ 0 := by
        have hLow : limbBase ^ Nat.log limbBase v ≤ v := base_pow_le_of_width (α := UInt32) hPos
        have hHigh : v / limbBase ^ Nat.log limbBase v < limbBase := by
          rw [Nat.div_lt_iff_lt_mul (Nat.pow_pos limbBase_pos), ← Nat.pow_succ']
          exact (normal v).bounded
        rw [Ne, ← UInt32.toNat_inj, UInt32.toNat_ofNat_of_lt' hHigh]
        exact Nat.pos_iff_ne_zero.mp (Nat.div_pos hLow (Nat.pow_pos limbBase_pos))
      have hZeros : encode length v =
          (normal v).limbs ++ List.replicate (length - (normal v).length) 0 :=
        encode_eq_append (normal v).bounded hWidth
      rw [hZeros, hLimbs, dropZeroTop_append _ hTop]

/-- A difference is written without zero limbs at its top. Equal numbers of
different lengths have none. -/
theorem subBigint_toBig {x y : Numeral} (hx : x.length ≤ bigintMaxlen) (hCmp : 0 < x.cmp y)
    (hLe : y.value ≤ x.value) :
    subBigint x.toBig y.toBig =
      if x.value = y.value then .error .outOfBounds
      else .ok (normal (x.value - y.value)).toBig := by
  have hy : y.value < limbBase ^ x.length := Nat.lt_of_le_of_lt hLe x.bounded
  have hSame : (encode x.length x.value : List UInt32).length =
      (encode x.length y.value : List UInt32).length := by simp
  obtain ⟨hLength, hValue⟩ := subLimbs_spec hSame (Nat.zero_le 1)
    (by rwa [value_encode_limbs hy, value_encode_limbs x.bounded])
  rw [value_encode_limbs hy, value_encode_limbs x.bounded, Nat.sub_zero] at hValue
  rw [length_encode] at hLength
  unfold subBigint
  rw [cmp_toBig hx, ok_bind, if_neg (by omega)]
  simp only [iLength32_toBig, limbs_toBig _ hx, ok_bind]
  rw [eq_encode hLength hValue, dropZeroTop_encode (Nat.lt_of_le_of_lt (Nat.sub_le _ _) x.bounded)]
  by_cases hEqual : x.value = y.value
  · rw [if_pos (by omega), if_pos hEqual, error_bind]
  · have hWidth : (normal (x.value - y.value)).length ≤ x.length := by
      apply width_le
      · apply Nat.pos_of_ne_zero
        intro hNone
        have := x.bounded
        rw [hNone, Nat.pow_zero] at this
        omega
      · exact Nat.lt_of_le_of_lt (Nat.sub_le _ _) x.bounded
    rw [if_neg (by omega), if_neg hEqual, ok_bind, ofLimbs_toBig (by simpa using hWidth.trans hx)]
    exact congrArg (fun z : Numeral => Except.ok z.toBig) (ofLimbs_encode _)

theorem subBigint_same {x y : Numeral} (hx : x.length ≤ bigintMaxlen) (hCmp : x.cmp y = 0) :
    subBigint x.toBig y.toBig = .ok (normal 0).toBig := by
  rw [subBigint, cmp_toBig hx, ok_bind, if_pos hCmp.le, movLong_zero]

end Numeral

/-- The limbs that the length counts are those of the numeral. The limbs
above are left open. -/
structure SBigInt.Holds (x : SBigInt) (n : Numeral) : Prop where
  iLength32_eq : x.iLength32 = n.length
  limbs_eq : x.limbs n.length = .ok n.limbs

theorem Numeral.holds_toBig {n : Numeral} (h : n.length ≤ bigintMaxlen) : n.toBig.Holds n where
  iLength32_eq := rfl
  limbs_eq := n.limbs_toBig h

/-- The numeral that the limbs below the length write down. -/
def SBigInt.numeral (x : SBigInt) : Numeral := Numeral.ofLimbs (x.ulValue.take x.iLength32)

namespace SBigInt

variable {x : SBigInt} {n : Numeral}

theorem length_numeral (h : x.iLength32 ≤ bigintMaxlen) : x.numeral.length = x.iLength32 := by
  have hTake : (x.ulValue.take x.iLength32).length = x.iLength32 := by
    rw [List.length_take, x.size, Nat.min_eq_left h]
  exact hTake

/-- A big integer with a length inside the array holds its numeral. -/
theorem holds_numeral (h : x.iLength32 ≤ bigintMaxlen) : x.Holds x.numeral := by
  constructor
  · exact (length_numeral h).symm
  · rw [length_numeral h, limbs, if_pos h]
    exact congrArg Except.ok (encode_value _).symm

namespace Holds

theorem length_le (h : x.Holds n) : n.length ≤ bigintMaxlen := by
  by_contra hLong
  have hLimbs := h.limbs_eq
  rw [SBigInt.limbs, if_neg hLong] at hLimbs
  cases hLimbs

theorem take_eq (h : x.Holds n) : x.ulValue.take n.length = n.limbs := by
  have hLimbs := h.limbs_eq
  rw [SBigInt.limbs, if_pos h.length_le] at hLimbs
  exact Except.ok.inj hLimbs

/-- Limbs below the length are read as if there were zeros above it. -/
theorem limbs_of_le (h : x.Holds n) {count : Nat} (hCount : count ≤ n.length) :
    x.limbs count = n.toBig.limbs count := by
  have hMax := hCount.trans h.length_le
  rw [Numeral.limbs_toBig n hMax, SBigInt.limbs, if_pos hMax,
    ← Nat.min_eq_left hCount, ← List.take_take, h.take_eq, Nat.min_eq_left hCount,
    Numeral.limbs, take_encode _ hCount]

/-- A limb below the length is that of the stored numeral, whatever stands
above it. -/
theorem getElem?_eq (h : x.Holds n) {i : Nat} (hi : i < n.length) :
    x.ulValue[i]? = n.toBig.ulValue[i]? := by
  have hBig := (Numeral.holds_toBig h.length_le).take_eq
  rw [← List.getElem?_take_of_lt hi, h.take_eq, ← hBig, List.getElem?_take_of_lt hi]

theorem fromTop_eq (h : x.Holds n) {k : Nat} (hk : 0 < k) : x.fromTop k = n.toBig.fromTop k := by
  unfold SBigInt.fromTop
  rw [h.iLength32_eq, Numeral.iLength32_toBig]
  by_cases hLength : k ≤ n.length
  · rw [if_pos hLength, if_pos hLength, h.getElem?_eq (by omega)]
  · rw [if_neg hLength, if_neg hLength]

/-- What stands above the length is not looked at by the multiplication by a
limb. -/
theorem mulLong_eq (h : x.Holds n) (ulIn : Nat) : mulLong x ulIn = mulLong n.toBig ulIn := by
  unfold mulLong
  rw [h.iLength32_eq, Numeral.iLength32_toBig, h.limbs_of_le (Nat.le_refl _)]

theorem mulBigint_left_eq (h : x.Holds n) (y : SBigInt) :
    mulBigint x y = mulBigint n.toBig y := by
  unfold mulBigint
  simp only [h.mulLong_eq, h.iLength32_eq, Numeral.iLength32_toBig, h.limbs_of_le (Nat.le_refl _)]
  rfl

theorem mulBigint_right_eq (h : x.Holds n) (y : SBigInt) :
    mulBigint y x = mulBigint y n.toBig := by
  unfold mulBigint
  simp only [h.iLength32_eq, Numeral.iLength32_toBig, h.fromTop_eq Nat.one_pos,
    h.limbs_of_le (Nat.le_refl _)]
  rfl

theorem cmp_right_eq (h : x.Holds n) (sOut : SBigInt) : cmp sOut x = cmp sOut n.toBig := by
  unfold cmp
  rw [h.iLength32_eq, Numeral.iLength32_toBig]
  by_cases hSame : sOut.iLength32 = n.length
  · rw [hSame, h.limbs_of_le (Nat.le_refl _)]
  · rcases Nat.lt_or_gt_of_ne hSame with hLess | hGreater
    · rw [if_neg hLess.not_gt, if_pos hLess, if_neg hLess.not_gt, if_pos hLess]
    · rw [if_pos hGreater, if_pos hGreater]

/-- The subtraction looks at what stands above the length only if the other
operand is longer. -/
theorem subBigint_right_eq (h : x.Holds n) {sOut : SBigInt} (hLength : sOut.iLength32 ≤ n.length) :
    subBigint sOut x = subBigint sOut n.toBig := by
  unfold subBigint
  rw [h.cmp_right_eq, h.limbs_of_le hLength]

/-- What stands above the length is not looked at by the comparison, in its
first operand. -/
theorem cmp_left_eq (h : x.Holds n) (y : SBigInt) : cmp x y = cmp n.toBig y := by
  unfold cmp
  simp only [h.iLength32_eq, Numeral.iLength32_toBig, h.limbs_of_le (Nat.le_refl _)]
  rfl

theorem subBigint_left_eq (h : x.Holds n) (y : SBigInt) :
    subBigint x y = subBigint n.toBig y := by
  unfold subBigint
  simp only [h.cmp_left_eq, h.iLength32_eq, Numeral.iLength32_toBig, h.limbs_of_le (Nat.le_refl _)]

theorem numeral_eq (h : x.Holds n) : x.numeral = n := by
  unfold SBigInt.numeral
  rw [h.iLength32_eq, h.take_eq]
  exact Numeral.ofLimbs_encode n

end Holds

/-- There is a top limb, and it is not zero. -/
def TopNonzero (x : SBigInt) : Prop := ∃ top, x.fromTop 1 = .ok top ∧ top ≠ 0

theorem TopNonzero.length_pos {x : SBigInt} (h : x.TopNonzero) : 0 < x.iLength32 := by
  obtain ⟨top, hTop, _⟩ := h
  by_contra hNone
  rw [fromTop, if_neg (by omega)] at hTop
  cases hTop

/-- With a top limb that is not zero the value is not less than its weight. -/
theorem TopNonzero.pow_le {x : SBigInt} (h : x.TopNonzero) (hMax : x.iLength32 ≤ bigintMaxlen) :
    limbBase ^ (x.numeral.length - 1) ≤ x.numeral.value := by
  have hPos := h.length_pos
  have hLength := length_numeral hMax
  obtain ⟨top, hTop, hNonzero⟩ := h
  obtain ⟨limb, hLimb, hValue⟩ := Numeral.fromTop_toBig (x := x.numeral) Nat.one_pos (by omega)
    (by omega)
  rw [(holds_numeral hMax).fromTop_eq Nat.one_pos, hLimb] at hTop
  obtain rfl := Except.ok.inj hTop
  rw [Numeral.limbFromTop_one] at hValue
  by_contra hLow
  rw [Nat.div_eq_of_lt (Nat.lt_of_not_le hLow)] at hValue
  exact hNonzero (UInt32.toNat_inj.mp hValue)

/-- The modulus that a bignum with a non-zero top limb holds. -/
def modulus (x : SBigInt) (h : x.TopNonzero) (hMax : x.iLength32 ≤ bigintMaxlen) : Modulus where
  toNumeral := x.numeral
  length_pos := by
    rw [length_numeral hMax]
    exact h.length_pos
  top_ne_zero := h.pow_le hMax

end SBigInt

end SignImage
