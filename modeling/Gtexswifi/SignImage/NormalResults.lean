import Gtexswifi.SignImage.DivisionWithRemainder
import Gtexswifi.SignImage.LimbArithmetic
import Gtexswifi.SignImage.Rsa

/-! Which calls on bignums in normal form give a bignum in normal form, for
every operation that stores one. `sOut` stands for what the result held
before, where that is not all overwritten. -/
namespace SignImage

open Radix
open Numeral (normal)

/-- A call of an operation that stores a bignum. `Mul_long` is only called
with a limb. -/
inductive BigintCall
  | movLong (a : Nat)
  | addBigint (sIn sIn2 : SBigInt)
  | addLong (sIn : SBigInt) (ulIn : Nat)
  | subBigint (sIn sIn2 : SBigInt)
  | subLong (sOut sIn : SBigInt) (ulIn : Nat)
  | mulLong (sIn : SBigInt) (ulIn : UInt32)
  | mulBigint (sIn sIn2 : SBigInt)
  | divLong (sOut sIn : SBigInt) (ulIn : Nat)
  | divBigint (sOut sIn sIn2 : SBigInt)
  | modBigint (sIn sIn2 : SBigInt)
  | setParameterInt (ulIn : List UInt8) (iLength32 : Nat)

namespace BigintCall

def run : BigintCall → Except Fault SBigInt
  | movLong a => SignImage.movLong a
  | addBigint sIn sIn2 => SignImage.addBigint sIn sIn2
  | addLong sIn ulIn => SignImage.addLong sIn ulIn
  | subBigint sIn sIn2 => SignImage.subBigint sIn sIn2
  | subLong sOut sIn ulIn => SignImage.subLong sOut sIn ulIn
  | mulLong sIn ulIn => SignImage.mulLong sIn ulIn.toNat
  | mulBigint sIn sIn2 => SignImage.mulBigint sIn sIn2
  | divLong sOut sIn ulIn => SignImage.divLong sOut sIn ulIn
  | divBigint sOut sIn sIn2 => SignImage.divBigint sOut sIn sIn2
  | modBigint sIn sIn2 => SignImage.modBigint sIn sIn2
  | setParameterInt ulIn iLength32 => SignImage.setParameterInt ulIn iLength32

/-- The operands are in normal form, and the result is within capacity. -/
def Proper : BigintCall → Prop
  | movLong a => a < 2 ^ 64
  | addBigint sIn sIn2 => sIn.NormalForm ∧ sIn2.NormalForm ∧
      sIn.limbValue + sIn2.limbValue < limbBase ^ bigintMaxlen
  | addLong sIn ulIn => sIn.NormalForm ∧ ulIn < 2 ^ 64 ∧
      sIn.limbValue + ulIn < limbBase ^ bigintMaxlen
  | subBigint sIn sIn2 => sIn.NormalForm ∧ sIn2.NormalForm
  | subLong _ sIn ulIn => sIn.NormalForm ∧ ulIn < 2 ^ 64
  | mulLong sIn ulIn => sIn.NormalForm ∧ sIn.limbValue * ulIn.toNat < limbBase ^ bigintMaxlen
  | mulBigint sIn sIn2 => sIn.NormalForm ∧ sIn2.NormalForm ∧
      sIn.limbValue * sIn2.limbValue < limbBase ^ bigintMaxlen
  | divLong _ sIn ulIn => sIn.NormalForm ∧ 0 < ulIn ∧ ulIn < 2 ^ 64
  | divBigint _ sIn sIn2 => sIn.NormalForm ∧ sIn2.NormalForm ∧ 0 < sIn2.limbValue
  | modBigint sIn sIn2 => sIn.NormalForm ∧ sIn2.NormalForm ∧ 0 < sIn2.limbValue
  | setParameterInt ulIn iLength32 => 4 * iLength32 ≤ ulIn.length ∧ iLength32 ≤ bigintMaxlen

end BigintCall

/-- The limb `m_ulValue[i]`. -/
def SBigInt.limbAt (x : SBigInt) (i : Nat) : UInt32 := x.ulValue.getD i 0

/-- The index at which the borrow of `Sub_long` ends. -/
def SBigInt.borrowEnd (x : SBigInt) : Nat := ((x.ulValue.drop 1).takeWhile (· = 0)).length + 1

/-- A borrow ends in the top limb, or the top limb of the result, which is
left as it was, is not zero. -/
def KeepsTop (sOut sIn : SBigInt) : Prop :=
  sIn.borrowEnd + 1 = sIn.iLength32 ∨
    (sIn.limbAt sIn.borrowEnd ≠ 1 ∧ sOut.limbAt (sIn.iLength32 - 1) ≠ 0) ∨
      sIn.limbAt sIn.borrowEnd = 1 ∧ sIn.borrowEnd + 2 < sIn.iLength32 ∧
        sOut.limbAt (sIn.iLength32 - 2) ≠ 0

/-- The limbs that a quotient of one limb leaves as they were. -/
def ClearAboveLow (sOut : SBigInt) : Prop := ∀ d ∈ sOut.ulValue.drop 1, d = 0

/-- The condition under which a call gives a normal form. -/
def BigintCall.Keeps : BigintCall → Prop
  | addBigint sIn sIn2 => sIn.iLength32 < bigintMaxlen ∧ sIn2.iLength32 < bigintMaxlen
  | subLong sOut sIn ulIn =>
      ulIn ≤ (sIn.limbAt 0).toNat ∨ sIn.iLength32 = 1 ∨ KeepsTop sOut sIn
  | mulLong sIn ulIn => ulIn ≠ 0 ∨ sIn.iLength32 = 1
  | mulBigint sIn sIn2 => (0 < sIn.limbValue ∧ 0 < sIn2.limbValue) ∨
      sIn.iLength32 = 1 ∧ sIn2.iLength32 = 1
  | divLong sOut sIn ulIn => (sIn.iLength32 = 1 → ClearAboveLow sOut) ∧
      (2 < sIn.iLength32 → ulIn ≤ sIn.limbValue / limbBase ^ (sIn.iLength32 - 2))
  | divBigint sOut sIn sIn2 => sIn.iLength32 = 1 → sIn2.iLength32 = 1 → ClearAboveLow sOut
  | setParameterInt ulIn iLength32 => iLength32 = 1 ∨
      0 < iLength32 ∧ ∃ b ∈ (ulIn.drop (4 * (iLength32 - 1))).take 4, b ≠ 0
  | _ => True

namespace Numeral

/-- A numeral gives a normal form when it has no zero limbs to leave out. -/
theorem normalForm_iff {x : Numeral} (h : x.length ≤ bigintMaxlen) :
    x.toBig.NormalForm ↔ x = normal x.value := by
  have hValue : x.toBig.limbValue = x.value := congrArg Numeral.value (holds_toBig h).numeral_eq
  constructor
  · intro hForm
    have hLength := hForm.holds.iLength32_eq
    rw [hValue, iLength32_toBig] at hLength
    exact Numeral.ext rfl hLength
  · intro hNormal
    rw [hNormal] at h ⊢
    exact normalForm h

end Numeral

/-- Limbs that are stored give a normal form when the last one is not zero,
or the only one. -/
theorem stored_concat_iff {low : List UInt32} {top : UInt32} (hMax : low.length < bigintMaxlen) :
    (∃ x, SBigInt.ofLimbs (low ++ [top]) = .ok x ∧ x.NormalForm) ↔ low = [] ∨ top ≠ 0 := by
  have hLength : (low ++ [top]).length = low.length + 1 := by simp
  have hFits : (low ++ [top]).length ≤ bigintMaxlen := hLength.trans_le hMax
  have hValue : (Numeral.ofLimbs (low ++ [top])).value =
      value low + limbBase ^ low.length * top.toNat := by
    rw [Numeral.value_ofLimbs, value_append, value_singleton]
    rfl
  have hForm := Numeral.normalForm_iff (x := Numeral.ofLimbs (low ++ [top])) hFits
  rw [Numeral.ofLimbs_toBig hFits]
  constructor
  · intro hSome
    obtain ⟨x, hx, hxForm⟩ := hSome
    rw [← Except.ok.inj hx, hForm] at hxForm
    by_contra hNone
    have hZero : top = 0 := by
      by_contra hTop
      exact hNone (Or.inr hTop)
    have hLow : 0 < low.length := List.length_pos_of_ne_nil fun hEmpty => hNone (Or.inl hEmpty)
    have hSmall : (Numeral.ofLimbs (low ++ [top])).value < limbBase ^ low.length := by
      rw [hValue, hZero, UInt32.toNat_zero, Nat.mul_zero, Nat.add_zero]
      exact value_lt low
    have hShort := Numeral.length_normal_le hLow hSmall
    have hSame := congrArg Numeral.length hxForm
    rw [Numeral.length_ofLimbs, hLength] at hSame
    omega
  · intro hSome
    refine ⟨_, rfl, hForm.mpr ?_⟩
    cases hSome with
    | inl hEmpty =>
        rw [hEmpty, List.nil_append, Numeral.ofLimbs_singleton, Numeral.value_normal]
    | inr hNonzero =>
        have hPositive : 0 < top.toNat := Nat.pos_of_ne_zero fun hNone =>
          hNonzero (UInt32.toNat_inj.mp hNone)
        apply Numeral.eq_normal
        · rw [Numeral.length_ofLimbs, hLength]
          exact Nat.succ_pos _
        · rw [Numeral.length_ofLimbs, hLength, Nat.add_sub_cancel, hValue]
          exact le_add_left (Nat.le_mul_of_pos_right _ hPositive)

/-- Stored limbs are in normal form exactly if there is one of them, or the
top one is not zero. -/
theorem stored_normalForm_iff {limbs : List UInt32} (hPos : 0 < limbs.length)
    (hMax : limbs.length ≤ bigintMaxlen) :
    (∃ x, SBigInt.ofLimbs limbs = .ok x ∧ x.NormalForm) ↔
      limbs.length = 1 ∨ limbs.getD (limbs.length - 1) 0 ≠ 0 := by
  obtain ⟨low, top, rfl⟩ : ∃ low top, limbs = low ++ [top] :=
    ⟨_, _, (List.dropLast_append_getLast (List.ne_nil_of_length_pos hPos)).symm⟩
  have hLength : (low ++ [top]).length = low.length + 1 := by simp
  have hTop : (low ++ [top]).getD ((low ++ [top]).length - 1) 0 = top := by
    rw [hLength, Nat.add_sub_cancel, List.getD_append_right _ _ _ _ (Nat.le_refl _), Nat.sub_self]
    rfl
  rw [stored_concat_iff (hLength.symm.trans_le hMax), hTop, hLength, Nat.add_eq_right,
    List.length_eq_zero_iff]

/-- A call that gives the normal form of a number. -/
theorem exists_normalForm {r : Except Fault SBigInt} {v : Nat} (h : r = .ok (normal v).toBig)
    (hMax : (normal v).length ≤ bigintMaxlen) : ∃ x, r = .ok x ∧ x.NormalForm :=
  ⟨_, h, Numeral.normalForm hMax⟩

theorem length_normal_max {v : Nat} (h : v < limbBase ^ bigintMaxlen) :
    (normal v).length ≤ bigintMaxlen := Numeral.length_normal_le (by decide) h

theorem SBigInt.NormalForm.value_lt {x : SBigInt} (h : x.NormalForm) :
    x.limbValue < limbBase ^ bigintMaxlen :=
  Numeral.value_lt_of_length_le (x := normal x.limbValue) h.holds.length_le

theorem SBigInt.NormalForm.length_eq {x : SBigInt} (h : x.NormalForm) :
    x.iLength32 = (normal x.limbValue).length := h.holds.iLength32_eq

theorem movLong_normal {a : Nat} (h : a < 2 ^ 64) : movLong a = .ok (normal a).toBig := by
  unfold movLong
  split
  · next hTwo =>
      have hLow : limbBase ≤ a := hTwo
      have hHigh : a / limbBase < limbBase := by
        rw [limbBase] at *
        omega
      have hHighLimb : (UInt32.ofNat (a / 2 ^ 32)).toNat = a / limbBase :=
        UInt32.toNat_ofNat_of_lt' hHigh
      have hLowLimb : (UInt32.ofNat a).toNat = a % limbBase := Digit.toNat_ofNat (α := UInt32) a
      have hValue : value [UInt32.ofNat a, UInt32.ofNat (a / 2 ^ 32)] = a := by
        rw [value_cons, value_singleton, toNat_uint32, toNat_uint32, hHighLimb, hLowLimb,
          base_uint32, Nat.mod_add_div]
      have hNormal : Numeral.ofLimbs [UInt32.ofNat a, UInt32.ofNat (a / 2 ^ 32)] = normal a := by
        apply Numeral.ext
        · exact hValue
        · have hReached : limbBase ^ 1 ≤ a := by rwa [Nat.pow_one]
          have hBounded : a < limbBase ^ (1 + 1) := by
            rw [limbBase]
            omega
          exact (Numeral.length_normal_eq hReached hBounded).symm
      rw [← hNormal]
      exact Numeral.ofLimbs_toBig (show 2 ≤ bigintMaxlen by decide)
  · next hOne =>
      have hLimb : (UInt32.ofNat a).toNat = a :=
        UInt32.toNat_ofNat_of_lt' (show a < 2 ^ 32 by omega)
      have hSame := Numeral.movLong_limb (UInt32.ofNat a)
      rw [hLimb, Numeral.ofLimbs_singleton, hLimb, movLong, if_neg hOne] at hSame
      exact hSame

/-- With 66 limbs the carry goes to `m_ulValue[66]`, even when it is zero. -/
theorem addBigint_full {x y : SBigInt} (h : bigintMaxlen ≤ max x.iLength32 y.iLength32) :
    ∃ fault, addBigint x y = .error fault := by
  unfold addBigint SBigInt.limbs
  by_cases hLong : max x.iLength32 y.iLength32 ≤ bigintMaxlen
  · have hSame : (x.ulValue.take (max x.iLength32 y.iLength32)).length =
        (y.ulValue.take (max x.iLength32 y.iLength32)).length := by
      rw [List.length_take, List.length_take, x.size, y.size]
    obtain ⟨hLength, -⟩ := Numeral.addLimbs_spec hSame (Nat.zero_le 1)
    rw [List.length_take, x.size] at hLength
    simp only [if_pos hLong, ok_bind]
    generalize addLimbs 0 _ _ = result at hLength
    obtain ⟨sums, carry⟩ := result
    have hOver : ¬(sums ++ [UInt32.ofNat carry]).length ≤ bigintMaxlen := by
      dsimp only at hLength
      rw [List.length_append, hLength, List.length_singleton]
      omega
    dsimp only
    rw [SBigInt.ofLimbs, dif_neg hOver]
    exact ⟨_, rfl⟩
  · simp only [if_neg hLong]
    exact ⟨_, rfl⟩

/-- The sum is in normal form exactly if both operands leave a limb of the
array free. Otherwise the carry has no place. -/
theorem addBigint_normalForm_iff {x y : SBigInt} (hx : x.NormalForm) (hy : y.NormalForm)
    (h : x.limbValue + y.limbValue < limbBase ^ bigintMaxlen) :
    (∃ z, addBigint x y = .ok z ∧ z.NormalForm) ↔
      x.iLength32 < bigintMaxlen ∧ y.iLength32 < bigintMaxlen := by
  constructor
  · intro hSome
    obtain ⟨z, hz, -⟩ := hSome
    apply Nat.max_lt.mp
    by_contra hFull
    obtain ⟨fault, hFault⟩ := addBigint_full (Nat.not_lt.mp hFull)
    rw [hFault] at hz
    cases hz
  · intro hRoom
    have hAdd := Numeral.addBigint_toBig (x := normal x.limbValue) (y := normal y.limbValue) (by
      rw [← hx.length_eq, ← hy.length_eq]
      exact Nat.max_lt.mpr hRoom)
    rw [Numeral.sum_normal, ← hx.eq_toBig, ← hy.eq_toBig] at hAdd
    exact exists_normalForm hAdd (length_normal_max h)

/-- Adding a small number keeps the normal form, if the sum fits. -/
theorem addLong_normalForm {x : SBigInt} {ulIn : Nat} (hx : x.NormalForm)
    (h : x.limbValue + ulIn < limbBase ^ bigintMaxlen) :
    ∃ z, addLong x ulIn = .ok z ∧ z.NormalForm := by
  have hAdd := addLong_carried h
  rw [← hx.eq_toBig] at hAdd
  apply exists_normalForm hAdd
  apply length_normal_max
  have hSplit := Nat.div_add_mod x.limbValue limbBase
  have hSum := Nat.mod_le (x.limbValue % limbBase + ulIn) (2 ^ 64)
  split
  · next hOver =>
      have hCarry : limbBase ≤ (x.limbValue % limbBase + ulIn) % 2 ^ 64 := hOver
      have hRest : limbBase + (x.limbValue % limbBase + ulIn) % 2 ^ 64 % limbBase ≤
          (x.limbValue % limbBase + ulIn) % 2 ^ 64 := by
        rw [Nat.mod_eq_sub_mod hCarry]
        have hLe := Nat.mod_le ((x.limbValue % limbBase + ulIn) % 2 ^ 64 - limbBase) limbBase
        omega
      omega
  · omega

theorem subBigint_normalForm {x y : SBigInt} (hx : x.NormalForm) (hy : y.NormalForm) :
    ∃ z, subBigint x y = .ok z ∧ z.NormalForm := by
  have hSub := Numeral.subBigint_normal y.limbValue hx.holds.length_le
  rw [← hx.eq_toBig, ← hy.eq_toBig] at hSub
  exact exists_normalForm hSub (length_normal_max ((Nat.sub_le _ _).trans_lt hx.value_lt))

namespace Numeral

/-- A product with zero keeps the limbs of both factors. -/
theorem mul_eq_normal_iff (a b : Nat) :
    (normal a).mul (normal b) = normal (a * b) ↔
      (0 < a ∧ 0 < b) ∨ (normal a).length = 1 ∧ (normal b).length = 1 := by
  have ha := length_normal_pos a
  have hb := length_normal_pos b
  have hLe : (normal a).length + (normal b).length - 1 ≤ ((normal a).mul (normal b)).length :=
    le_length_fit _ _ _
  by_cases hPositive : 0 < a ∧ 0 < b
  · exact ⟨fun _ => Or.inl hPositive, fun _ => mul_normal hPositive.1 hPositive.2⟩
  · have hZero : a * b = 0 := by
      rw [Nat.mul_eq_zero]
      omega
    have hOne : (normal 0).length = 1 := rfl
    constructor
    · intro hNormal
      have hLength := congrArg Numeral.length hNormal
      rw [hZero, hOne] at hLength
      right
      omega
    · intro hSome
      obtain ⟨haOne, hbOne⟩ := hSome.resolve_left hPositive
      apply Numeral.ext
      · rfl
      · rw [mul, length_fit_of_lt _ (by
          rw [value_normal, value_normal, hZero]
          exact Nat.pow_pos limbBase_pos), haOne, hbOne, hZero]
        rfl

end Numeral

/-- The product is in normal form exactly if no factor is zero, or both have
one limb. A zero factor leaves zeros at the top. -/
theorem mulBigint_normalForm_iff {x y : SBigInt} (hx : x.NormalForm) (hy : y.NormalForm)
    (h : x.limbValue * y.limbValue < limbBase ^ bigintMaxlen) :
    (∃ z, mulBigint x y = .ok z ∧ z.NormalForm) ↔
      (0 < x.limbValue ∧ 0 < y.limbValue) ∨ x.iLength32 = 1 ∧ y.iLength32 = 1 := by
  have hLength := Numeral.length_mul_le (x := normal x.limbValue) (y := normal y.limbValue) rfl rfl
    hx.holds.length_le hy.holds.length_le h
  have hMul := Numeral.mulBigint_toBig (Numeral.length_normal_pos _) (Numeral.length_normal_pos _)
    hLength
  rw [← hx.eq_toBig, ← hy.eq_toBig] at hMul
  rw [hx.length_eq, hy.length_eq, ← Numeral.mul_eq_normal_iff, hMul]
  have hForm := Numeral.normalForm_iff hLength
  constructor
  · intro hSome
    obtain ⟨z, hz, hzForm⟩ := hSome
    rwa [← Except.ok.inj hz, hForm] at hzForm
  · exact fun hNormal => ⟨_, rfl, hForm.mpr hNormal⟩

/-- The product with a limb is in normal form exactly if the limb is not
zero, or there is one limb only. -/
theorem mulLong_normalForm_iff {x : SBigInt} {d : UInt32} (hx : x.NormalForm)
    (h : x.limbValue * d.toNat < limbBase ^ bigintMaxlen) :
    (∃ z, mulLong x d.toNat = .ok z ∧ z.NormalForm) ↔ d ≠ 0 ∨ x.iLength32 = 1 := by
  have hLimb : (normal d.toNat).length = 1 := Numeral.length_normal_limb d.toNat_lt
  have hy : (normal d.toNat).toBig.NormalForm := Numeral.normalForm (hLimb.trans_le (by decide))
  have hValue : (normal d.toNat).toBig.limbValue = d.toNat :=
    congrArg Numeral.value (Numeral.holds_toBig (hLimb.trans_le (by decide))).numeral_eq
  have hMul : mulBigint x (normal d.toNat).toBig = mulLong x d.toNat := by
    obtain ⟨product, hMul, -, hLong, -⟩ := mulBigint_normalForm hx hy (by rwa [hValue])
    rw [hMul, ← hLong hLimb, hValue]
  rw [← hMul, mulBigint_normalForm_iff hx hy (by rwa [hValue]), hValue]
  have hd : d ≠ 0 ↔ 0 < d.toNat := by
    rw [Nat.pos_iff_ne_zero, Ne, Ne, ← UInt32.toNat_inj]
    rfl
  rw [hd]
  constructor
  · intro hSome
    exact hSome.imp (fun hPositive => hPositive.2) (fun hOne => hOne.1)
  · intro hSome
    by_cases hv : x.limbValue = 0
    · right
      rw [hx.length_eq, hv]
      exact ⟨rfl, hLimb⟩
    · exact hSome.imp (fun hPositive => ⟨Nat.pos_of_ne_zero hv, hPositive⟩)
        (fun hOne => ⟨hOne, hLimb⟩)

theorem modBigint_normalForm {x y : SBigInt} (hx : x.NormalForm) (hy : y.NormalForm)
    (h : 0 < y.limbValue) : ∃ z, modBigint x y = .ok z ∧ z.NormalForm := by
  have hMod := Numeral.modBigint_toBig (n := Numeral.modulus h) hx.holds.length_le
  rw [Numeral.reduce_normal] at hMod
  change modBigint _ (normal y.limbValue).toBig = _ at hMod
  rw [← hx.eq_toBig, ← hy.eq_toBig] at hMod
  exact exists_normalForm hMod (length_normal_max ((Nat.mod_le _ _).trans_lt hx.value_lt))

theorem length_divLimbs (ulIn carry : Nat) (limbs : List UInt32) :
    (divLimbs ulIn carry limbs).length = limbs.length := by
  induction limbs generalizing carry with
  | nil => rfl
  | cons a limbs ih => exact congrArg (· + 1) (ih _)

/-- At most one limb is dropped, so that the top two limbs have to reach the
divisor. -/
theorem divLimbs_normalForm_iff {ulIn : Nat} (hPos : 0 < ulIn) (a b : UInt32)
    {low : List UInt32} (hMax : low.length + 2 ≤ bigintMaxlen) :
    (∃ x, (match divLimbs ulIn 0 (a :: b :: low) with
      | [] => Except.error Fault.outOfBounds
      | top :: rest =>
          SBigInt.ofLimbs (if top = 0 then rest.reverse else (top :: rest).reverse)) = .ok x ∧
        x.NormalForm) ↔ low = [] ∨ ulIn ≤ a.toNat * limbBase + b.toNat := by
  have ha : a.toNat < limbBase := a.toNat_lt
  have hb : b.toNat < limbBase := b.toNat_lt
  have hFirst : (0 * 2 ^ 32 + a.toNat) % 2 ^ 64 = a.toNat := by
    rw [limbBase] at ha
    omega
  have hQuotient : a.toNat / ulIn < limbBase := (Nat.div_le_self _ _).trans_lt ha
  have hTop : UInt32.ofNat (a.toNat / ulIn) = 0 ↔ a.toNat < ulIn := by
    rw [← UInt32.toNat_inj, UInt32.toNat_ofNat_of_lt' hQuotient]
    exact Nat.div_eq_zero_iff_lt hPos
  simp only [divLimbs, hFirst, hTop]
  generalize hRest : divLimbs ulIn _ low = rest
  have hLength : rest.length = low.length := by
    rw [← hRest, length_divLimbs]
  have hEmpty : rest.reverse = [] ↔ low = [] := by
    rw [List.reverse_eq_nil_iff, ← List.length_eq_zero_iff, hLength, List.length_eq_zero_iff]
  by_cases hLess : a.toNat < ulIn
  · have hCarry : a.toNat - a.toNat / ulIn * ulIn = a.toNat := by
      rw [Nat.div_eq_of_lt hLess, Nat.zero_mul, Nat.sub_zero]
    have hSecond : (a.toNat * 2 ^ 32 + b.toNat) % 2 ^ 64 = a.toNat * limbBase + b.toNat := by
      apply Nat.mod_eq_of_lt
      simp only [limbBase] at *
      omega
    have hFits : (a.toNat * limbBase + b.toNat) / ulIn < limbBase := by
      rw [Nat.div_lt_iff_lt_mul hPos, Nat.mul_comm limbBase]
      calc
        a.toNat * limbBase + b.toNat < (a.toNat + 1) * limbBase := by
          rw [Nat.succ_mul]
          omega
        _ ≤ ulIn * limbBase := Nat.mul_le_mul_right _ hLess
    have hZero : UInt32.ofNat ((a.toNat * limbBase + b.toNat) / ulIn) ≠ 0 ↔
        ulIn ≤ a.toNat * limbBase + b.toNat := by
      rw [Ne, ← UInt32.toNat_inj, UInt32.toNat_ofNat_of_lt' hFits, ← Nat.not_lt]
      exact not_congr (Nat.div_eq_zero_iff_lt hPos)
    rw [if_pos hLess, hCarry, hSecond, List.reverse_cons, stored_concat_iff (by
      rw [List.length_reverse, hLength]
      omega), hEmpty, hZero]
  · have hReached : ulIn ≤ a.toNat * limbBase + b.toNat :=
      (Nat.not_lt.mp hLess).trans (le_add_right (Nat.le_mul_of_pos_right _ limbBase_pos))
    rw [if_neg hLess, List.reverse_cons, stored_concat_iff (by
      rw [List.length_reverse, List.length_cons, hLength]
      omega), Ne, hTop]
    exact ⟨fun _ => Or.inr hReached, fun _ => Or.inr hLess⟩

/-- The top two limbs of a number of more than one limb. -/
theorem limbs_two {v m : Nat} (h : (normal v).length = m + 2) :
    ∃ a b : UInt32, (normal v).limbs = encode m v ++ [b, a] ∧
      a.toNat * limbBase + b.toNat = v / limbBase ^ m := by
  have hSmall : v / limbBase ^ m / limbBase < limbBase := by
    rw [Nat.div_div_eq_div_mul, ← Nat.pow_succ,
      Nat.div_lt_iff_lt_mul (Nat.pow_pos limbBase_pos), ← Nat.pow_succ']
    have hBounded := (normal v).bounded
    rwa [h] at hBounded
  refine ⟨UInt32.ofNat (v / limbBase ^ m / limbBase), UInt32.ofNat (v / limbBase ^ m), ?_, ?_⟩
  · rw [Numeral.limbs, h, encode_add]
    rfl
  · have hLow : (UInt32.ofNat (v / limbBase ^ m)).toNat = v / limbBase ^ m % limbBase :=
      Digit.toNat_ofNat (α := UInt32) _
    rw [UInt32.toNat_ofNat_of_lt' hSmall, hLow, Nat.div_add_mod']

/-- The quotient by a limb is in normal form exactly if a dividend of one
limb meets a cleared output, and a longer one leaves at most one zero limb
at the top. -/
theorem divLong_normalForm_iff (sOut : SBigInt) {x : SBigInt} {ulIn : Nat} (hx : x.NormalForm)
    (hPos : 0 < ulIn) :
    (∃ z, divLong sOut x ulIn = .ok z ∧ z.NormalForm) ↔
      (x.iLength32 = 1 → ClearAboveLow sOut) ∧
        (2 < x.iLength32 → ulIn ≤ x.limbValue / limbBase ^ (x.iLength32 - 2)) := by
  unfold divLong
  rw [if_neg hPos.ne']
  by_cases hOne : x.iLength32 = 1
  · have hLow : ∃ low, x.low = .ok low := by
      rw [hx.eq_toBig]
      exact ⟨_, low_toBig _⟩
    obtain ⟨low, hLow⟩ := hLow
    have hFits : [UInt32.ofNat (low.toNat / ulIn)].length ≤ bigintMaxlen := Nat.le_add_left 1 65
    rw [if_pos hOne, hLow, ok_bind, SBigInt.withLimbs, dif_pos hFits]
    constructor
    · intro hSome
      obtain ⟨z, hz, hForm⟩ := hSome
      obtain rfl := Except.ok.inj hz
      exact ⟨fun _ => hForm.above, fun hLong => by omega⟩
    · intro hKeeps
      refine ⟨_, rfl, ?_⟩
      constructor
      · constructor
        · exact Nat.le_add_left 1 65
        · exact Or.inl rfl
      · exact hKeeps.1 hOne
  · obtain ⟨m, hm⟩ : ∃ m, (normal x.limbValue).length = m + 2 := by
      have hLength := hx.length_eq
      have hSome := Numeral.length_normal_pos x.limbValue
      exact ⟨(normal x.limbValue).length - 2, by omega⟩
    have hLength : x.iLength32 = m + 2 := hx.length_eq.trans hm
    have hMax := hx.length_le
    obtain ⟨a, b, hLimbs, hTop⟩ := limbs_two hm
    have hRead : x.limbs x.iLength32 = .ok (normal x.limbValue).limbs := by
      rw [hLength, ← hm]
      exact hx.holds.limbs_eq
    have hReverse : (normal x.limbValue).limbs.reverse =
        a :: b :: (encode m x.limbValue : List UInt32).reverse := by
      rw [hLimbs]
      simp
    have hEmpty : (encode m x.limbValue : List UInt32).reverse = [] ↔ m = 0 := by
      rw [List.reverse_eq_nil_iff, ← List.length_eq_zero_iff, length_encode]
    have hTail : (encode m x.limbValue : List UInt32).reverse.length + 2 ≤ bigintMaxlen := by
      rw [List.length_reverse, length_encode]
      omega
    rw [if_neg hOne, hRead, ok_bind, hReverse]
    refine (divLimbs_normalForm_iff hPos a b hTail).trans ?_
    rw [hEmpty, hTop, hLength, Nat.add_sub_cancel]
    constructor
    · intro hKeeps
      exact ⟨fun hSingle => by omega, fun hLong => hKeeps.resolve_left (by omega)⟩
    · intro hKeeps
      by_cases hNone : m = 0
      · exact Or.inl hNone
      · exact Or.inr (hKeeps.2 (by omega))

theorem divBigint_normalForm_iff (sOut : SBigInt) {x y : SBigInt} (hx : x.NormalForm)
    (hy : y.NormalForm) (hPos : 0 < y.limbValue) :
    (∃ z, divBigint sOut x y = .ok z ∧ z.NormalForm) ↔
      (x.iLength32 = 1 → y.iLength32 = 1 → ClearAboveLow sOut) := by
  have hN : y.Holds (Numeral.modulus hPos).toNumeral := hy.holds
  by_cases hOne : y.iLength32 = 1
  · have hLimb : y.limbValue < limbBase := by
      have hBounded := y.numeral.bounded
      rwa [SBigInt.length_numeral hy.length_le, hOne, Nat.pow_one] at hBounded
    have hLow : y.low = .ok (UInt32.ofNat y.limbValue) := by
      rw [hN.low_eq (Numeral.modulus hPos).length_pos]
      exact low_toBig _
    rw [divBigint, if_pos hOne, hLow, ok_bind, UInt32.toNat_ofNat_of_lt' hLimb,
      divLong_normalForm_iff sOut hx hPos]
    constructor
    · exact fun hKeeps hSingle _ => hKeeps.1 hSingle
    · intro hKeeps
      refine ⟨fun hSingle => hKeeps hSingle hOne, ?_⟩
      intro hLong
      have hv : 0 < x.limbValue := by
        apply Nat.pos_of_ne_zero
        intro hNone
        have hSingle := hx.length_eq
        rw [hNone] at hSingle
        change x.iLength32 = 1 at hSingle
        omega
      have hTop := Numeral.pow_le_normal hv
      rw [← hx.length_eq] at hTop
      rw [Nat.le_div_iff_mul_le (Nat.pow_pos limbBase_pos)]
      calc
        y.limbValue * limbBase ^ (x.iLength32 - 2) ≤ limbBase * limbBase ^ (x.iLength32 - 2) :=
          Nat.mul_le_mul_right _ hLimb.le
        _ = limbBase ^ (x.iLength32 - 1) := by
          rw [← Nat.pow_succ']
          congr 1
          omega
        _ ≤ x.limbValue := hTop
  · have hLong : limbBase ≤ y.limbValue := by
      have hLength := hy.length_eq
      have hSome := Numeral.length_normal_pos y.limbValue
      exact (Nat.le_self_pow (by omega) limbBase).trans (Numeral.pow_le_normal hPos)
    obtain ⟨quotient, hDiv, -, hNormal⟩ := divBigint_spec sOut hx.holds hN
    constructor
    · exact fun _ _ hSingle => absurd hSingle hOne
    · intro _
      refine exists_normalForm (hDiv.trans (congrArg Except.ok (hNormal hLong))) ?_
      exact length_normal_max ((Nat.div_le_self _ _).trans_lt hx.value_lt)

theorem limbsOfBytes_concat (count : Nat) (bytes : List UInt8) :
    limbsOfBytes (count + 1) bytes = limbsOfBytes count bytes ++
      [UInt32.ofNat (value ((bytes.drop (4 * count)).take 4))] := by
  induction count generalizing bytes with
  | zero => rfl
  | succ count ih =>
      rw [limbsOfBytes, ih, limbsOfBytes, List.drop_drop, List.cons_append, Nat.mul_succ,
        Nat.add_comm 4]

theorem value_ne_zero_iff (bytes : List UInt8) : value bytes ≠ 0 ↔ ∃ b ∈ bytes, b ≠ 0 := by
  induction bytes with
  | nil => simp
  | cons b bytes ih =>
      have hBase : Digit.base UInt8 ≠ 0 := (base_pos (α := UInt8)).ne'
      have hb : Digit.toNat b = 0 ↔ b = 0 := by
        rw [← UInt8.toNat_inj]
        rfl
      rw [List.exists_mem_cons_iff, ← ih, value_cons, Ne, Nat.add_eq_zero_iff, Nat.mul_eq_zero, hb]
      tauto

/-- The bytes of the top word are taken as they are. -/
theorem setParameterInt_normalForm_iff {ulIn : List UInt8} {iLength32 : Nat}
    (h : iLength32 ≤ bigintMaxlen) :
    (∃ z, setParameterInt ulIn iLength32 = .ok z ∧ z.NormalForm) ↔
      iLength32 = 1 ∨ 0 < iLength32 ∧ ∃ b ∈ (ulIn.drop (4 * (iLength32 - 1))).take 4, b ≠ 0 := by
  unfold setParameterInt
  cases iLength32 with
  | zero =>
      constructor
      · intro hSome
        obtain ⟨z, hz, hForm⟩ := hSome
        rw [limbsOfBytes, Numeral.ofLimbs_toBig (Nat.zero_le _)] at hz
        obtain rfl := Except.ok.inj hz
        have hPos := Numeral.length_normal_pos (Numeral.ofLimbs []).toBig.limbValue
        rw [← hForm.length_eq] at hPos
        exact absurd hPos (Nat.lt_irrefl 0)
      · intro hSome
        omega
  | succ count =>
      have hBytes : ((ulIn.drop (4 * count)).take 4).length ≤ 4 := List.length_take_le _ _
      have hSmall : value ((ulIn.drop (4 * count)).take 4) < 2 ^ 32 := by
        apply (value_lt _).trans_le
        calc
          Digit.base UInt8 ^ ((ulIn.drop (4 * count)).take 4).length ≤ Digit.base UInt8 ^ 4 :=
            Nat.pow_le_pow_right base_pos hBytes
          _ = 2 ^ 32 := rfl
      have hTop : UInt32.ofNat (value ((ulIn.drop (4 * count)).take 4)) ≠ 0 ↔
          ∃ b ∈ (ulIn.drop (4 * count)).take 4, b ≠ 0 := by
        rw [← value_ne_zero_iff, Ne, ← UInt32.toNat_inj, UInt32.toNat_ofNat_of_lt' hSmall]
        rfl
      have hEmpty : limbsOfBytes count ulIn = [] ↔ count + 1 = 1 := by
        rw [← List.length_eq_zero_iff, length_limbsOfBytes]
        omega
      rw [limbsOfBytes_concat, stored_concat_iff (by rwa [length_limbsOfBytes]), hTop, hEmpty,
        Nat.add_sub_cancel]
      exact or_congr_right (Iff.symm (and_iff_right (Nat.succ_pos count)))

theorem low_eq (x : SBigInt) : x.low = .ok (x.limbAt 0) := x.limb_eq (by decide)

/-- The borrow goes through the zero limbs and ends at the first other one. -/
theorem borrowUp_eq (k : Nat) {d : UInt32} (rest : List UInt32) (h : d ≠ 0) :
    borrowUp (List.replicate k 0 ++ d :: rest) =
      .ok (List.replicate k 0xffffffff ++ [d - 1], d - 1) := by
  induction k with
  | zero => exact if_neg h
  | succ k ih =>
      rw [List.replicate_succ, List.cons_append, borrowUp, if_pos rfl, ih, List.replicate_succ]
      rfl

/-- In normal form with more than one limb the top one is not zero. -/
theorem SBigInt.NormalForm.getElem?_top {x : SBigInt} (h : x.NormalForm) (hLong : x.iLength32 ≠ 1) :
    1 ≤ x.iLength32 ∧ ∃ top, x.ulValue[x.iLength32 - 1]? = some top ∧ top ≠ 0 := by
  have hPos : 1 ≤ x.iLength32 := (h.top.resolve_left hLong).length_pos
  obtain ⟨top, hTop, hNonzero⟩ := h.top.resolve_left hLong
  rw [SBigInt.fromTop, if_pos hPos] at hTop
  refine ⟨hPos, top, ?_, hNonzero⟩
  cases hLimb : x.ulValue[x.iLength32 - 1]? with
  | none =>
      rw [hLimb] at hTop
      cases hTop
  | some limb =>
      rw [hLimb] at hTop
      exact congrArg some (Except.ok.inj hTop)

/-- The limbs that a borrow runs through, below the top limb. -/
theorem exists_borrow {x : SBigInt} (hx : x.NormalForm) (hLong : x.iLength32 ≠ 1) :
    ∃ (k : Nat) (d : UInt32) (rest : List UInt32),
      x.ulValue.drop 1 = List.replicate k 0 ++ d :: rest ∧ d ≠ 0 ∧ k + 2 ≤ x.iLength32 ∧
        x.borrowEnd = k + 1 ∧ x.limbAt (k + 1) = d := by
  obtain ⟨hPos, top, hTop, hNonzero⟩ := hx.getElem?_top hLong
  have hIndex : (x.ulValue.drop 1)[x.iLength32 - 2]? = some top := by
    rw [List.getElem?_drop, show 1 + (x.iLength32 - 2) = x.iLength32 - 1 by omega, hTop]
  have hSplit := (List.takeWhile_append_dropWhile (p := (· = 0)) (l := x.ulValue.drop 1)).symm
  have hZeros : (x.ulValue.drop 1).takeWhile (· = 0) =
      List.replicate ((x.ulValue.drop 1).takeWhile (· = 0)).length 0 := by
    rw [List.eq_replicate_iff]
    refine ⟨rfl, fun d hd => ?_⟩
    exact of_decide_eq_true (List.all_eq_true.mp List.all_takeWhile d hd)
  generalize hk : ((x.ulValue.drop 1).takeWhile (· = 0)).length = k at hZeros
  rw [hZeros] at hSplit
  cases hRest : (x.ulValue.drop 1).dropWhile (· = 0) with
  | nil =>
      rw [hRest, List.append_nil] at hSplit
      rw [hSplit] at hIndex
      have hZero : top = 0 := List.eq_of_mem_replicate (List.mem_of_getElem? hIndex)
      exact absurd hZero hNonzero
  | cons d rest =>
      have hd : d ≠ 0 := by
        have hHead := List.head?_dropWhile_not (· = 0) (x.ulValue.drop 1)
        rw [hRest] at hHead
        simpa using hHead
      rw [hRest] at hSplit
      refine ⟨k, d, rest, hSplit, hd, ?_, congrArg (· + 1) hk, ?_⟩
      · by_contra hShort
        rw [hSplit, List.getElem?_append_left (by rw [List.length_replicate]; omega)] at hIndex
        exact hNonzero (List.eq_of_mem_replicate (List.mem_of_getElem? hIndex))
      · have hLimb : x.ulValue[1 + k]? = some d := by
          rw [← List.getElem?_drop, hSplit, List.getElem?_append_right (by simp)]
          simp
        rw [SBigInt.limbAt, List.getD_eq_getElem?_getD, Nat.add_comm, hLimb]
        rfl

/-- The limb `i` of a number after a borrow that ends at `k + 1` and leaves
`d` there. -/
def afterBorrow (low d : UInt32) (k : Nat) (limbAt : Nat → UInt32) (i : Nat) : UInt32 :=
  if i = 0 then low
  else if i ≤ k then 0xffffffff
  else if i = k + 1 then d
  else limbAt i

section AfterBorrow

variable {low d : UInt32} {k i : Nat} {limbAt : Nat → UInt32}

theorem afterBorrow_run (hPos : 0 < i) (h : i ≤ k) :
    afterBorrow low d k limbAt i = 0xffffffff := by
  rw [afterBorrow, if_neg (Nat.ne_of_gt hPos), if_pos h]

theorem afterBorrow_end : afterBorrow low d k limbAt (k + 1) = d := by
  rw [afterBorrow, if_neg (Nat.succ_ne_zero k), if_neg (Nat.not_succ_le_self k), if_pos rfl]

theorem afterBorrow_above (h : k + 1 < i) : afterBorrow low d k limbAt i = limbAt i := by
  rw [afterBorrow, if_neg (by omega), if_neg (by omega), if_neg (by omega)]

end AfterBorrow

/-- The limbs behind a borrow are those that the result held before. -/
theorem getD_borrowed (sOut : SBigInt) (low d : UInt32) (k i : Nat) :
    (low :: (List.replicate k 0xffffffff ++ [d]) ++ sOut.ulValue.drop (k + 2)).getD i 0 =
      afterBorrow low d k sOut.limbAt i := by
  have hStored : (low :: (List.replicate k 0xffffffff ++ [d])).length = k + 2 := by simp
  by_cases hBehind : k + 2 ≤ i
  · rw [afterBorrow_above hBehind, List.getD_append_right _ _ _ _ (hStored.trans_le hBehind),
      hStored, SBigInt.limbAt, List.getD_eq_getElem?_getD, List.getElem?_drop,
      List.getD_eq_getElem?_getD]
    congr 2
    omega
  · rw [List.getD_append _ _ _ _ (by rw [hStored]; omega)]
    cases i with
    | zero => rfl
    | succ i =>
        rw [List.getD_cons_succ]
        by_cases hOnes : i + 1 ≤ k
        · rw [afterBorrow_run (Nat.succ_pos i) hOnes,
            List.getD_append _ _ _ _ (by simpa using hOnes), List.getD_replicate _ hOnes]
        · obtain rfl : i = k := by omega
          rw [afterBorrow_end, List.getD_append_right _ _ _ _ (by simp)]
          simp

theorem sub_one_eq_zero {d : UInt32} : d - 1 = 0 ↔ d = 1 := by grind

/-- When the last limb behind a borrow is not zero, by where it lies: the
borrow changes the limbs below `k + 2`, and a `d` of one becomes zero and
shortens the number. -/
theorem borrowed_last_iff {k len length : Nat} {low d : UInt32} {limbAt : Nat → UInt32}
    (hTop : k + 2 ≤ len) (hLength : (if d = 1 then len - 1 else len) = length) :
    (length = 1 ∨ afterBorrow low (d - 1) k limbAt (length - 1) ≠ 0) ↔
      k + 2 = len ∨ (d ≠ 1 ∧ limbAt (len - 1) ≠ 0) ∨
        d = 1 ∧ k + 3 < len ∧ limbAt (len - 2) ≠ 0 := by
  by_cases hSame : d = 1
  · rw [if_pos hSame] at hLength
    rcases Nat.lt_or_eq_of_le hTop with hBelow | hEnd
    · rw [or_iff_right (show ¬length = 1 by omega), or_iff_right hBelow.ne,
        or_iff_right (fun hOther => hOther.1 hSame), and_iff_right hSame]
      rcases Nat.lt_or_eq_of_le (show k + 3 ≤ len from hBelow) with hFar | hNext
      · rw [afterBorrow_above (by omega), and_iff_right hFar,
          show length - 1 = len - 2 by omega]
      · have hZero : afterBorrow low (d - 1) k limbAt (length - 1) = 0 := by
          rw [show length - 1 = k + 1 by omega, afterBorrow_end, sub_one_eq_zero.mpr hSame]
        exact iff_of_false (not_not.mpr hZero) fun hFar => hFar.1.ne hNext
    · refine iff_of_true ?_ (Or.inl hEnd)
      by_cases hSingle : length = 1
      · exact Or.inl hSingle
      · right
        rw [afterBorrow_run (by omega) (by omega)]
        decide
  · rw [if_neg hSame] at hLength
    rw [or_iff_right (show ¬length = 1 by omega), and_iff_right hSame, ← hLength]
    rcases Nat.lt_or_eq_of_le hTop with hBelow | hEnd
    · rw [afterBorrow_above (by omega), or_iff_right hBelow.ne,
        or_iff_left (fun hOther => hSame hOther.1)]
    · refine iff_of_true ?_ (Or.inl hEnd)
      rw [← hEnd, show k + 2 - 1 = k + 1 from rfl, afterBorrow_end]
      exact mt sub_one_eq_zero.mp hSame

/-- The length shrinks by one if the limb at which the borrow ends becomes
zero. -/
theorem shrink_borrowed {len : Nat} (d : UInt32) (hLen : 1 < len) :
    shrink len (d - 1) = .ok (if d = 1 then len - 1 else len) := by
  by_cases hSame : d = 1
  · rw [shrink, if_neg (not_not.mpr (sub_one_eq_zero.mpr hSame)), if_neg (by omega), if_pos hSame]
  · rw [shrink, if_pos (mt sub_one_eq_zero.mp hSame), if_neg hSame]

/-- The result of a borrow: the limbs that it changes, and those of `sOut`
behind them. -/
theorem subLong_borrowed (sOut : SBigInt) {x : SBigInt} {ulIn k : Nat} {d : UInt32}
    {rest : List UInt32} (hBorrow : ¬ulIn ≤ (x.limbAt 0).toNat) (hLong : x.iLength32 ≠ 1)
    (hMax : x.iLength32 ≤ bigintMaxlen)
    (hLimbs : x.ulValue.drop 1 = List.replicate k 0 ++ d :: rest) (hd : d ≠ 0)
    (hTop : k + 2 ≤ x.iLength32) :
    subLong sOut x ulIn = SBigInt.ofLimbs
      ((UInt32.ofNat ((2 ^ 32 + (x.limbAt 0).toNat + 2 ^ 64 - ulIn) % 2 ^ 64) ::
        (List.replicate k 0xffffffff ++ [d - 1]) ++ sOut.ulValue.drop (k + 2)).take
          (if d = 1 then x.iLength32 - 1 else x.iLength32)) := by
  unfold subLong
  rw [low_eq, ok_bind, if_neg hBorrow, if_neg hLong, hLimbs, borrowUp_eq k rest hd, ok_bind]
  dsimp only
  rw [shrink_borrowed d (by omega), ok_bind]
  generalize hLength : (if d = 1 then x.iLength32 - 1 else x.iLength32) = length
  generalize UInt32.ofNat ((2 ^ 32 + (x.limbAt 0).toNat + 2 ^ 64 - ulIn) % 2 ^ 64) = low
  have hLengthMax : length ≤ bigintMaxlen := by
    rw [← hLength]
    split <;> omega
  have hCount : (low :: (List.replicate k 0xffffffff ++ [d - 1])).length = k + 2 := by simp
  have hFits : (low :: (List.replicate k 0xffffffff ++ [d - 1])).length ≤ bigintMaxlen :=
    hCount.trans_le (hTop.trans hMax)
  rw [SBigInt.withLimbs, dif_pos hFits, ok_bind, SBigInt.limbs, if_pos hLengthMax, ok_bind]
  dsimp only
  rw [hCount]

theorem subLong_borrow (sOut : SBigInt) {x : SBigInt} {ulIn k : Nat} {d : UInt32}
    {rest : List UInt32} (hBorrow : ¬ulIn ≤ (x.limbAt 0).toNat) (hLong : x.iLength32 ≠ 1)
    (hMax : x.iLength32 ≤ bigintMaxlen)
    (hLimbs : x.ulValue.drop 1 = List.replicate k 0 ++ d :: rest) (hd : d ≠ 0)
    (hTop : k + 2 ≤ x.iLength32) :
    (∃ z, subLong sOut x ulIn = .ok z ∧ z.NormalForm) ↔
      k + 2 = x.iLength32 ∨ (d ≠ 1 ∧ sOut.limbAt (x.iLength32 - 1) ≠ 0) ∨
        d = 1 ∧ k + 3 < x.iLength32 ∧ sOut.limbAt (x.iLength32 - 2) ≠ 0 := by
  rw [subLong_borrowed sOut hBorrow hLong hMax hLimbs hd hTop]
  generalize hLength : (if d = 1 then x.iLength32 - 1 else x.iLength32) = length
  generalize UInt32.ofNat ((2 ^ 32 + (x.limbAt 0).toNat + 2 ^ 64 - ulIn) % 2 ^ 64) = low
  have hLengthPos : 0 < length := by
    rw [← hLength]
    split <;> omega
  have hLengthMax : length ≤ bigintMaxlen := by
    rw [← hLength]
    split <;> omega
  have hCount : (low :: (List.replicate k 0xffffffff ++ [d - 1])).length = k + 2 := by simp
  have hTake : ((low :: (List.replicate k 0xffffffff ++ [d - 1]) ++
      sOut.ulValue.drop (k + 2)).take length).length = length := by
    rw [List.length_take, List.length_append, hCount, List.length_drop, sOut.size]
    omega
  have hLast : ((low :: (List.replicate k 0xffffffff ++ [d - 1]) ++
      sOut.ulValue.drop (k + 2)).take length).getD (length - 1) 0 =
        (low :: (List.replicate k 0xffffffff ++ [d - 1]) ++
          sOut.ulValue.drop (k + 2)).getD (length - 1) 0 := by
    rw [List.getD_eq_getElem?_getD, List.getElem?_take_of_lt (by omega),
      ← List.getD_eq_getElem?_getD]
  rw [stored_normalForm_iff (hTake.symm ▸ hLengthPos) (hTake.trans_le hLengthMax), hTake, hLast,
    getD_borrowed]
  exact borrowed_last_iff hTop hLength

/-- Without a borrow only the lowest limb changes. -/
theorem subLong_plain (sOut : SBigInt) {x : SBigInt} {ulIn : Nat} (hx : x.NormalForm)
    (h : ulIn ≤ (x.limbAt 0).toNat) : ∃ z, subLong sOut x ulIn = .ok z ∧ z.NormalForm := by
  have hFits : [UInt32.ofNat ((x.limbAt 0).toNat - ulIn)].length ≤ bigintMaxlen :=
    Nat.le_add_left 1 65
  rw [subLong, low_eq, ok_bind, if_pos h, SBigInt.withLimbs, dif_pos hFits]
  refine ⟨_, rfl, ⟨hx.length_le, ?_⟩, ?_⟩
  · by_cases hOne : x.iLength32 = 1
    · exact Or.inl hOne
    · right
      have hPos : 1 ≤ x.iLength32 := (hx.top.resolve_left hOne).length_pos
      obtain ⟨m, hm⟩ : ∃ m, x.iLength32 = m + 2 := ⟨x.iLength32 - 2, by omega⟩
      obtain ⟨top, hTop, hNonzero⟩ := hx.top.resolve_left hOne
      refine ⟨top, ?_, hNonzero⟩
      rw [SBigInt.fromTop, if_pos hPos, hm] at hTop
      rw [SBigInt.fromTop, if_pos hPos, ← hTop]
      dsimp only
      rw [hm]
      change inBounds (x.ulValue.drop 1)[m]? = inBounds x.ulValue[m + 1]?
      rw [List.getElem?_drop, Nat.add_comm]
  · intro d hd
    have hPos : 1 ≤ x.iLength32 := by
      rw [hx.length_eq]
      exact Numeral.length_normal_pos _
    obtain ⟨m, hm⟩ : ∃ m, x.iLength32 = m + 1 := ⟨x.iLength32 - 1, by omega⟩
    apply hx.above
    dsimp only at hd
    rw [hm] at hd ⊢
    change d ∈ (x.ulValue.drop 1).drop m at hd
    rwa [List.drop_drop, Nat.add_comm] at hd

/-- The difference is in normal form exactly if nothing is borrowed, there
is one limb only, or the top limb of the result is kept. -/
theorem subLong_normalForm_iff (sOut : SBigInt) {x : SBigInt} {ulIn : Nat} (hx : x.NormalForm) :
    (∃ z, subLong sOut x ulIn = .ok z ∧ z.NormalForm) ↔
      ulIn ≤ (x.limbAt 0).toNat ∨ x.iLength32 = 1 ∨ KeepsTop sOut x := by
  by_cases hPlain : ulIn ≤ (x.limbAt 0).toNat
  · exact iff_of_true (subLong_plain sOut hx hPlain) (Or.inl hPlain)
  · rw [or_iff_right hPlain]
    by_cases hOne : x.iLength32 = 1
    · have hSub : subLong sOut x ulIn = .ok (normal 0).toBig := by
        rw [subLong, low_eq, ok_bind, if_neg hPlain, if_pos hOne, Numeral.movLong_zero]
      exact iff_of_true (exists_normalForm hSub (show 1 ≤ bigintMaxlen by decide)) (Or.inl hOne)
    · obtain ⟨k, d, rest, hLimbs, hd, hTop, hEnd, hLimb⟩ := exists_borrow hx hOne
      rw [or_iff_right hOne, subLong_borrow sOut hPlain hOne hx.length_le hLimbs hd hTop, KeepsTop,
        hEnd, hLimb]

/-- The comparison tells which number is smaller. -/
def ComparedAsNumbers (x y : SBigInt) : Prop :=
  ∃ order, cmp x y = .ok order ∧ (order < 0 ↔ x.limbValue < y.limbValue) ∧
    (order = 0 ↔ x.limbValue = y.limbValue)

theorem comparedAsNumbers {x y : SBigInt} (hx : x.Normalised) (hy : y.Normalised) :
    ComparedAsNumbers x y := by
  have hCmp : cmp x y = .ok ((normal x.limbValue).cmp (normal y.limbValue)) := by
    rw [hx.holds.cmp_left_eq, hy.holds.cmp_right_eq, Numeral.cmp_toBig hx.holds.length_le]
  refine ⟨_, hCmp, ?_⟩
  rcases Nat.lt_trichotomy x.limbValue y.limbValue with hLess | hSame | hGreater
  · rw [Numeral.cmp_normal_neg hLess]
    exact ⟨iff_of_true (by decide) hLess, iff_of_false (by decide) hLess.ne⟩
  · have hZero : (normal x.limbValue).cmp (normal y.limbValue) = 0 := by
      unfold Numeral.cmp
      rw [hSame]
      simp
    rw [hZero]
    exact ⟨iff_of_false (by decide) hSame.not_lt, iff_of_true rfl hSame⟩
  · rw [Numeral.cmp_normal hGreater]
    exact ⟨iff_of_false (by decide) hGreater.not_gt, iff_of_false (by decide) hGreater.ne'⟩

/-- What a result is to be. -/
def BigintCall.GivesNormalForm (call : BigintCall) : Prop :=
  ∃ x, call.run = .ok x ∧ x.NormalForm ∧ ∀ y, y.NormalForm → ComparedAsNumbers x y

theorem givesNormalForm_iff {call : BigintCall} :
    call.GivesNormalForm ↔ ∃ x, call.run = .ok x ∧ x.NormalForm := by
  constructor
  · exact fun ⟨x, hx, hForm, _⟩ => ⟨x, hx, hForm⟩
  · exact fun ⟨x, hx, hForm⟩ => ⟨x, hx, hForm, fun y hy =>
      comparedAsNumbers hForm.toNormalised hy.toNormalised⟩

/-- The calls that give a normal form. -/
theorem normal_results_iff (call : BigintCall) (h : call.Proper) :
    call.GivesNormalForm ↔ call.Keeps := by
  rw [givesNormalForm_iff]
  cases call with
  | movLong a => exact iff_of_true (exists_normalForm (movLong_normal h) (length_normal_max
      (h.trans (by decide)))) trivial
  | addBigint sIn sIn2 => exact addBigint_normalForm_iff h.1 h.2.1 h.2.2
  | addLong sIn ulIn => exact iff_of_true (addLong_normalForm h.1 h.2.2) trivial
  | subBigint sIn sIn2 => exact iff_of_true (subBigint_normalForm h.1 h.2) trivial
  | subLong sOut sIn ulIn => exact subLong_normalForm_iff sOut h.1
  | mulLong sIn ulIn => exact mulLong_normalForm_iff h.1 h.2
  | mulBigint sIn sIn2 => exact mulBigint_normalForm_iff h.1 h.2.1 h.2.2
  | divLong sOut sIn ulIn => exact divLong_normalForm_iff sOut h.1 h.2.1
  | divBigint sOut sIn sIn2 => exact divBigint_normalForm_iff sOut h.1 h.2.1 h.2.2
  | modBigint sIn sIn2 => exact iff_of_true (modBigint_normalForm h.1 h.2.1 h.2.2) trivial
  | setParameterInt ulIn iLength32 => exact setParameterInt_normalForm_iff h.2

/-- A carry out of a limb of ones makes the number longer. -/
theorem carry_gives_normalForm :
    (BigintCall.addLong (normal (limbBase - 1)).toBig 1).GivesNormalForm := by
  obtain ⟨hForm, hValue, -⟩ := normalForm_small (v := limbBase - 1) (by decide)
  have hRoom : (normal (limbBase - 1)).toBig.limbValue + 1 < limbBase ^ bigintMaxlen := by
    rw [hValue]
    decide
  have hProper : (BigintCall.addLong (normal (limbBase - 1)).toBig 1).Proper :=
    ⟨hForm, by decide, hRoom⟩
  exact (normal_results_iff _ hProper).mpr trivial

/-- 7 divided by 2 over a number of two limbs: the second limb stays. -/
theorem quotient_keeps_old_limb :
    let call := BigintCall.divBigint (normal limbBase).toBig (normal 7).toBig (normal 2).toBig
    call.Proper ∧ ¬call.GivesNormalForm := by
  obtain ⟨hDividend, -, hOne⟩ := normalForm_small (v := 7) (by decide)
  obtain ⟨hDivisor, hValue, hOne2⟩ := normalForm_small (v := 2) (by decide)
  have hPos : 0 < (normal 2).toBig.limbValue := by
    rw [hValue]
    exact Nat.two_pos
  refine ⟨⟨hDividend, hDivisor, hPos⟩, ?_⟩
  rw [givesNormalForm_iff]
  intro hSome
  have hClear := (divBigint_normalForm_iff _ hDividend hDivisor hPos).mp hSome hOne hOne2
  have hSecond : UInt32.ofNat (limbBase / limbBase) ∈ (normal limbBase).toBig.ulValue.drop 1 := by
    change _ ∈ (encode 65 (limbBase / limbBase) : List UInt32)
    rw [encode_succ]
    exact List.mem_cons_self
  exact absurd (hClear _ hSecond) (by decide)

end SignImage
