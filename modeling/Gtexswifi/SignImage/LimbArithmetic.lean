import Gtexswifi.SignImage.Aliasing
import Gtexswifi.SignImage.Multiplication
import Gtexswifi.SignImage.NormalForm

/-! Sum, difference and product of bignums in normal form, for any pointers
that are the same, and with no sum or product that does not fit its 64 bits. -/
namespace SignImage

open Radix
open Numeral (normal)

/-- The value of an `unsigned long`, unless it overflows. -/
def word (v : Nat) : Option Nat := if v < 2 ^ 64 then some v else none

theorem word_of_lt {v : Nat} (h : v < 2 ^ 64) : word v = some v := if_pos h

def addLimbsWord (carry : Nat) : List UInt32 → List UInt32 → Option (List UInt32 × Nat)
  | a :: as, b :: bs => do
      let sum ← word (a.toNat + b.toNat + carry)
      let rest ← addLimbsWord (sum / 2 ^ 32) as bs
      return (UInt32.ofNat sum :: rest.1, rest.2)
  | _, _ => some ([], carry)

def mulLimbsWord (ulIn carry : Nat) : List UInt32 → Option (List UInt32 × Nat)
  | a :: as => do
      let product ← word (a.toNat * ulIn)
      let mul ← word (product + carry)
      let rest ← mulLimbsWord ulIn (mul / 2 ^ 32) as
      return (UInt32.ofNat mul :: rest.1, rest.2)
  | [] => some ([], carry)

def columnStepWord (as bs : List UInt32) (i : Nat) (acc : Nat × Nat) (j : Nat) :
    Option (Nat × Nat) :=
  if j ≤ i ∧ i - j < as.length then do
    let mul ← word ((as.getD (i - j) 0).toNat * (bs.getD j 0).toNat)
    let carry ← word (acc.2 + mul / 2 ^ 32)
    let sum ← word (acc.1 + mul % 2 ^ 32)
    return (sum, carry)
  else some acc

def mulColumnsWord (as bs : List UInt32) : Nat → Nat → Nat → Option (List UInt32 × Nat)
  | 0, _, carry => some ([], carry)
  | columns + 1, i, carry => do
      let (sum, carry) ← (List.range bs.length).foldlM (columnStepWord as bs i) (carry, 0)
      let next ← word (carry + sum / 2 ^ 32)
      let rest ← mulColumnsWord as bs columns (i + 1) next
      return (UInt32.ofNat sum :: rest.1, rest.2)

theorem addLimbsWord_eq {carry : Nat} (hCarry : carry ≤ 1) (as bs : List UInt32) :
    addLimbsWord carry as bs = some (addLimbs carry as bs) := by
  induction as generalizing carry bs with
  | nil => rfl
  | cons a as ih =>
      cases bs with
      | nil => rfl
      | cons b bs =>
          have ha := a.toNat_lt
          have hb := b.toNat_lt
          have hFits : a.toNat + b.toNat + carry < 2 ^ 64 := by omega
          rw [addLimbsWord, addLimbs, word_of_lt hFits, Nat.mod_eq_of_lt hFits, Option.bind_eq_bind,
            Option.bind_some, ih (by omega)]
          rfl

theorem mulLimbsWord_eq {ulIn carry : Nat} (hIn : ulIn < limbBase) (hCarry : carry < limbBase)
    (as : List UInt32) : mulLimbsWord ulIn carry as = some (mulLimbs ulIn carry as) := by
  induction as generalizing carry with
  | nil => rfl
  | cons a as ih =>
      have hProduct : a.toNat * ulIn ≤ (limbBase - 1) * (limbBase - 1) :=
        Nat.mul_le_mul (Nat.le_pred_of_lt a.toNat_lt) (Nat.le_pred_of_lt hIn)
      simp only [limbBase] at hProduct hCarry
      have hFits : a.toNat * ulIn + carry < 2 ^ 64 := by omega
      have hNext : (a.toNat * ulIn + carry) / 2 ^ 32 < limbBase := by
        rw [limbBase]
        omega
      rw [mulLimbsWord, mulLimbs, word_of_lt (by omega), Option.bind_eq_bind, Option.bind_some,
        word_of_lt hFits, Nat.mod_eq_of_lt hFits, Option.bind_some, ih hNext]
      rfl

/-- The two sums of a column stay below 64 bits. Their high parts are kept
apart. -/
theorem columnStepWord_eq (as bs : List UInt32) (i j : Nat) {acc : Nat × Nat}
    (hSum : acc.1 < 2 ^ 63) (hCarry : acc.2 < 2 ^ 63) :
    columnStepWord as bs i acc j = some (columnStep as bs i acc j) := by
  unfold columnStepWord columnStep
  split
  · have hMul : (as.getD (i - j) 0).toNat * (bs.getD j 0).toNat ≤ (2 ^ 32 - 1) * (2 ^ 32 - 1) :=
      Nat.mul_le_mul (Nat.le_pred_of_lt (UInt32.toNat_lt _)) (Nat.le_pred_of_lt (UInt32.toNat_lt _))
    generalize (as.getD (i - j) 0).toNat * (bs.getD j 0).toNat = mul at hMul
    rw [word_of_lt (by omega), Nat.mod_eq_of_lt (show mul < 2 ^ 64 by omega), Option.bind_eq_bind,
      Option.bind_some, word_of_lt (by omega), Option.bind_some, word_of_lt (by omega)]
    dsimp only
    rw [Nat.mod_eq_of_lt (show acc.1 + mul % 2 ^ 32 < 2 ^ 64 by omega),
      Nat.mod_eq_of_lt (show acc.2 + mul / 2 ^ 32 < 2 ^ 64 by omega)]
    rfl
  · rfl

/-- The inner loop adds at most 66 products to a column. -/
theorem foldlM_columnStepWord (as bs : List UInt32) (i : Nat) {carry n : Nat}
    (hCarry : carry < 2 ^ 62) (hn : n ≤ bigintMaxlen) :
    (List.range n).foldlM (columnStepWord as bs i) (carry, 0) =
      some ((List.range n).foldl (columnStep as bs i) (carry, 0)) := by
  induction n with
  | zero => rfl
  | succ n ih =>
      obtain ⟨-, hSum, hHigh⟩ := foldl_columnStep as bs i hCarry (Nat.le_of_succ_le hn)
      simp only [bigintMaxlen, limbBase] at hn hSum hHigh
      rw [List.range_succ, List.foldlM_append, List.foldl_append, ih (Nat.le_of_succ_le hn),
        Option.bind_eq_bind, Option.bind_some, List.foldlM_cons, List.foldl_cons,
        columnStepWord_eq as bs i n (by omega) (by omega)]
      rfl

theorem mulColumnsWord_eq (as : List UInt32) {bs : List UInt32} (hb : bs.length ≤ bigintMaxlen)
    (columns i : Nat) {carry : Nat} (hCarry : carry < 2 ^ 62) :
    mulColumnsWord as bs columns i carry = some (mulColumns as bs columns i carry) := by
  induction columns generalizing i carry with
  | zero => rfl
  | succ columns ih =>
      obtain ⟨-, hSum, hHigh⟩ := foldl_columnStep as bs i hCarry hb
      rw [mulColumnsWord, mulColumns, foldlM_columnStepWord as bs i hCarry hb, Option.bind_eq_bind,
        Option.bind_some]
      generalize (List.range bs.length).foldl (columnStep as bs i) (carry, 0) = acc at hSum hHigh
      obtain ⟨sum, high⟩ := acc
      simp only [bigintMaxlen, limbBase] at hb hSum hHigh
      have hFits : high + sum / 2 ^ 32 < 2 ^ 62 := by omega
      have hWord : high + sum / 2 ^ 32 < 2 ^ 64 := hFits.trans (by decide)
      dsimp only
      rw [word_of_lt hWord, Nat.mod_eq_of_lt hWord, Option.bind_eq_bind, Option.bind_some,
        ih (i + 1) hFits]
      rfl

/-- No sum of `Add_bigint` overflows. -/
def AddsInWords (sIn sIn2 : SBigInt) : Prop :=
  let as := sIn.ulValue.take (max sIn.iLength32 sIn2.iLength32)
  let bs := sIn2.ulValue.take (max sIn.iLength32 sIn2.iLength32)
  addLimbsWord 0 as bs = some (addLimbs 0 as bs)

/-- No product or sum of either loop of `Mul_bigint` overflows. -/
def MultipliesInWords (sIn sIn2 : SBigInt) : Prop :=
  let as := sIn.ulValue.take sIn.iLength32
  let bs := sIn2.ulValue.take sIn2.iLength32
  (∀ d : UInt32, mulLimbsWord d.toNat 0 as = some (mulLimbs d.toNat 0 as)) ∧
    mulColumnsWord as bs (sIn.iLength32 + sIn2.iLength32 - 1) 0 0 =
      some (mulColumns as bs (sIn.iLength32 + sIn2.iLength32 - 1) 0 0)

theorem addsInWords (sIn sIn2 : SBigInt) : AddsInWords sIn sIn2 :=
  addLimbsWord_eq (Nat.zero_le 1) _ _

theorem multipliesInWords (sIn sIn2 : SBigInt) : MultipliesInWords sIn sIn2 := by
  constructor
  · intro d
    exact mulLimbsWord_eq d.toNat_lt limbBase_pos _
  · apply mulColumnsWord_eq
    · rw [List.length_take, sIn2.size]
      exact Nat.min_le_right _ _
    · exact Nat.two_pow_pos 62

namespace Numeral

theorem sum_normal (a b : Nat) : (normal a).add (normal b) = normal (a + b) := by
  by_cases ha : a = 0
  · by_cases hb : b = 0
    · rw [ha, hb]
      apply Numeral.ext
      · rfl
      · exact length_fit_of_lt _ (Nat.pow_pos limbBase_pos)
    · rw [add_comm, add_normal (Nat.pos_of_ne_zero hb), Nat.add_comm]
  · exact add_normal (Nat.pos_of_ne_zero ha) b

/-- The difference of normal numerals is normal, and zero if it would be
negative. -/
theorem subBigint_normal {a : Nat} (b : Nat) (h : (normal a).length ≤ bigintMaxlen) :
    subBigint (normal a).toBig (normal b).toBig = .ok (normal (a - b)).toBig := by
  rcases Nat.lt_trichotomy a b with hLess | hSame | hGreater
  · rw [subBigint, cmp_toBig h, cmp_normal_neg hLess, ok_bind, if_pos (by decide), movLong_zero,
      Nat.sub_eq_zero_of_le hLess.le]
  · have hCmp : (normal a).cmp (normal b) = 0 := by
      unfold cmp
      rw [hSame]
      simp
    rw [subBigint_same h hCmp, hSame, Nat.sub_self]
  · rw [subBigint_toBig h (by rw [cmp_normal hGreater]; decide) hGreater.le, value_normal,
      value_normal, if_neg hGreater.ne']

theorem length_mul_le {x y : Numeral} (hx : x = normal x.value) (hy : y = normal y.value)
    (hxMax : x.length ≤ bigintMaxlen) (hyMax : y.length ≤ bigintMaxlen)
    (h : x.value * y.value < limbBase ^ bigintMaxlen) : (x.mul y).length ≤ bigintMaxlen := by
  by_cases hNone : x.value * y.value = 0
  · have hShort : x.length + y.length - 1 ≤ bigintMaxlen := by
      cases Nat.mul_eq_zero.mp hNone with
      | inl hZero =>
          have hOne : x.length = 1 := by
            rw [hx, hZero]
            rfl
          omega
      | inr hZero =>
          have hOne : y.length = 1 := by
            rw [hy, hZero]
            rfl
          omega
    rwa [mul, length_fit_of_lt _ (by rw [hNone]; exact Nat.pow_pos limbBase_pos)]
  · have hxPos : 0 < x.value := Nat.pos_of_mul_pos_right (Nat.pos_of_ne_zero hNone)
    have hyPos : 0 < y.value := Nat.pos_of_mul_pos_left (Nat.pos_of_ne_zero hNone)
    rw [hx, hy, mul_normal hxPos hyPos]
    exact length_normal_le (by decide) h

end Numeral

section Results

variable {ρ : Type} [DecidableEq ρ]

/-- The addition writes the normal form of the sum, be the output one of the
operands or not. -/
theorem addBigintAt_normal {s : Objects ρ} (sOut : ρ) {sIn sIn2 : ρ} (hIn : (s sIn).NormalForm)
    (hIn2 : (s sIn2).NormalForm) (hRoom : (s sIn).iLength32 < bigintMaxlen)
    (hRoom2 : (s sIn2).iLength32 < bigintMaxlen) :
    addBigintAt sOut sIn sIn2 s = .ok (Function.update s sOut
      (normal ((s sIn).limbValue + (s sIn2).limbValue)).toBig) := by
  have hAdd : addBigint (s sIn) (s sIn2) =
      .ok (normal ((s sIn).limbValue + (s sIn2).limbValue)).toBig := by
    rw [hIn.eq_toBig, Numeral.iLength32_toBig] at hRoom
    rw [hIn2.eq_toBig, Numeral.iLength32_toBig] at hRoom2
    rw [← Numeral.sum_normal, ← Numeral.addBigint_toBig (Nat.max_lt.mpr ⟨hRoom, hRoom2⟩),
      ← hIn.eq_toBig, ← hIn2.eq_toBig]
  rw [addBigintAt_eq _ _ _ _ (Nat.max_lt.mpr ⟨hRoom, hRoom2⟩), hAdd]
  rfl

/-- The subtraction writes the normal form of the difference, be the output
one of the operands or not. -/
theorem subBigintAt_normal {s : Objects ρ} (sOut : ρ) {sIn sIn2 : ρ} (hIn : (s sIn).NormalForm)
    (hIn2 : (s sIn2).NormalForm) :
    subBigintAt sOut sIn sIn2 s = .ok (Function.update s sOut
      (normal ((s sIn).limbValue - (s sIn2).limbValue)).toBig) := by
  have hSub : subBigint (s sIn) (s sIn2) =
      .ok (normal ((s sIn).limbValue - (s sIn2).limbValue)).toBig := by
    rw [← Numeral.subBigint_normal _ hIn.holds.length_le, ← hIn.eq_toBig, ← hIn2.eq_toBig]
  rw [subBigintAt_eq _ _ _ _ hIn.length_le, hSub]
  rfl

end Results

/-- Either path of `Mul_bigint` gives the product. -/
theorem mulBigint_normalForm {x y : SBigInt} (hx : x.NormalForm) (hy : y.NormalForm)
    (h : x.limbValue * y.limbValue < limbBase ^ bigintMaxlen) :
    ∃ product, mulBigint x y = .ok product ∧ mulByColumns x y = .ok product ∧
      (y.iLength32 = 1 → mulLong x y.limbValue = .ok product) ∧
        product.limbValue = x.limbValue * y.limbValue := by
  have hxPos := Numeral.length_normal_pos x.limbValue
  have hyPos := Numeral.length_normal_pos y.limbValue
  have hLength : ((normal x.limbValue).mul (normal y.limbValue)).length ≤ bigintMaxlen :=
    Numeral.length_mul_le rfl rfl hx.holds.length_le hy.holds.length_le h
  have hMul := Numeral.mulBigint_toBig hxPos hyPos hLength
  have hColumns := Numeral.mulByColumns_toBig hxPos hyPos hLength
  rw [← hx.eq_toBig, ← hy.eq_toBig] at hMul hColumns
  refine ⟨_, hMul, hColumns, ?_, congrArg Numeral.value (Numeral.holds_toBig hLength).numeral_eq⟩
  intro hOne
  have hBound : y.limbValue < limbBase := by
    have hBounded := y.numeral.bounded
    rwa [SBigInt.length_numeral hy.length_le, hOne, Nat.pow_one] at hBounded
  have hLimb : (UInt32.ofNat y.limbValue).toNat = y.limbValue := UInt32.toNat_ofNat_of_lt' hBound
  have hTop : y.fromTop 1 = .ok (UInt32.ofNat y.limbValue) := by
    obtain ⟨limb, hLimbTop, hValue⟩ := Numeral.fromTop_toBig (x := normal y.limbValue) Nat.one_pos
      hyPos hy.holds.length_le
    have hLength1 : (normal y.limbValue).length = 1 := hy.holds.iLength32_eq.symm.trans hOne
    rw [Numeral.limbFromTop_one, hLength1, Nat.sub_self, Nat.pow_zero, Nat.div_one,
      Numeral.value_normal] at hValue
    rw [hy.holds.fromTop_eq Nat.one_pos, hLimbTop, ← hValue, UInt32.ofNat_toNat]
  rw [mulBigint_eq, if_pos hOne, hTop, ok_bind, hLimb] at hMul
  exact hMul

/-- Sum, difference and product, with the sum and the difference also over
an operand. -/
theorem limb_arithmetic {ρ : Type} [DecidableEq ρ] (s : Objects ρ) {sIn sIn2 : ρ}
    (hIn : (s sIn).NormalForm) (hIn2 : (s sIn2).NormalForm) (hLength : (s sIn).iLength32 ≤ 65)
    (hLength2 : (s sIn2).iLength32 ≤ 65) :
    (∀ sOut, ∃ s' : Objects ρ, addBigintAt sOut sIn sIn2 s = .ok s' ∧
      (s' sOut).limbValue = (s sIn).limbValue + (s sIn2).limbValue ∧
        ∀ r, r ≠ sOut → s' r = s r) ∧
    (∀ sOut, ∃ s' : Objects ρ, subBigintAt sOut sIn sIn2 s = .ok s' ∧
      (s' sOut).limbValue = (s sIn).limbValue - (s sIn2).limbValue ∧
        ∀ r, r ≠ sOut → s' r = s r) ∧
    ((s sIn).limbValue * (s sIn2).limbValue < limbBase ^ bigintMaxlen →
      ∃ product, mulBigint (s sIn) (s sIn2) = .ok product ∧
        mulByColumns (s sIn) (s sIn2) = .ok product ∧
          ((s sIn2).iLength32 = 1 → mulLong (s sIn) (s sIn2).limbValue = .ok product) ∧
            product.limbValue = (s sIn).limbValue * (s sIn2).limbValue) ∧
    AddsInWords (s sIn) (s sIn2) ∧ MultipliesInWords (s sIn) (s sIn2) := by
  have hSumLength : (normal ((s sIn).limbValue + (s sIn2).limbValue)).length ≤ bigintMaxlen := by
    have hShort := hIn.holds.iLength32_eq
    have hShort2 := hIn2.holds.iLength32_eq
    rw [← Numeral.sum_normal]
    apply (Numeral.length_fit_le _ _ _).trans
    rw [bigintMaxlen]
    omega
  refine ⟨?_, ?_, mulBigint_normalForm hIn hIn2, addsInWords _ _, multipliesInWords _ _⟩
  · intro sOut
    refine ⟨_, addBigintAt_normal sOut hIn hIn2 (Nat.lt_succ_of_le hLength)
      (Nat.lt_succ_of_le hLength2), ?_, fun r hr => Function.update_of_ne hr _ _⟩
    rw [Function.update_self]
    exact congrArg Numeral.value (Numeral.holds_toBig hSumLength).numeral_eq
  · intro sOut
    refine ⟨_, subBigintAt_normal sOut hIn hIn2, ?_, fun r hr => Function.update_of_ne hr _ _⟩
    rw [Function.update_self]
    have hDifference : (normal ((s sIn).limbValue - (s sIn2).limbValue)).length ≤ bigintMaxlen := by
      have hShort := Numeral.length_normal_le (Numeral.length_normal_pos (s sIn).limbValue)
        ((Nat.sub_le _ (s sIn2).limbValue).trans_lt (normal (s sIn).limbValue).bounded)
      exact hShort.trans hIn.holds.length_le
    exact congrArg Numeral.value (Numeral.holds_toBig hDifference).numeral_eq

/-- Two limbs of ones and a number with two limbs of one: a carry leaves the
top limb. -/
theorem limb_arithmetic_ones :
    let s : Objects Bool := fun r => (normal (if r then limbBase ^ 2 - 1 else limbBase + 1)).toBig
    (∃ s' : Objects Bool, addBigintAt true true false s = .ok s' ∧
      (s' true).limbValue = limbBase ^ 2 + limbBase) ∧
    (∃ s' : Objects Bool, subBigintAt true true false s = .ok s' ∧
      (s' true).limbValue = limbBase ^ 2 - limbBase - 2) ∧
    ∃ product, mulBigint (s true) (s false) = .ok product ∧
      mulByColumns (s true) (s false) = .ok product ∧
        product.limbValue = (limbBase ^ 2 - 1) * (limbBase + 1) := by
  intro s
  have hOnes : (normal (limbBase ^ 2 - 1)).length = 2 :=
    Numeral.length_normal_eq (by decide) (by decide)
  have hTwo : (normal (limbBase + 1)).length = 2 :=
    Numeral.length_normal_eq (by decide) (by decide)
  have hIn : (s true).NormalForm := Numeral.normalForm (by rw [if_pos rfl, hOnes]; decide)
  have hIn2 : (s false).NormalForm :=
    Numeral.normalForm (by rw [if_neg Bool.false_ne_true, hTwo]; decide)
  have hValue : (s true).limbValue = limbBase ^ 2 - 1 :=
    congrArg Numeral.value (Numeral.holds_toBig (hOnes.trans_le (by decide))).numeral_eq
  have hValue2 : (s false).limbValue = limbBase + 1 :=
    congrArg Numeral.value (Numeral.holds_toBig (hTwo.trans_le (by decide))).numeral_eq
  obtain ⟨hAdd, hSub, hMul, -⟩ := limb_arithmetic s hIn hIn2 (hOnes.trans_le (by decide))
    (hTwo.trans_le (by decide))
  rw [hValue, hValue2] at hAdd hSub hMul
  obtain ⟨sums, hSums, hSum, -⟩ := hAdd true
  obtain ⟨rests, hRests, hRest, -⟩ := hSub true
  obtain ⟨product, hProduct, hColumns, -, hProductValue⟩ := hMul (by decide)
  exact ⟨⟨sums, hSums, hSum.trans (by decide)⟩, ⟨rests, hRests, hRest.trans (by decide)⟩, product,
    hProduct, hColumns, hProductValue⟩

end SignImage
