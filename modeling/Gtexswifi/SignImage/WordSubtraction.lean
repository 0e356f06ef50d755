import Gtexswifi.SignImage.NormalResults

/-! The difference of a bignum and a word, as `Sub_long` stores it into
another object. It is right where the limbs of that object above the borrow
happen to be those of the operand. -/
namespace SignImage

open Radix
open Numeral (normal)

/-- The difference, cut off at zero, in normal form. A borrow out of the
lowest limb keeps the limbs above the one at which it ends, and only a top
limb that becomes zero shortens the number. -/
structure WordDifference (sIn : SBigInt) (ulIn : Nat) (sOut : SBigInt) : Prop where
  value : sOut.limbValue = sIn.limbValue - ulIn
  normalForm : sOut.NormalForm
  kept : (sIn.limbAt 0).toNat < ulIn →
    ∀ i, sIn.borrowEnd < i → i < sIn.iLength32 → sOut.limbAt i = sIn.limbAt i
  shortened : (sIn.limbAt 0).toNat < ulIn → sOut.iLength32 < sIn.iLength32 →
    sIn.borrowEnd + 1 = sIn.iLength32 ∧ sIn.limbAt sIn.borrowEnd = 1

/-- `Sub_long` stores the difference into `sOut`, which is not `sIn`. -/
def SubtractsWord (sOut sIn : SBigInt) (ulIn : Nat) : Prop :=
  ∃ x, subLong sOut sIn ulIn = .ok x ∧ WordDifference sIn ulIn x

namespace SBigInt

theorem eq_of_limbAt {x y : SBigInt} (h : ∀ i, x.limbAt i = y.limbAt i) :
    x.ulValue = y.ulValue := by
  apply List.ext_getElem (x.size.trans y.size.symm)
  intro i hx hy
  have hLimb := h i
  rwa [limbAt, limbAt, List.getD_eq_getElem _ _ hx, List.getD_eq_getElem _ _ hy] at hLimb

namespace NormalForm

variable {x : SBigInt}

/-- In normal form the whole array is the number, with zeros above. -/
theorem ulValue_eq (h : x.NormalForm) : x.ulValue = encode bigintMaxlen x.limbValue :=
  congrArg SBigInt.ulValue h.eq_toBig

theorem value_ulValue (h : x.NormalForm) : value x.ulValue = x.limbValue := by
  rw [h.ulValue_eq]
  exact value_encode_of_lt h.value_lt

theorem limbAt_above (h : x.NormalForm) {i : Nat} (hi : x.iLength32 ≤ i) : x.limbAt i = 0 := by
  rw [limbAt, List.getD_eq_getElem?_getD]
  cases hLimb : x.ulValue[i]? with
  | none => rfl
  | some limb =>
      obtain ⟨j, rfl⟩ := Nat.exists_eq_add_of_le hi
      rw [← List.getElem?_drop] at hLimb
      exact h.above limb (List.mem_of_getElem? hLimb)

theorem limbAt_top (h : x.NormalForm) (hLong : x.iLength32 ≠ 1) :
    x.limbAt (x.iLength32 - 1) ≠ 0 := by
  obtain ⟨-, top, hTop, hNonzero⟩ := h.getElem?_top hLong
  rwa [limbAt, List.getD_eq_getElem?_getD, hTop]

/-- A bignum in normal form is given by the number in its limbs. -/
theorem eq_of_value (h : x.NormalForm) {v : Nat} (hValue : value x.ulValue = v) :
    x = (normal v).toBig := by
  rw [← hValue, h.value_ulValue]
  exact h.eq_toBig

end NormalForm

theorem ulValue_eq_cons (x : SBigInt) : x.ulValue = x.limbAt 0 :: x.ulValue.drop 1 := by
  cases hLimbs : x.ulValue with
  | nil =>
      have hSize := x.size
      rw [hLimbs] at hSize
      cases hSize
  | cons low rest =>
      rw [limbAt, hLimbs]
      rfl

end SBigInt

theorem value_plain {x : SBigInt} {ulIn : Nat} (h : ulIn ≤ (x.limbAt 0).toNat) :
    value (UInt32.ofNat ((x.limbAt 0).toNat - ulIn) :: x.ulValue.drop 1) =
      value x.ulValue - ulIn := by
  have hLow : (UInt32.ofNat ((x.limbAt 0).toNat - ulIn)).toNat = (x.limbAt 0).toNat - ulIn :=
    UInt32.toNat_ofNat_of_lt' ((Nat.sub_le _ _).trans_lt (x.limbAt 0).toNat_lt)
  have hValue : value x.ulValue = (x.limbAt 0).toNat + limbBase * value (x.ulValue.drop 1) := by
    rw [x.ulValue_eq_cons, value_cons]
    rfl
  rw [hValue, value_cons, toNat_uint32, hLow, base_uint32, Nat.sub_add_comm h]

/-- The limbs that a borrow changes, with those of the operand behind them. -/
theorem value_borrowed {x : SBigInt} {ulIn k : Nat} {d : UInt32} {rest : List UInt32}
    (hBorrow : (x.limbAt 0).toNat < ulIn) (hWord : ulIn < 2 ^ 32)
    (hLimbs : x.ulValue.drop 1 = List.replicate k 0 ++ d :: rest) (hd : d ≠ 0) :
    value (UInt32.ofNat ((2 ^ 32 + (x.limbAt 0).toNat + 2 ^ 64 - ulIn) % 2 ^ 64) ::
      (List.replicate k 0xffffffff ++ [d - 1]) ++ x.ulValue.drop (k + 2)) =
        value x.ulValue - ulIn := by
  have hRest : x.ulValue.drop (k + 2) = rest := by
    have hDrop : x.ulValue.drop (k + 2) = (x.ulValue.drop 1).drop (k + 1) := by
      rw [List.drop_drop]
      congr 1
      omega
    rw [hDrop, hLimbs, List.drop_append, List.length_replicate, Nat.add_sub_cancel_left,
      List.drop_eq_nil_of_le (by simp)]
    rfl
  have hLow : (UInt32.ofNat ((2 ^ 32 + (x.limbAt 0).toNat + 2 ^ 64 - ulIn) % 2 ^ 64)).toNat =
      2 ^ 32 + (x.limbAt 0).toNat - ulIn := by
    rw [UInt32.toNat_ofNat']
    omega
  have hPred : (d - 1).toNat + 1 = d.toNat := by
    have hNonzero : d.toNat ≠ 0 := fun hZero => hd (UInt32.toNat_inj.mp hZero)
    have hOne : (1 : UInt32) ≤ d := UInt32.le_iff_toNat_le.mpr (Nat.pos_of_ne_zero hNonzero)
    rw [UInt32.toNat_sub_of_le _ _ hOne]
    exact Nat.sub_add_cancel (Nat.pos_of_ne_zero hNonzero)
  have hHigh : value (List.replicate k 0xffffffff ++ (d - 1) :: rest) + 1 =
      value (List.replicate k 0 ++ d :: rest) := value_borrow rfl rfl hPred k rest
  rw [hRest, x.ulValue_eq_cons, hLimbs, List.cons_append, List.append_assoc,
    List.singleton_append, value_cons, value_cons, ← hHigh, toNat_uint32, toNat_uint32, hLow,
    base_uint32, limbBase]
  omega

/-- What the borrow leaves depends on the older limbs only above the place
where it ends. -/
theorem afterBorrow_congr {low d : UInt32} {k i : Nat} {limbAt other : Nat → UInt32}
    (h : k + 1 < i → limbAt i = other i) :
    afterBorrow low d k limbAt i = afterBorrow low d k other i := by
  by_cases hAbove : k + 1 < i
  · rw [afterBorrow_above hAbove, afterBorrow_above hAbove, h hAbove]
  · unfold afterBorrow
    split
    · rfl
    · split
      · rfl
      · rw [if_pos (by omega), if_pos (by omega)]

/-- Other limbs behind a borrow give the number when they are the same ones,
and the length did not shrink below a top limb that stays. -/
theorem afterBorrow_iff {k len length : Nat} {low d : UInt32} {old limbAt : Nat → UInt32}
    (hTop : k + 2 ≤ len) (hLength : (if d = 1 then len - 1 else len) = length)
    (hAbove : ∀ i, len ≤ i → limbAt i = 0) (hNonzero : limbAt (len - 1) ≠ 0) :
    (∀ i, (if i < length then afterBorrow low (d - 1) k old i else 0) =
        afterBorrow low (d - 1) k limbAt i) ↔
      k + 2 = len ∨ (d ≠ 1 ∧ ∀ i, k + 1 < i → i < len → old i = limbAt i) := by
  constructor
  · intro hSame
    by_cases hEnd : k + 2 = len
    · exact Or.inl hEnd
    · have hOther : d ≠ 1 := by
        intro hOne
        have hLast := hSame (len - 1)
        rw [if_pos hOne] at hLength
        rw [if_neg (by omega), afterBorrow_above (by omega)] at hLast
        exact hNonzero hLast.symm
      rw [if_neg hOther] at hLength
      refine Or.inr ⟨hOther, fun i hi hBelow => ?_⟩
      have hLimb := hSame i
      rwa [if_pos (hLength ▸ hBelow), afterBorrow_above hi, afterBorrow_above hi] at hLimb
  · intro hSame i
    by_cases hBelow : i < length
    · rw [if_pos hBelow]
      apply afterBorrow_congr
      intro hi
      cases hSame with
      | inl hEnd =>
          have hLe : length ≤ len := by
            rw [← hLength]
            split <;> omega
          omega
      | inr hOld =>
          rw [if_neg hOld.1] at hLength
          exact hOld.2 i hi (hLength ▸ hBelow)
    · rw [if_neg hBelow]
      by_cases hOne : d = 1
      · rw [if_pos hOne] at hLength
        have hEnd : k + 2 = len := hSame.resolve_right fun hOld => hOld.1 hOne
        rcases Nat.lt_or_eq_of_le (show k + 1 ≤ i by omega) with hi | rfl
        · rw [afterBorrow_above hi, hAbove i (by omega)]
        · rw [afterBorrow_end, sub_one_eq_zero.mpr hOne]
      · rw [if_neg hOne] at hLength
        rw [afterBorrow_above (by omega), hAbove i (by omega)]

theorem limbAt_ofLimbs {limbs : List UInt32} {x : SBigInt} (h : SBigInt.ofLimbs limbs = .ok x)
    (i : Nat) : x.limbAt i = limbs.getD i 0 := by
  unfold SBigInt.ofLimbs at h
  split at h
  · rw [← Except.ok.inj h, SBigInt.limbAt]
    dsimp only
    by_cases hi : i < limbs.length
    · rw [List.getD_append _ _ _ _ hi]
    · have hLimbs : limbs.length ≤ i := Nat.not_lt.mp hi
      rw [List.getD_append_right _ _ _ _ hLimbs, List.getD_eq_default _ _ hLimbs,
        List.getD_eq_getElem?_getD, List.getElem?_replicate]
      split <;> rfl
  · cases h

/-- The limbs of the difference when a borrow ends at `k + 1`. -/
theorem limbAt_difference {x : SBigInt} {ulIn k : Nat} {d : UInt32} {rest : List UInt32}
    (hx : x.NormalForm) (hBorrow : (x.limbAt 0).toNat < ulIn) (hWord : ulIn < 2 ^ 32)
    (hLimbs : x.ulValue.drop 1 = List.replicate k 0 ++ d :: rest) (hd : d ≠ 0)
    (hTop : k + 2 ≤ x.iLength32) (i : Nat) :
    (normal (x.limbValue - ulIn)).toBig.limbAt i =
      afterBorrow (UInt32.ofNat ((2 ^ 32 + (x.limbAt 0).toNat + 2 ^ 64 - ulIn) % 2 ^ 64))
        (d - 1) k x.limbAt i := by
  have hValue := value_borrowed hBorrow hWord hLimbs hd
  rw [hx.value_ulValue] at hValue
  generalize UInt32.ofNat ((2 ^ 32 + (x.limbAt 0).toNat + 2 ^ 64 - ulIn) % 2 ^ 64) = low at hValue ⊢
  have hSize : (low :: (List.replicate k 0xffffffff ++ [d - 1]) ++
      x.ulValue.drop (k + 2)).length = bigintMaxlen := by
    have hCount := hTop.trans hx.length_le
    have hChanged : (low :: (List.replicate k 0xffffffff ++ [d - 1])).length = k + 2 := by simp
    rw [List.length_append, hChanged, List.length_drop, x.size, Nat.add_sub_cancel' hCount]
  have hSame := getD_borrowed x low (d - 1) k i
  rw [eq_encode hSize hValue] at hSame
  exact hSame

/-- The normal form of the right number keeps the limbs and the length as it
has to. -/
theorem wordDifference_iff {x z : SBigInt} {ulIn : Nat} (hx : x.NormalForm)
    (hWord : ulIn < 2 ^ 32) :
    WordDifference x ulIn z ↔ z = (normal (x.limbValue - ulIn)).toBig := by
  constructor
  · intro hDifference
    have hNormal := hDifference.normalForm.eq_toBig
    rwa [hDifference.value] at hNormal
  · rintro rfl
    have hMax : (normal (x.limbValue - ulIn)).length ≤ bigintMaxlen :=
      length_normal_max ((Nat.sub_le _ _).trans_lt hx.value_lt)
    have hForm := Numeral.normalForm hMax
    refine ⟨congrArg Numeral.value (Numeral.holds_toBig hMax).numeral_eq, hForm, ?_, ?_⟩
    · intro hBorrow i hi hBelow
      obtain ⟨k, d, rest, hLimbs, hd, hTop, hEnd, -⟩ :=
        exists_borrow hx (show x.iLength32 ≠ 1 by omega)
      rw [limbAt_difference hx hBorrow hWord hLimbs hd hTop, afterBorrow_above (hEnd ▸ hi)]
    · intro hBorrow hShorter
      rw [Numeral.iLength32_toBig] at hShorter
      have hPos := Numeral.length_normal_pos (x.limbValue - ulIn)
      have hLong : x.iLength32 ≠ 1 := by omega
      obtain ⟨k, d, rest, hLimbs, hd, hTop, hEnd, hLimb⟩ := exists_borrow hx hLong
      have hLast := limbAt_difference hx hBorrow hWord hLimbs hd hTop (x.iLength32 - 1)
      rw [hForm.limbAt_above (by rw [Numeral.iLength32_toBig]; omega)] at hLast
      rw [hEnd, hLimb]
      rcases Nat.lt_or_eq_of_le hTop with hBelow | hSame
      · rw [afterBorrow_above (by omega)] at hLast
        exact absurd hLast.symm (hx.limbAt_top hLong)
      · rw [← hSame, Nat.add_sub_cancel (k + 1) 1, afterBorrow_end] at hLast
        exact ⟨hSame, sub_one_eq_zero.mp hLast.symm⟩

/-- The subtraction is right exactly if it writes the normal form of the
difference. -/
theorem subtractsWord_iff_eq {sOut x : SBigInt} {ulIn : Nat} (hx : x.NormalForm)
    (hWord : ulIn < 2 ^ 32) :
    SubtractsWord sOut x ulIn ↔
      subLong sOut x ulIn = .ok (normal (x.limbValue - ulIn)).toBig := by
  constructor
  · rintro ⟨z, hz, hDifference⟩
    rw [hz, (wordDifference_iff hx hWord).mp hDifference]
  · exact fun hSub => ⟨_, hSub, (wordDifference_iff hx hWord).mpr rfl⟩

theorem subLong_plain_eq (sOut : SBigInt) {x : SBigInt} {ulIn : Nat} (hx : x.NormalForm)
    (h : ulIn ≤ (x.limbAt 0).toNat) :
    subLong sOut x ulIn = .ok (normal (x.limbValue - ulIn)).toBig := by
  obtain ⟨z, hz, hForm⟩ := subLong_plain sOut hx h
  rw [hz]
  refine congrArg Except.ok (hForm.eq_of_value ?_)
  have hFits : [UInt32.ofNat ((x.limbAt 0).toNat - ulIn)].length ≤ bigintMaxlen :=
    Nat.le_add_left 1 65
  rw [subLong, low_eq, ok_bind, if_pos h, SBigInt.withLimbs, dif_pos hFits] at hz
  rw [← Except.ok.inj hz, ← hx.value_ulValue, ← value_plain h]
  rfl

/-- With one limb it gives zero, where the number is too small. -/
theorem subLong_single (sOut : SBigInt) {x : SBigInt} {ulIn : Nat} (hx : x.NormalForm)
    (hBorrow : ¬ulIn ≤ (x.limbAt 0).toNat) (hOne : x.iLength32 = 1) :
    subLong sOut x ulIn = .ok (normal (x.limbValue - ulIn)).toBig := by
  have hValue : x.limbValue = (x.limbAt 0).toNat := by
    have hAbove : x.ulValue.drop 1 = List.replicate (x.ulValue.drop 1).length 0 :=
      List.eq_replicate_of_mem (hOne ▸ hx.above)
    rw [← hx.value_ulValue, x.ulValue_eq_cons, value_cons, hAbove, value_replicate rfl,
      Nat.mul_zero, Nat.add_zero, toNat_uint32]
  have hZero : x.limbValue - ulIn = 0 := by
    rw [hValue]
    omega
  rw [subLong, low_eq, ok_bind, if_neg hBorrow, if_pos hOne, Numeral.movLong_zero, hZero]

/-- What the path with a borrow writes, as one statement about each limb. -/
theorem subLong_borrow_limbs (sOut : SBigInt) {x : SBigInt} {ulIn k : Nat} {d : UInt32}
    {rest : List UInt32} (hBorrow : ¬ulIn ≤ (x.limbAt 0).toNat) (hLong : x.iLength32 ≠ 1)
    (hMax : x.iLength32 ≤ bigintMaxlen)
    (hLimbs : x.ulValue.drop 1 = List.replicate k 0 ++ d :: rest) (hd : d ≠ 0)
    (hTop : k + 2 ≤ x.iLength32) :
    ∃ z, subLong sOut x ulIn = .ok z ∧ ∀ i, z.limbAt i =
      if i < (if d = 1 then x.iLength32 - 1 else x.iLength32) then
        afterBorrow (UInt32.ofNat ((2 ^ 32 + (x.limbAt 0).toNat + 2 ^ 64 - ulIn) % 2 ^ 64))
          (d - 1) k sOut.limbAt i
      else 0 := by
  rw [subLong_borrowed sOut hBorrow hLong hMax hLimbs hd hTop]
  generalize UInt32.ofNat ((2 ^ 32 + (x.limbAt 0).toNat + 2 ^ 64 - ulIn) % 2 ^ 64) = low
  have hLength : (if d = 1 then x.iLength32 - 1 else x.iLength32) ≤ bigintMaxlen := by
    split <;> omega
  generalize (if d = 1 then x.iLength32 - 1 else x.iLength32) = length at hLength
  have hFits : ((low :: (List.replicate k 0xffffffff ++ [d - 1]) ++
      sOut.ulValue.drop (k + 2)).take length).length ≤ bigintMaxlen :=
    (List.length_take_le _ _).trans hLength
  refine ⟨_, Numeral.ofLimbs_toBig hFits, fun i => ?_⟩
  rw [limbAt_ofLimbs (Numeral.ofLimbs_toBig hFits), List.getD_eq_getElem?_getD,
    List.getElem?_take]
  split
  · rw [← List.getD_eq_getElem?_getD]
    exact getD_borrowed sOut low (d - 1) k i
  · rfl

/-- With a borrow the subtraction is right exactly if the borrow ends in the
top limb, or the limb at which it ends stays positive and the output held
the limbs above already. -/
theorem subLong_borrow_iff (sOut : SBigInt) {x : SBigInt} {ulIn k : Nat} {d : UInt32}
    {rest : List UInt32} (hx : x.NormalForm) (hWord : ulIn < 2 ^ 32)
    (hBorrow : ¬ulIn ≤ (x.limbAt 0).toNat) (hLong : x.iLength32 ≠ 1)
    (hLimbs : x.ulValue.drop 1 = List.replicate k 0 ++ d :: rest) (hd : d ≠ 0)
    (hTop : k + 2 ≤ x.iLength32) :
    subLong sOut x ulIn = .ok (normal (x.limbValue - ulIn)).toBig ↔
      k + 2 = x.iLength32 ∨
        (d ≠ 1 ∧ ∀ i, k + 1 < i → i < x.iLength32 → sOut.limbAt i = x.limbAt i) := by
  have hDifference := limbAt_difference hx (Nat.not_le.mp hBorrow) hWord hLimbs hd hTop
  obtain ⟨z, hz, hStored⟩ := subLong_borrow_limbs sOut hBorrow hLong hx.length_le hLimbs hd hTop
  have hIff : (∀ i, z.limbAt i = (normal (x.limbValue - ulIn)).toBig.limbAt i) ↔
      k + 2 = x.iLength32 ∨
        (d ≠ 1 ∧ ∀ i, k + 1 < i → i < x.iLength32 → sOut.limbAt i = x.limbAt i) := by
    simp only [hStored, hDifference]
    exact afterBorrow_iff hTop rfl (fun i => hx.limbAt_above) (hx.limbAt_top hLong)
  constructor
  · intro hSub
    exact hIff.mp fun i => by rw [ok_unique hz hSub]
  · intro hKept
    have hTopKept : k + 2 = x.iLength32 ∨
        (d ≠ 1 ∧ sOut.limbAt (x.iLength32 - 1) ≠ 0) ∨
          d = 1 ∧ k + 3 < x.iLength32 ∧ sOut.limbAt (x.iLength32 - 2) ≠ 0 := by
      rcases Nat.lt_or_eq_of_le hTop with hBelow | hEnd
      · obtain ⟨hOther, hOld⟩ := hKept.resolve_left hBelow.ne
        refine Or.inr (Or.inl ⟨hOther, ?_⟩)
        rw [hOld (x.iLength32 - 1) (by omega) (by omega)]
        exact hx.limbAt_top hLong
      · exact Or.inl hEnd
    obtain ⟨z', hz', hForm⟩ :=
      (subLong_borrow sOut hBorrow hLong hx.length_le hLimbs hd hTop).mpr hTopKept
    obtain rfl := ok_unique hz hz'
    rw [hz]
    refine congrArg Except.ok (hForm.eq_of_value ?_)
    have hSame : z.ulValue = (normal (x.limbValue - ulIn)).toBig.ulValue :=
      SBigInt.eq_of_limbAt (hIff.mpr hKept)
    rw [hSame]
    exact value_encode_of_lt ((Nat.sub_le _ _).trans_lt hx.value_lt)

/-- A borrow that ends below the top limb needs an `sOut` that has the limbs
above already. -/
theorem subLong_difference_iff (sOut x : SBigInt) (ulIn : Nat) (hx : x.NormalForm)
    (hWord : ulIn < 2 ^ 32) :
    SubtractsWord sOut x ulIn ↔
      ulIn ≤ (x.limbAt 0).toNat ∨ x.iLength32 = 1 ∨ x.borrowEnd + 1 = x.iLength32 ∨
        (x.limbAt x.borrowEnd ≠ 1 ∧
          ∀ i, x.borrowEnd < i → i < x.iLength32 → sOut.limbAt i = x.limbAt i) := by
  rw [subtractsWord_iff_eq hx hWord]
  by_cases hPlain : ulIn ≤ (x.limbAt 0).toNat
  · exact iff_of_true (subLong_plain_eq sOut hx hPlain) (Or.inl hPlain)
  · rw [or_iff_right hPlain]
    by_cases hOne : x.iLength32 = 1
    · exact iff_of_true (subLong_single sOut hx hPlain hOne) (Or.inl hOne)
    · obtain ⟨k, d, rest, hLimbs, hd, hTop, hEnd, hLimb⟩ := exists_borrow hx hOne
      rw [or_iff_right hOne, subLong_borrow_iff sOut hx hWord hPlain hOne hLimbs hd hTop, hEnd,
        hLimb]

theorem normalForm_ofLimbs {limbs : List UInt32} (hPos : 0 < limbs.length)
    (hMax : limbs.length ≤ bigintMaxlen)
    (hTop : limbBase ^ (limbs.length - 1) ≤ (Numeral.ofLimbs limbs).value) :
    (Numeral.ofLimbs limbs).toBig.NormalForm :=
  (Numeral.normalForm_iff hMax).mpr (Numeral.eq_normal hPos hTop)

/-- A borrow that runs through a limb of zero and takes the top limb. -/
theorem borrow_shortens_power :
    SubtractsWord rsaInitialize (Numeral.ofLimbs [0, 0, 1]).toBig 1 := by
  have hForm : (Numeral.ofLimbs [0, 0, 1]).toBig.NormalForm :=
    normalForm_ofLimbs (by decide) (by decide) (by decide)
  have hEnd : (Numeral.ofLimbs [0, 0, 1]).toBig.borrowEnd + 1 =
      (Numeral.ofLimbs [0, 0, 1]).toBig.iLength32 := by decide +kernel
  exact (subLong_difference_iff _ _ 1 hForm (by decide)).mpr (Or.inr (Or.inr (Or.inl hEnd)))

/-- One less than a number of three limbs loses the top limb in a result
that was zero. -/
theorem borrow_loses_top_limb :
    ¬∀ (sOut x : SBigInt) (ulIn : Nat), x.NormalForm → ulIn < 2 ^ 32 →
      SubtractsWord sOut x ulIn := by
  intro hAll
  have hForm : (Numeral.ofLimbs [0, 2, 3]).toBig.NormalForm :=
    normalForm_ofLimbs (by decide) (by decide) (by decide)
  obtain ⟨z, hz, hDifference⟩ := hAll rsaInitialize _ 1 hForm (by decide)
  have hKept : z.limbAt 2 = 3 := hDifference.kept (by decide) 2 (by decide +kernel) (by decide)
  have hLost : (subLong rsaInitialize (Numeral.ofLimbs [0, 2, 3]).toBig 1).map (·.limbAt 2) =
      .ok 0 := by decide +kernel
  rw [hz, Except.map, hKept] at hLost
  exact absurd (Except.ok.inj hLost) (by decide)

end SignImage
