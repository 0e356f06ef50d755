import Gtexswifi.SignImage.BigIntSpec
import Mathlib.Tactic.Linarith

/-! `Mod_bigint` reduces: each pass subtracts a multiple of the modulus that
the quotient estimate keeps below the number. -/
namespace SignImage

open Radix

namespace Numeral

/-- A quotient of the top limbs by one more than the top limb of the modulus
is no overestimate. -/
theorem estimate_lt {v m num low len q : Nat} (hModulus : m < (num + 1) * limbBase ^ low)
    (hq : q ≠ 0) (hEstimate : q = v / limbBase ^ (low + len) / (num + 1)) :
    limbBase ^ len * (m * q) < v := by
  have hPos : 0 < limbBase ^ len := Nat.pow_pos limbBase_pos
  calc
    limbBase ^ len * (m * q) < limbBase ^ len * ((num + 1) * limbBase ^ low * q) :=
      Nat.mul_lt_mul_of_pos_left
        (Nat.mul_lt_mul_of_pos_right hModulus (Nat.pos_of_ne_zero hq)) hPos
    _ = limbBase ^ (low + len) * ((num + 1) * q) := by ring
    _ ≤ limbBase ^ (low + len) * (v / limbBase ^ (low + len)) := by
      rw [hEstimate]
      exact Nat.mul_le_mul_left _ (Nat.mul_div_le _ _)
    _ ≤ v := Nat.mul_div_le _ _

theorem limbFromTop_lt (x : Numeral) (k : Nat) : x.limbFromTop k < limbBase :=
  Nat.mod_lt _ limbBase_pos

/-- A number is less than the next multiple of the weight of its top limb. -/
theorem value_lt_limbFromTop (x : Numeral) :
    x.value < (x.limbFromTop 1 + 1) * limbBase ^ (x.length - 1) := by
  rw [limbFromTop_one, Nat.mul_comm]
  exact Nat.lt_mul_div_succ _ (Nat.pow_pos limbBase_pos)

theorem limbFromTop_le_value (x : Numeral) :
    x.limbFromTop 1 * limbBase ^ (x.length - 1) ≤ x.value := by
  rw [limbFromTop_one]
  exact Nat.div_mul_le_self _ _

/-- The top two limbs as one number. -/
theorem limbFromTop_two {x : Numeral} (h : 2 ≤ x.length) :
    x.limbFromTop 1 * limbBase + x.limbFromTop 2 = x.value / limbBase ^ (x.length - 2) := by
  have hPower : x.value / limbBase ^ (x.length - 1) =
      x.value / limbBase ^ (x.length - 2) / limbBase := by
    rw [Nat.div_div_eq_div_mul, ← Nat.pow_succ]
    congr 2
    omega
  rw [limbFromTop_one, limbFromTop, hPower, Nat.mul_comm, Nat.div_add_mod]

/-- What an estimated quotient promises: it is no overestimate, and it is
zero only for a number whose top limb is zero, when the multiple of the
modulus is shorter than the number. -/
structure Estimate (x : Numeral) (n : Modulus) (q : UInt32) (len : Nat) : Prop where
  length_le : n.length + len ≤ x.length
  less : q.toNat ≠ 0 → limbBase ^ len * (n.value * q.toNat) < x.value
  short_of_zero : q.toNat = 0 → n.length + len < x.length
  top_of_zero : q.toNat = 0 → x.value < limbBase ^ (x.length - 1)

theorem succ_limbFromTop (x : Numeral) :
    (x.limbFromTop 1 + 1) % 2 ^ 64 = x.limbFromTop 1 + 1 := by
  apply Nat.mod_eq_of_lt
  have hTop := limbFromTop_lt x 1
  rw [limbBase] at hTop
  omega

/-- The estimate from the top two limbs, when the top limb is too small by
itself. -/
theorem modQuotient_two {x : Numeral} {n : Modulus} (hx : x.length ≤ bigintMaxlen)
    (hTwo : x.limbFromTop 1 ≤ n.limbFromTop 1 ∧ x.length - n.length ≠ 0) :
    ∃ (q : UInt32) (len : Nat),
      modQuotient x.toBig (x.limbFromTop 1) (n.limbFromTop 1) (x.length - n.length) =
        .ok (q.toNat, len) ∧ Estimate x n q len := by
  have hPos := n.length_pos
  obtain ⟨next, hNext, hNextValue⟩ := fromTop_toBig (x := x) (k := 2) Nat.two_pos (by omega) hx
  have hTop := limbFromTop_two (x := x) (by omega)
  have hWide : (x.limbFromTop 1 * 2 ^ 32 + next.toNat) % 2 ^ 64 =
      x.value / limbBase ^ (x.length - 2) := by
    have hDiv := limbFromTop_lt x 1
    have hNextLt := limbFromTop_lt x 2
    rw [hNextValue, ← hTop]
    apply Nat.mod_eq_of_lt
    rw [limbBase] at hDiv hNextLt
    omega
  have hFits : x.value / limbBase ^ (x.length - 2) / (n.limbFromTop 1 + 1) < limbBase := by
    have hNextLt := limbFromTop_lt x 2
    have hFirst := Nat.mul_le_mul_right limbBase hTwo.1
    rw [← hTop, Nat.div_lt_iff_lt_mul (Nat.succ_pos _)]
    linarith
  have hLow : x.length - 2 = n.length - 1 + (x.length - n.length - 1) := by omega
  generalize hq : x.value / limbBase ^ (x.length - 2) / (n.limbFromTop 1 + 1) = q at hFits
  have hLimb : (UInt32.ofNat q).toNat = q := UInt32.toNat_ofNat_of_lt' hFits
  refine ⟨UInt32.ofNat q, x.length - n.length - 1, ?_, ?_⟩
  · rw [modQuotient, succ_limbFromTop, if_pos hTwo, hNext, ok_bind, hWide, hq, hLimb]
    rfl
  · constructor
    · omega
    · rw [hLimb]
      intro hNonzero
      exact estimate_lt (value_lt_limbFromTop n.toNumeral) hNonzero (by rw [← hLow, hq])
    · omega
    · rw [hLimb]
      intro hZero
      rw [hZero, Nat.div_eq_zero_iff_lt (Nat.succ_pos _)] at hq
      have hNum := limbFromTop_lt n.toNumeral 1
      have hSmall : x.value / limbBase ^ (x.length - 2) < limbBase := by omega
      rw [Nat.div_lt_iff_lt_mul (Nat.pow_pos limbBase_pos), ← Nat.pow_succ'] at hSmall
      rwa [show x.length - 1 = (x.length - 2).succ by omega]

/-- The estimate from the top limb alone is not zero: a top limb below that
of the modulus, at its length, would make the number smaller. -/
theorem modQuotient_one {x : Numeral} {n : Modulus} (hBelow : ¬x.Below n)
    (hOne : ¬(x.limbFromTop 1 ≤ n.limbFromTop 1 ∧ x.length - n.length ≠ 0))
    (hBreak : ¬(x.limbFromTop 1 = n.limbFromTop 1 ∧ x.length - n.length = 0)) :
    ∃ (q : UInt32) (len : Nat),
      modQuotient x.toBig (x.limbFromTop 1) (n.limbFromTop 1) (x.length - n.length) =
        .ok (q.toNat, len) ∧ Estimate x n q len := by
  have hLength : n.length ≤ x.length := by
    unfold Below at hBelow
    omega
  have hPos := n.length_pos
  have hFits : x.limbFromTop 1 / (n.limbFromTop 1 + 1) < limbBase :=
    Nat.lt_of_le_of_lt (Nat.div_le_self _ _) (limbFromTop_lt x 1)
  have hLow : x.length - 1 = n.length - 1 + (x.length - n.length) := by omega
  generalize hq : x.limbFromTop 1 / (n.limbFromTop 1 + 1) = q at hFits
  have hLimb : (UInt32.ofNat q).toNat = q := UInt32.toNat_ofNat_of_lt' hFits
  have hNonzero : q ≠ 0 := by
    intro hZero
    rw [hZero, Nat.div_eq_zero_iff_lt (Nat.succ_pos _)] at hq
    have hSame : x.length = n.length := by omega
    have hLess : x.limbFromTop 1 + 1 ≤ n.limbFromTop 1 := by omega
    refine hBelow (Or.inr ⟨hSame, ?_⟩)
    calc
      x.value < (x.limbFromTop 1 + 1) * limbBase ^ (x.length - 1) := value_lt_limbFromTop x
      _ ≤ n.limbFromTop 1 * limbBase ^ (x.length - 1) := Nat.mul_le_mul_right _ hLess
      _ = n.limbFromTop 1 * limbBase ^ (n.length - 1) := by rw [hSame]
      _ ≤ n.value := limbFromTop_le_value n.toNumeral
  refine ⟨UInt32.ofNat q, x.length - n.length, ?_, ?_⟩
  · rw [modQuotient, succ_limbFromTop, if_neg hOne, hq, hLimb]
    rfl
  · constructor
    · omega
    · rw [hLimb]
      intro _
      exact estimate_lt (value_lt_limbFromTop n.toNumeral) hNonzero
        (by rw [← hLow, ← limbFromTop_one, hq])
    · exact fun hZero => absurd (hLimb.symm.trans hZero) hNonzero
    · exact fun hZero => absurd (hLimb.symm.trans hZero) hNonzero

/-- The estimate of the code is one that can be subtracted, unless the top
limbs and the lengths are equal. -/
theorem modQuotient_toBig {x : Numeral} {n : Modulus} (hx : x.length ≤ bigintMaxlen)
    (hBelow : ¬x.Below n)
    (hBreak : ¬(x.limbFromTop 1 = n.limbFromTop 1 ∧ x.length - n.length = 0)) :
    ∃ (q : UInt32) (len : Nat),
      modQuotient x.toBig (x.limbFromTop 1) (n.limbFromTop 1) (x.length - n.length) =
        .ok (q.toNat, len) ∧ Estimate x n q len := by
  by_cases hTwo : x.limbFromTop 1 ≤ n.limbFromTop 1 ∧ x.length - n.length ≠ 0
  · exact modQuotient_two hx hTwo
  · exact modQuotient_one hBelow hTwo hBreak

namespace Estimate

variable {x : Numeral} {n : Modulus} {q : UInt32} {len : Nat}

/-- The multiple of the modulus is written no longer than the number. -/
theorem length_multiple_le (h : Estimate x n q len) :
    ((n.scale q).shift len).length ≤ x.length := by
  have hLength := h.length_le
  rw [length_shift]
  by_cases hFits : n.value * q.toNat < limbBase ^ n.length
  · rwa [show (n.scale q).length = n.length from if_pos hFits]
  · rw [show (n.scale q).length = n.length + 1 from if_neg hFits]
    have hq : q.toNat ≠ 0 := by
      intro hZero
      apply hFits
      rw [hZero, Nat.mul_zero]
      exact Nat.pow_pos limbBase_pos
    have hPower : limbBase ^ (n.length + len) < limbBase ^ x.length := by
      calc
        limbBase ^ (n.length + len) = limbBase ^ len * limbBase ^ n.length := by ring
        _ ≤ limbBase ^ len * (n.value * q.toNat) := Nat.mul_le_mul_left _ (Nat.not_lt.mp hFits)
        _ < x.value := h.less hq
        _ < limbBase ^ x.length := x.bounded
    have := (Nat.pow_lt_pow_iff_right (show 1 < limbBase by decide)).mp hPower
    omega

/-- The number compares as greater than the multiple. The code does not test
it. -/
theorem cmp_multiple (h : Estimate x n q len) : x.cmp ((n.scale q).shift len) = 1 := by
  apply cmp_eq_one
  by_cases hq : q.toNat = 0
  · left
    rw [length_shift, scale, length_fit_of_lt _ (by rw [hq]; exact Nat.pow_pos limbBase_pos)]
    exact h.short_of_zero hq
  · rcases Nat.lt_or_eq_of_le h.length_multiple_le with hShort | hSame
    · exact Or.inl hShort
    · exact Or.inr ⟨hSame, h.less hq⟩

theorem multiple_le (h : Estimate x n q len) : ((n.scale q).shift len).value ≤ x.value := by
  by_cases hq : q.toNat = 0
  · simp [hq]
  · exact (h.less hq).le

/-- The multiple is the number itself only when both are zero. -/
theorem value_eq_zero (h : Estimate x n q len)
    (hSame : x.value = ((n.scale q).shift len).value) : x.value = 0 := by
  by_cases hq : q.toNat = 0
  · rw [hSame, value_shift, value_scale, hq, Nat.mul_zero, Nat.mul_zero]
  · exact absurd hSame (h.less hq).ne'

/-- The estimate for a number without leading zeros is not zero. -/
theorem quotient_pos (h : Estimate x n q len) (hNormal : x = normal x.value) (hx : 0 < x.value) :
    0 < q.toNat := by
  apply Nat.pos_of_ne_zero
  intro hq
  have hTop := h.top_of_zero hq
  have hLow := base_pow_le_of_width (α := UInt32) hx
  rw [hNormal] at hTop
  exact absurd hTop (Nat.not_lt.mpr hLow)

/-- Something is taken away from a number without leading zeros. -/
theorem multiple_pos (h : Estimate x n q len) (hNormal : x = normal x.value) (hx : 0 < x.value) :
    0 < ((n.scale q).shift len).value :=
  Nat.mul_pos (Nat.pow_pos limbBase_pos) (Nat.mul_pos n.value_pos (h.quotient_pos hNormal hx))

end Estimate

/-- What one pass makes of a number, with whether it was the last one. -/
structure Pass (x : Numeral) (n : Modulus) (w : Nat) (done : Bool) : Prop where
  modEq : w ≡ x.value [MOD n.value]
  le : w ≤ x.value
  lt_of_done : done = true → w < n.value
  lt_of_normal : x = normal x.value → w < x.value

/-- The pass that ends in `break`: length and top limb are those of the
modulus. -/
theorem modPass_break {x : Numeral} {n : Modulus} (hx : x.length ≤ bigintMaxlen)
    (hBelow : ¬x.Below n) (hSame : x.length = n.length)
    (hTop : x.limbFromTop 1 = n.limbFromTop 1) :
    x.value ≠ 0 ∧ subBigint x.toBig n.toBig = .ok (normal (x.value - n.value)).toBig ∧
      Pass x n (x.value - n.value) true := by
  have hLe : n.value ≤ x.value := Nat.le_of_not_lt fun hLt => hBelow (Or.inr ⟨hSame, hLt⟩)
  have hPos := n.value_pos
  refine ⟨by omega, ?_, ?_⟩
  · rcases Nat.eq_or_lt_of_le hLe with hEqual | hLess
    · have hCmp : x.cmp n.toNumeral = 0 := by simp [cmp, hSame, hEqual]
      rw [subBigint_same hx hCmp, hEqual, Nat.sub_self]
    · have hCmp : x.cmp n.toNumeral = 1 := cmp_eq_one (Or.inr ⟨hSame.symm, hLess⟩)
      rw [subBigint_toBig hx (by rw [hCmp]; decide) hLe, if_neg hLess.ne']
  · constructor
    · exact (Nat.modEq_iff_dvd' (Nat.sub_le _ _)).mpr (by rw [Nat.sub_sub_self hLe])
    · exact Nat.sub_le _ _
    · intro _
      have hHigh := value_lt_limbFromTop x
      have hLow := limbFromTop_le_value n.toNumeral
      have hModulus := n.top_ne_zero
      rw [hTop, hSame, Nat.add_mul, Nat.one_mul] at hHigh
      omega
    · intro _
      omega

/-- Every other pass subtracts the estimated multiple of the modulus. -/
theorem modPass_multiple {x : Numeral} {n : Modulus} (hx : x.length ≤ bigintMaxlen)
    {q : UInt32} {len : Nat} (h : Estimate x n q len) (hNonzero : x.value ≠ 0) :
    subBigint x.toBig ((n.scale q).shift len).toBig =
        .ok (normal (x.value - ((n.scale q).shift len).value)).toBig ∧
      Pass x n (x.value - ((n.scale q).shift len).value) false := by
  constructor
  · rw [subBigint_toBig hx (by rw [h.cmp_multiple]; decide) h.multiple_le,
      if_neg fun hSame => hNonzero (h.value_eq_zero hSame)]
  · constructor
    · apply (Nat.modEq_iff_dvd' (Nat.sub_le _ _)).mpr
      rw [Nat.sub_sub_self h.multiple_le, value_shift, value_scale]
      exact Dvd.intro (limbBase ^ len * q.toNat) (by ring)
    · exact Nat.sub_le _ _
    · intro hDone
      cases hDone
    · intro hNormal
      have hMultiple := h.multiple_pos hNormal (Nat.pos_of_ne_zero hNonzero)
      have hLe := h.multiple_le
      omega

/-- A pass takes away what it hands to `Sub_bigint`. -/
theorem modPass_eq (sOut sIn2 : SBigInt) :
    SignImage.modPass sOut sIn2 =
      sOut.fromTop 1 >>= fun div => sIn2.fromTop 1 >>= fun num =>
        modSubtrahend sOut sIn2 >>= fun sTemp2 => subBigint sOut sTemp2 >>= fun rest =>
          .ok (rest, decide (div = num ∧ sOut.iLength32 - sIn2.iLength32 = 0)) := by
  unfold SignImage.modPass modSubtrahend
  cases sOut.fromTop 1 with
  | error fault => rfl
  | ok div =>
      cases sIn2.fromTop 1 with
      | error fault => rfl
      | ok num =>
          simp only [ok_bind]
          by_cases hBreak : div = num ∧ sOut.iLength32 - sIn2.iLength32 = 0
          · rw [if_pos hBreak, if_pos hBreak, decide_eq_true hBreak]
            rfl
          · rw [if_neg hBreak, if_neg hBreak, decide_eq_false hBreak]
            cases modQuotient sOut div.toNat num.toNat (sOut.iLength32 - sIn2.iLength32) with
            | error fault => rfl
            | ok quotient =>
                simp only [ok_bind]
                cases movLong quotient.1 >>= mulBigint sIn2 with
                | error fault => rfl
                | ok sTemp2 => rfl

/-- Outside the last pass an estimated multiple of the modulus is taken
away. -/
theorem modSubtrahend_holds {x : Numeral} {n : Modulus} {sIn2 : SBigInt}
    (hn : sIn2.Holds n.toNumeral) (hx : x.length ≤ bigintMaxlen) (hBelow : ¬x.Below n)
    (hBreak : ¬(x.limbFromTop 1 = n.limbFromTop 1 ∧ x.length - n.length = 0)) :
    ∃ (q : UInt32) (len : Nat), Estimate x n q len ∧
      modSubtrahend x.toBig sIn2 = .ok ((n.scale q).shift len).toBig := by
  have hLength : n.length ≤ x.length := by
    unfold Below at hBelow
    omega
  have hPos := n.length_pos
  obtain ⟨div, hDiv, hDivValue⟩ := fromTop_toBig (x := x) Nat.one_pos (by omega) hx
  obtain ⟨num, hNum, hNumValue⟩ := fromTop_toBig (x := n.toNumeral) Nat.one_pos (by omega)
    (by omega)
  obtain ⟨q, len, hQuotient, hEstimate⟩ := modQuotient_toBig hx hBelow hBreak
  have hMultiple := hEstimate.length_multiple_le
  rw [length_shift] at hMultiple
  have hScaled : (movLong q.toNat >>= mulBigint n.toBig) = .ok (n.scale q).toBig :=
    mulBigint_movLong (by omega)
  have hElse : ¬(div = num ∧ x.toBig.iLength32 - sIn2.iLength32 = 0) := by
    rw [← UInt32.toNat_inj, hDivValue, hNumValue, hn.iLength32_eq]
    exact hBreak
  refine ⟨q, len, hEstimate, ?_⟩
  unfold modSubtrahend
  simp only [hDiv, hn.fromTop_eq Nat.one_pos, hNum, ok_bind]
  rw [if_neg hElse, hDivValue, hNumValue, hn.iLength32_eq, iLength32_toBig, hQuotient, ok_bind,
    funext hn.mulBigint_left_eq, hScaled, ok_bind, shiftLimbs_toBig (by omega)]

/-- One pass on a number takes a multiple of the modulus away, and faults on
zero. -/
theorem modPass_toBig {x : Numeral} {n : Modulus} (hx : x.length ≤ bigintMaxlen)
    (hBelow : ¬x.Below n) :
    (x.value = 0 ∧ modPass x.toBig n.toBig = .error .outOfBounds) ∨
      x.value ≠ 0 ∧ ∃ w done, modPass x.toBig n.toBig = .ok ((normal w).toBig, done) ∧
        Pass x n w done := by
  have hLength : n.length ≤ x.length := by
    unfold Below at hBelow
    omega
  have hPos := n.length_pos
  obtain ⟨div, hDiv, hDivValue⟩ := fromTop_toBig (x := x) Nat.one_pos (by omega) hx
  obtain ⟨num, hNum, hNumValue⟩ := fromTop_toBig (x := n.toNumeral) Nat.one_pos (by omega)
    (by omega)
  have hTops : div = num ↔ x.limbFromTop 1 = n.limbFromTop 1 := by
    rw [← hDivValue, ← hNumValue, UInt32.toNat_inj]
  rw [modPass_eq, hDiv, ok_bind, hNum, ok_bind, iLength32_toBig, iLength32_toBig]
  by_cases hBreak : div = num ∧ x.length - n.length = 0
  · have hSame : x.length = n.length := by omega
    have hSubtrahend : modSubtrahend x.toBig n.toBig = .ok n.toBig := by
      unfold modSubtrahend
      simp only [hDiv, hNum, ok_bind]
      exact if_pos hBreak
    obtain ⟨hNonzero, hSub, hPass⟩ := modPass_break hx hBelow hSame (hTops.mp hBreak.1)
    rw [hSubtrahend, ok_bind, hSub, ok_bind, decide_eq_true hBreak]
    exact Or.inr ⟨hNonzero, _, true, rfl, hPass⟩
  · obtain ⟨q, len, hEstimate, hSubtrahend⟩ := modSubtrahend_holds
      (holds_toBig (n := n.toNumeral) (by omega)) hx hBelow (by rwa [← hTops])
    rw [hSubtrahend, ok_bind, decide_eq_false hBreak]
    by_cases hZero : x.value = 0
    · have hSame : x.value = ((n.scale q).shift len).value := by
        have hLe := hEstimate.multiple_le
        omega
      rw [subBigint_toBig hx (by rw [hEstimate.cmp_multiple]; decide) hEstimate.multiple_le,
        if_pos hSame]
      exact Or.inl ⟨hZero, rfl⟩
    · obtain ⟨hSub, hPass⟩ := modPass_multiple hx hEstimate hZero
      rw [hSub]
      exact Or.inr ⟨hZero, _, false, rfl, hPass⟩

theorem modLoop_below {x : Numeral} {n : Modulus} {fuel : Nat} (hx : x.length ≤ bigintMaxlen)
    (hBelow : x.Below n) : modLoop n.toBig (fuel + 1) x.toBig = .ok x.toBig := by
  rw [modLoop, cmp_toBig hx, ok_bind, if_pos (cmp_neg_iff.mpr hBelow)]
  rfl

/-- Otherwise it makes a pass, and goes on unless the pass breaks off. -/
theorem modLoop_pass {x : Numeral} {n : Modulus} {fuel : Nat} (hx : x.length ≤ bigintMaxlen)
    (hBelow : ¬x.Below n) :
    modLoop n.toBig (fuel + 1) x.toBig =
      modPass x.toBig n.toBig >>= fun r =>
        if r.2 then .ok r.1 else modLoop n.toBig fuel r.1 := by
  rw [modLoop, cmp_toBig hx, ok_bind, if_neg (mt cmp_neg_iff.mp hBelow)]
  rfl

theorem length_normal_le {v length : Nat} (hPos : 0 < length) (h : v < limbBase ^ length) :
    (normal v).length ≤ length := width_le (α := UInt32) hPos h

theorem normal_below_iff {n : Modulus} {v : Nat} : (normal v).Below n ↔ v < n.value := by
  constructor
  · exact fun h => h.value_lt
  · intro h
    have hMod := below_normal_mod n v
    rwa [Nat.mod_eq_of_lt h] at hMod

/-- From a number without leading zeros on, every pass makes the number
smaller, so that one pass more than the number is enough. -/
theorem modLoop_normal {n : Modulus} {fuel v : Nat} (hMax : (normal v).length ≤ bigintMaxlen)
    (hFuel : v < fuel) :
    modLoop n.toBig fuel (normal v).toBig = .ok (normal (v % n.value)).toBig := by
  induction fuel generalizing v with
  | zero => exact absurd hFuel (Nat.not_lt_zero v)
  | succ fuel ih =>
      by_cases hBelow : (normal v).Below n
      · rw [modLoop_below hMax hBelow, Nat.mod_eq_of_lt (normal_below_iff.mp hBelow)]
      · rw [modLoop_pass hMax hBelow]
        rcases modPass_toBig hMax hBelow with ⟨hZero, _⟩ | ⟨_, w, done, hRun, hPass⟩
        · have hv : v = 0 := hZero
          exact absurd (normal_below_iff.mpr (by rw [hv]; exact n.value_pos)) hBelow
        · have hw : w < v := hPass.lt_of_normal rfl
          have hMod : w % n.value = v % n.value := hPass.modEq
          rw [hRun, ok_bind, ← hMod]
          split
          · next hDone => rw [Nat.mod_eq_of_lt (hPass.lt_of_done hDone)]
          · apply ih _ (by omega)
            have hLength := length_normal_le (Nat.succ_pos _) (Nat.lt_trans hw (normal v).bounded)
            exact hLength.trans hMax

theorem limbBase_pow_le_bigintStates : limbBase ^ bigintMaxlen ≤ bigintStates := by
  have hStates (length : Nat) : limbBase ^ length ≤ (length + 1) * 2 ^ (32 * length) := by
    rw [limbBase, ← Nat.pow_mul]
    exact Nat.le_mul_of_pos_left _ (Nat.succ_pos length)
  exact hStates bigintMaxlen

/-- `Mod_bigint` is the reduction of numerals. -/
theorem modBigint_toBig {x : Numeral} {n : Modulus} (hx : x.length ≤ bigintMaxlen) :
    modBigint x.toBig n.toBig = inBounds ((reduce n x).map toBig) := by
  unfold modBigint reduce
  by_cases hBelow : x.Below n
  · rw [modLoop_below hx hBelow, if_pos hBelow]
    rfl
  · rw [modLoop_pass hx hBelow, if_neg hBelow]
    have hValue : x.value < limbBase ^ bigintMaxlen := value_lt_of_length_le hx
    rcases modPass_toBig hx hBelow with ⟨hZero, hRun⟩ | ⟨hPositive, w, done, hRun, hPass⟩
    · rw [hRun, if_pos hZero]
      rfl
    · have hMod : w % n.value = x.value % n.value := hPass.modEq
      rw [hRun, if_neg hPositive, ok_bind, ← hMod]
      split
      · next hDone =>
          rw [Nat.mod_eq_of_lt (hPass.lt_of_done hDone)]
          rfl
      · apply modLoop_normal
        · exact length_normal_le (by decide) (Nat.lt_of_le_of_lt hPass.le hValue)
        · exact Nat.lt_of_le_of_lt hPass.le (Nat.lt_of_lt_of_le hValue limbBase_pow_le_bigintStates)

end Numeral

end SignImage
