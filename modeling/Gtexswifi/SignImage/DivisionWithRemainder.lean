import Gtexswifi.SignImage.Aliasing
import Gtexswifi.SignImage.LongOperands
import Gtexswifi.SignImage.NormalForm

/-! `Div_bigint` and `Mod_bigint` give quotient and remainder, also over the
dividend. Every pass takes away a multiple of the divisor that is at least
one and no overestimate. -/
namespace SignImage

open Radix

/-- The estimate fits a limb and is not zero, and the product is not above
the remainder. -/
structure Estimated.Sound (e : Estimated) : Prop where
  pos : 0 < e.div
  lt : e.div < 2 ^ 32
  le : e.product.limbValue ≤ e.remainder.limbValue

open Numeral (normal)

namespace SBigInt.Holds

variable {x : SBigInt} {n : Numeral}

theorem modQuotient_eq (h : x.Holds n) (div num len : Nat) :
    modQuotient x div num len = modQuotient n.toBig div num len := by
  unfold modQuotient
  rw [h.fromTop_eq Nat.two_pos]

theorem low_eq (h : x.Holds n) (hPos : 0 < n.length) : x.low = n.toBig.low := by
  unfold SBigInt.low
  rw [h.getElem?_eq hPos]

theorem divLong_eq (h : x.Holds n) (hPos : 0 < n.length) (sOut : SBigInt) (ulIn : Nat) :
    divLong sOut x ulIn = divLong sOut n.toBig ulIn := by
  unfold divLong
  rw [h.low_eq hPos, h.iLength32_eq, Numeral.iLength32_toBig, h.limbs_of_le (Nat.le_refl _)]

end SBigInt.Holds

section Passes

variable {ρ : Type} [DecidableEq ρ] {sOut sIn2 : ρ} {s : Objects (Temp ⊕ ρ)} {v : Nat}
  {n : Modulus}

/-- A number that is not less than the modulus is not below it as a numeral. -/
theorem not_below_normal (h : n.value ≤ v) : ¬(normal v).Below n :=
  fun hBelow => Nat.not_lt.mpr h (Numeral.normal_below_iff.mp hBelow)

/-- The top limbs of a remainder and its divisor, as a pass reads them. -/
theorem tops_spec {x y : SBigInt} (hX : x.Holds (normal v)) (hN : y.Holds n.toNumeral) :
    ∃ div num, x.fromTop 1 = .ok div ∧ y.fromTop 1 = .ok num ∧
      div.toNat = (normal v).limbFromTop 1 ∧ num.toNat = n.limbFromTop 1 ∧
        (div = num ↔ (normal v).limbFromTop 1 = n.limbFromTop 1) := by
  obtain ⟨div, hDiv, hDivValue⟩ := Numeral.fromTop_toBig (x := normal v) Nat.one_pos
    (Numeral.length_normal_pos v) hX.length_le
  obtain ⟨num, hNum, hNumValue⟩ := Numeral.fromTop_toBig (x := n.toNumeral) Nat.one_pos
    n.length_pos hN.length_le
  refine ⟨div, num, ?_, ?_, hDivValue, hNumValue, ?_⟩
  · rw [hX.fromTop_eq Nat.one_pos, hDiv]
  · rw [hN.fromTop_eq Nat.one_pos, hNum]
  · rw [← hDivValue, ← hNumValue, UInt32.toNat_inj]

theorem length_le_of_le (h : n.value ≤ v) : n.length ≤ (normal v).length := by
  have hBelow := not_below_normal h
  unfold Numeral.Below at hBelow
  omega

/-- The pass that breaks: the modulus is taken away once. -/
theorem modPassAt_break (hX : (s (.inr sOut)).Holds (normal v))
    (hN : (s (.inr sIn2)).Holds n.toNumeral) (hLe : n.value ≤ v)
    (hTop : (normal v).limbFromTop 1 = n.limbFromTop 1)
    (hZero : (normal v).length - n.length = 0) :
    ∃ s' : Objects (Temp ⊕ ρ), modPassAt sOut sIn2 s = .ok (s', true, []) ∧
      modPass (s (.inr sOut)) (s (.inr sIn2)) = .ok (s' (.inr sOut), true) ∧
        s' (.inr sOut) = (normal (v - n.value)).toBig ∧
          (∀ r, r ≠ sOut → s' (.inr r) = s (.inr r)) ∧
            Numeral.Pass (normal v) n (v - n.value) true := by
  have hx := hX.length_le
  have hLength := length_le_of_le hLe
  obtain ⟨div, num, hDiv, hNum, -, -, hTops⟩ := tops_spec hX hN
  have hSame : (normal v).length = n.length := by omega
  obtain ⟨-, hSub, hPass⟩ := Numeral.modPass_break hx (not_below_normal hLe) hSame hTop
  rw [← hN.subBigint_right_eq hSame.le, ← hX.subBigint_left_eq] at hSub
  have hSubAt : subBigintAt (.inr sOut) (.inr sOut) (.inr sIn2) s =
      .ok (Function.update s (.inr sOut) (normal (v - n.value)).toBig) := by
    rw [subBigintAt_eq _ _ _ _ (hX.iLength32_eq.trans_le hx), hSub]
    rfl
  have hBreak : div = num ∧ (normal v).length - n.length = 0 := ⟨hTops.mpr hTop, hZero⟩
  unfold modPassAt modPass
  simp only [hDiv, hNum, ok_bind, hX.iLength32_eq, hN.iLength32_eq]
  rw [if_pos hBreak, if_pos hBreak, hSubAt, hSub, ok_bind, ok_bind]
  refine ⟨_, rfl, ?_, Function.update_self _ _ _, ?_, hPass⟩
  · rw [Function.update_self]
    rfl
  · intro r hr
    exact Function.update_of_ne (fun hSome => hr (Sum.inr.inj hSome)) _ _

/-- The pass that takes a multiple of the modulus away, by way of the
temporaries. -/
theorem modPassAt_multiple {q : UInt32} {len : Nat} (hX : (s (.inr sOut)).Holds (normal v))
    (hN : (s (.inr sIn2)).Holds n.toNumeral) (hNonzero : (normal v).value ≠ 0)
    (hBreak : ¬((normal v).limbFromTop 1 = n.limbFromTop 1 ∧ (normal v).length - n.length = 0))
    (hQuotient : modQuotient (normal v).toBig ((normal v).limbFromTop 1) (n.limbFromTop 1)
      ((normal v).length - n.length) = .ok (q.toNat, len))
    (hEstimate : Numeral.Estimate (normal v) n q len) :
    ∃ s' : Objects (Temp ⊕ ρ),
      modPassAt sOut sIn2 s = .ok (s', false,
          [⟨s (.inr sOut), q.toNat, ((n.scale q).shift len).toBig⟩]) ∧
        modPass (s (.inr sOut)) (s (.inr sIn2)) = .ok (s' (.inr sOut), false) ∧
          s' (.inr sOut) = (normal (v - ((n.scale q).shift len).value)).toBig ∧
            ∀ r, r ≠ sOut → s' (.inr r) = s (.inr r) := by
  have hx := hX.length_le
  obtain ⟨div, num, hDiv, hNum, hDivValue, hNumValue, hTops⟩ := tops_spec hX hN
  have hMultiple := hEstimate.length_multiple_le
  rw [Numeral.length_shift] at hMultiple
  have hScaled : mulBigint n.toBig (Numeral.ofLimbs [q]).toBig = .ok (n.scale q).toBig := by
    have hPos := n.length_pos
    have hProduct := Numeral.mulBigint_movLong (x := n.toNumeral) (d := q) (by omega)
    rwa [Numeral.movLong_limb, ok_bind] at hProduct
  obtain ⟨hSub, -⟩ := Numeral.modPass_multiple hx hEstimate hNonzero
  have hShifted : (n.scale q).toBig.shiftLimbs len = .ok ((n.scale q).shift len).toBig :=
    Numeral.shiftLimbs_toBig (by omega)
  unfold modPassAt modPass
  simp only [hDiv, hNum, ok_bind, hX.iLength32_eq, hN.iLength32_eq]
  rw [← hTops] at hBreak
  rw [if_neg hBreak, if_neg hBreak, hDivValue, hNumValue, hX.modQuotient_eq, hQuotient, ok_bind,
    ok_bind]
  dsimp only
  rw [Numeral.movLong_limb, ok_bind, ok_bind, Function.update_self,
    Function.update_of_ne Sum.inr_ne_inl, hN.mulBigint_left_eq, hScaled, ok_bind, ok_bind,
    hShifted, ok_bind, ok_bind, Function.update_self, hX.subBigint_left_eq, hSub, ok_bind]
  generalize hLocals : Function.update (Function.update s (.inl .sTemp1) _) (.inl .sTemp2)
    ((n.scale q).shift len).toBig = s₂
  have hCaller (r : ρ) : s₂ (.inr r) = s (.inr r) := by
    rw [← hLocals, Function.update_of_ne Sum.inr_ne_inl, Function.update_of_ne Sum.inr_ne_inl]
  have hProduct : s₂ (.inl .sTemp2) = ((n.scale q).shift len).toBig := by
    rw [← hLocals, Function.update_self]
  have hSubAt : subBigintAt (.inr sOut) (.inr sOut) (.inl .sTemp2) s₂ = .ok (Function.update s₂
      (.inr sOut) (normal (v - ((n.scale q).shift len).value)).toBig) := by
    rw [subBigintAt_eq _ _ _ _ (by rw [hCaller]; exact hX.iLength32_eq.trans_le hx), hCaller,
      hProduct, hX.subBigint_left_eq, hSub]
    rfl
  rw [hSubAt, ok_bind]
  refine ⟨_, rfl, ?_, Function.update_self _ _ _, ?_⟩
  · rw [Function.update_self]
    rfl
  · intro r hr
    rw [Function.update_of_ne (fun hSome => hr (Sum.inr.inj hSome)), hCaller]

/-- One pass of `Mod_bigint` on a number that is not below the modulus. -/
theorem modPassAt_spec (hX : (s (.inr sOut)).Holds (normal v))
    (hN : (s (.inr sIn2)).Holds n.toNumeral) (hLe : n.value ≤ v) :
    ∃ (w : Nat) (done : Bool) (s' : Objects (Temp ⊕ ρ)) (estimates : List Estimated),
      modPassAt sOut sIn2 s = .ok (s', done, estimates) ∧
        modPass (s (.inr sOut)) (s (.inr sIn2)) = .ok (s' (.inr sOut), done) ∧
          s' (.inr sOut) = (normal w).toBig ∧ (∀ r, r ≠ sOut → s' (.inr r) = s (.inr r)) ∧
            Numeral.Pass (normal v) n w done ∧ ∀ e ∈ estimates, e.Sound := by
  have hx := hX.length_le
  by_cases hBreak : (normal v).limbFromTop 1 = n.limbFromTop 1 ∧ (normal v).length - n.length = 0
  · obtain ⟨s', hRun, hResult, hOut, hKept, hPass⟩ :=
      modPassAt_break hX hN hLe hBreak.1 hBreak.2
    exact ⟨v - n.value, true, s', [], hRun, hResult, hOut, hKept, hPass,
      fun e he => absurd he List.not_mem_nil⟩
  · have hNonzero : (normal v).value ≠ 0 := (n.value_pos.trans_le hLe).ne'
    obtain ⟨q, len, hQuotient, hEstimate⟩ :=
      Numeral.modQuotient_toBig hx (not_below_normal hLe) hBreak
    obtain ⟨s', hRun, hResult, hOut, hKept⟩ :=
      modPassAt_multiple hX hN hNonzero hBreak hQuotient hEstimate
    have hHolds := Numeral.holds_toBig (hEstimate.length_multiple_le.trans hx)
    refine ⟨_, false, s', _, hRun, hResult, hOut, hKept,
      (Numeral.modPass_multiple hx hEstimate hNonzero).2, ?_⟩
    intro e he
    obtain rfl := List.mem_singleton.mp he
    constructor
    · exact hEstimate.quotient_pos rfl (n.value_pos.trans_le hLe)
    · exact q.toNat_lt
    · change ((n.scale q).shift len).toBig.numeral.value ≤ (s (.inr sOut)).numeral.value
      rw [hHolds.numeral_eq, hX.numeral_eq]
      exact hEstimate.multiple_le

/-- The comparison of a loop tells whether the remainder is below the
divisor. -/
theorem cmp_normal_modulus {x y : SBigInt} (hX : x.Holds (normal v)) (hY : y.Holds n.toNumeral) :
    ∃ order, cmp x y = .ok order ∧ (order < 0 ↔ v < n.value) := by
  refine ⟨(normal v).cmp n.toNumeral, ?_, Numeral.cmp_neg_iff.trans Numeral.normal_below_iff⟩
  rw [hX.cmp_left_eq, hY.cmp_right_eq, Numeral.cmp_toBig hX.length_le]

/-- The loop of `Mod_bigint` ends with the remainder, and leaves all other
bignums alone. -/
theorem modLoopAt_spec {fuel : Nat} (hNe : sIn2 ≠ sOut) (hFuel : v < fuel)
    (hX : (s (.inr sOut)).Holds (normal v)) (hN : (s (.inr sIn2)).Holds n.toNumeral) :
    ∃ (s' : Objects (Temp ⊕ ρ)) (estimates : List Estimated),
      modLoopAt sOut sIn2 fuel s = .ok (s', estimates) ∧
        modLoop (s (.inr sIn2)) fuel (s (.inr sOut)) = .ok (s' (.inr sOut)) ∧
          (s' (.inr sOut)).Holds (normal (v % n.value)) ∧
            (∀ r, r ≠ sOut → s' (.inr r) = s (.inr r)) ∧ ∀ e ∈ estimates, e.Sound := by
  induction fuel generalizing v s with
  | zero => exact absurd hFuel (Nat.not_lt_zero v)
  | succ fuel ih =>
      obtain ⟨order, hCmp, hOrder⟩ := cmp_normal_modulus hX hN
      rw [modLoopAt, modLoop, hCmp, ok_bind, ok_bind]
      by_cases hLess : v < n.value
      · rw [if_pos (hOrder.mpr hLess), if_pos (hOrder.mpr hLess), Nat.mod_eq_of_lt hLess]
        exact ⟨s, [], rfl, rfl, hX, fun _ _ => rfl, fun e he => absurd he List.not_mem_nil⟩
      · obtain ⟨w, done, s', estimates, hRun, hResult, hOut, hKept, hPass, hSound⟩ :=
          modPassAt_spec hX hN (Nat.not_lt.mp hLess)
        have hMod : w % n.value = v % n.value := hPass.modEq
        have hLessW : w < v := hPass.lt_of_normal rfl
        have hHolds : (s' (.inr sOut)).Holds (normal w) := by
          rw [hOut]
          apply Numeral.holds_toBig
          have hShort := Numeral.length_normal_le (Numeral.length_normal_pos v)
            (hLessW.trans (normal v).bounded)
          exact hShort.trans hX.length_le
        have hNotLess : ¬order < 0 := fun h => hLess (hOrder.mp h)
        rw [if_neg hNotLess, if_neg hNotLess, hRun, hResult, ok_bind, ok_bind, ← hMod]
        dsimp only
        cases done with
        | true =>
            rw [Nat.mod_eq_of_lt (hPass.lt_of_done rfl)]
            exact ⟨s', estimates, rfl, rfl, hHolds, hKept, hSound⟩
        | false =>
            obtain ⟨s'', later, hLoop, hLater, hRest, hKept', hSound'⟩ :=
              ih (by omega) hHolds (by rwa [hKept sIn2 hNe])
            rw [hKept sIn2 hNe] at hLater
            rw [if_neg Bool.false_ne_true, if_neg Bool.false_ne_true, hLoop]
            refine ⟨s'', estimates ++ later, rfl, hLater, hRest, ?_, ?_⟩
            · intro r hr
              rw [hKept' r hr, hKept r hr]
            · intro e he
              exact (List.mem_append.mp he).elim (hSound e) (hSound' e)

/-- What a pass of `Div_bigint` keeps: divisor times quotient plus
remainder. -/
structure Progress (n : Modulus) (q v q' v' : Nat) (done : Bool) : Prop where
  total : n.value * q' + v' = n.value * q + v
  lt : v' < v
  lt_of_done : done = true → v' < n.value

/-- The quotient by a divisor of more than one limb leaves room for a carry. -/
theorem length_quotient {q v : Nat} (hTotal : n.value * q + v < limbBase ^ bigintMaxlen)
    (hLong : limbBase ≤ n.value) : q < limbBase ^ 65 := by
  have hPower := limbBase_pow_bigintMaxlen
  have hScaled := Nat.mul_le_mul_right q hLong
  apply Nat.lt_of_mul_lt_mul_left (a := limbBase)
  omega

/-- A pass of `Div_bigint` over the estimate `d`, moved up by `len` limbs to
`e`: it adds `e` to the quotient `q`, and takes the divisor times `e` from
the remainder `v`. -/
structure Multiple (n : Modulus) (q v : Nat) (d : UInt32) (len e : Nat) : Prop where
  estimate : modQuotient (normal v).toBig ((normal v).limbFromTop 1) (n.limbFromTop 1)
    ((normal v).length - n.length) = .ok (d.toNat, len)
  pos : 0 < d.toNat
  shifted : (Numeral.ofLimbs [d]).toBig.shiftLimbs len = .ok (normal e).toBig
  quotientShort : (normal q).length < bigintMaxlen
  short : (normal e).length < bigintMaxlen
  added : addBigint (normal q).toBig (normal e).toBig = .ok (normal (q + e)).toBig
  product : mulBigint n.toBig (normal e).toBig = .ok (normal (n.value * e)).toBig
  productLength : (normal (n.value * e)).length ≤ bigintMaxlen
  product_le : n.value * e ≤ v
  taken : subBigint (normal v).toBig (normal (n.value * e)).toBig =
    .ok (normal (v - n.value * e)).toBig
  progress : Progress n q v (q + e) (v - n.value * e) false

/-- Each pass takes a positive multiple off what is left, unless the top
limbs and the lengths are equal. The quotient so far is what has been taken
off. -/
theorem exists_multiple {q : Nat} (hx : (normal v).length ≤ bigintMaxlen)
    (hLong : limbBase ≤ n.value) (hTotal : n.value * q + v < limbBase ^ bigintMaxlen)
    (hLe : n.value ≤ v) (hBreak : ¬((normal v).limbFromTop 1 = n.limbFromTop 1 ∧
      (normal v).length - n.length = 0)) :
    ∃ (d : UInt32) (len e : Nat), Multiple n q v d len e := by
  have hNonzero : (normal v).value ≠ 0 := (n.value_pos.trans_le hLe).ne'
  have hPos := n.length_pos
  obtain ⟨d, len, hQuotient, hEstimate⟩ :=
    Numeral.modQuotient_toBig hx (not_below_normal hLe) hBreak
  have hd : 0 < d.toNat := hEstimate.quotient_pos rfl (n.value_pos.trans_le hLe)
  obtain ⟨hSub, hPass⟩ := Numeral.modPass_multiple hx hEstimate hNonzero
  have hMultipleLe := hEstimate.multiple_le
  have hProductLength := hEstimate.length_multiple_le.trans hx
  rw [Numeral.shift_scale n len hd] at hSub hPass hMultipleLe hProductLength
  simp only [Numeral.value_normal] at hSub hPass hMultipleLe
  have hShifted : (Numeral.ofLimbs [d]).toBig.shiftLimbs len =
      .ok (normal (limbBase ^ len * d.toNat)).toBig := by
    have hLen := hEstimate.length_le
    rw [Numeral.shiftLimbs_toBig (show 1 + len ≤ bigintMaxlen by omega),
      Numeral.ofLimbs_singleton, Numeral.shift_normal len hd]
  have hePos : 0 < limbBase ^ len * d.toNat := Nat.mul_pos (Nat.pow_pos limbBase_pos) hd
  refine ⟨d, len, limbBase ^ len * d.toNat, ?_⟩
  revert hSub hPass hMultipleLe hProductLength hShifted hePos
  generalize limbBase ^ len * d.toNat = e
  intro hSub hPass hMultipleLe hProductLength hShifted hePos
  have hTotal' : n.value * (q + e) + (v - n.value * e) = n.value * q + v := by
    rw [Nat.mul_add]
    omega
  have hSum := length_quotient (hTotal'.trans_lt hTotal) hLong
  have hqShort : (normal q).length < bigintMaxlen :=
    Nat.lt_succ_of_le (Numeral.length_normal_le (by decide) ((Nat.le_add_right q e).trans_lt hSum))
  have heShort : (normal e).length < bigintMaxlen :=
    Nat.lt_succ_of_le (Numeral.length_normal_le (by decide) ((Nat.le_add_left e q).trans_lt hSum))
  have hAdd : addBigint (normal q).toBig (normal e).toBig = .ok (normal (q + e)).toBig := by
    rw [Numeral.addBigint_toBig (by omega), Numeral.add_comm, Numeral.add_normal hePos,
      Nat.add_comm]
  have hProduct : mulBigint n.toBig (normal e).toBig = .ok (normal (n.value * e)).toBig := by
    have hMul := Numeral.mul_normal n.value_pos hePos
    rw [← n.eq_normal] at hMul
    rw [Numeral.mulBigint_toBig hPos (Numeral.length_normal_pos e) (by rwa [hMul]), hMul]
  have hProgress : Progress n q v (q + e) (v - n.value * e) false := by
    constructor
    · exact hTotal'
    · exact hPass.lt_of_normal rfl
    · intro hDone
      cases hDone
  exact ⟨hQuotient, hd, hShifted, hqShort, heShort, hAdd, hProduct, hProductLength, hMultipleLe,
    hSub, hProgress⟩

/-- The pass that breaks: the divisor goes into the remainder once more. -/
theorem divPassAt_break {q : Nat} (hQ : s (.inr sOut) = (normal q).toBig)
    (hX : (s (.inl .sTemp1)).Holds (normal v)) (hN : (s (.inr sIn2)).Holds n.toNumeral)
    (hLong : limbBase ≤ n.value) (hTotal : n.value * q + v < limbBase ^ bigintMaxlen)
    (hLe : n.value ≤ v) (hTop : (normal v).limbFromTop 1 = n.limbFromTop 1)
    (hSame : (normal v).length - n.length = 0) :
    ∃ s' : Objects (Temp ⊕ ρ), divPassAt sOut sIn2 s = .ok (s', true, []) ∧
      divPass (s (.inr sIn2)) (s (.inr sOut)) (s (.inl .sTemp1)) =
          .ok (s' (.inr sOut), s' (.inl .sTemp1), true) ∧
        s' (.inr sOut) = (normal (q + 1)).toBig ∧ (∀ r, r ≠ sOut → s' (.inr r) = s (.inr r)) ∧
          Progress n q v (q + 1) (v - n.value) true := by
  have hLength := length_le_of_le hLe
  obtain ⟨div, num, hDiv, hNum, -, -, hTops⟩ := tops_spec hX hN
  obtain ⟨-, -, hPass⟩ := Numeral.modPass_break hX.length_le (not_below_normal hLe)
    (show (normal v).length = n.length by omega) hTop
  have hRoom : q + (1 : UInt32).toNat < limbBase ^ bigintMaxlen := by
    have hScaled := Nat.mul_le_mul_right q hLong
    have hBase : 1 < limbBase := by decide
    have hMore := Nat.le_mul_of_pos_left q limbBase_pos
    change q + 1 < _
    omega
  have hAdd : addLong (s (.inr sOut)) 1 = .ok (normal (q + 1)).toBig := by
    rw [hQ, show (1 : Nat) = (1 : UInt32).toNat from rfl, addLong_normal hRoom]
  have hAddAt : addLongAt (.inr sOut) (.inr sOut) 1 s =
      .ok (Function.update s (.inr sOut) (normal (q + 1)).toBig) := by
    rw [addLongAt_eq, hAdd]
    rfl
  have hBreak : div = num ∧ (normal v).length - n.length = 0 := ⟨hTops.mpr hTop, hSame⟩
  unfold divPassAt divPass
  simp only [hDiv, hNum, ok_bind, hX.iLength32_eq, hN.iLength32_eq]
  rw [if_pos hBreak, if_pos hBreak, hAddAt, hAdd, ok_bind, ok_bind]
  refine ⟨_, rfl, ?_, Function.update_self _ _ _, ?_, ?_⟩
  · rw [Function.update_self, Function.update_of_ne Sum.inl_ne_inr]
    rfl
  · intro r hr
    exact Function.update_of_ne (fun hSome => hr (Sum.inr.inj hSome)) _ _
  · constructor
    · rw [Nat.mul_add, Nat.mul_one]
      omega
    · exact hPass.lt_of_normal rfl
    · exact hPass.lt_of_done

/-- The pass that takes a multiple away. The product and the addend lie in
the temporaries. -/
theorem divPassAt_multiple {q len e : Nat} {d : UInt32} (hNe : sIn2 ≠ sOut)
    (hQ : s (.inr sOut) = (normal q).toBig) (hX : (s (.inl .sTemp1)).Holds (normal v))
    (hN : (s (.inr sIn2)).Holds n.toNumeral) (h : Multiple n q v d len e)
    (hBreak : ¬((normal v).limbFromTop 1 = n.limbFromTop 1 ∧
      (normal v).length - n.length = 0)) :
    ∃ s' : Objects (Temp ⊕ ρ),
      divPassAt sOut sIn2 s = .ok (s', false,
          [⟨s (.inl .sTemp1), d.toNat, (normal (n.value * e)).toBig⟩]) ∧
        divPass (s (.inr sIn2)) (s (.inr sOut)) (s (.inl .sTemp1)) =
            .ok (s' (.inr sOut), s' (.inl .sTemp1), false) ∧
          s' (.inr sOut) = (normal (q + e)).toBig ∧
            s' (.inl .sTemp1) = (normal (v - n.value * e)).toBig ∧
              ∀ r, r ≠ sOut → s' (.inr r) = s (.inr r) := by
  obtain ⟨div, num, hDiv, hNum, hDivValue, hNumValue, hTops⟩ := tops_spec hX hN
  unfold divPassAt divPass
  simp only [hDiv, hNum, ok_bind, hX.iLength32_eq, hN.iLength32_eq]
  rw [← hTops] at hBreak
  rw [if_neg hBreak, if_neg hBreak, hDivValue, hNumValue, hX.modQuotient_eq, h.estimate, ok_bind,
    ok_bind]
  dsimp only
  rw [Numeral.movLong_limb, ok_bind, ok_bind, h.shifted, ok_bind, ok_bind, hQ, h.added, ok_bind,
    hN.mulBigint_left_eq, h.product, ok_bind, hX.subBigint_left_eq, h.taken, ok_bind]
  generalize hShift : Function.update s (.inl .sTemp2) (normal e).toBig = s₁
  have hOut₁ : s₁ (.inr sOut) = (normal q).toBig := by
    rw [← hShift, Function.update_of_ne Sum.inr_ne_inl, hQ]
  have hTemp₁ : s₁ (.inl .sTemp2) = (normal e).toBig := by
    rw [← hShift, Function.update_self]
  have hLengths : max (s₁ (.inr sOut)).iLength32 (s₁ (.inl .sTemp2)).iLength32 < bigintMaxlen := by
    rw [hOut₁, hTemp₁, Numeral.iLength32_toBig, Numeral.iLength32_toBig]
    exact Nat.max_lt.mpr ⟨h.quotientShort, h.short⟩
  have hAddAt : addBigintAt (.inr sOut) (.inr sOut) (.inl .sTemp2) s₁ =
      .ok (Function.update s₁ (.inr sOut) (normal (q + e)).toBig) := by
    rw [addBigintAt_eq _ _ _ _ hLengths, hOut₁, hTemp₁, h.added]
    rfl
  have hDivisor : Function.update s₁ (.inr sOut) (normal (q + e)).toBig (.inr sIn2) =
      s (.inr sIn2) := by
    rw [Function.update_of_ne (fun hSome => hNe (Sum.inr.inj hSome)), ← hShift,
      Function.update_of_ne Sum.inr_ne_inl]
  rw [hAddAt, ok_bind, hDivisor, Function.update_of_ne Sum.inl_ne_inr, hTemp₁,
    hN.mulBigint_left_eq, h.product, ok_bind]
  generalize hLocals : Function.update (Function.update s₁ (.inr sOut) _) (.inl .sTemp3)
    (normal (n.value * e)).toBig = s₂
  have hTemp₂ : s₂ (.inl .sTemp3) = (normal (n.value * e)).toBig := by
    rw [← hLocals, Function.update_self]
  have hRest₂ : s₂ (.inl .sTemp1) = s (.inl .sTemp1) := by
    rw [← hLocals, Function.update_of_ne (by simp), Function.update_of_ne (by simp), ← hShift,
      Function.update_of_ne (by simp)]
  have hOut₂ : s₂ (.inr sOut) = (normal (q + e)).toBig := by
    rw [← hLocals, Function.update_of_ne Sum.inr_ne_inl, Function.update_self]
  have hSubAt : subBigintAt (.inl .sTemp1) (.inl .sTemp1) (.inl .sTemp3) s₂ =
      .ok (Function.update s₂ (.inl .sTemp1) (normal (v - n.value * e)).toBig) := by
    rw [subBigintAt_eq _ _ _ _ (by rw [hRest₂]; exact hX.iLength32_eq.trans_le hX.length_le),
      hRest₂, hTemp₂, hX.subBigint_left_eq, h.taken]
    rfl
  rw [hSubAt, ok_bind]
  refine ⟨_, rfl, ?_, ?_, Function.update_self _ _ _, ?_⟩
  · rw [Function.update_of_ne Sum.inr_ne_inl, hOut₂, Function.update_self]
    rfl
  · rw [Function.update_of_ne Sum.inr_ne_inl, hOut₂]
  · intro r hr
    rw [Function.update_of_ne Sum.inr_ne_inl, ← hLocals, Function.update_of_ne Sum.inr_ne_inl,
      Function.update_of_ne (fun hSome => hr (Sum.inr.inj hSome)), ← hShift,
      Function.update_of_ne Sum.inr_ne_inl]

/-- One pass of `Div_bigint` on a remainder that is not below the divisor. -/
theorem divPassAt_spec {q : Nat} (hNe : sIn2 ≠ sOut) (hQ : s (.inr sOut) = (normal q).toBig)
    (hX : (s (.inl .sTemp1)).Holds (normal v)) (hN : (s (.inr sIn2)).Holds n.toNumeral)
    (hLong : limbBase ≤ n.value) (hTotal : n.value * q + v < limbBase ^ bigintMaxlen)
    (hLe : n.value ≤ v) :
    ∃ (q' w : Nat) (done : Bool) (s' : Objects (Temp ⊕ ρ)) (estimates : List Estimated),
      divPassAt sOut sIn2 s = .ok (s', done, estimates) ∧
        divPass (s (.inr sIn2)) (s (.inr sOut)) (s (.inl .sTemp1)) =
            .ok (s' (.inr sOut), s' (.inl .sTemp1), done) ∧
          s' (.inr sOut) = (normal q').toBig ∧
            (done = false → s' (.inl .sTemp1) = (normal w).toBig) ∧
              (∀ r, r ≠ sOut → s' (.inr r) = s (.inr r)) ∧ Progress n q v q' w done ∧
                ∀ e ∈ estimates, e.Sound := by
  by_cases hBreak : (normal v).limbFromTop 1 = n.limbFromTop 1 ∧ (normal v).length - n.length = 0
  · obtain ⟨s', hRun, hPass, hOut, hKept, hProgress⟩ :=
      divPassAt_break hQ hX hN hLong hTotal hLe hBreak.1 hBreak.2
    exact ⟨q + 1, v - n.value, true, s', [], hRun, hPass, hOut, (fun hDone => nomatch hDone),
      hKept, hProgress, fun e he => absurd he List.not_mem_nil⟩
  · obtain ⟨d, len, e, hMultiple⟩ := exists_multiple hX.length_le hLong hTotal hLe hBreak
    obtain ⟨s', hRun, hPass, hOut, hRest, hKept⟩ :=
      divPassAt_multiple hNe hQ hX hN hMultiple hBreak
    refine ⟨q + e, v - n.value * e, false, s', _, hRun, hPass, hOut, fun _ => hRest, hKept,
      hMultiple.progress, ?_⟩
    intro est hEst
    obtain rfl := List.mem_singleton.mp hEst
    constructor
    · exact hMultiple.pos
    · exact d.toNat_lt
    · change (normal (n.value * e)).toBig.numeral.value ≤ (s (.inl .sTemp1)).numeral.value
      rw [(Numeral.holds_toBig hMultiple.productLength).numeral_eq, hX.numeral_eq]
      exact hMultiple.product_le

/-- The loop of `Div_bigint` ends with the quotient. -/
theorem divLoopAt_spec {q : Nat} {fuel : Nat} (hNe : sIn2 ≠ sOut) (hFuel : v < fuel)
    (hQ : s (.inr sOut) = (normal q).toBig) (hX : (s (.inl .sTemp1)).Holds (normal v))
    (hN : (s (.inr sIn2)).Holds n.toNumeral) (hLong : limbBase ≤ n.value)
    (hTotal : n.value * q + v < limbBase ^ bigintMaxlen) :
    ∃ (s' : Objects (Temp ⊕ ρ)) (estimates : List Estimated),
      divLoopAt sOut sIn2 fuel s = .ok (s', estimates) ∧
        divLoop (s (.inr sIn2)) fuel (s (.inr sOut)) (s (.inl .sTemp1)) = .ok (s' (.inr sOut)) ∧
          s' (.inr sOut) = (normal (q + v / n.value)).toBig ∧
            (∀ r, r ≠ sOut → s' (.inr r) = s (.inr r)) ∧ ∀ e ∈ estimates, e.Sound := by
  induction fuel generalizing q v s with
  | zero => exact absurd hFuel (Nat.not_lt_zero v)
  | succ fuel ih =>
      obtain ⟨order, hCmp, hOrder⟩ := cmp_normal_modulus hX hN
      rw [divLoopAt, divLoop, hCmp, ok_bind, ok_bind]
      by_cases hLess : v < n.value
      · rw [if_pos (hOrder.mpr hLess), if_pos (hOrder.mpr hLess), Nat.div_eq_of_lt hLess,
          Nat.add_zero]
        exact ⟨s, [], rfl, rfl, hQ, fun _ _ => rfl, fun e he => absurd he List.not_mem_nil⟩
      · obtain ⟨q', w, done, s', estimates, hRun, hPass, hOut, hRest, hKept, hProgress, hSound⟩ :=
          divPassAt_spec hNe hQ hX hN hLong hTotal (Nat.not_lt.mp hLess)
        have hSame : q' + w / n.value = q + v / n.value := by
          rw [← Nat.mul_add_div n.value_pos, ← Nat.mul_add_div n.value_pos, hProgress.total]
        have hNotLess : ¬order < 0 := fun h => hLess (hOrder.mp h)
        rw [if_neg hNotLess, if_neg hNotLess, hRun, hPass, ok_bind, ok_bind, ← hSame]
        dsimp only
        cases done with
        | true =>
            rw [Nat.div_eq_of_lt (hProgress.lt_of_done rfl), Nat.add_zero]
            exact ⟨s', estimates, rfl, rfl, hOut, hKept, hSound⟩
        | false =>
            have hLessW := hProgress.lt
            have hHolds : (s' (.inl .sTemp1)).Holds (normal w) := by
              rw [hRest rfl]
              apply Numeral.holds_toBig
              have hShort := Numeral.length_normal_le (Numeral.length_normal_pos v)
                (hLessW.trans (normal v).bounded)
              exact hShort.trans hX.length_le
            obtain ⟨s'', later, hLoop, hQuotient, hOut', hKept', hSound'⟩ :=
              ih (by omega) hOut hHolds (by rwa [hKept sIn2 hNe])
                (by rwa [hProgress.total])
            rw [hKept sIn2 hNe] at hQuotient
            rw [if_neg Bool.false_ne_true, if_neg Bool.false_ne_true, hLoop]
            refine ⟨s'', estimates ++ later, rfl, hQuotient, hOut', ?_, ?_⟩
            · intro r hr
              rw [hKept' r hr, hKept r hr]
            · intro e he
              exact (List.mem_append.mp he).elim (hSound e) (hSound' e)

end Passes

section Results

variable {ρ : Type} [DecidableEq ρ] {sOut sIn sIn2 : ρ} {s : Objects ρ} {v : Nat} {n : Modulus}

/-- Each pass makes the number smaller, so that there are fewer passes than
states. -/
theorem fuel_suffices {x : SBigInt} (hX : x.Holds (normal v)) : v < bigintStates + 1 := by
  have hBound : v < limbBase ^ bigintMaxlen := Numeral.value_lt_of_length_le hX.length_le
  have hStates := Numeral.limbBase_pow_le_bigintStates
  generalize bigintStates = states at hStates ⊢
  omega

/-- The remainder is computed in place, and every estimate on the way is one
that can be subtracted. By induction on what is left. -/
theorem modBigintAt_spec (uninit : Temp → SBigInt) (hNe : sIn2 ≠ sOut)
    (hX : (s sIn).Holds (normal v)) (hN : (s sIn2).Holds n.toNumeral) :
    ∃ (s' : Objects ρ) (estimates : List Estimated),
      modBigintAt uninit sOut sIn sIn2 s = .ok (s', estimates) ∧
        modBigint (s sIn) (s sIn2) = .ok (s' sOut) ∧
          (s' sOut).Holds (normal (v % n.value)) ∧ (∀ r, r ≠ sOut → s' r = s r) ∧
            ∀ e ∈ estimates, e.Sound := by
  have hCopy : Sum.elim uninit (Function.update s sOut (s sIn)) (.inr sOut) = s sIn :=
    Function.update_self _ _ _
  have hOthers (r : ρ) (hr : r ≠ sOut) :
      Sum.elim uninit (Function.update s sOut (s sIn)) (.inr r) = s r :=
    Function.update_of_ne hr _ _
  obtain ⟨s', estimates, hLoop, hResult, hRest, hKept, hSound⟩ :=
    modLoopAt_spec (s := Sum.elim uninit (Function.update s sOut (s sIn))) hNe (fuel_suffices hX)
      (by rwa [hCopy]) (by rwa [hOthers sIn2 hNe])
  rw [hCopy, hOthers sIn2 hNe] at hResult
  unfold modBigintAt modBigint
  dsimp only
  rw [hLoop]
  refine ⟨_, estimates, rfl, hResult, hRest, ?_, hSound⟩
  intro r hr
  exact (hKept r hr).trans (hOthers r hr)

/-- The quotient is the sum of the estimates, and what is left is the
remainder. -/
theorem divBigintAt_spec (uninit : Temp → SBigInt) (hNe : sIn2 ≠ sOut)
    (hX : (s sIn).Holds (normal v)) (hN : (s sIn2).Holds n.toNumeral) :
    ∃ (s' : Objects ρ) (estimates : List Estimated),
      divBigintAt uninit sOut sIn sIn2 s = .ok (s', estimates) ∧
        divBigint (s sOut) (s sIn) (s sIn2) = .ok (s' sOut) ∧
          (s' sOut).Holds (normal (v / n.value)) ∧
            (limbBase ≤ n.value → s' sOut = (normal (v / n.value)).toBig) ∧
              (∀ r, r ≠ sOut → s' r = s r) ∧ ∀ e ∈ estimates, e.Sound := by
  have hx := hX.length_le
  unfold divBigintAt divBigint
  by_cases hOne : (s sIn2).iLength32 = 1
  · have hSingle : n.length = 1 := hN.iLength32_eq.symm.trans hOne
    have hBound : n.value < limbBase := by
      have hBounded := n.bounded
      rwa [hSingle, Nat.pow_one] at hBounded
    have hLimb : (UInt32.ofNat n.value).toNat = n.value := UInt32.toNat_ofNat_of_lt' hBound
    have hLow : (s sIn2).limb 0 = .ok (UInt32.ofNat n.value) :=
      (hN.low_eq n.length_pos).trans (low_toBig n.toNumeral)
    obtain ⟨quotient, hDiv, hHolds⟩ := divLong_normal (s sOut) (d := UInt32.ofNat n.value)
      (by rw [hLimb]; exact n.value_pos.ne') hx
    rw [hLimb] at hDiv hHolds
    rw [← hX.divLong_eq (Numeral.length_normal_pos v)] at hDiv
    have hLowEq : (s sIn2).low = .ok (UInt32.ofNat n.value) := hLow
    rw [if_pos hOne, if_pos hOne, hLow, hLowEq, ok_bind, ok_bind, hLimb,
      divLongAt_eq _ _ _ _ (hX.iLength32_eq.trans_le hx), hDiv]
    refine ⟨_, [], rfl, ?_, ?_, ?_, ?_, fun e he => absurd he List.not_mem_nil⟩
    · rw [Function.update_self]
    · rwa [Function.update_self]
    · intro hLong
      exact absurd hBound (Nat.not_lt.mpr hLong)
    · intro r hr
      exact Function.update_of_ne hr _ _
  · have hLong : limbBase ≤ n.value := by
      have hLength : n.length ≠ 1 := fun h => hOne (hN.iLength32_eq.trans h)
      have hSome := n.length_pos
      exact (Nat.le_self_pow (by omega) limbBase).trans n.top_ne_zero
    have hv : n.value * 0 + v < limbBase ^ bigintMaxlen := by
      rw [Nat.mul_zero, Nat.zero_add]
      exact Numeral.value_lt_of_length_le hx
    rw [if_neg hOne, if_neg hOne, Numeral.movLong_zero, ok_bind, ok_bind]
    generalize hStart : Function.update (Function.update (Sum.elim uninit s) (.inl .sTemp1) _)
      (.inr sOut) (normal 0).toBig = start
    have hOut : start (.inr sOut) = (normal 0).toBig := by
      rw [← hStart, Function.update_self]
    have hRest : start (.inl .sTemp1) = s sIn := by
      rw [← hStart, Function.update_of_ne Sum.inl_ne_inr, Function.update_self]
      rfl
    have hOthers (r : ρ) (hr : r ≠ sOut) : start (.inr r) = s r := by
      rw [← hStart, Function.update_of_ne (fun hSome => hr (Sum.inr.inj hSome)),
        Function.update_of_ne Sum.inr_ne_inl]
      rfl
    obtain ⟨s', estimates, hLoop, hResult, hQuotient, hKept, hSound⟩ :=
      divLoopAt_spec hNe (fuel_suffices hX) hOut (by rwa [hRest]) (by rwa [hOthers sIn2 hNe]) hLong
        hv
    rw [Nat.zero_add] at hQuotient
    rw [hOthers sIn2 hNe, hOut, hRest] at hResult
    dsimp only
    rw [hLoop]
    refine ⟨_, estimates, rfl, hResult, ?_, fun _ => hQuotient, ?_, hSound⟩
    · dsimp only
      rw [hQuotient]
      apply Numeral.holds_toBig
      have hShort := Numeral.length_normal_le (Numeral.length_normal_pos v)
        ((Nat.div_le_self v n.value).trans_lt (normal v).bounded)
      exact hShort.trans hx
    · intro r hr
      exact (hKept r hr).trans (hOthers r hr)

/-- The remainder, with an output that is no operand. -/
theorem modBigint_spec {x y : SBigInt} (hX : x.Holds (normal v)) (hN : y.Holds n.toNumeral) :
    ∃ rest, modBigint x y = .ok rest ∧ rest.Holds (normal (v % n.value)) := by
  let s : Objects Bool := fun r => if r then x else y
  have hX' : (s true).Holds (normal v) := hX
  have hN' : (s false).Holds n.toNumeral := hN
  obtain ⟨s', -, -, hMod, hHolds, -⟩ :=
    modBigintAt_spec (fun _ => x) (show false ≠ true by decide) hX' hN'
  exact ⟨s' true, hMod, hHolds⟩

/-- The quotient, with an output that is no operand. -/
theorem divBigint_spec (sOut : SBigInt) {x y : SBigInt} (hX : x.Holds (normal v))
    (hN : y.Holds n.toNumeral) :
    ∃ quotient, divBigint sOut x y = .ok quotient ∧ quotient.Holds (normal (v / n.value)) ∧
      (limbBase ≤ n.value → quotient = (normal (v / n.value)).toBig) := by
  let s : Objects Temp := fun
    | .sTemp1 => sOut
    | .sTemp2 => x
    | .sTemp3 => y
  have hX' : (s .sTemp2).Holds (normal v) := hX
  have hN' : (s .sTemp3).Holds n.toNumeral := hN
  obtain ⟨s', -, -, hDiv, hHolds, hNormal, -⟩ :=
    divBigintAt_spec (fun _ => sOut) (show Temp.sTemp3 ≠ .sTemp1 by decide) hX' hN'
  exact ⟨s' .sTemp1, hDiv, hHolds, hNormal⟩

end Results

/-- Both calls end, also with the dividend as the output, and give quotient
and remainder. Every estimate fits a limb, and no product is above the
remainder that it is taken from. -/
theorem division_with_remainder {ρ : Type} [DecidableEq ρ] (uninit : Temp → SBigInt)
    {sOut sIn sIn2 : ρ} (s : Objects ρ) (hDividend : (s sIn).Normalised)
    (hDivisor : (s sIn2).Normalised) (hPos : 0 < (s sIn2).limbValue) (hNe : sOut ≠ sIn2) :
    ∃ (quotients rests : Objects ρ) (divEstimates modEstimates : List Estimated),
      divBigintAt uninit sOut sIn sIn2 s = .ok (quotients, divEstimates) ∧
        modBigintAt uninit sOut sIn sIn2 s = .ok (rests, modEstimates) ∧
          (s sIn).limbValue =
            (quotients sOut).limbValue * (s sIn2).limbValue + (rests sOut).limbValue ∧
          (rests sOut).limbValue < (s sIn2).limbValue ∧
            (∀ r, r ≠ sOut → quotients r = s r ∧ rests r = s r) ∧
              ∀ e ∈ divEstimates ++ modEstimates, e.Sound := by
  have hN : (s sIn2).Holds (Numeral.modulus hPos).toNumeral := hDivisor.holds
  obtain ⟨quotients, divEstimates, hDiv, -, hQuotient, -, hDivKept, hDivSound⟩ :=
    divBigintAt_spec uninit hNe.symm hDividend.holds hN
  obtain ⟨rests, modEstimates, hMod, -, hRest, hModKept, hModSound⟩ :=
    modBigintAt_spec uninit hNe.symm hDividend.holds hN
  have hModulus : (Numeral.modulus hPos).value = (s sIn2).limbValue := rfl
  have hQuotientValue : (quotients sOut).limbValue = (s sIn).limbValue / (s sIn2).limbValue := by
    rw [SBigInt.limbValue, hQuotient.numeral_eq, Numeral.value_normal, hModulus]
  have hRestValue : (rests sOut).limbValue = (s sIn).limbValue % (s sIn2).limbValue := by
    rw [SBigInt.limbValue, hRest.numeral_eq, Numeral.value_normal, hModulus]
  refine ⟨quotients, rests, divEstimates, modEstimates, hDiv, hMod, ?_, ?_, ?_, ?_⟩
  · rw [hQuotientValue, hRestValue, Nat.mul_comm, Nat.div_add_mod]
  · rw [hRestValue]
    exact Nat.mod_lt _ hPos
  · intro r hr
    exact ⟨hDivKept r hr, hModKept r hr⟩
  · intro e he
    exact (List.mem_append.mp he).elim (hDivSound e) (hModSound e)

/-- A division of a number of two limbs by one of two limbs, over the
dividend. -/
theorem division_over_dividend :
    let s : Objects Bool := fun r => (normal (if r then 5 * limbBase + 3 else 2 * limbBase + 1)).toBig
    ∃ (quotients rests : Objects Bool) (divEstimates modEstimates : List Estimated),
      divBigintAt (fun _ => rsaInitialize) true true false s = .ok (quotients, divEstimates) ∧
        modBigintAt (fun _ => rsaInitialize) true true false s = .ok (rests, modEstimates) ∧
          (quotients true).limbValue = 2 ∧ (rests true).limbValue = limbBase + 1 := by
  intro s
  have hDividend : (s true).Holds (normal (5 * limbBase + 3)) :=
    Numeral.holds_toBig (Numeral.length_normal_le (by decide) (by decide))
  have hDivisor : (s false).Holds (normal (2 * limbBase + 1)) :=
    Numeral.holds_toBig (Numeral.length_normal_le (by decide) (by decide))
  have hDividendValue : (s true).limbValue = 5 * limbBase + 3 :=
    congrArg Numeral.value hDividend.numeral_eq
  have hDivisorValue : (s false).limbValue = 2 * limbBase + 1 :=
    congrArg Numeral.value hDivisor.numeral_eq
  obtain ⟨quotients, rests, divEstimates, modEstimates, hDiv, hMod, hTotal, hLess, -⟩ :=
    division_with_remainder (fun _ => rsaInitialize) s hDividend.normalised hDivisor.normalised
      (by rw [hDivisorValue]; exact Nat.succ_pos _) (show true ≠ false by decide)
  rw [hDividendValue, hDivisorValue] at hTotal
  rw [hDivisorValue] at hLess
  simp only [limbBase] at hTotal hLess ⊢
  exact ⟨quotients, rests, divEstimates, modEstimates, hDiv, hMod, by omega, by omega⟩

end SignImage
