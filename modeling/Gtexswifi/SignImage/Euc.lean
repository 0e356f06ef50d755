import Gtexswifi.Library.Euclid
import Gtexswifi.SignImage.DivisionWithRemainder
import Gtexswifi.SignImage.Exponentiation

/-! `Euc`: the inverse of a number modulo another one by the Euclidean
algorithm, with the magnitudes of the cofactors and their signs in separate
variables. -/
namespace SignImage

open Radix

/-- The variables of `Euc` that keep their values from one pass to the next.
The signs `x` and `y` are 1 for plus. -/
structure EucState where
  sTemp1 : SBigInt
  sTemp2 : SBigInt
  sTemp3 : SBigInt
  sTemp4 : SBigInt
  sTemp5 : SBigInt
  x : Nat
  y : Nat

/-- The new cofactor from the product of the old one, with the signs. -/
def eucCofactor (sTemp3 sTemp4 : SBigInt) (x y : Nat) : Except Fault (SBigInt × Nat × Nat) := do
  if x = y then
    if 0 ≤ (← cmp sTemp3 sTemp4) then return (← subBigint sTemp3 sTemp4, x, y)
    else return (← subBigint sTemp4 sTemp3, x, 0)
  else return (← addBigint sTemp4 sTemp3, 1 - x, 1 - y)

def eucPass (st : EucState) : Except Fault EucState := do
  let sTemp5 ← divBigint st.sTemp5 st.sTemp1 st.sTemp2
  let sTemp6 ← modBigint st.sTemp1 st.sTemp2
  let sOut ← mulBigint st.sTemp4 sTemp5
  let (sTemp4, x, y) ← eucCofactor st.sTemp3 sOut st.x st.y
  return ⟨st.sTemp2, sTemp6, st.sTemp4, sTemp4, sTemp5, x, y⟩

/-- The loop of `Euc`, at most `fuel` passes. -/
def eucLoop : Nat → EucState → Except Fault EucState
  | 0, _ => .error .endless
  | fuel + 1, st => do
      if st.sTemp2.iLength32 = 1 ∧ (← st.sTemp2.low) = 0 then return st
      else eucLoop fuel (← eucPass st)

/-- The two remainders decide how the loop goes on, so that it never ends
after more passes than they have states. What `sTemp5` holds before the
first division is left open. -/
def euc (uninit sIn sN : SBigInt) : Except Fault SBigInt := do
  let zero ← movLong 0
  let one ← movLong 1
  let st ← eucLoop (bigintStates * bigintStates + 1) ⟨sN, sIn, zero, one, uninit, 1, 1⟩
  if st.x = 0 then subBigint sN st.sTemp3 else return st.sTemp3

namespace Numeral

/-- Numbers of at most 64 limbs leave room for a carry. -/
theorem length_normal_le_max {v m : Nat} (h : v ≤ m) (hm : m < limbBase ^ maxModulusLength) :
    (normal v).length ≤ maxModulusLength :=
  length_normal_le (by decide) (h.trans_lt hm)

end Numeral

open Numeral (normal)

variable {m d : Nat}

/-- The variables hold the remainders and the magnitudes of the cofactors. -/
structure Represents (st : EucState) (z : Euclid.State m d) : Prop where
  sTemp1 : st.sTemp1.Holds (normal z.a)
  sTemp2 : st.sTemp2.Holds (normal z.b)
  sTemp3 : st.sTemp3 = (normal z.u).toBig
  sTemp4 : st.sTemp4 = (normal z.v).toBig

/-- The first cofactor has the sign `x`, and the second one the other sign. -/
def SignsOf (z : Euclid.State m d) (x y : Nat) : Prop :=
  x = (if z.positive then 1 else 0) ∧ y = 1 - x

/-- Before the first division the cofactors are 0 and 1, and both signs are
plus. -/
def StartSigns (z : Euclid.State m d) (x y : Nat) : Prop :=
  z.u = 0 ∧ z.positive = false ∧ x = 1 ∧ y = 1

/-- The coefficients of the next step stay at most the modulus, so that the
sum that the code forms fits. -/
theorem next_v_le (z : Euclid.State m d) (h : z.b ≠ 0) : z.u + z.v * (z.a / z.b) ≤ m := by
  have hTotal := (z.next h).total
  have hLess := (z.next h).lt
  calc
    z.u + z.v * (z.a / z.b) ≤ (z.u + z.v * (z.a / z.b)) * z.b :=
      Nat.le_mul_of_pos_right _ (Nat.pos_of_ne_zero h)
    _ ≤ m := by
      change _ + (z.u + z.v * (z.a / z.b)) * z.b = m at hTotal
      omega

/-- The cofactors have other signs from the first division on, so that their
magnitudes add up. -/
theorem eucCofactor_next {z : Euclid.State m d} {x y : Nat}
    (hm : m < limbBase ^ Numeral.maxModulusLength) (h : z.b ≠ 0)
    (hSigns : SignsOf z x y ∨ StartSigns z x y) :
    ∃ x' y', eucCofactor (normal z.u).toBig (normal (z.v * (z.a / z.b))).toBig x y =
      .ok ((normal (z.next h).v).toBig, x', y') ∧ SignsOf (z.next h) x' y' := by
  have hBound := next_v_le z h
  have hPos : 0 < z.v * (z.a / z.b) :=
    Nat.mul_pos z.v_pos (Nat.div_pos z.lt.le (Nat.pos_of_ne_zero h))
  have hProduct := Numeral.length_normal_le_max (show z.v * (z.a / z.b) ≤ m by omega) hm
  have hu := Numeral.length_normal_le_max (show z.u ≤ m by omega) hm
  have hMax : Numeral.maxModulusLength < bigintMaxlen := by decide
  unfold eucCofactor
  rcases hSigns with ⟨hx, hy⟩ | ⟨hNone, hPositive, rfl, rfl⟩
  · have hOther : ¬x = y := by
      rw [hy, hx]
      split <;> decide
    refine ⟨1 - x, 1 - y, ?_, ?_⟩
    · rw [if_neg hOther, Numeral.addBigint_toBig (by omega), ok_bind, Numeral.add_normal hPos,
        Nat.add_comm]
      rfl
    · constructor
      · rw [hx]
        change _ = if (!z.positive) = true then 1 else 0
        cases z.positive <;> rfl
      · rw [hy]
  · refine ⟨1, 0, ?_, ?_⟩
    · have hCmp : cmp (normal z.u).toBig (normal (z.v * (z.a / z.b))).toBig = .ok (-1) := by
        rw [Numeral.cmp_toBig (by omega), Numeral.cmp_normal_neg (by omega)]
      have hOther : (normal (z.v * (z.a / z.b))).cmp (normal z.u) = 1 :=
        Numeral.cmp_normal (by omega)
      rw [if_pos rfl, hCmp, ok_bind, if_neg (by decide),
        Numeral.subBigint_toBig (by omega) (by omega) (by rw [hNone]; exact Nat.zero_le _),
        Numeral.value_normal, Numeral.value_normal, if_neg (by omega), hNone, Nat.sub_zero]
      change Except.ok ((normal (z.v * (z.a / z.b))).toBig, 1, 0) =
        .ok ((normal (z.u + z.v * (z.a / z.b))).toBig, 1, 0)
      rw [hNone, Nat.zero_add]
    · constructor
      · change 1 = if (!z.positive) = true then 1 else 0
        rw [hPositive]
        rfl
      · rfl

/-- One pass is one division with remainder. -/
theorem eucPass_next {z : Euclid.State m d} {st : EucState}
    (hm : m < limbBase ^ Numeral.maxModulusLength) (h : z.b ≠ 0) (hRep : Represents st z)
    (hSigns : SignsOf z st.x st.y ∨ StartSigns z st.x st.y) :
    ∃ st', eucPass st = .ok st' ∧ Represents st' (z.next h) ∧ SignsOf (z.next h) st'.x st'.y := by
  have hPos := Nat.pos_of_ne_zero h
  have hBound := next_v_le z h
  have hMax : Numeral.maxModulusLength < bigintMaxlen := by decide
  have ha : z.a ≤ m := by
    have hTotal := z.total
    have hv := Nat.le_mul_of_pos_left z.a z.v_pos
    omega
  have hN : st.sTemp2.Holds (Numeral.modulus hPos).toNumeral := hRep.sTemp2
  obtain ⟨quotient, hQuotient, hHolds, -⟩ := divBigint_spec st.sTemp5 hRep.sTemp1 hN
  obtain ⟨rest, hMod, hRest⟩ := modBigint_spec hRep.sTemp1 hN
  have hMul : mulBigint (normal z.v).toBig quotient = .ok (normal (z.v * (z.a / z.b))).toBig := by
    have hProduct := Numeral.mul_normal z.v_pos (Nat.div_pos z.lt.le hPos)
    have hProductLength :=
      Numeral.length_normal_le_max (show z.v * (z.a / z.b) ≤ m by omega) hm
    have hHolds' : quotient.Holds (normal (z.a / z.b)) := hHolds
    rw [hHolds'.mulBigint_right_eq, Numeral.mulBigint_toBig (Numeral.length_normal_pos _)
      (Numeral.length_normal_pos _) (by rw [hProduct]; omega), hProduct]
  obtain ⟨x', y', hCofactor, hNext⟩ := eucCofactor_next hm h hSigns
  refine ⟨⟨st.sTemp2, rest, (normal z.v).toBig, (normal (z.next h).v).toBig, quotient, x', y'⟩, ?_,
    ⟨hRep.sTemp2, hRest, rfl, rfl⟩, hNext⟩
  rw [eucPass, hQuotient, ok_bind, hMod, ok_bind, hRep.sTemp4, hMul, ok_bind, hRep.sTemp3,
    hCofactor]
  rfl

/-- The test of the loop: one limb, and that one zero. -/
theorem eucLoop_succ {z : Euclid.State m d} {st : EucState} (fuel : Nat) (hRep : Represents st z) :
    eucLoop (fuel + 1) st =
      if z.b = 0 then .ok st else (do eucLoop fuel (← eucPass st)) := by
  have hLow : st.sTemp2.low = .ok (UInt32.ofNat z.b) := by
    rw [hRep.sTemp2.low_eq (Numeral.length_normal_pos z.b), low_toBig, Numeral.value_normal]
  rw [eucLoop, hLow, ok_bind, hRep.sTemp2.iLength32_eq]
  by_cases h : z.b = 0
  · rw [if_pos ⟨by rw [h]; rfl, by rw [h]; rfl⟩, if_pos h]
    rfl
  · rw [if_neg, if_neg h]
    intro hTest
    obtain ⟨hLength, hZero⟩ := hTest
    have hBound := (normal z.b).bounded
    rw [hLength, Nat.pow_one] at hBound
    have hLimb : (UInt32.ofNat z.b).toNat = z.b := UInt32.toNat_ofNat_of_lt' hBound
    rw [hZero] at hLimb
    exact h hLimb.symm

/-- The loop runs to the remainder zero. -/
theorem eucLoop_run {z : Euclid.State m d} {st : EucState} {fuel : Nat}
    (hm : m < limbBase ^ Numeral.maxModulusLength) (hFuel : z.b < fuel) (hRep : Represents st z)
    (hSigns : SignsOf z st.x st.y) :
    ∃ st', eucLoop fuel st = .ok st' ∧ Represents st' z.run ∧ SignsOf z.run st'.x st'.y := by
  induction fuel generalizing z st with
  | zero => exact absurd hFuel (Nat.not_lt_zero _)
  | succ fuel ih =>
      rw [eucLoop_succ fuel hRep]
      by_cases h : z.b = 0
      · rw [if_pos h, z.run_of_eq_zero h]
        exact ⟨st, rfl, hRep, hSigns⟩
      · obtain ⟨st', hPass, hRep', hSigns'⟩ := eucPass_next hm h hRep (Or.inl hSigns)
        have hLess : (z.next h).b < z.b := Nat.mod_lt _ (Nat.pos_of_ne_zero h)
        rw [if_neg h, hPass, ok_bind, z.run_next h]
        exact ih (by omega) hRep' hSigns'

/-- `Euc` computes what the algorithm gives for the inverse. -/
theorem euc_holds (uninit : SBigInt) {sIn sN : SBigInt} (hPos : 0 < d) (hLess : d < m)
    (hm : m < limbBase ^ Numeral.maxModulusLength) (hIn : sIn.Holds (normal d))
    (hN : sN.Holds (normal m)) :
    euc uninit sIn sN = .ok (normal (Euclid.inverse hLess)).toBig := by
  have hOne : movLong 1 = .ok (normal 1).toBig := by
    rw [show normal 1 = Numeral.ofLimbs [1] from
      (Numeral.eq_normal (x := Numeral.ofLimbs [1]) Nat.one_pos (Nat.le_refl 1)).symm]
    exact Numeral.movLong_limb 1
  have hStart : Represents ⟨sN, sIn, (normal 0).toBig, (normal 1).toBig, uninit, 1, 1⟩
      (Euclid.State.start hLess) := ⟨hN, hIn, rfl, rfl⟩
  have hNonzero : (Euclid.State.start hLess).b ≠ 0 := hPos.ne'
  obtain ⟨st, hPass, hRep, hSigns⟩ := eucPass_next hm hNonzero hStart
    (Or.inr ⟨rfl, rfl, rfl, rfl⟩)
  have hNext : ((Euclid.State.start hLess).next hNonzero).b < d := Nat.mod_lt _ hPos
  have hFuel : ((Euclid.State.start hLess).next hNonzero).b < bigintStates * bigintStates := by
    have hStates : limbBase ^ Numeral.maxModulusLength ≤ bigintStates :=
      (Nat.pow_le_pow_right limbBase_pos (show Numeral.maxModulusLength ≤ bigintMaxlen by decide)).trans
        Numeral.limbBase_pow_le_bigintStates
    generalize bigintStates = states at hStates ⊢
    exact (hNext.trans (hLess.trans hm)).trans_le (hStates.trans (Nat.le_mul_self states))
  obtain ⟨st', hLoop, hRep', hSigns', -⟩ := eucLoop_run hm hFuel hRep hSigns
  rw [euc, Numeral.movLong_zero, ok_bind, hOne, ok_bind, eucLoop_succ _ hStart, if_neg hNonzero,
    hPass, ok_bind, hLoop, ok_bind, hRep'.sTemp3, hSigns', Euclid.inverse,
    Euclid.State.run_next hNonzero]
  generalize ((Euclid.State.start hLess).next hNonzero).run = z
  have hHalf := z.half
  have hMax : Numeral.maxModulusLength ≤ bigintMaxlen := by decide
  have hLength := (Numeral.length_normal_le_max (Nat.le_refl m) hm).trans hMax
  unfold Euclid.State.residue
  cases hPositive : z.positive
  · have hCmp : (normal m).cmp (normal z.u) = 1 := Numeral.cmp_normal (by omega)
    simp only [Bool.false_eq_true, if_false, if_true]
    rw [hN.subBigint_left_eq, Numeral.subBigint_toBig hLength (by omega) (show z.u ≤ m by omega),
      Numeral.value_normal, Numeral.value_normal, if_neg (by omega)]
  · rfl

/-- `Euc` gives the one inverse below the modulus. -/
theorem modular_inverse (uninit : SBigInt) {sIn sN : SBigInt} (hIn : sIn.Normalised)
    (hN : sN.Normalised) (hLength : sN.iLength32 ≤ 64) (hPos : 0 < sIn.limbValue)
    (hLess : sIn.limbValue < sN.limbValue) (hCoprime : Nat.gcd sIn.limbValue sN.limbValue = 1) :
    ∃ sOut, euc uninit sIn sN = .ok sOut ∧ (0 < sOut.limbValue ∧ sOut.limbValue < sN.limbValue ∧
      sIn.limbValue * sOut.limbValue ≡ 1 [MOD sN.limbValue]) ∧
        ∀ b, 0 < b → b < sN.limbValue → sIn.limbValue * b ≡ 1 [MOD sN.limbValue] →
          b = sOut.limbValue := by
  have hShort : (normal sN.limbValue).length ≤ Numeral.maxModulusLength := by
    rw [← hN.holds.iLength32_eq]
    exact hLength
  have hm : sN.limbValue < limbBase ^ Numeral.maxModulusLength :=
    Numeral.value_lt_of_length_le (x := normal sN.limbValue) hShort
  have hSwapped : Nat.gcd sN.limbValue sIn.limbValue = 1 := (Nat.gcd_comm _ _).trans hCoprime
  have hEuc := euc_holds uninit hPos hLess hm hIn.holds hN.holds
  have hInverse := Euclid.mul_inverse hLess hSwapped
  have hMax : (normal (Euclid.inverse hLess)).length ≤ bigintMaxlen :=
    (Numeral.length_normal_le_max (Euclid.inverse_le hLess) hm).trans (by decide)
  have hValue : (normal (Euclid.inverse hLess)).toBig.limbValue = Euclid.inverse hLess :=
    congrArg Numeral.value (Numeral.holds_toBig hMax).numeral_eq
  refine ⟨_, hEuc, ?_⟩
  rw [hValue]
  have hTwo : 1 < sN.limbValue := by omega
  have hBelow : Euclid.inverse hLess < sN.limbValue := by
    apply Nat.lt_of_le_of_ne (Euclid.inverse_le hLess)
    intro hSame
    rw [hSame, Nat.ModEq, Nat.mul_mod_left, Nat.mod_eq_of_lt hTwo] at hInverse
    cases hInverse
  have hPositive : 0 < Euclid.inverse hLess := by
    apply Nat.pos_of_ne_zero
    intro hNone
    rw [hNone, Nat.mul_zero, Nat.ModEq, Nat.zero_mod, Nat.mod_eq_of_lt hTwo] at hInverse
    cases hInverse
  refine ⟨⟨hPositive, hBelow, hInverse⟩, ?_⟩
  intro b _ hb hOther
  have hSame : b ≡ Euclid.inverse hLess [MOD sN.limbValue] :=
    Nat.ModEq.cancel_left_of_coprime hSwapped (hOther.trans hInverse.symm)
  rwa [Nat.ModEq, Nat.mod_eq_of_lt hb, Nat.mod_eq_of_lt hBelow] at hSame

/-- Three times five is one more than twice seven. -/
theorem modular_inverse_seven :
    ∃ sOut, euc rsaInitialize (normal 3).toBig (normal 7).toBig = .ok sOut ∧ sOut.limbValue = 5 := by
  obtain ⟨hIn, hInValue, -⟩ := normalForm_small (v := 3) (by decide)
  obtain ⟨hN, hNValue, hOne⟩ := normalForm_small (v := 7) (by decide)
  obtain ⟨sOut, hEuc, -, hUnique⟩ := modular_inverse rsaInitialize hIn.toNormalised
    hN.toNormalised (hOne.trans_le (by decide)) (by rw [hInValue]; decide)
    (by rw [hInValue, hNValue]; decide) (by rw [hInValue, hNValue]; decide)
  rw [hInValue, hNValue] at hUnique
  exact ⟨sOut, hEuc, (hUnique 5 (by decide) (by decide) (by decide)).symm⟩

end SignImage
