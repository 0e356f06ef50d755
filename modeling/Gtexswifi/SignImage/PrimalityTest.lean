import Gtexswifi.Library.Exponents
import Gtexswifi.SignImage.GeneratedKeys
import Gtexswifi.SignImage.NormalResults

/-! `Rab` never rejects a prime that leaves one limb of the array free.
Every halving brings the power of the base to a square root of one, and a
prime has two of them. -/
namespace SignImage

open Radix
open Numeral (normal)

/-- The remainder by a small number, limb by limb from the top. By induction
on the limbs. -/
theorem modLimbs_eq {ulIn carry : Nat} (hIn : ulIn ≤ limbBase) (hCarry : carry < ulIn)
    (as : List UInt32) :
    modLimbs ulIn carry as = (carry * limbBase ^ as.length + value as.reverse) % ulIn := by
  induction as generalizing carry with
  | nil =>
      rw [modLimbs, List.length_nil, Nat.pow_zero, Nat.mul_one, List.reverse_nil, value_nil,
        Nat.add_zero, Nat.mod_eq_of_lt hCarry]
  | cons a as ih =>
      have hSum : a.toNat + carry * 2 ^ 32 < 2 ^ 64 := by
        have hLimb := a.toNat_lt
        unfold limbBase at hIn
        omega
      have hRest := Nat.mod_lt (a.toNat + carry * 2 ^ 32) (Nat.zero_lt_of_lt hCarry)
      rw [modLimbs, Nat.mod_eq_of_lt hSum, ih hRest, List.reverse_cons, value_append,
        value_singleton, toNat_uint32, List.length_reverse, base_uint32, List.length_cons]
      calc
        _ ≡ (a.toNat + carry * limbBase) * limbBase ^ as.length + value as.reverse [MOD ulIn] :=
          ((Nat.mod_modEq _ ulIn).mul_right _).add_right _
        _ = _ := by ring

/-- The remainder by a number of one limb. -/
theorem modLong_eq {x : SBigInt} {ulIn : Nat} (hx : x.NormalForm) (hLong : x.iLength32 ≠ 1)
    (hPos : 0 < ulIn) (hIn : ulIn ≤ limbBase) : modLong x ulIn = .ok (x.limbValue % ulIn) := by
  have hLimbs : x.limbs x.iLength32 = .ok (encode x.iLength32 x.limbValue) := by
    conv_lhs => rw [hx.eq_toBig]
    rw [hx.length_eq]
    exact Numeral.limbs_toBig _ hx.holds.length_le
  have hValue : value (encode x.iLength32 x.limbValue : List UInt32) = x.limbValue := by
    rw [hx.length_eq]
    exact (normal x.limbValue).value_limbs
  rw [modLong, if_neg hPos.ne', if_neg hLong, hLimbs, ok_bind, pure_eq_ok,
    modLimbs_eq hIn hPos, List.reverse_reverse, Nat.zero_mul, Nat.zero_add, hValue]

theorem primeTable_bounds : ∀ prime ∈ primeTable, 1 < prime ∧ prime < 4002 := by
  decide +kernel

theorem anyM_false {α : Type} {f : α → Except Fault Bool} {as : List α}
    (h : ∀ a ∈ as, f a = .ok false) : as.anyM f = .ok false := by
  induction as with
  | nil => rfl
  | cons a as ih =>
      rw [List.anyM, h a List.mem_cons_self, ok_bind]
      exact ih fun b hb => h b (List.mem_cons_of_mem a hb)

/-- A prime of two limbs or more is not in the table, and no number of the
table divides it. -/
theorem passes_primeTable {sIn : SBigInt} (hForm : sIn.NormalForm) (hLong : sIn.iLength32 ≠ 1)
    (hLarge : 4002 ≤ sIn.limbValue) (hPrime : sIn.limbValue.Prime) :
    (primeTable.anyM fun prime => do return (← modLong sIn prime) = 0) = .ok false := by
  apply anyM_false
  intro prime hTable
  obtain ⟨hTwo, hSmall⟩ := primeTable_bounds prime hTable
  have hRemainder : sIn.limbValue % prime ≠ 0 := by
    intro hZero
    rcases hPrime.eq_one_or_self_of_dvd prime (Nat.dvd_of_mod_eq_zero hZero) with hOne | hSame
    · omega
    · omega
  rw [modLong_eq hForm hLong (by omega) (hSmall.le.trans (by decide)), ok_bind, pure_eq_ok,
    decide_eq_false hRemainder]

theorem low_bit (v : Nat) : UInt32.ofNat v &&& 1 ≠ 0 ↔ v % 2 = 1 := by
  rw [ne_eq, ← UInt32.toNat_inj, UInt32.toNat_and, UInt32.toNat_ofNat', UInt32.toNat_one,
    Nat.and_one_is_mod, UInt32.toNat_zero]
  omega

/-- A limb moved down by one place, with the lowest bit of the next limb
above it. -/
theorem halved_limb (v : Nat) :
    (UInt32.ofNat v >>> 1 ||| if UInt32.ofNat (v / limbBase) &&& 1 ≠ 0 then 0x80000000 else 0) =
      UInt32.ofNat (v / 2) := by
  have hBit := low_bit (v / limbBase)
  have hLow : (UInt32.ofNat v >>> 1).toNat = v % 2 ^ 32 / 2 := by
    rw [UInt32.toNat_shiftRight, UInt32.toNat_ofNat', UInt32.toNat_one]
    exact Nat.shiftRight_one _
  have hLowLess : v % 2 ^ 32 / 2 < 2 ^ 31 := by omega
  apply UInt32.toNat_inj.mp
  rw [UInt32.toNat_or, hLow, UInt32.toNat_ofNat']
  by_cases hOdd : v / limbBase % 2 = 1
  · have hSum := Nat.two_pow_add_eq_or_of_lt hLowLess 1
    rw [if_pos (hBit.mpr hOdd)]
    change v % 2 ^ 32 / 2 ||| 2 ^ 31 = _
    rw [Nat.mul_one] at hSum
    rw [Nat.or_comm, ← hSum]
    rw [limbBase] at hOdd
    omega
  · rw [if_neg (hBit.not.mpr hOdd), UInt32.toNat_zero, Nat.or_zero]
    rw [limbBase] at hOdd
    omega

/-- The loop halves what the limbs stand for. -/
theorem halveLimbs_encode (length v : Nat) :
    halveLimbs (encode (length + 1) v) = encode length (v / 2) := by
  induction length generalizing v with
  | zero => rfl
  | succ length ih =>
      have hRest := ih (v / limbBase)
      have hQuotient : v / limbBase / 2 = v / 2 / limbBase := by
        rw [Nat.div_div_eq_div_mul, Nat.div_div_eq_div_mul, Nat.mul_comm]
      rw [encode_succ] at hRest
      rw [encode_succ, encode_succ, halveLimbs]
      change _ :: halveLimbs (Digit.ofNat (v / limbBase) :: _) = UInt32.ofNat (v / 2) :: _
      rw [base_uint32] at *
      rw [hRest, hQuotient]
      exact congrArg (· :: _) (halved_limb v)

/-- The top limb of a half, with the length that it leaves. -/
theorem length_half {v length : Nat} (h : 2 ≤ v) (hLength : (normal v).length = length + 1) :
    (normal (v / 2)).length =
      if UInt32.ofNat (v / 2 / limbBase ^ length) = 0 then length else length + 1 := by
  have hBound : v < limbBase ^ length * limbBase := by
    have hBound := (normal v).bounded
    rwa [hLength, Nat.pow_succ] at hBound
  have hLow : limbBase ^ length ≤ v := by
    have hLow := Numeral.pow_le_normal (v := v) (by omega)
    rwa [hLength, Nat.add_sub_cancel] at hLow
  have hTop : v / 2 / limbBase ^ length < limbBase := by
    apply Nat.div_lt_of_lt_mul
    exact (Nat.div_le_self v 2).trans_lt hBound
  have hLimb : UInt32.ofNat (v / 2 / limbBase ^ length) = 0 ↔ v / 2 < limbBase ^ length := by
    rw [← UInt32.toNat_inj, UInt32.toNat_ofNat_of_lt' hTop, UInt32.toNat_zero,
      Nat.div_eq_zero_iff_lt (Nat.pow_pos limbBase_pos)]
  by_cases hShort : v / 2 < limbBase ^ length
  · rw [if_pos (hLimb.mpr hShort)]
    cases length with
    | zero =>
        rw [Nat.pow_zero] at hShort
        omega
    | succ length =>
        apply Numeral.length_normal_eq _ hShort
        rw [Nat.pow_succ] at hLow
        have hBase : 2 * limbBase ^ length ≤ limbBase ^ length * limbBase := by
          rw [Nat.mul_comm]
          exact Nat.mul_le_mul_left _ (by decide)
        omega
  · rw [if_neg (hLimb.not.mpr hShort)]
    apply Numeral.length_normal_eq (Nat.le_of_not_lt hShort)
    exact (Nat.div_le_self v 2).trans_lt hBound

/-- A number that leaves the last limb of the array free is halved. -/
theorem halve_normal {v : Nat} (h : 2 ≤ v) (hFree : (normal v).length < bigintMaxlen) :
    (normal v).toBig.halve = .ok (normal (v / 2)).toBig := by
  obtain ⟨length, hLength⟩ : ∃ length, (normal v).length = length + 1 :=
    Nat.exists_eq_succ_of_ne_zero (Numeral.length_normal_pos v).ne'
  have hHalf : v / 2 < limbBase ^ (length + 1) := by
    rw [← hLength]
    exact (Nat.div_le_self v 2).trans_lt (normal v).bounded
  have hRoom : length + 1 ≤ bigintMaxlen := hLength.symm.trans_le hFree.le
  have hSplit : (encode (length + 1) (v / 2) : List UInt32) =
      encode length (v / 2) ++ [UInt32.ofNat (v / 2 / limbBase ^ length)] := encode_add _ _ _
  have hLast : (encode (length + 1) (v / 2) : List UInt32).getLast? =
      some (UInt32.ofNat (v / 2 / limbBase ^ length)) := by
    rw [hSplit, List.getLast?_concat]
  have hAbove : (encode bigintMaxlen v : List UInt32).drop (length + 1) =
      List.replicate (bigintMaxlen - (length + 1)) 0 := by
    rw [Numeral.encode_eq_append (hLength ▸ (normal v).bounded) hRoom,
      List.drop_left' (length_encode _ _)]
  rw [SBigInt.halve, Numeral.iLength32_toBig, Numeral.limbs_toBig _ hFree, ok_bind,
    Numeral.value_normal, halveLimbs_encode, hLength]
  dsimp only
  rw [hLast]
  dsimp only
  rw [SBigInt.withLimbs, dif_pos ((length_encode _ _).trans_le hRoom)]
  refine congrArg Except.ok (SBigInt.eq_of ?_ ?_)
  · rw [Numeral.iLength32_toBig, length_half h hLength]
    rfl
  · change encode (length + 1) (v / 2) ++ (encode bigintMaxlen v : List UInt32).drop _ =
      encode bigintMaxlen (v / 2)
    rw [length_encode, hAbove, Numeral.encode_eq_append hHalf hRoom]

/-- The halving of a number that fills the array looks at a limb outside it. -/
theorem halve_full {x : SBigInt} (h : x.iLength32 = bigintMaxlen) :
    x.halve = .error .outOfBounds := by
  rw [SBigInt.halve, SBigInt.limbs, if_neg (by omega)]
  rfl

section Rab

variable {σ : Type} (myrand : σ → UInt32 × σ)

/-- Every call of `RsaTrans` that the halving loop makes from `sTempDiv` on
returns the power modulo the number that is tested. Zero limbs at the top of
a result do not count as one, since `Cmp` and the test for one look at the
length. There are no calls with an odd exponent, behind a halving that
leaves the array, and once `N - 1` has been met. -/
inductive HalvingsRaise (sIn sTempA : SBigInt) : SBigInt → Prop
  | odd {sTempDiv : SBigInt} {low : UInt32} : sTempDiv.low = .ok low → low &&& 1 ≠ 0 →
      HalvingsRaise sIn sTempA sTempDiv
  | outside {sTempDiv : SBigInt} {fault : Fault} : sTempDiv.halve = .error fault →
      HalvingsRaise sIn sTempA sTempDiv
  | call {sTempDiv half r : SBigInt} : sTempDiv.halve = .ok half →
      rsaTrans sTempA half sIn = .ok r → r.Normalised →
      r.limbValue = sTempA.limbValue ^ half.limbValue % sIn.limbValue →
      (r.limbValue ≠ sIn.limbValue - 1 → HalvingsRaise sIn sTempA half) →
      HalvingsRaise sIn sTempA sTempDiv

/-- So does every call in the next rounds of a run. -/
def RoundsRaise (sIn sN1 : SBigInt) : Nat → σ → Prop
  | 0, _ => True
  | rounds + 1, s =>
      let (a, s) := myrand s
      let (b, s) := myrand s
      (∀ sTempA, movLong (signExtend (a * b)) = .ok sTempA →
        HalvingsRaise sIn sTempA sN1) ∧ RoundsRaise sIn sN1 rounds s

/-- The next products of two random numbers are not zero. -/
def NonzeroProducts : Nat → σ → Prop
  | 0, _ => True
  | rounds + 1, s =>
      let (a, s) := myrand s
      let (b, s) := myrand s
      a * b ≠ 0 ∧ NonzeroProducts rounds s

/-- In each of the next rounds of a run the halving loop ends, with `N - 1`
when it meets that, and with one otherwise. -/
def RoundsPass (sIn sN1 : SBigInt) : Nat → SBigInt → σ → Prop
  | 0, _, _ => True
  | rounds + 1, sTemp1, s =>
      let (a, s) := myrand s
      let (b, s) := myrand s
      ∃ sTempA passed r, movLong (signExtend (a * b)) = .ok sTempA ∧
        rabHalvings sIn sN1 sTempA (bigintStates + 1) sN1 sTemp1 = .ok (passed, r) ∧
          r.limbValue = (if passed then sIn.limbValue - 1 else 1) ∧
            RoundsPass sIn sN1 rounds r s

/-- The test accepts the number, and every round of it passes. -/
def AcceptedInEveryRound (stack sIn : SBigInt) (s : σ) : Prop :=
  (∃ s', rab myrand stack sIn s = .ok (true, s')) ∧
    ∃ sN1, subLong stack sIn 1 = .ok sN1 ∧ sN1.limbValue = sIn.limbValue - 1 ∧
      RoundsPass myrand sIn sN1 8 { stack with iLength32 := 0 } s

end Rab

theorem SBigInt.Normalised.eq_one {x : SBigInt} (h : x.Normalised) (hOne : x.limbValue = 1) :
    x.iLength32 = 1 ∧ x.low = .ok 1 := by
  have hHolds := h.holds
  rw [hOne] at hHolds
  refine ⟨hHolds.iLength32_eq, ?_⟩
  rw [hHolds.low_eq (Numeral.length_normal_pos 1), low_toBig]
  rfl

/-- Extended with its sign to 64 bits, a limb that is not zero stays a
positive word. -/
theorem signExtend_bounds {a : UInt32} (h : a ≠ 0) : 0 < signExtend a ∧ signExtend a < 2 ^ 64 := by
  have hLess := a.toNat_lt
  have hNonzero : a.toNat ≠ 0 := fun hZero => h (UInt32.toNat_inj.mp hZero)
  unfold signExtend
  split <;> omega

section Round

variable {sIn sN1 sTempA : SBigInt}

/-- What a round works with: a prime, its predecessor, and a base between
zero and it. -/
structure Round (sIn sN1 sTempA : SBigInt) : Prop where
  prime : sIn.limbValue.Prime
  predecessor : sN1.NormalForm
  predecessor_eq : sN1.limbValue = sIn.limbValue - 1
  base_pos : 0 < sTempA.limbValue
  base_lt : sTempA.limbValue < sIn.limbValue
  free : sN1.iLength32 < bigintMaxlen

/-- A half of an exponent that gives one: the power is one or `N - 1`, and
the call for it has returned it. -/
theorem Round.halved (h : Round sIn sN1 sTempA) {t : Nat} (hTwo : 2 ≤ t)
    (hLength : (normal t).length < bigintMaxlen) (hEven : t % 2 = 0)
    (hRaises : HalvingsRaise sIn sTempA (normal t).toBig)
    (hPower : sTempA.limbValue ^ t ≡ 1 [MOD sIn.limbValue]) :
    ∃ r, (normal t).toBig.halve = .ok (normal (t / 2)).toBig ∧
      rsaTrans sTempA (normal (t / 2)).toBig sIn = .ok r ∧ r.Normalised ∧
        r.limbValue = sTempA.limbValue ^ (t / 2) % sIn.limbValue ∧
          (r.limbValue = 1 ∨ r.limbValue = sIn.limbValue - 1) ∧
            (r.limbValue ≠ sIn.limbValue - 1 →
              HalvingsRaise sIn sTempA (normal (t / 2)).toBig) := by
  have hHalf : 2 * (t / 2) = t := by omega
  have hHalve := halve_normal hTwo hLength
  have hValue : (normal (t / 2)).toBig.limbValue = t / 2 :=
    value_numeral ((Numeral.length_normal_mono (Nat.div_le_self t 2)).trans hLength.le)
  cases hRaises with
  | odd hLow hSet =>
      rw [low_toBig, Numeral.value_normal] at hLow
      rw [← Except.ok.inj hLow, low_bit] at hSet
      omega
  | outside hFault =>
      rw [hHalve] at hFault
      cases hFault
  | call hHalf' hr hNormalised hPow hNext =>
      obtain rfl := Except.ok.inj (hHalve.symm.trans hHalf')
      rw [hValue] at hPow
      refine ⟨_, hHalve, hr, hNormalised, hPow, ?_, hNext⟩
      rw [hPow]
      exact Exponents.pow_half h.prime (by rwa [hHalf])

/-- From an exponent that gives one, the loop ends with one or `N - 1`. An
odd exponent is left as it is, so that one has to be there before. -/
theorem Round.halvings (h : Round sIn sN1 sTempA) {fuel t : Nat} {sTemp1 : SBigInt}
    (hRaises : HalvingsRaise sIn sTempA (normal t).toBig) (hPos : 0 < t) (hLe : t ≤ sN1.limbValue) (hFuel : t < fuel)
    (hPower : sTempA.limbValue ^ t ≡ 1 [MOD sIn.limbValue])
    (hOne : t % 2 = 1 → sTemp1.Normalised ∧ sTemp1.limbValue = 1) :
    ∃ passed r, rabHalvings sIn sN1 sTempA fuel (normal t).toBig sTemp1 =
        .ok (passed, r) ∧
      r.Normalised ∧ r.limbValue = if passed then sIn.limbValue - 1 else 1 := by
  induction fuel generalizing t sTemp1 with
  | zero => omega
  | succ fuel ih =>
      rw [rabHalvings, low_toBig, ok_bind, Numeral.value_normal]
      by_cases hOdd : t % 2 = 1
      · rw [if_pos ((low_bit t).mpr hOdd)]
        exact ⟨false, sTemp1, rfl, hOne hOdd⟩
      · have hLength : (normal t).length < bigintMaxlen := by
          have hFree := h.free
          rw [h.predecessor.length_eq] at hFree
          exact (Numeral.length_normal_mono hLe).trans_lt hFree
        obtain ⟨r, hHalve, hTrans, hr, hPow, hRoot, hNext⟩ :=
          h.halved (by omega) hLength (by omega) hRaises hPower
        rw [if_neg ((low_bit t).not.mpr hOdd), hHalve, ok_bind, hTrans, ok_bind]
        obtain ⟨order, hCmp, -, hSame⟩ := comparedAsNumbers hr h.predecessor.toNormalised
        rw [h.predecessor_eq] at hSame
        rw [hCmp, ok_bind]
        by_cases hMet : order = 0
        · rw [if_pos hMet]
          exact ⟨true, r, rfl, hr, hSame.mp hMet⟩
        · rw [if_neg hMet]
          have hLast := hRoot.resolve_right (hSame.not.mp hMet)
          apply ih (hNext (hSame.not.mp hMet)) (by omega) ((Nat.div_le_self t 2).trans hLe)
            (by omega) _ fun _ => ⟨hr, hLast⟩
          rw [Nat.ModEq, ← hPow, hLast, Nat.mod_eq_of_lt h.prime.one_lt]

/-- The loop from `N - 1` on, which is an even exponent and gives one. -/
theorem Round.passes (h : Round sIn sN1 sTempA) (hLarge : 2 < sIn.limbValue)
    (hRaises : HalvingsRaise sIn sTempA sN1) (sTemp1 : SBigInt) :
    ∃ passed r, rabHalvings sIn sN1 sTempA (bigintStates + 1) sN1 sTemp1 = .ok (passed, r) ∧
      r.Normalised ∧ r.limbValue = if passed then sIn.limbValue - 1 else 1 := by
  have hValue := h.predecessor_eq
  have hOdd : sIn.limbValue % 2 = 1 :=
    Nat.odd_iff.mp (h.prime.odd_of_ne_two hLarge.ne')
  have hPower : sTempA.limbValue ^ sN1.limbValue ≡ 1 [MOD sIn.limbValue] := by
    have hCoprime := (Nat.coprime_of_lt_prime h.base_pos.ne' h.base_lt h.prime).symm
    have hEuler := Nat.ModEq.pow_totient hCoprime
    rwa [Nat.totient_prime h.prime, ← hValue] at hEuler
  have hOne : sN1.limbValue % 2 = 1 → sTemp1.Normalised ∧ sTemp1.limbValue = 1 := by
    intro hLow
    omega
  rw [h.predecessor.eq_toBig] at hRaises
  have hRun := h.halvings hRaises (by omega) (Nat.le_refl _)
    (fuel_suffices h.predecessor.holds) hPower hOne
  rwa [← h.predecessor.eq_toBig] at hRun

end Round

section Run

variable {σ : Type} {myrand : σ → UInt32 × σ} {sIn sN1 : SBigInt}

/-- One round after the other, for every base that a product can give. -/
theorem rounds_pass
    (hRound : ∀ a : UInt32, a ≠ 0 → Round sIn sN1 (normal (signExtend a)).toBig)
    (hLarge : 2 < sIn.limbValue) {rounds : Nat} {sTemp1 : SBigInt} {s : σ}
    (h : NonzeroProducts myrand rounds s) (hRaises : RoundsRaise myrand sIn sN1 rounds s) :
    RoundsPass myrand sIn sN1 rounds sTemp1 s ∧
      ∃ s', rabRounds myrand sIn sN1 rounds sTemp1 s = .ok (true, s') := by
  induction rounds generalizing sTemp1 s with
  | zero => exact ⟨trivial, s, rfl⟩
  | succ rounds ih =>
      obtain ⟨hNonzero, hRest⟩ := h
      obtain ⟨hCalls, hLater⟩ := hRaises
      have hBase := movLong_normal (signExtend_bounds hNonzero).2
      obtain ⟨passed, r, hRun, hNormalised, hValue⟩ :=
        (hRound _ hNonzero).passes hLarge (hCalls _ hBase) sTemp1
      obtain ⟨hPass, s', hRounds⟩ := @ih r _ hRest hLater
      refine ⟨⟨_, passed, r, hBase, hRun, hValue, hPass⟩, s', ?_⟩
      have hAccepted : passed = true ∨ (r.iLength32 = 1 ∧ r.limbAt 0 = 1) := by
        cases passed with
        | true => exact Or.inl rfl
        | false =>
            obtain ⟨hLength, hLow⟩ := hNormalised.eq_one hValue
            rw [low_eq] at hLow
            exact Or.inr ⟨hLength, Except.ok.inj hLow⟩
      simp only [rabRounds]
      rw [hBase, ok_bind, hRun, ok_bind]
      dsimp only
      rw [low_eq, ok_bind, if_pos hAccepted]
      exact hRounds

/-- The first halving of an even number that fills the array. -/
theorem rounds_full (hForm : sN1.NormalForm) (hEven : sN1.limbValue % 2 = 0)
    (hFull : sN1.iLength32 = bigintMaxlen) {rounds : Nat} (hRounds : 0 < rounds)
    (sTemp1 : SBigInt) (s : σ) :
    ∃ fault, rabRounds myrand sIn sN1 rounds sTemp1 s = .error fault := by
  obtain ⟨rounds, rfl⟩ := Nat.exists_eq_succ_of_ne_zero hRounds.ne'
  have hLow : sN1.low = .ok (UInt32.ofNat sN1.limbValue) := by
    conv_lhs => rw [hForm.eq_toBig, low_toBig, Numeral.value_normal]
  simp only [rabRounds]
  cases hBase : movLong (signExtend ((myrand s).1 * (myrand (myrand s).2).1)) with
  | error fault => exact ⟨fault, rfl⟩
  | ok sTempA =>
      refine ⟨.outOfBounds, ?_⟩
      rw [ok_bind, rabHalvings, hLow, ok_bind, if_neg ((low_bit _).not.mpr (by omega)),
        halve_full hFull]
      rfl

end Run

section Whole

variable {sIn : SBigInt} (hForm : sIn.NormalForm) (hLong : 3 ≤ sIn.iLength32)

include hForm hLong

theorem limbBase_sq_le : limbBase ^ 2 ≤ sIn.limbValue := by
  rw [hForm.length_eq] at hLong
  have hPos : 0 < sIn.limbValue := by
    by_contra hZero
    have hOne : (normal sIn.limbValue).length = 1 :=
      Numeral.length_normal_limb ((Nat.eq_zero_of_not_pos hZero).trans_lt limbBase_pos)
    omega
  exact (Nat.pow_le_pow_right limbBase_pos (by omega)).trans (Numeral.pow_le_normal hPos)

/-- The predecessor of an odd number is as long as the number. -/
theorem subLong_predecessor (hOdd : sIn.limbValue % 2 = 1) (stack : SBigInt) :
    ∃ sN1, subLong stack sIn 1 = .ok sN1 ∧ sN1.NormalForm ∧
      sN1.limbValue = sIn.limbValue - 1 ∧ sN1.iLength32 = sIn.iLength32 := by
  have hLarge := limbBase_sq_le hForm hLong
  have hLength : (normal sIn.limbValue).length = (normal (sIn.limbValue - 1)).length := by
    rw [hForm.length_eq] at hLong
    obtain ⟨length, hLength⟩ : ∃ length, (normal sIn.limbValue).length = length + 2 :=
      ⟨_, (Nat.sub_add_cancel (by omega)).symm⟩
    have hBound := (normal sIn.limbValue).bounded
    have hLow := Numeral.pow_le_normal (Nat.lt_of_lt_of_le (by decide) hLarge)
    rw [hLength] at hBound hLow ⊢
    have hEven : limbBase ^ (length + 1) % 2 = 0 := by
      rw [Nat.pow_succ, Nat.mul_mod]
      rfl
    symm
    apply Numeral.length_normal_eq
    · change limbBase ^ (length + 1) ≤ sIn.limbValue at hLow
      omega
    · exact (Nat.sub_le _ 1).trans_lt hBound
  have hRoom : (normal (sIn.limbValue - 1)).length ≤ bigintMaxlen := by
    rw [← hLength, ← hForm.length_eq]
    exact hForm.length_le
  refine ⟨(normal (sIn.limbValue - 1)).toBig, ?_, Numeral.normalForm hRoom, value_numeral hRoom, ?_⟩
  · conv_lhs => rw [hForm.eq_toBig]
    exact subLong_odd stack hOdd hLength
  · rw [hForm.length_eq]
    exact hLength.symm

end Whole

section Accepted

variable {σ : Type} (myrand : σ → UInt32 × σ) (stack : SBigInt) {sIn : SBigInt} (s : σ)

/-- A prime comes to the rounds, with an even number before it. -/
theorem rab_prime (hForm : sIn.NormalForm) (hLong : 3 ≤ sIn.iLength32)
    (hPrime : sIn.limbValue.Prime) :
    ∃ sN1, subLong stack sIn 1 = .ok sN1 ∧ sN1.NormalForm ∧ sN1.limbValue = sIn.limbValue - 1 ∧
      sN1.limbValue % 2 = 0 ∧ sN1.iLength32 = sIn.iLength32 ∧
        rab myrand stack sIn s = rabRounds myrand sIn sN1 8 { stack with iLength32 := 0 } s := by
  have hLarge := limbBase_sq_le hForm hLong
  have hSquare : limbBase ^ 2 = 2 ^ 64 := by decide
  have hOdd : sIn.limbValue % 2 = 1 := Nat.odd_iff.mp (hPrime.odd_of_ne_two (by omega))
  obtain ⟨sN1, hSub, hPred, hValue, hLength⟩ := subLong_predecessor hForm hLong hOdd stack
  refine ⟨sN1, hSub, hPred, hValue, by omega, hLength, ?_⟩
  rw [rab, passes_primeTable hForm (by omega) (by omega) hPrime, ok_bind,
    if_neg Bool.false_ne_true, hSub, ok_bind]

/-- A prime that fills the array is not accepted. The first halving of its
predecessor, in front of every call of `RsaTrans`, looks at a limb outside
the array. -/
theorem not_accepted_of_full (hForm : sIn.NormalForm) (hPrime : sIn.limbValue.Prime)
    (hFull : sIn.iLength32 = bigintMaxlen) : ¬AcceptedInEveryRound myrand stack sIn s := by
  intro hAccepted
  obtain ⟨⟨s', hRun⟩, -⟩ := hAccepted
  have hLong : 3 ≤ sIn.iLength32 := (show 3 ≤ bigintMaxlen by decide).trans hFull.ge
  obtain ⟨sN1, -, hPred, -, hEven, hLength, hRab⟩ := rab_prime myrand stack s hForm hLong hPrime
  obtain ⟨fault, hFault⟩ : ∃ fault, rabRounds myrand sIn sN1 8
      { stack with iLength32 := 0 } s = .error fault :=
    rounds_full hPred hEven (hLength.trans hFull) (Nat.zero_lt_succ 7) _ s
  rw [hRab, hFault] at hRun
  cases hRun

/-- `Rab` accepts every prime of three limbs or more that leaves the last
limb of the array free, in every round, as far as the calls of `RsaTrans`
that it makes return the power. -/
theorem rab_accepts_prime (hForm : sIn.NormalForm) (hLong : 3 ≤ sIn.iLength32)
    (hFree : sIn.iLength32 < bigintMaxlen) (hPrime : sIn.limbValue.Prime)
    (hProducts : NonzeroProducts myrand 8 s)
    (hRaises : ∀ sN1, subLong stack sIn 1 = .ok sN1 → RoundsRaise myrand sIn sN1 8 s) :
    AcceptedInEveryRound myrand stack sIn s := by
  have hLarge := limbBase_sq_le hForm hLong
  have hSquare : limbBase ^ 2 = 2 ^ 64 := by decide
  obtain ⟨sN1, hSub, hPred, hValue, -, hLength, hRab⟩ :=
    rab_prime myrand stack s hForm hLong hPrime
  have hRound (a : UInt32) (ha : a ≠ 0) : Round sIn sN1 (normal (signExtend a)).toBig := by
    obtain ⟨hPos, hLess⟩ := signExtend_bounds ha
    have hBase : (normal (signExtend a)).toBig.limbValue = signExtend a :=
      value_numeral (length_normal_max (hLess.trans (by decide)))
    exact {
      prime := hPrime
      predecessor := hPred
      predecessor_eq := hValue
      base_pos := hPos.trans_eq hBase.symm
      base_lt := hBase.trans_lt (by omega)
      free := hLength.trans_lt hFree }
  obtain ⟨hPass, s', hRun⟩ := rounds_pass hRound (by omega) hProducts (hRaises sN1 hSub)
  exact ⟨⟨s', hRab.trans hRun⟩, sN1, hSub, hValue, hPass⟩

end Accepted

/-- A source of random numbers that gives `a` and one in turn, and so has
the product `a`. -/
def turnsRand (a : UInt32) (s : Bool) : UInt32 × Bool := (if s then 1 else a, !s)

/-- The products that this source gives are the limb itself, which is not
zero. -/
theorem nonzeroProducts_turnsRand {a : UInt32} (ha : a ≠ 0) (rounds : Nat) :
    NonzeroProducts (turnsRand a) rounds false := by
  induction rounds with
  | zero => trivial
  | succ rounds ih =>
      refine ⟨?_, ih⟩
      change a * 1 ≠ 0
      rwa [UInt32.mul_one]

/-- Its rounds are all alike. -/
theorem roundsRaise_turnsRand {a : UInt32} {sIn sN1 : SBigInt} (ha : a ≠ 0)
    (h : HalvingsRaise sIn (normal (signExtend a)).toBig sN1) (rounds : Nat) :
    RoundsRaise (turnsRand a) sIn sN1 rounds false := by
  induction rounds with
  | zero => trivial
  | succ rounds ih =>
      refine ⟨fun sTempA hBase => ?_, ih⟩
      change movLong (signExtend (a * 1)) = _ at hBase
      rw [UInt32.mul_one, movLong_normal (signExtend_bounds ha).2] at hBase
      exact Except.ok.inj hBase ▸ h

/-- A prime of three limbs. Five is not a square modulo it, so that every
round ends with the first call of `RsaTrans`. -/
def smallPrime : Nat := 3 * 2 ^ 66 + 1

theorem length_smallPrime : (normal smallPrime).length = 3 :=
  Numeral.length_normal_eq (by decide) (by decide)

theorem rsaTrans_smallPrime : rsaTrans (normal 5).toBig (normal (smallPrime / 2)).toBig
    (normal smallPrime).toBig = .ok (normal (smallPrime - 1)).toBig := by
  decide +kernel

theorem pow_smallPrime : smallPrime - 1 = 5 ^ (smallPrime / 2) % smallPrime := by
  have hSquares : Exponents.squarings smallPrime 65 (5 ^ 3) = smallPrime - 1 := by decide +kernel
  have hHalf : 3 * 2 ^ 65 = smallPrime / 2 := by decide +kernel
  have hPower := Exponents.squarings_modEq smallPrime 65 (5 ^ 3)
  rw [hSquares, ← pow_mul, hHalf, Nat.ModEq, Nat.mod_eq_of_lt (by decide +kernel)] at hPower
  exact hPower

/-- The one call of a round. -/
theorem halvingsRaise_smallPrime : HalvingsRaise (normal smallPrime).toBig (normal 5).toBig
    (normal (smallPrime - 1)).toBig := by
  have hRoom : 3 < bigintMaxlen := by decide
  have hLe (v : Nat) (hv : v ≤ smallPrime) : (normal v).length < bigintMaxlen :=
    ((Numeral.length_normal_mono hv).trans length_smallPrime.le).trans_lt hRoom
  have hValue (v : Nat) (hv : v ≤ smallPrime) : (normal v).toBig.limbValue = v :=
    value_numeral (hLe v hv).le
  have hHalf : (smallPrime - 1) / 2 = smallPrime / 2 := by decide +kernel
  have hLess : 5 ≤ smallPrime := by decide +kernel
  have hHalve := halve_normal (by omega) (hLe (smallPrime - 1) (Nat.sub_le _ _))
  rw [hHalf] at hHalve
  refine .call hHalve rsaTrans_smallPrime
    (Numeral.normalForm (hLe _ (Nat.sub_le _ _)).le).toNormalised ?_ ?_
  · rw [hValue _ (Nat.sub_le _ _), hValue 5 hLess, hValue _ (Nat.div_le_self _ _),
      hValue _ (Nat.le_refl _), ← pow_smallPrime]
  · intro hOther
    rw [hValue _ (Nat.sub_le _ _), hValue _ (Nat.le_refl _)] at hOther
    exact absurd rfl hOther

theorem accepts_smallPrime :
    AcceptedInEveryRound (turnsRand 5) rsaInitialize (normal smallPrime).toBig false := by
  have hLength : (normal smallPrime).toBig.iLength32 = 3 := length_smallPrime
  have hForm := Numeral.normalForm (length_smallPrime.trans_le (show 3 ≤ bigintMaxlen by decide))
  have hValue : (normal smallPrime).toBig.limbValue = smallPrime :=
    value_numeral (length_smallPrime.trans_le (by decide))
  have hPrime : smallPrime.Prime :=
    Exponents.prime_of_squarings (a := 5) (by decide) (by decide) (by decide +kernel)
  have hOdd : smallPrime % 2 = 1 := by decide +kernel
  have hBase : signExtend 5 = 5 := rfl
  refine rab_accepts_prime (turnsRand 5) rsaInitialize false hForm hLength.ge
    (hLength.trans_lt (by decide)) (hValue.symm ▸ hPrime)
    (nonzeroProducts_turnsRand (by decide) 8) fun sN1 hSub => ?_
  have hLonger : (normal smallPrime).length = (normal (smallPrime - 1)).length :=
    length_smallPrime.trans (Numeral.length_normal_eq (by decide) (by decide)).symm
  rw [subLong_odd rsaInitialize hOdd hLonger] at hSub
  refine roundsRaise_turnsRand (by decide) ?_ 8
  rw [hBase, ← Except.ok.inj hSub]
  exact halvingsRaise_smallPrime

/-- A number of 66 limbs. -/
def fullPrime : Nat := 135 * 2 ^ (2098 + 1) + 1

theorem fullPrime_prime : fullPrime.Prime := by
  have hLess : 135 < 2 ^ (2098 + 1) := by decide +kernel
  have hSquares : Exponents.squarings fullPrime 2098 (11 ^ 135) = 135 * 2 ^ (2098 + 1) := by
    decide +kernel
  unfold fullPrime at *
  exact Exponents.prime_of_squarings (by decide) hLess hSquares

theorem length_fullPrime : (normal fullPrime).toBig.iLength32 = bigintMaxlen := by
  have hBounds : limbBase ^ 65 ≤ fullPrime ∧ fullPrime < limbBase ^ 66 := by decide +kernel
  exact Numeral.length_normal_eq hBounds.1 hBounds.2

/-- The powers of one are one, modulo a number of any length but one limb. -/
theorem mulMod_one {sN : SBigInt} (h : 1 < sN.iLength32) :
    mulMod (normal 1).toBig (normal 1).toBig sN = .ok (normal 1).toBig := by
  have hProduct : mulLong (normal 1).toBig 1 = .ok (normal 1).toBig := by decide +kernel
  have hCmp : cmp (normal 1).toBig sN = .ok (-1) := by
    have hLength : (normal 1).toBig.iLength32 = 1 := rfl
    rw [cmp, hLength, if_neg (by omega), if_pos h]
  have hMod : modBigint (normal 1).toBig sN = .ok (normal 1).toBig := by
    rw [modBigint, modLoop, hCmp, ok_bind, if_pos (by decide), pure_eq_ok]
  have hTop : (normal 1).toBig.fromTop 1 = .ok 1 := by decide +kernel
  have hLimbs : (normal 1).toBig.limbs ((normal 1).toBig.iLength32 - 1) = .ok [] := rfl
  rw [mulMod, hTop, ok_bind, hLimbs, ok_bind, UInt32.toNat_one, hProduct, ok_bind, hMod, ok_bind]
  rfl

/-- One is raised to one, with any modulus of two limbs and more. -/
theorem rsaTransLoop_one {sE sN : SBigInt} (h : 1 < sN.iLength32) {count : Nat}
    (hCount : count ≤ 32 * bigintMaxlen) :
    rsaTransLoop (normal 1).toBig sE sN count (normal 1).toBig = .ok (normal 1).toBig := by
  induction count with
  | zero => rfl
  | succ count ih =>
      have hBit : ∃ isSet, sE.bit count = .ok isSet := by
        have hInside : count / 32 < sE.ulValue.length := by
          rw [sE.size]
          omega
        rw [SBigInt.bit, List.getElem?_eq_getElem hInside]
        exact ⟨_, rfl⟩
      obtain ⟨isSet, hBit⟩ := hBit
      rw [rsaTransLoop, mulMod_one h, ok_bind, hBit, ok_bind]
      cases isSet with
      | false => exact ih (by omega)
      | true =>
          rw [if_pos rfl, mulMod_one h, ok_bind]
          exact ih (by omega)

/-- `RsaTrans` raises one to every power. -/
theorem rsaTrans_one {sE sN : SBigInt} (hE : sE.NormalForm) (h : 1 < sN.iLength32) :
    rsaTrans (normal 1).toBig sE sN = .ok (normal 1).toBig := by
  have hPos := Numeral.length_normal_pos sE.limbValue
  have hRoom : (normal sE.limbValue).length ≤ bigintMaxlen := hE.length_eq ▸ hE.length_le
  obtain ⟨top, hTop, -⟩ := Numeral.fromTop_toBig (x := normal sE.limbValue) Nat.one_pos hPos hRoom
  rw [← hE.eq_toBig] at hTop
  have hBits : countBits 64 top.toNat ≤ 32 := by
    rcases Nat.eq_zero_or_pos top.toNat with hZero | hNonzero
    · rw [hZero]
      exact Nat.zero_le 32
    · rw [Numeral.countBits_eq hNonzero.ne' (top.toNat_lt.trans (by decide))]
      exact Nat.log_lt_of_lt_pow hNonzero.ne' top.toNat_lt
  have hLength := hE.length_le
  rw [rsaTrans, hTop, ok_bind]
  exact rsaTransLoop_one h (by omega)

/-- The halving of its predecessor looks at a limb outside the array, in
front of any call of `RsaTrans`, which would return the powers of the base,
here one, for every exponent. -/
theorem fullPrime_not_accepted :
    let sIn := (normal fullPrime).toBig
    sIn.NormalForm ∧ 3 ≤ sIn.iLength32 ∧ sIn.limbValue.Prime ∧ sIn.limbValue % 2 = 1 ∧
      NonzeroProducts (turnsRand 1) 8 false ∧
      (∀ sE : SBigInt, sE.NormalForm → rsaTrans (normal (signExtend 1)).toBig sE sIn =
        .ok (normal (1 ^ sE.limbValue % sIn.limbValue)).toBig) ∧
      (∀ sN1, subLong rsaInitialize sIn 1 = .ok sN1 →
        RoundsRaise (turnsRand 1) sIn sN1 8 false) ∧
      ¬AcceptedInEveryRound (turnsRand 1) rsaInitialize sIn false := by
  have hForm := Numeral.normalForm length_fullPrime.le
  have hValue : (normal fullPrime).toBig.limbValue = fullPrime := value_numeral length_fullPrime.le
  have hOdd : fullPrime % 2 = 1 := by decide +kernel
  have hPrime := fullPrime_prime
  rw [← hValue] at hPrime hOdd
  have hLong : 3 ≤ (normal fullPrime).toBig.iLength32 :=
    (show 3 ≤ bigintMaxlen by decide).trans length_fullPrime.ge
  refine ⟨hForm, hLong, hPrime, hOdd, nonzeroProducts_turnsRand (by decide) 8, fun sE hE => ?_,
    fun sN1 hSub => ?_, not_accepted_of_full _ rsaInitialize false hForm hPrime length_fullPrime⟩
  · rw [one_pow, Nat.mod_eq_of_lt hPrime.one_lt]
    exact rsaTrans_one hE (by omega)
  · obtain ⟨pred, hPred, -, -, hLength⟩ := subLong_predecessor hForm hLong hOdd rsaInitialize
    obtain rfl := Except.ok.inj (hPred.symm.trans hSub)
    exact roundsRaise_turnsRand (by decide)
      (.outside (halve_full (hLength.trans length_fullPrime))) 8

end SignImage
