import Gtexswifi.SignImage.Exponentiation

/-! The subtractions on the way through `RsaTrans`. A subtraction that
leaves no non-zero limb is the only thing that keeps the power from being
computed. -/
namespace SignImage

open Radix

/-- What follows a step, when the step has a result. -/
def afterStep {α β : Type} (step : Except Fault α) (next : α → List β) : List β :=
  match step with
  | .ok a => next a
  | .error _ => []

@[simp] theorem afterStep_ok {α β : Type} (a : α) (next : α → List β) :
    afterStep (.ok a) next = next a := rfl

/-- `Sub_bigint` scans below limb zero: it gets past its comparison, and
every limb of the difference is zero. -/
def scansBelow (sIn sIn2 : SBigInt) : Bool :=
  match cmp sIn sIn2, sIn.limbs sIn.iLength32, sIn2.limbs sIn.iLength32 with
  | .ok order, .ok as, .ok bs => decide (0 < order) && (subLimbs 0 as bs).all (· = 0)
  | _, _, _ => false

/-- The operands of the `Sub_bigint` calls in the loop of `Mod_bigint`. -/
def modLoopCalls (sIn2 : SBigInt) : Nat → SBigInt → List (SBigInt × SBigInt)
  | 0, _ => []
  | fuel + 1, sOut =>
      afterStep (cmp sOut sIn2) fun order =>
        if order < 0 then []
        else
          afterStep (modSubtrahend sOut sIn2) fun sTemp2 =>
            (sOut, sTemp2) :: afterStep (modPass sOut sIn2) fun pass =>
              if pass.2 then [] else modLoopCalls sIn2 fuel pass.1

def modBigintCalls (sIn sIn2 : SBigInt) : List (SBigInt × SBigInt) :=
  modLoopCalls sIn2 (bigintStates + 1) sIn

/-- The calls in the passes of the inner loop of `RsaTrans` over the limbs
that are left. -/
def mulModPassCalls (sIn sN : SBigInt) : List UInt32 → SBigInt → List (SBigInt × SBigInt)
  | [], _ => []
  | limb :: rest, sTemp1 =>
      (afterStep (sTemp1.shiftLimbs 1) fun sTemp1 =>
        afterStep (mulLong sIn limb.toNat) fun sTemp2 =>
          afterStep (addBigint sTemp1 sTemp2) fun sum => modBigintCalls sum sN) ++
        afterStep (mulModPass sIn sN sTemp1 limb) (mulModPassCalls sIn sN rest)

def mulModCalls (sIn sOut sN : SBigInt) : List (SBigInt × SBigInt) :=
  afterStep (sOut.fromTop 1) fun top =>
    afterStep (sOut.limbs (sOut.iLength32 - 1)) fun limbs =>
      afterStep (mulLong sIn top.toNat) fun product =>
        modBigintCalls product sN ++
          afterStep (modBigint product sN) (mulModPassCalls sIn sN limbs.reverse)

def rsaTransLoopCalls (sIn sE sN : SBigInt) : Nat → SBigInt → List (SBigInt × SBigInt)
  | 0, _ => []
  | i + 1, sOut =>
      mulModCalls sOut sOut sN ++ afterStep (mulMod sOut sOut sN) fun sOut =>
        afterStep (sE.bit i) fun isSet =>
          if isSet then
            mulModCalls sIn sOut sN ++
              afterStep (mulMod sIn sOut sN) (rsaTransLoopCalls sIn sE sN i)
          else rsaTransLoopCalls sIn sE sN i sOut

/-- The operands of the `Sub_bigint` calls that `RsaTrans` makes, up to its
end or its first fault. -/
def rsaTransCalls (sIn sE sN : SBigInt) : List (SBigInt × SBigInt) :=
  afterStep (sE.fromTop 1) fun top =>
    rsaTransLoopCalls sIn sE sN (sE.iLength32 * 32 - 32 + countBits 64 top.toNat - 1) sIn

/-- One of the calls scans below limb zero. -/
def Scans (calls : List (SBigInt × SBigInt)) : Prop := ∃ call ∈ calls, scansBelow call.1 call.2

theorem Scans.inl {calls rest : List (SBigInt × SBigInt)} (h : Scans calls) :
    Scans (calls ++ rest) := by
  obtain ⟨call, hMem, hScan⟩ := h
  exact ⟨call, List.mem_append_left _ hMem, hScan⟩

theorem Scans.inr {calls rest : List (SBigInt × SBigInt)} (h : Scans rest) :
    Scans (calls ++ rest) := by
  obtain ⟨call, hMem, hScan⟩ := h
  exact ⟨call, List.mem_append_right _ hMem, hScan⟩

namespace SBigInt.Holds

variable {x : SBigInt} {m : Numeral}

/-- A pass looks at limbs below the length of the modulus only. -/
theorem modPass_eq (h : x.Holds m) (sOut : SBigInt) : modPass sOut x = modPass sOut m.toBig := by
  have hLength : x.iLength32 = m.toBig.iLength32 := h.iLength32_eq
  unfold modPass
  simp only [h.fromTop_eq Nat.one_pos, hLength]
  cases sOut.fromTop 1 with
  | error fault => rfl
  | ok div =>
      cases m.toBig.fromTop 1 with
      | error fault => rfl
      | ok num =>
          simp only [ok_bind]
          by_cases hBreak : div = num ∧ sOut.iLength32 - m.toBig.iLength32 = 0
          · rw [if_pos hBreak, if_pos hBreak,
              h.subBigint_right_eq (Nat.sub_eq_zero_iff_le.mp hBreak.2)]
          · rw [if_neg hBreak, if_neg hBreak, funext h.mulBigint_left_eq]

theorem modBigint_eq (h : x.Holds m) (sOut : SBigInt) :
    modBigint sOut x = modBigint sOut m.toBig := by
  have hLoop (fuel : Nat) (sOut : SBigInt) : modLoop x fuel sOut = modLoop m.toBig fuel sOut := by
    induction fuel generalizing sOut with
    | zero => rfl
    | succ fuel ih =>
        rw [modLoop, modLoop, h.cmp_right_eq, h.modPass_eq, funext ih]
  exact hLoop _ _

theorem mulModPass_eq {n : SBigInt} {l : Numeral} (hx : x.Holds m) (hn : n.Holds l) :
    mulModPass x n = mulModPass m.toBig l.toBig := by
  funext sTemp1 limb
  unfold mulModPass
  simp only [hx.mulLong_eq, hn.modBigint_eq]

/-- A product depends on the limbs below the lengths only. -/
theorem mulMod_eq {y n : SBigInt} {k l : Numeral} (hx : x.Holds m) (hy : y.Holds k)
    (hn : n.Holds l) : mulMod x y n = mulMod m.toBig k.toBig l.toBig := by
  unfold mulMod
  rw [hy.fromTop_eq Nat.one_pos, hy.iLength32_eq, Numeral.iLength32_toBig,
    hy.limbs_of_le (Nat.sub_le _ _), hx.mulModPass_eq hn]
  simp only [hx.mulLong_eq, hn.modBigint_eq]

theorem bit_eq (h : x.Holds m) {i : Nat} (hi : i < 32 * m.length) : x.bit i = m.toBig.bit i := by
  unfold SBigInt.bit
  rw [h.getElem?_eq (by omega)]

end SBigInt.Holds

namespace Numeral

variable {n : Modulus} {x y : Numeral} {sIn sOut sN : SBigInt}

theorem subLimbs_zero (length : Nat) :
    subLimbs 0 (List.replicate length 0) (List.replicate length 0) = List.replicate length 0 := by
  induction length with
  | zero => rfl
  | succ length ih =>
      rw [List.replicate_succ, subLimbs, if_pos (Or.inr ⟨rfl, rfl⟩), ih]
      rfl

/-- The difference of two zeros has no limb to stop at. -/
theorem scansBelow_zero (hx : x.length ≤ bigintMaxlen) (hCmp : x.cmp y = 1) (hxZero : x.value = 0)
    (hyZero : y.value = 0) : scansBelow x.toBig y.toBig = true := by
  have hZeros : (encode x.length 0 : List UInt32) = List.replicate x.length 0 :=
    encode_zero_right _
  unfold scansBelow
  rw [cmp_toBig hx, iLength32_toBig, limbs_toBig x hx, limbs_toBig y hx, hCmp, hxZero, hyZero,
    hZeros]
  simp [subLimbs_zero]

/-- `Mod_bigint` scans below limb zero on every zero that it has to reduce. -/
theorem reduce_scans (hN : sN.Holds n.toNumeral) (hx : x.length ≤ bigintMaxlen)
    (h : reduce n x = none) : Scans (modBigintCalls x.toBig sN) := by
  have hBelow : ¬x.Below n := by
    intro hBelow
    rw [reduce, if_pos hBelow] at h
    cases h
  have hZero : x.value = 0 := by
    by_contra hNonzero
    rw [reduce, if_neg hBelow, if_neg hNonzero] at h
    cases h
  have hLength : n.length ≤ x.length := by
    unfold Below at hBelow
    omega
  have hBreak : ¬(x.limbFromTop 1 = n.limbFromTop 1 ∧ x.length - n.length = 0) := by
    intro hBreak
    exact (modPass_break hx hBelow (by omega) hBreak.1).1 hZero
  obtain ⟨q, len, hEstimate, hSubtrahend⟩ := modSubtrahend_holds hN hx hBelow hBreak
  have hMultiple : ((n.scale q).shift len).value = 0 :=
    Nat.eq_zero_of_le_zero (hZero ▸ hEstimate.multiple_le)
  refine ⟨(x.toBig, ((n.scale q).shift len).toBig), ?_,
    scansBelow_zero hx hEstimate.cmp_multiple hZero hMultiple⟩
  rw [modBigintCalls, modLoopCalls, hN.cmp_right_eq, cmp_toBig hx, afterStep_ok,
    if_neg (mt cmp_neg_iff.mp hBelow), hSubtrahend]
  exact List.mem_cons_self

theorem length_reduce_pos (hx : 0 < x.length) (h : reduce n x = some y) : 0 < y.length := by
  unfold reduce at h
  split at h
  · obtain rfl := Option.some.inj h
    exact hx
  · split at h
    · cases h
    · obtain rfl := Option.some.inj h
      exact length_normal_pos _

theorem length_mulModPass_pos {t : Numeral} {d : UInt32} (h : mulModPass n x t d = some y) :
    0 < y.length := by
  apply length_reduce_pos _ h
  calc
    0 < (t.shift 1).length := Nat.succ_pos t.length
    _ ≤ max (t.shift 1).length (x.scale d).length := Nat.le_max_left _ _
    _ ≤ ((t.shift 1).add (x.scale d)).length := le_length_fit _ _ _

theorem length_mulMod_pos {z : Numeral} (hx : 0 < x.length) (h : mulMod n x y = some z) :
    0 < z.length := by
  have hFold (rest : List UInt32) (t : Numeral) (ht : 0 < t.length)
      (hz : rest.foldlM (mulModPass n x) t = some z) : 0 < z.length := by
    induction rest generalizing t with
    | nil =>
        obtain rfl := Option.some.inj hz
        exact ht
    | cons d rest ih =>
        obtain ⟨next, hPass, hRest⟩ := Option.bind_eq_some_iff.mp hz
        exact ih next (length_mulModPass_pos hPass) hRest
  unfold mulMod at h
  split at h
  · cases h
  · next top rest _ =>
      obtain ⟨t, hTop, hRest⟩ := Option.bind_eq_some_iff.mp h
      have hScale : 0 < (x.scale top).length := Nat.lt_of_lt_of_le hx (le_length_fit _ _ _)
      exact hFold rest t (length_reduce_pos hScale hTop) hRest

/-- The passes over the limbs that are left end with a numeral, or a scan. -/
theorem foldlM_scans (hn : n.length ≤ maxModulusLength) (hX : sIn.Holds x)
    (hN : sN.Holds n.toNumeral) (hx : x.length ≤ n.length) (rest : List UInt32) {t : Numeral}
    (ht : t.Below n) (h : rest.foldlM (mulModPass n x) t = none) :
    Scans (mulModPassCalls sIn sN rest t.toBig) := by
  induction rest generalizing t with
  | nil => cases h
  | cons d rest ih =>
      obtain ⟨hShift, hScale, hAdd, hMax⟩ := mulModSum_toBig hn hx ht.length_le d
      rw [mulModPassCalls]
      cases hPass : mulModPass n x t d with
      | none =>
          apply Scans.inl
          rw [hShift, afterStep_ok, hX.mulLong_eq, hScale, afterStep_ok, hAdd, afterStep_ok]
          exact reduce_scans hN hMax hPass
      | some next =>
          apply Scans.inr
          rw [hX.mulModPass_eq hN, mulModPass_toBig hn hx ht.length_le, hPass]
          rw [List.foldlM_cons, hPass] at h
          exact ih (reduce_spec hPass).1 h

/-- A product modulo `n` is carried out, or makes a call that scans. -/
theorem mulMod_or_scans (hn : n.length ≤ maxModulusLength) (hX : sIn.Holds x)
    (hY : sOut.Holds y) (hN : sN.Holds n.toNumeral) (hx : x.length ≤ n.length)
    (hy : y.length ≤ n.length) (hPos : 0 < y.length) :
    (∃ z, mulMod n x y = some z ∧ SignImage.mulMod sIn sOut sN = .ok z.toBig) ∨
      Scans (mulModCalls sIn sOut sN) := by
  cases hProduct : mulMod n x y with
  | some z =>
      refine Or.inl ⟨z, rfl, ?_⟩
      rw [hX.mulMod_eq hY hN, mulMod_toBig hn hx hy, hProduct]
      rfl
  | none =>
      right
      obtain ⟨top, hTop, hLimbs, hScaleMax⟩ := mulModTop_toBig hn hx hy hPos
      unfold mulModCalls
      rw [hY.fromTop_eq Nat.one_pos, hTop, afterStep_ok, hY.iLength32_eq,
        hY.limbs_of_le (Nat.sub_le _ _), limbs_toBig _ ((Nat.sub_le _ _).trans hY.length_le),
        afterStep_ok, hX.mulLong_eq, mulLong_toBig hScaleMax, afterStep_ok]
      rw [mulMod, hLimbs, List.reverse_append] at hProduct
      change (reduce n (x.scale top)).bind _ = none at hProduct
      cases hReduce : reduce n (x.scale top) with
      | none =>
          apply Scans.inl
          exact reduce_scans hN hScaleMax hReduce
      | some t =>
          apply Scans.inr
          rw [hReduce] at hProduct
          rw [hN.modBigint_eq, modBigint_toBig hScaleMax, hReduce]
          exact foldlM_scans hn hX hN hx _ (reduce_spec hReduce).1 hProduct

/-- The square-and-multiply loop ends with the numeral of the ladder, or
makes a call that scans. -/
theorem rsaTransLoop_or_scans {c e : Numeral} {sE : SBigInt} (hn : n.length ≤ maxModulusLength)
    (hN : sN.Holds n.toNumeral) (hC : sIn.Holds c) (hc : c.length ≤ n.length)
    (hcPos : 0 < c.length) (hE : sE.Holds e) {count : Nat} (hCount : count ≤ 32 * e.length)
    (hX : sOut.Holds x) (hx : x.length ≤ n.length) (hPos : 0 < x.length) :
    (∃ z out, ladder n c e.value count x = some z ∧
        rsaTransLoop sIn sE sN count sOut = .ok out ∧ out.Holds z) ∨
      Scans (rsaTransLoopCalls sIn sE sN count sOut) := by
  induction count generalizing x sOut with
  | zero => exact Or.inl ⟨x, sOut, rfl, rfl, hX⟩
  | succ count ih =>
      have hToBig {z : Numeral} (hz : z.length ≤ n.length) : z.toBig.Holds z :=
        holds_toBig (hz.trans (hn.trans (by decide)))
      rw [rsaTransLoop, rsaTransLoopCalls, ladder]
      rcases mulMod_or_scans hn hX hX hN hx hx hPos with ⟨s, hSquare, hRun⟩ | hScans
      · have hs := (mulMod_spec hSquare).1.length_le
        have hsPos := length_mulMod_pos hPos hSquare
        have hBit : sE.bit count = .ok (e.value.testBit count) := by
          rw [hE.bit_eq (by omega), bit_toBig e]
          have hMax := hE.length_le
          omega
        rw [hRun, hSquare]
        simp only [ok_bind, afterStep_ok, Option.bind_some, hBit]
        cases e.value.testBit count with
        | false =>
            rcases ih (by omega) (hToBig hs) hs hsPos with hRest | hScans
            · exact Or.inl hRest
            · exact Or.inr hScans.inr
        | true =>
            rcases mulMod_or_scans hn hC (hToBig hs) hN hc hs hsPos with
              ⟨t, hMultiply, hRun⟩ | hScans
            · have ht := (mulMod_spec hMultiply).1.length_le
              simp only [hRun, hMultiply, ok_bind, afterStep_ok, Option.bind_some, if_true]
              rcases ih (by omega) (hToBig ht) ht (length_mulMod_pos hcPos hMultiply) with
                hRest | hScans
              · exact Or.inl hRest
              · exact Or.inr hScans.inr.inr
            · exact Or.inr hScans.inl.inr
      · exact Or.inr hScans.inl

end Numeral

/-- `RsaTrans` computes the power, below the modulus and with every limb
inside its array, as long as no subtraction on the way scans below limb
zero. -/
theorem rsaTrans_power {sIn sE sN : SBigInt} (hN : sN.iLength32 ≤ Numeral.maxModulusLength)
    (hNTop : sN.TopNonzero) (hPos : 0 < sIn.iLength32) (hLength : sIn.iLength32 ≤ sN.iLength32)
    (hBelow : sIn.numeral.value < sN.numeral.value)
    (hE : sE.iLength32 ≤ Numeral.maxModulusLength) (hETop : sE.TopNonzero)
    (hScans : ¬Scans (rsaTransCalls sIn sE sN)) :
    ∃ out, rsaTrans sIn sE sN = .ok out ∧
      out.numeral.value = sIn.numeral.value ^ sE.numeral.value % sN.numeral.value ∧
      out.numeral.value < sN.numeral.value := by
  have hRoom {x : SBigInt} (h : x.iLength32 ≤ Numeral.maxModulusLength) :
      x.iLength32 ≤ bigintMaxlen := h.trans (by decide)
  have hIn := hLength.trans hN
  have hLengthN := SBigInt.length_numeral (hRoom hN)
  have hLengthIn := SBigInt.length_numeral (hRoom hIn)
  have hLengthE := SBigInt.length_numeral (hRoom hE)
  have hHoldsE := SBigInt.holds_numeral (hRoom hE)
  have hSet := hETop.pow_le (hRoom hE)
  let n := sN.modulus hNTop (hRoom hN)
  let e := sE.numeral
  have hePos : 0 < e.length := hLengthE.symm ▸ hETop.length_pos
  obtain ⟨top, hTop, hTopValue⟩ := Numeral.fromTop_toBig (x := e) Nat.one_pos hePos
    hHoldsE.length_le
  have hCount : sE.iLength32 * 32 - 32 + countBits 64 top.toNat - 1 = e.topBit := by
    rw [← hLengthE]
    exact Numeral.countBits_topBit hePos hTopValue
  have hRaised : e.raised = e.value := by
    rw [Numeral.raised_eq, if_pos]
    rw [Numeral.limbBase_pow] at hSet
    exact (Nat.pow_le_pow_right Nat.two_pos (Nat.sub_le _ _)).trans hSet
  have hcBelow : sIn.numeral.Below n := by
    rcases Nat.lt_or_eq_of_le hLength with hShort | hSame
    · exact Or.inl (by rwa [hLengthIn, show n.length = _ from hLengthN])
    · exact Or.inr ⟨by rwa [hLengthIn, show n.length = _ from hLengthN], hBelow⟩
  have hHoldsIn := SBigInt.holds_numeral (hRoom hIn)
  have hRun := Numeral.rsaTransLoop_or_scans (n := n) (hLengthN.trans_le hN)
    (SBigInt.holds_numeral (hRoom hN)) hHoldsIn hcBelow.length_le (hLengthIn ▸ hPos) hHoldsE
    (Numeral.topBit_lt hePos).le hHoldsIn hcBelow.length_le (hLengthIn ▸ hPos)
  rw [rsaTransCalls, hHoldsE.fromTop_eq Nat.one_pos, hTop, afterStep_ok, hCount] at hScans
  rcases hRun with ⟨z, out, hLadder, hLoop, hOut⟩ | hScan
  · obtain ⟨hzBelow, hzValue⟩ := Numeral.ladder_raised hcBelow hLadder
    refine ⟨out, ?_, ?_⟩
    · rw [rsaTrans, hHoldsE.fromTop_eq Nat.one_pos, hTop, ok_bind]
      dsimp only
      rw [hCount]
      exact hLoop
    · have hz : out.numeral.value = z.value := by
        unfold SBigInt.numeral
        rw [hOut.iLength32_eq, hOut.take_eq]
        exact z.value_limbs
      rw [hz, hzValue, hRaised]
      exact ⟨rfl, Nat.mod_lt _ n.value_pos⟩
  · exact absurd hScan hScans

/-- The base has a leading zero limb, and the modulus has two limbs. -/
theorem rsaTrans_power_twoLimbs :
    ∃ out, rsaTrans (Numeral.ofLimbs [0x10000, 0]).toBig (Numeral.ofLimbs [5]).toBig
        (Numeral.ofLimbs [15, 1]).toBig = .ok out ∧
      out.numeral.value = 0x10000 ^ 5 % (2 ^ 32 + 15) ∧ out.numeral.value < 2 ^ 32 + 15 :=
  rsaTrans_power (by decide) ⟨1, rfl, by decide⟩ (by decide) (by decide) (by decide +kernel)
    (by decide) ⟨5, rfl, by decide⟩ (by
      have hNone : (rsaTransCalls (Numeral.ofLimbs [0x10000, 0]).toBig (Numeral.ofLimbs [5]).toBig
          (Numeral.ofLimbs [15, 1]).toBig).any (fun call => scansBelow call.1 call.2) = false := by
        decide +kernel
      intro hScans
      obtain ⟨call, hMem, hScan⟩ := hScans
      exact absurd hScan (by simpa using List.any_eq_false.mp hNone call hMem))

end SignImage
