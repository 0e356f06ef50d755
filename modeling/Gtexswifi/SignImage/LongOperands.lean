import Gtexswifi.SignImage.Division

/-! `Add_long` on a number without zero limbs at its top: the carry goes up
over limbs of ones, and the length grows when it leaves the top limb. -/
namespace SignImage

open Radix

/-- A limb of ones. -/
abbrev allOnes : UInt32 := 0xffffffff

theorem value_allOnes (k : Nat) : value (List.replicate k allOnes) + 1 = limbBase ^ k := by
  induction k with
  | zero => rfl
  | succ k ih =>
      rw [List.replicate_succ, value_cons, Nat.pow_succ', ← ih]
      change limbBase - 1 + limbBase * _ + 1 = _
      have hBase := limbBase_pos
      rw [Nat.mul_add, Nat.mul_one]
      omega

/-- A limb that is not all ones is counted up without overflow. -/
theorem toNat_succ {d : UInt32} (h : d ≠ allOnes) : (d + 1).toNat = d.toNat + 1 := by
  have hLess : d.toNat ≠ 2 ^ 32 - 1 := fun hSame => h (UInt32.toNat_inj.mp hSame)
  have hBound := d.toNat_lt
  rw [UInt32.toNat_add, show (1 : UInt32).toNat = 1 from rfl]
  omega

/-- The carry clears the limbs of ones and ends in the limb behind them. -/
theorem carryUp_eq (i : Nat) {limbs : List UInt32} (h : value limbs + 1 < limbBase ^ limbs.length) :
    ∃ (k : Nat) (d : UInt32) (rest : List UInt32),
      limbs = List.replicate k allOnes ++ d :: rest ∧ d ≠ allOnes ∧
        carryUp i limbs = .ok (List.replicate k 0 ++ [d + 1], i + k) := by
  induction limbs generalizing i with
  | nil => exact absurd h (by decide)
  | cons d limbs ih =>
      by_cases hOnes : d = allOnes
      · have hRest : value limbs + 1 < limbBase ^ limbs.length := by
          rw [hOnes, value_cons, List.length_cons, Nat.pow_succ'] at h
          change limbBase - 1 + limbBase * _ + 1 < _ at h
          have hBase := limbBase_pos
          apply Nat.lt_of_mul_lt_mul_left (a := limbBase)
          rw [Nat.mul_add, Nat.mul_one]
          omega
        obtain ⟨k, d', rest, rfl, hNe, hCarry⟩ := ih (i + 1) hRest
        refine ⟨k + 1, d', rest, ?_, hNe, ?_⟩
        · rw [hOnes, List.replicate_succ]
          rfl
        · rw [carryUp, if_pos hOnes, hCarry, List.replicate_succ, Nat.add_right_comm, Nat.add_assoc]
          rfl
      · exact ⟨0, d, limbs, rfl, hOnes, if_neg hOnes⟩

namespace Numeral

/-- Numbers that differ in the lowest limb only have one length. -/
theorem length_normal_of_div {v w : Nat} (h : v / limbBase = w / limbBase) :
    (normal v).length = (normal w).length := by
  have hLog := congrArg (Nat.log limbBase) h
  rw [Nat.log_div_base, Nat.log_div_base] at hLog
  have hLength : Nat.log limbBase v = Nat.log limbBase w := by
    by_cases hv : v < limbBase
    · have hw : w < limbBase := by
        rw [Nat.div_eq_of_lt hv] at h
        exact (Nat.div_eq_zero_iff_lt limbBase_pos).mp h.symm
      rw [Nat.log_of_lt hv, Nat.log_of_lt hw]
    · have hw : limbBase ≤ w := by
        have hPositive := Nat.div_pos (Nat.not_lt.mp hv) limbBase_pos
        rw [h] at hPositive
        exact (Nat.div_pos_iff.mp hPositive).2
      have hvLog := Nat.log_pos (show 1 < limbBase by decide) (Nat.not_lt.mp hv)
      have hwLog := Nat.log_pos (show 1 < limbBase by decide) hw
      omega
  exact congrArg (· + 1) hLength

end Numeral

open Numeral (normal)

/-- A power of the base with any lowest limb. -/
theorem length_normal_power {m s : Nat} (hs : s < limbBase) :
    (normal (limbBase * limbBase ^ m + s)).length = m + 2 := by
  have hPower (n : Nat) : limbBase ^ (n + 1) = limbBase * limbBase ^ n := Nat.pow_succ'
  apply Numeral.length_normal_eq
  · rw [hPower]
    exact Nat.le_add_right _ _
  · have hMore : limbBase * limbBase ^ m * 2 ≤ limbBase * limbBase ^ m * limbBase :=
      Nat.mul_le_mul_left _ (by decide)
    have hOne : limbBase ≤ limbBase * limbBase ^ m :=
      Nat.le_mul_of_pos_right _ (Nat.pow_pos limbBase_pos)
    rw [Nat.pow_succ, hPower]
    omega

/-- Above the lowest limb one more changes nothing of the length, below the
next power. -/
theorem length_normal_above_low {v m s : Nat} (hs : s < limbBase) (hv : 0 < v)
    (hm : (normal v).length = m + 1) (hBelow : v / limbBase + 1 < limbBase ^ m) :
    (normal (limbBase * (v / limbBase + 1) + s)).length = m + 1 := by
  have hUnder := Numeral.pow_le_normal hv
  rw [hm] at hUnder
  have hSplit := Nat.lt_mul_div_succ v limbBase_pos
  apply Numeral.length_normal_eq
  · exact hUnder.trans (by omega)
  · have hNext : limbBase * (v / limbBase + 1) + limbBase ≤ limbBase * limbBase ^ m := by
      rw [← Nat.mul_succ]
      exact Nat.mul_le_mul_left _ hBelow
    rw [Nat.pow_succ']
    omega

/-- The carry makes the number longer when it ends above the top limb, and
only then. -/
theorem length_carry {v s e rest k : Nat} (hs : s < limbBase) (hTop : e + 1 < limbBase)
    (hHigh : v / limbBase + 1 = limbBase ^ k * (e + 1 + limbBase * rest)) :
    (normal (limbBase * (v / limbBase + 1) + s)).length =
      if (normal v).length = k + 1 then (normal v).length + 1 else (normal v).length := by
  have hReached : limbBase ^ k ≤ v / limbBase + 1 := by
    rw [hHigh]
    exact Nat.le_mul_of_pos_right _ (by omega)
  obtain ⟨m, hm⟩ := Nat.exists_eq_succ_of_ne_zero (Numeral.length_normal_pos v).ne'
  have hBounded : v / limbBase < limbBase ^ m := by
    apply Nat.div_lt_of_lt_mul
    rw [← Nat.pow_succ', ← hm]
    exact (normal v).bounded
  have hNotShort : k ≤ m := by
    by_contra hShort
    have hLess : limbBase ^ m < limbBase ^ k :=
      Nat.pow_lt_pow_right (by decide) (Nat.not_le.mp hShort)
    omega
  split
  · next hSame =>
      obtain rfl : m = k := by omega
      have hFull : v / limbBase + 1 = limbBase ^ m := Nat.le_antisymm hBounded hReached
      rw [hFull, hSame]
      exact length_normal_power hs
  · next hOther =>
      have hv : 0 < v := by
        apply Nat.pos_of_ne_zero
        intro hNone
        have hZero : m = 0 := by
          have hOne : (normal 0).length = 1 := rfl
          rw [hNone, hOne] at hm
          exact (Nat.succ.inj hm).symm
        omega
      have hBelow : v / limbBase + 1 < limbBase ^ m := by
        apply Nat.lt_of_le_of_ne hBounded
        intro hSucc
        have hFull : v / limbBase + 1 = limbBase ^ m := hSucc
        obtain ⟨n, rfl⟩ : ∃ n, m = k + (n + 1) := ⟨m - k - 1, by omega⟩
        rw [hHigh, Nat.pow_add] at hFull
        have hSame := Nat.eq_of_mul_eq_mul_left (Nat.pow_pos limbBase_pos) hFull
        have hRest := congrArg (· % limbBase) hSame
        simp only [Nat.pow_succ', Nat.add_mul_mod_self_left, Nat.mul_mod_right,
          Nat.mod_eq_of_lt hTop] at hRest
        omega
      rw [hm]
      exact length_normal_above_low hs hv hm hBelow

/-- The limbs of a number above the lowest one. -/
theorem ulValue_normal (v : Nat) :
    (normal v).toBig.ulValue = UInt32.ofNat v :: encode 65 (v / limbBase) := rfl

theorem limbBase_pow_bigintMaxlen : limbBase ^ bigintMaxlen = limbBase * limbBase ^ 65 :=
  Nat.pow_succ'

/-- The limbs above a lowest limb that overflows, with the carry. -/
theorem carryUp_normal {v sum : Nat} (hCarry : limbBase ≤ sum)
    (h : limbBase * (v / limbBase) + sum < limbBase ^ bigintMaxlen) :
    (carryUp 1 (encode 65 (v / limbBase)) >>= fun (limbs, i) =>
      (normal v).toBig.withLimbs
        (if (normal v).toBig.iLength32 = i then (normal v).toBig.iLength32 + 1
          else (normal v).toBig.iLength32) (UInt32.ofNat sum :: limbs)) =
      .ok (normal (limbBase * (v / limbBase) + (limbBase + sum % limbBase))).toBig := by
  have hFirst : (UInt32.ofNat sum).toNat = sum % limbBase := Digit.toNat_ofNat (α := UInt32) sum
  have hNumber : limbBase * (v / limbBase) + (limbBase + sum % limbBase) =
      limbBase * (v / limbBase + 1) + sum % limbBase := by
    rw [Nat.mul_add, Nat.mul_one, Nat.add_assoc]
  have hNext : v / limbBase + 1 < limbBase ^ 65 := by
    apply Nat.lt_of_mul_lt_mul_left (a := limbBase)
    rw [← limbBase_pow_bigintMaxlen, Nat.mul_add, Nat.mul_one]
    omega
  have hHigh : value (encode 65 (v / limbBase) : List UInt32) = v / limbBase := by
    apply value_encode_of_lt (α := UInt32)
    rw [base_uint32]
    exact (Nat.lt_succ_self _).trans hNext
  have hRoom : value (encode 65 (v / limbBase) : List UInt32) + 1 <
      limbBase ^ (encode 65 (v / limbBase) : List UInt32).length := by
    rwa [hHigh, length_encode]
  obtain ⟨k, e, rest, hLimbs, hNe, hUp⟩ := carryUp_eq 1 hRoom
  have hTop : e.toNat + 1 < limbBase := by
    rw [← toNat_succ hNe]
    exact (e + 1).toNat_lt
  have hValue : v / limbBase + 1 = limbBase ^ k * (e.toNat + 1 + limbBase * value rest) := by
    rw [← hHigh, hLimbs, value_append, value_cons, List.length_replicate, Nat.add_right_comm,
      value_allOnes, base_uint32]
    change _ + limbBase ^ k * (e.toNat + _) = _
    ring
  have hLength : k + (rest.length + 1) = 65 := by
    have hStill := congrArg List.length hLimbs
    rw [length_encode, List.length_append, List.length_replicate, List.length_cons] at hStill
    exact hStill.symm
  have hFits : (UInt32.ofNat sum :: (List.replicate k 0 ++ [e + 1])).length ≤ bigintMaxlen := by
    simp only [List.length_cons, List.length_append, List.length_replicate, List.length_nil]
    rw [bigintMaxlen]
    omega
  rw [hUp, ok_bind, hNumber]
  dsimp only
  rw [SBigInt.withLimbs, dif_pos hFits]
  refine congrArg Except.ok (SBigInt.eq_of ?_ ?_)
  · change (if (normal v).length = 1 + k then (normal v).length + 1 else (normal v).length) = _
    rw [Nat.add_comm 1 k]
    exact (length_carry (Nat.mod_lt _ limbBase_pos) hTop hValue).symm
  · have hBehind : (normal v).toBig.ulValue.drop (UInt32.ofNat sum ::
        (List.replicate k 0 ++ [e + 1])).length = rest := by
      have hShape : (normal v).toBig.ulValue =
          (UInt32.ofNat v :: (List.replicate k allOnes ++ [e])) ++ rest := by
        rw [ulValue_normal, hLimbs]
        simp
      rw [hShape]
      apply List.drop_left'
      simp
    change _ ++ (normal v).toBig.ulValue.drop _ =
      encode bigintMaxlen (limbBase * (v / limbBase + 1) + sum % limbBase)
    rw [hBehind]
    apply eq_encode
    · simp only [List.length_append, List.length_cons, List.length_replicate, List.length_nil]
      rw [bigintMaxlen]
      omega
    · rw [List.cons_append, List.append_assoc, value_cons, value_append,
        value_replicate rfl, List.length_replicate, List.singleton_append, value_cons,
        base_uint32, toNat_uint32, toNat_uint32, hFirst, toNat_succ hNe, Nat.zero_add, ← hValue,
        Nat.add_comm]

/-- A lowest limb that does not overflow is stored over the old one. -/
theorem withLimbs_lowest {v sum : Nat} (hFits : sum < limbBase) :
    (normal v).toBig.withLimbs (normal v).toBig.iLength32 [UInt32.ofNat sum] =
      .ok (normal (limbBase * (v / limbBase) + sum)).toBig := by
  have hOne : [UInt32.ofNat sum].length ≤ bigintMaxlen := Nat.le_add_left 1 65
  have hHigh : (limbBase * (v / limbBase) + sum) / limbBase = v / limbBase := by
    rw [Nat.mul_add_div limbBase_pos, Nat.div_eq_of_lt hFits, Nat.add_zero]
  have hLast : UInt32.ofNat (limbBase * (v / limbBase) + sum) = UInt32.ofNat sum := by
    apply UInt32.toNat_inj.mp
    rw [UInt32.toNat_ofNat', UInt32.toNat_ofNat']
    exact Nat.mul_add_mod _ _ _
  rw [SBigInt.withLimbs, dif_pos hOne]
  refine congrArg Except.ok (SBigInt.eq_of ?_ ?_)
  · exact (Numeral.length_normal_of_div hHigh).symm
  · change _ :: (normal v).toBig.ulValue.drop 1 = (normal _).toBig.ulValue
    rw [ulValue_normal, ulValue_normal, hLast, hHigh]
    rfl

/-- `Add_long` carries one out of the lowest limb when the sum does not fit
it. -/
theorem addLong_carried {v d : Nat} (h : v + d < limbBase ^ bigintMaxlen) :
    let sum := (v % limbBase + d) % 2 ^ 64
    addLong (normal v).toBig d = .ok (normal (limbBase * (v / limbBase) +
      if 0xffffffff < sum then limbBase + sum % limbBase else sum)).toBig := by
  have hSplit : limbBase * (v / limbBase) + v % limbBase = v := Nat.div_add_mod v limbBase
  have hLimb : (UInt32.ofNat v).toNat = v % limbBase := Digit.toNat_ofNat (α := UInt32) v
  have hSum : (v % limbBase + d) % 2 ^ 64 ≤ v % limbBase + d := Nat.mod_le _ _
  dsimp only
  unfold addLong
  rw [low_toBig, ok_bind, Numeral.value_normal, hLimb]
  dsimp only
  generalize (v % limbBase + d) % 2 ^ 64 = sum at hSum
  rw [ulValue_normal, List.drop_one, List.tail_cons]
  split
  · next hOver => exact carryUp_normal hOver (by omega)
  · next hSmall => exact withLimbs_lowest (Nat.lt_succ_of_le (Nat.le_of_not_lt hSmall))

/-- `Add_long` adds a limb to a number. -/
theorem addLong_normal {v : Nat} {d : UInt32} (h : v + d.toNat < limbBase ^ bigintMaxlen) :
    addLong (normal v).toBig d.toNat = .ok (normal (v + d.toNat)).toBig := by
  have hd : d.toNat < limbBase := d.toNat_lt
  have hLow : v % limbBase < limbBase := Nat.mod_lt _ limbBase_pos
  have hSplit : limbBase * (v / limbBase) + v % limbBase = v := Nat.div_add_mod v limbBase
  have hSum : (v % limbBase + d.toNat) % 2 ^ 64 = v % limbBase + d.toNat := by
    apply Nat.mod_eq_of_lt
    rw [limbBase] at *
    omega
  have hCarried : limbBase * (v / limbBase) + (if 0xffffffff < v % limbBase + d.toNat then
      limbBase + (v % limbBase + d.toNat) % limbBase else v % limbBase + d.toNat) =
        v + d.toNat := by
    split
    · next hOver =>
        have hCarry : limbBase ≤ v % limbBase + d.toNat := hOver
        rw [Nat.mod_eq_sub_mod hCarry, Nat.mod_eq_of_lt (by omega)]
        omega
    · omega
  rw [addLong_carried h, hSum, hCarried]

end SignImage
