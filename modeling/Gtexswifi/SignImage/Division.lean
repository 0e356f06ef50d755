import Gtexswifi.SignImage.Multiplication
import Gtexswifi.SignImage.Reduction

/-! The operations of the RSA code on a bignum and an `unsigned long`, and
`Div_bigint`. Some of them leave limbs of `sOut` as they were. -/
namespace SignImage

open Radix

namespace SBigInt

/-- The limb `m_ulValue[0]`. -/
def low (x : SBigInt) : Except Fault UInt32 := inBounds x.ulValue[0]?

/-- The bignum with another length and other limbs at the start of the
array. -/
def withLimbs (x : SBigInt) (iLength32 : Nat) (limbs : List UInt32) : Except Fault SBigInt :=
  if h : limbs.length ≤ bigintMaxlen then
    .ok {
      iLength32 := iLength32
      ulValue := limbs ++ x.ulValue.drop limbs.length
      size := by
        rw [List.length_append, List.length_drop, x.size]
        omega }
  else .error .outOfBounds

end SBigInt

/-- The length after a top limb of zero was dropped. With no limb left to
drop it becomes `-1`, which the loop that clears the limbs above uses as an
index. -/
def shrink (iLength32 : Nat) (top : UInt32) : Except Fault Nat :=
  if top ≠ 0 then .ok iLength32
  else if iLength32 = 0 then .error .outOfBounds
  else .ok (iLength32 - 1)

/-- The carry of `Add_long`: the limbs of ones are cleared, and the next
limb is increased. The result is the new limbs with the index of the last
one of them, counted from `i`. -/
def carryUp (i : Nat) : List UInt32 → Except Fault (List UInt32 × Nat)
  | [] => .error .outOfBounds
  | d :: rest =>
      if d = 0xffffffff then do
        let (limbs, last) ← carryUp (i + 1) rest
        return (0 :: limbs, last)
      else .ok ([d + 1], i)

def addLong (sIn : SBigInt) (ulIn : Nat) : Except Fault SBigInt := do
  let sum := ((← sIn.low).toNat + ulIn) % 2 ^ 64
  if 0xffffffff < sum then
    let (limbs, i) ← carryUp 1 (sIn.ulValue.drop 1)
    sIn.withLimbs (if sIn.iLength32 = i then sIn.iLength32 + 1 else sIn.iLength32)
      (UInt32.ofNat sum :: limbs)
  else sIn.withLimbs sIn.iLength32 [UInt32.ofNat sum]

/-- The borrow of `Sub_long`: the limbs of zero become ones, and the next
limb is decreased. The result is the new limbs and the last one of them. -/
def borrowUp : List UInt32 → Except Fault (List UInt32 × UInt32)
  | [] => .error .outOfBounds
  | d :: rest =>
      if d = 0 then do
        let (limbs, last) ← borrowUp rest
        return (0xffffffff :: limbs, last)
      else .ok ([d - 1], d - 1)

/-- With a borrow, the limbs above the last one that changes are left as
they were in `sOut`, and the length shrinks when that one becomes zero. -/
def subLong (sOut sIn : SBigInt) (ulIn : Nat) : Except Fault SBigInt := do
  let low ← sIn.low
  if ulIn ≤ low.toNat then sIn.withLimbs sIn.iLength32 [UInt32.ofNat (low.toNat - ulIn)]
  else if sIn.iLength32 = 1 then movLong 0
  else
    let num := 2 ^ 32 + low.toNat
    let (limbs, last) ← borrowUp (sIn.ulValue.drop 1)
    let length ← shrink sIn.iLength32 last
    let stored ← sOut.withLimbs length (UInt32.ofNat ((num + 2 ^ 64 - ulIn) % 2 ^ 64) :: limbs)
    SBigInt.ofLimbs (← stored.limbs length)

/-- The loop of `Div_long`, from the most significant limb down. -/
def divLimbs (ulIn carry : Nat) : List UInt32 → List UInt32
  | [] => []
  | a :: as =>
      let div := (carry * 2 ^ 32 + a.toNat) % 2 ^ 64
      UInt32.ofNat (div / ulIn) :: divLimbs ulIn (div - div / ulIn * ulIn) as

/-- A division by zero is undefined, too. A quotient of one limb leaves the
limbs above it as they were in `sOut`. -/
def divLong (sOut sIn : SBigInt) (ulIn : Nat) : Except Fault SBigInt := do
  if ulIn = 0 then .error .outOfBounds
  else if sIn.iLength32 = 1 then
    sOut.withLimbs 1 [UInt32.ofNat ((← sIn.low).toNat / ulIn)]
  else
    let limbs ← sIn.limbs sIn.iLength32
    match divLimbs ulIn 0 limbs.reverse with
    | [] => .error .outOfBounds
    | top :: rest => SBigInt.ofLimbs (if top = 0 then rest.reverse else (top :: rest).reverse)

/-- The loop of `Mod_long`, from the most significant limb down. -/
def modLimbs (ulIn : Nat) : Nat → List UInt32 → Nat
  | carry, [] => carry
  | carry, a :: as => modLimbs ulIn ((a.toNat + carry * 2 ^ 32) % 2 ^ 64 % ulIn) as

def modLong (sIn : SBigInt) (ulIn : Nat) : Except Fault Nat := do
  if ulIn = 0 then .error .outOfBounds
  else if sIn.iLength32 = 1 then return (← sIn.low).toNat % ulIn
  else return modLimbs ulIn 0 (← sIn.limbs sIn.iLength32).reverse

/-- One pass through the loop of `Div_bigint`: the quotient and the rest,
with whether it ends in `break`. -/
def divPass (sIn2 sOut sTemp1 : SBigInt) : Except Fault (SBigInt × SBigInt × Bool) := do
  let div ← sTemp1.fromTop 1
  let num ← sIn2.fromTop 1
  let len := sTemp1.iLength32 - sIn2.iLength32
  if div = num ∧ len = 0 then
    return (← addLong sOut 1, sTemp1, true)
  else
    let (div, len) ← modQuotient sTemp1 div.toNat num.toNat len
    let sTemp2 ← (← movLong div).shiftLimbs len
    let sOut ← addBigint sOut sTemp2
    let sTemp3 ← mulBigint sIn2 sTemp2
    return (sOut, ← subBigint sTemp1 sTemp3, false)

/-- The loop of `Div_bigint`, at most `fuel` passes. -/
def divLoop (sIn2 : SBigInt) : Nat → SBigInt → SBigInt → Except Fault SBigInt
  | 0, _, _ => .error .endless
  | fuel + 1, sOut, sTemp1 => do
      if (← cmp sTemp1 sIn2) < 0 then return sOut
      else
        let (sOut, sTemp1, done) ← divPass sIn2 sOut sTemp1
        if done then return sOut else divLoop sIn2 fuel sOut sTemp1

def divBigint (sOut sIn sIn2 : SBigInt) : Except Fault SBigInt := do
  if sIn2.iLength32 = 1 then divLong sOut sIn (← sIn2.low).toNat
  else divLoop sIn2 (bigintStates + 1) (← movLong 0) sIn

/-- Long division: the quotient of the carry in front of the limbs. -/
theorem divLimbs_spec {ulIn : Nat} (hPos : 0 < ulIn) (hIn : ulIn < limbBase) (as : List UInt32)
    {carry : Nat} (hCarry : carry < ulIn) :
    (divLimbs ulIn carry as).length = as.length ∧
      value (divLimbs ulIn carry as).reverse =
        (limbBase ^ as.length * carry + value as.reverse) / ulIn := by
  induction as generalizing carry with
  | nil =>
      refine ⟨rfl, ?_⟩
      simp [divLimbs, Nat.div_eq_of_lt hCarry]
  | cons a as ih =>
      have ha : a.toNat < limbBase := a.toNat_lt
      have hDiv : (carry * 2 ^ 32 + a.toNat) % 2 ^ 64 = carry * limbBase + a.toNat := by
        apply Nat.mod_eq_of_lt
        simp only [limbBase] at *
        omega
      have hQuotient : (carry * limbBase + a.toNat) / ulIn < limbBase := by
        rw [Nat.div_lt_iff_lt_mul hPos]
        calc
          carry * limbBase + a.toNat < carry * limbBase + limbBase := Nat.add_lt_add_left ha _
          _ = (carry + 1) * limbBase := (Nat.succ_mul _ _).symm
          _ ≤ ulIn * limbBase := Nat.mul_le_mul_right _ hCarry
          _ = limbBase * ulIn := Nat.mul_comm _ _
      have hRest : carry * limbBase + a.toNat - (carry * limbBase + a.toNat) / ulIn * ulIn =
          (carry * limbBase + a.toNat) % ulIn := by
        rw [Nat.mod_def, Nat.mul_comm ulIn]
      rw [divLimbs, hDiv, hRest]
      obtain ⟨ihLength, ihValue⟩ := ih (Nat.mod_lt (carry * limbBase + a.toNat) hPos)
      refine ⟨congrArg (· + 1) ihLength, ?_⟩
      rw [List.reverse_cons, List.reverse_cons, value_append, value_append, value_singleton,
        value_singleton, List.length_reverse, List.length_reverse, ihLength, ihValue,
        base_uint32, toNat_uint32, toNat_uint32, UInt32.toNat_ofNat_of_lt' hQuotient,
        List.length_cons]
      generalize hn : carry * limbBase + a.toNat = n
      have hSplit : limbBase ^ (as.length + 1) * carry +
          (value as.reverse + limbBase ^ as.length * a.toNat) =
            limbBase ^ as.length * (n % ulIn) + value as.reverse +
              ulIn * (limbBase ^ as.length * (n / ulIn)) := by
        calc
          _ = limbBase ^ as.length * n + value as.reverse := by
            rw [← hn]
            ring
          _ = limbBase ^ as.length * (ulIn * (n / ulIn) + n % ulIn) + value as.reverse := by
            rw [Nat.div_add_mod]
          _ = _ := by ring
      rw [hSplit, Nat.add_mul_div_left _ _ hPos]

/-- The lowest limb of a stored numeral is its value, cut to a limb. -/
theorem low_toBig (x : Numeral) : x.toBig.low = .ok (UInt32.ofNat x.value) := by
  have hLow := getElem?_encode (α := UInt32) x.value (show 0 < bigintMaxlen by decide)
  rw [Nat.pow_zero, Nat.div_one] at hLow
  rw [SBigInt.low, Numeral.toBig, hLow]
  rfl

/-- New limbs at the bottom of an object make it hold their numeral, with
the older ones above. -/
theorem withLimbs_holds (x : SBigInt) {limbs : List UInt32} (h : limbs.length ≤ bigintMaxlen) :
    ∃ y, x.withLimbs limbs.length limbs = .ok y ∧ y.Holds (.ofLimbs limbs) := by
  refine ⟨_, dif_pos h, rfl, ?_⟩
  rw [SBigInt.limbs, Numeral.length_ofLimbs, if_pos h, List.take_left]
  exact congrArg Except.ok (encode_value limbs).symm

/-- The quotient limbs without a zero on top. A number that reaches its top
limb has a quotient that reaches the limb below it. -/
theorem dropTop_normal {v d : Nat} (hPos : 0 < d) (hd : d < limbBase) {top : UInt32}
    {rest : List UInt32} (hRest : rest ≠ []) (hTop : limbBase ^ rest.length ≤ v)
    (hValue : value (top :: rest).reverse = v / d) :
    Numeral.ofLimbs (if top = 0 then rest.reverse else (top :: rest).reverse) =
      .normal (v / d) := by
  have hSplit : value (top :: rest).reverse =
      value rest.reverse + limbBase ^ rest.length * top.toNat := by
    rw [List.reverse_cons, value_append, value_singleton, List.length_reverse]
    rfl
  have hLength : 0 < rest.length := List.length_pos_of_ne_nil hRest
  split
  · next hZero =>
      have hQuotient := hSplit.symm.trans hValue
      rw [hZero, UInt32.toNat_zero, Nat.mul_zero, Nat.add_zero] at hQuotient
      rw [← hQuotient]
      apply Numeral.eq_normal
      · rwa [Numeral.length_ofLimbs, List.length_reverse]
      · rw [Numeral.length_ofLimbs, List.length_reverse, Numeral.value_ofLimbs, hQuotient,
          Nat.le_div_iff_mul_le hPos]
        calc
          limbBase ^ (rest.length - 1) * d ≤ limbBase ^ (rest.length - 1) * limbBase :=
            Nat.mul_le_mul_left _ hd.le
          _ = limbBase ^ rest.length := by
            rw [← Nat.pow_succ, Nat.succ_eq_add_one, Nat.sub_add_cancel hLength]
          _ ≤ v := hTop
  · next hNonzero =>
      have hPositive : 0 < top.toNat := Nat.pos_of_ne_zero fun hNone =>
        hNonzero (UInt32.toNat_inj.mp hNone)
      rw [← hValue]
      apply Numeral.eq_normal
      · simp
      · rw [Numeral.length_ofLimbs, List.length_reverse, List.length_cons, Nat.add_sub_cancel,
          Numeral.value_ofLimbs, hSplit]
        exact le_add_left (Nat.le_mul_of_pos_right _ hPositive)

/-- Division by a limb, of a number without zero limbs at its top. -/
theorem divLong_normal (sOut : SBigInt) {v : Nat} {d : UInt32} (hd : d.toNat ≠ 0)
    (hMax : (Numeral.normal v).length ≤ bigintMaxlen) :
    ∃ quotient, divLong sOut (Numeral.normal v).toBig d.toNat = .ok quotient ∧
      quotient.Holds (.normal (v / d.toNat)) := by
  have hPos := Nat.pos_of_ne_zero hd
  have hBounded := (Numeral.normal v).bounded
  rw [Numeral.value_normal] at hBounded
  unfold divLong
  rw [if_neg hd, Numeral.iLength32_toBig]
  by_cases hOne : (Numeral.normal v).length = 1
  · rw [hOne, Nat.pow_one] at hBounded
    have hQuotient : v / d.toNat < limbBase := (Nat.div_le_self _ _).trans_lt hBounded
    have hLimb : (UInt32.ofNat v).toNat = v := UInt32.toNat_ofNat_of_lt' hBounded
    have hNormal : Numeral.ofLimbs [UInt32.ofNat (v / d.toNat)] = .normal (v / d.toNat) := by
      apply Numeral.ext
      · rw [Numeral.value_ofLimbs, value_singleton]
        exact toNat_ofNat_of_lt (α := UInt32) hQuotient
      · exact (Numeral.length_normal_limb hQuotient).symm
    rw [if_pos hOne, low_toBig, ok_bind, Numeral.value_normal, hLimb, ← hNormal]
    exact withLimbs_holds sOut (show 1 ≤ bigintMaxlen by decide)
  · obtain ⟨hLength, hValue⟩ :=
      divLimbs_spec hPos d.toNat_lt (Numeral.normal v).limbs.reverse hPos
    have hLimbs : (Numeral.normal v).toBig.limbs (Numeral.normal v).length =
        .ok (Numeral.normal v).limbs := Numeral.limbs_toBig _ hMax
    have hLong : 2 ≤ (Numeral.normal v).length := by
      have hSome := Numeral.length_normal_pos v
      omega
    have hv : 0 < v := by
      apply Nat.pos_of_ne_zero
      intro hNone
      rw [hNone] at hOne
      exact hOne rfl
    rw [Nat.mul_zero, Nat.zero_add, List.reverse_reverse, Numeral.value_limbs,
      Numeral.value_normal] at hValue
    rw [List.length_reverse, Numeral.length_limbs] at hLength
    rw [if_neg hOne, hLimbs, ok_bind]
    revert hLength hValue
    cases divLimbs d.toNat 0 (Numeral.normal v).limbs.reverse with
    | nil =>
        intro hLength
        rw [List.length_nil] at hLength
        omega
    | cons top rest =>
        intro hLength hValue
        rw [List.length_cons] at hLength
        have hRest : rest ≠ [] := List.ne_nil_of_length_pos (by omega)
        have hTop : limbBase ^ rest.length ≤ v := by
          have hReached := Numeral.pow_le_normal hv
          rwa [← hLength, Nat.add_sub_cancel] at hReached
        have hNormal := dropTop_normal hPos d.toNat_lt hRest hTop hValue
        have hFits : (if top = 0 then rest.reverse else (top :: rest).reverse).length ≤
            bigintMaxlen := by
          split
          · rw [List.length_reverse]
            omega
          · rw [List.length_reverse, List.length_cons]
            omega
        refine ⟨_, Numeral.ofLimbs_toBig hFits, ?_⟩
        rw [← hNormal]
        exact Numeral.holds_toBig hFits

end SignImage
