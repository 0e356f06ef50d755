import Gtexswifi.SignImage.Division
import Mathlib.Logic.Function.Basic

/-! The operations of the RSA code on bignums that are given by pointers,
two of which may point to the same bignum. The loops read and store one limb
at a time. -/
namespace SignImage

/-- The bignums that the pointers of a caller point to. -/
abbrev Objects (ρ : Type) : Type := ρ → SBigInt

namespace SBigInt

def limb (x : SBigInt) (i : Nat) : Except Fault UInt32 := inBounds x.ulValue[i]?

/-- The bignum with another limb at one index. -/
def put (x : SBigInt) (i : Nat) (d : UInt32) : SBigInt where
  iLength32 := x.iLength32
  ulValue := x.ulValue.set i d
  size := by rw [List.length_set, x.size]

def setLimb (x : SBigInt) (i : Nat) (d : UInt32) : Except Fault SBigInt :=
  if i < bigintMaxlen then .ok (x.put i d) else .error .outOfBounds

def withLength (x : SBigInt) (iLength32 : Nat) : SBigInt := { x with iLength32 := iLength32 }

/-- The loop that clears the limbs from the length on. -/
def clearAbove (x : SBigInt) : SBigInt where
  iLength32 := x.iLength32
  ulValue := x.ulValue.take x.iLength32 ++ List.replicate (bigintMaxlen - x.iLength32) 0
  size := by
    rw [List.length_append, List.length_take, List.length_replicate, x.size]
    omega

/-- The loop that decreases the length while the top limb is zero. Below
length one it reads `m_ulValue[-1]`. -/
def trimmed (x : SBigInt) : Nat → Except Fault Nat
  | 0 => .error .outOfBounds
  | length + 1 => do if (← x.limb length) = 0 then x.trimmed length else return length + 1

end SBigInt

section Programs

variable {ρ : Type} [DecidableEq ρ]

def store (s : Objects ρ) (r : ρ) (i : Nat) (d : UInt32) : Except Fault (Objects ρ) := do
  return Function.update s r (← (s r).setLimb i d)

def setLength (s : Objects ρ) (r : ρ) (iLength32 : Nat) : Objects ρ :=
  Function.update s r ((s r).withLength iLength32)

/-- A loop over the limbs with the given indices. Each pass reads a limb of
both operands, then stores one of the result. -/
def limbLoop {σ : Type} (step : σ → UInt32 → UInt32 → UInt32 × σ) (sOut sIn sIn2 : ρ) :
    List Nat → σ → Objects ρ → Except Fault (σ × Objects ρ)
  | [], carry, s => return (carry, s)
  | i :: is, carry, s => do
      let a ← (s sIn).limb i
      let b ← (s sIn2).limb i
      limbLoop step sOut sIn sIn2 is (step carry a b).2 (← store s sOut i (step carry a b).1)

def addStep (carry : Nat) (a b : UInt32) : UInt32 × Nat :=
  let sum := (a.toNat + b.toNat + carry) % 2 ^ 64
  (UInt32.ofNat sum, sum / 2 ^ 32)

def addBigintAt (sOut sIn sIn2 : ρ) (s : Objects ρ) : Except Fault (Objects ρ) := do
  let s := setLength s sOut (if (s sIn).iLength32 < (s sIn2).iLength32 then (s sIn2).iLength32
    else (s sIn).iLength32)
  let length := (s sOut).iLength32
  let (carry, s) ← limbLoop addStep sOut sIn sIn2 (List.range length) 0 s
  let s ← store s sOut length (UInt32.ofNat carry)
  return Function.update s sOut ((s sOut).withLength (length + carry)).clearAbove

def subStep (carry : Nat) (a b : UInt32) : UInt32 × Nat :=
  if b < a ∨ (a = b ∧ carry = 0) then (UInt32.ofNat (a.toNat - carry - b.toNat), 0)
  else (UInt32.ofNat (2 ^ 32 + a.toNat - carry - b.toNat), 1)

def subBigintAt (sOut sIn sIn2 : ρ) (s : Objects ρ) : Except Fault (Objects ρ) := do
  if (← cmp (s sIn) (s sIn2)) ≤ 0 then return Function.update s sOut (← movLong 0)
  else
    let s := setLength s sOut (s sIn).iLength32
    let (_, s) ← limbLoop subStep sOut sIn sIn2 (List.range (s sIn).iLength32) 0 s
    let length ← (s sOut).trimmed (s sOut).iLength32
    return Function.update s sOut ((s sOut).withLength length).clearAbove

/-- The carry of `Add_long` from the limb `i` on: the index of the limb that
takes it. The limbs before it are cleared, at most `fuel` of them. -/
def carryAt (sOut sIn : ρ) : Nat → Nat → Objects ρ → Except Fault (Nat × Objects ρ)
  | 0, _, _ => .error .outOfBounds
  | fuel + 1, i, s => do
      if (← (s sIn).limb i) = 0xffffffff then
        carryAt sOut sIn fuel (i + 1) (← store s sOut i 0)
      else
        let limb ← (s sOut).limb i
        return (i, ← store s sOut i (limb + 1))

def addLongAt (sOut sIn : ρ) (ulIn : Nat) (s : Objects ρ) : Except Fault (Objects ρ) := do
  let s := Function.update s sOut (s sIn)
  let sum := ((← (s sIn).limb 0).toNat + ulIn) % 2 ^ 64
  let s ← store s sOut 0 (UInt32.ofNat sum)
  if 0xffffffff < sum then
    let (i, s) ← carryAt sOut sIn bigintMaxlen 1 s
    return if (s sOut).iLength32 = i then setLength s sOut ((s sOut).iLength32 + 1) else s
  else return s

def divStep (ulIn carry : Nat) (a _ : UInt32) : UInt32 × Nat :=
  let div := (carry * 2 ^ 32 + a.toNat) % 2 ^ 64
  (UInt32.ofNat (div / ulIn), div - div / ulIn * ulIn)

def divLongAt (sOut sIn : ρ) (ulIn : Nat) (s : Objects ρ) : Except Fault (Objects ρ) := do
  if ulIn = 0 then .error .outOfBounds
  else
    let s := setLength s sOut (s sIn).iLength32
    if (s sIn).iLength32 = 1 then
      store s sOut 0 (UInt32.ofNat ((← (s sIn).limb 0).toNat / ulIn))
    else
      let (_, s) ← limbLoop (divStep ulIn) sOut sIn sIn (List.range (s sIn).iLength32).reverse 0 s
      let length ← shrink (s sOut).iLength32 (← (s sOut).fromTop 1)
      return Function.update s sOut ((s sOut).withLength length).clearAbove

/-- The local variables of `Div_bigint` and `Mod_bigint`. -/
inductive Temp
  | sTemp1
  | sTemp2
  | sTemp3
  deriving DecidableEq

/-- A pass of a division that estimates a quotient: the remainder before it,
the estimate, and the product that it takes away. -/
structure Estimated where
  remainder : SBigInt
  div : Nat
  product : SBigInt

/-- One pass through the loop of `Mod_bigint`, with whether it ends in
`break`. A product is never stored over one of its factors. -/
def modPassAt (sOut sIn2 : ρ) (s : Objects (Temp ⊕ ρ)) :
    Except Fault (Objects (Temp ⊕ ρ) × Bool × List Estimated) := do
  let rest := s (.inr sOut)
  let div ← rest.fromTop 1
  let num ← (s (.inr sIn2)).fromTop 1
  let len := rest.iLength32 - (s (.inr sIn2)).iLength32
  if div = num ∧ len = 0 then
    return (← subBigintAt (.inr sOut) (.inr sOut) (.inr sIn2) s, true, [])
  else
    let (div, len) ← modQuotient rest div.toNat num.toNat len
    let s := Function.update s (.inl .sTemp1) (← movLong div)
    let product ← mulBigint (s (.inr sIn2)) (s (.inl .sTemp1))
    let s := Function.update s (.inl .sTemp2) (← product.shiftLimbs len)
    let product := s (.inl .sTemp2)
    return (← subBigintAt (.inr sOut) (.inr sOut) (.inl .sTemp2) s, false, [⟨rest, div, product⟩])

/-- The loop of `Mod_bigint`, at most `fuel` passes, with the estimates of
its passes. -/
def modLoopAt (sOut sIn2 : ρ) :
    Nat → Objects (Temp ⊕ ρ) → Except Fault (Objects (Temp ⊕ ρ) × List Estimated)
  | 0, _ => .error .endless
  | fuel + 1, s => do
      if (← cmp (s (.inr sOut)) (s (.inr sIn2))) < 0 then return (s, [])
      else
        let (s, done, estimates) ← modPassAt sOut sIn2 s
        if done then return (s, estimates)
        else
          let (s, later) ← modLoopAt sOut sIn2 fuel s
          return (s, estimates ++ later)

def modBigintAt (uninit : Temp → SBigInt) (sOut sIn sIn2 : ρ) (s : Objects ρ) :
    Except Fault (Objects ρ × List Estimated) := do
  let s := Function.update s sOut (s sIn)
  let (s, estimates) ← modLoopAt sOut sIn2 (bigintStates + 1) (Sum.elim uninit s)
  return (fun r => s (.inr r), estimates)

/-- One pass through the loop of `Div_bigint`, with whether it ends in
`break`. -/
def divPassAt (sOut sIn2 : ρ) (s : Objects (Temp ⊕ ρ)) :
    Except Fault (Objects (Temp ⊕ ρ) × Bool × List Estimated) := do
  let rest := s (.inl .sTemp1)
  let div ← rest.fromTop 1
  let num ← (s (.inr sIn2)).fromTop 1
  let len := rest.iLength32 - (s (.inr sIn2)).iLength32
  if div = num ∧ len = 0 then return (← addLongAt (.inr sOut) (.inr sOut) 1 s, true, [])
  else
    let (div, len) ← modQuotient rest div.toNat num.toNat len
    let s := Function.update s (.inl .sTemp2) (← (← movLong div).shiftLimbs len)
    let s ← addBigintAt (.inr sOut) (.inr sOut) (.inl .sTemp2) s
    let product ← mulBigint (s (.inr sIn2)) (s (.inl .sTemp2))
    let s := Function.update s (.inl .sTemp3) product
    return (← subBigintAt (.inl .sTemp1) (.inl .sTemp1) (.inl .sTemp3) s, false,
      [⟨rest, div, product⟩])

/-- The loop of `Div_bigint`, at most `fuel` passes, with the estimates of
its passes. -/
def divLoopAt (sOut sIn2 : ρ) :
    Nat → Objects (Temp ⊕ ρ) → Except Fault (Objects (Temp ⊕ ρ) × List Estimated)
  | 0, _ => .error .endless
  | fuel + 1, s => do
      if (← cmp (s (.inl .sTemp1)) (s (.inr sIn2))) < 0 then return (s, [])
      else
        let (s, done, estimates) ← divPassAt sOut sIn2 s
        if done then return (s, estimates)
        else
          let (s, later) ← divLoopAt sOut sIn2 fuel s
          return (s, estimates ++ later)

def divBigintAt (uninit : Temp → SBigInt) (sOut sIn sIn2 : ρ) (s : Objects ρ) :
    Except Fault (Objects ρ × List Estimated) := do
  if (s sIn2).iLength32 = 1 then
    return (← divLongAt sOut sIn (← (s sIn2).limb 0).toNat s, [])
  else
    let s : Objects (Temp ⊕ ρ) := Sum.elim uninit s
    let s := Function.update s (.inl .sTemp1) (s (.inr sIn))
    let s := Function.update s (.inr sOut) (← movLong 0)
    let (s, estimates) ← divLoopAt sOut sIn2 (bigintStates + 1) s
    return (fun r => s (.inr r), estimates)

end Programs

end SignImage
