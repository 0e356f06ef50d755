import Gtexswifi.Library.Radix

/-! The bignum of the RSA code: 66 limbs of 32 bits with a current length,
and the operations that `RsaTrans` is made of. `unsigned long` has 64 bits. -/
namespace SignImage

/-- What ends a run without a result. After an `overrun`, a write behind the
array that a function of a library was given, the program goes on over other
memory, and nothing is promised of what it returns. -/
inductive Fault
  | outOfBounds
  | endless
  | overrun
  deriving DecidableEq, Repr

/-- A defined value, or a fault for a read or a write outside its object. -/
def inBounds {α : Type} : Option α → Except Fault α
  | some a => .ok a
  | none => .error .outOfBounds

/-- The same for what a library writes to a place whose size it is not told. -/
def inArray {α : Type} : Option α → Except Fault α
  | some a => .ok a
  | none => .error .overrun

@[simp] theorem ok_bind {α β : Type} (a : α) (f : α → Except Fault β) :
    (Except.ok a >>= f) = f a := rfl

@[simp] theorem error_bind {α β : Type} (fault : Fault) (f : α → Except Fault β) :
    (Except.error fault >>= f) = .error fault := rfl

@[simp] theorem pure_eq_ok {α : Type} (a : α) : (pure a : Except Fault α) = .ok a := rfl

/-- A computation succeeds exactly if its first part does and the rest
succeeds on the result. -/
theorem bind_eq_ok {α β : Type} {x : Except Fault α} {f : α → Except Fault β} {b : β} :
    (x >>= f) = .ok b ↔ ∃ a, x = .ok a ∧ f a = .ok b := by
  cases x <;> simp

theorem ok_unique {α : Type} {x : Except Fault α} {a b : α} (ha : x = .ok a) (hb : x = .ok b) :
    a = b :=
  Except.ok.inj (ha.symm.trans hb)

def bigintMaxlen : Nat := 66

structure SBigInt where
  iLength32 : Nat
  ulValue : List UInt32
  size : ulValue.length = bigintMaxlen
  deriving DecidableEq

/-- The value of `RSA_initialize`: zero of length one. -/
def rsaInitialize : SBigInt where
  iLength32 := 1
  ulValue := List.replicate bigintMaxlen 0
  size := List.length_replicate

namespace SBigInt

/-- The limbs `m_ulValue[0..count)`. -/
def limbs (x : SBigInt) (count : Nat) : Except Fault (List UInt32) :=
  if count ≤ bigintMaxlen then .ok (x.ulValue.take count) else .error .outOfBounds

/-- The limb `m_ulValue[m_iLength32 - k]`. -/
def fromTop (x : SBigInt) (k : Nat) : Except Fault UInt32 :=
  if k ≤ x.iLength32 then inBounds x.ulValue[x.iLength32 - k]? else .error .outOfBounds

/-- Limbs stored from index zero on, with the rest of the array cleared. -/
def ofLimbs (limbs : List UInt32) : Except Fault SBigInt :=
  if h : limbs.length ≤ bigintMaxlen then
    .ok {
      iLength32 := limbs.length
      ulValue := limbs ++ List.replicate (bigintMaxlen - limbs.length) 0
      size := by rw [List.length_append, List.length_replicate, Nat.add_sub_cancel' h] }
  else .error .outOfBounds

/-- The loops that move every limb up by `len` places and clear the places
below. -/
def shiftLimbs (x : SBigInt) (len : Nat) : Except Fault SBigInt :=
  if h : x.iLength32 + len ≤ bigintMaxlen then
    .ok {
      iLength32 := x.iLength32 + len
      ulValue := List.replicate len 0 ++ x.ulValue.take x.iLength32 ++
        x.ulValue.drop (x.iLength32 + len)
      size := by
        simp only [List.length_append, List.length_replicate, List.length_take, List.length_drop,
          x.size]
        omega }
  else .error .outOfBounds

end SBigInt

/-- Compare limbs from the most significant one down. -/
def cmpLimbs : List UInt32 → List UInt32 → Int
  | a :: as, b :: bs => if b < a then 1 else if a < b then -1 else cmpLimbs as bs
  | _, _ => 0

def cmp (sIn sIn2 : SBigInt) : Except Fault Int :=
  if sIn2.iLength32 < sIn.iLength32 then .ok 1
  else if sIn.iLength32 < sIn2.iLength32 then .ok (-1)
  else do
    let as ← sIn.limbs sIn.iLength32
    let bs ← sIn2.limbs sIn.iLength32
    return cmpLimbs as.reverse bs.reverse

def movLong (a : Nat) : Except Fault SBigInt :=
  if 0xffffffff < a then SBigInt.ofLimbs [UInt32.ofNat a, UInt32.ofNat (a / 2 ^ 32)]
  else SBigInt.ofLimbs [UInt32.ofNat a]

/-- The addition loop: the sums and the last carry. -/
def addLimbs (carry : Nat) : List UInt32 → List UInt32 → List UInt32 × Nat
  | a :: as, b :: bs =>
      let sum := (a.toNat + b.toNat + carry) % 2 ^ 64
      let rest := addLimbs (sum / 2 ^ 32) as bs
      (UInt32.ofNat sum :: rest.1, rest.2)
  | _, _ => ([], carry)

def addBigint (sIn sIn2 : SBigInt) : Except Fault SBigInt := do
  let length := max sIn.iLength32 sIn2.iLength32
  let as ← sIn.limbs length
  let bs ← sIn2.limbs length
  let (sums, carry) := addLimbs 0 as bs
  -- the carry is stored above the sums even when it is zero
  let sOut ← SBigInt.ofLimbs (sums ++ [UInt32.ofNat carry])
  return { sOut with iLength32 := length + carry }

/-- The subtraction loop, with the borrow out of the last limb dropped. -/
def subLimbs (carry : Nat) : List UInt32 → List UInt32 → List UInt32
  | a :: as, b :: bs =>
      if b < a ∨ (a = b ∧ carry = 0) then
        UInt32.ofNat (a.toNat - carry - b.toNat) :: subLimbs 0 as bs
      else UInt32.ofNat (2 ^ 32 + a.toNat - carry - b.toNat) :: subLimbs 1 as bs
  | _, _ => []

/-- The loop that drops zero top limbs. It stops at a non-zero limb only, so
over a list of zeros it goes on to `m_ulValue[-1]`. -/
def dropZeroTop (limbs : List UInt32) : Except Fault (List UInt32) :=
  match limbs.reverse.dropWhile (· = 0) with
  | [] => .error .outOfBounds
  | top :: rest => .ok (top :: rest).reverse

def subBigint (sIn sIn2 : SBigInt) : Except Fault SBigInt := do
  if (← cmp sIn sIn2) ≤ 0 then movLong 0
  else
    let as ← sIn.limbs sIn.iLength32
    let bs ← sIn2.limbs sIn.iLength32
    SBigInt.ofLimbs (← dropZeroTop (subLimbs 0 as bs))

/-- The loop of `Mul_long`: the low words of the products and the last
carry. -/
def mulLimbs (ulIn carry : Nat) : List UInt32 → List UInt32 × Nat
  | a :: as =>
      let mul := (a.toNat * ulIn + carry) % 2 ^ 64
      let rest := mulLimbs ulIn (mul / 2 ^ 32) as
      (UInt32.ofNat mul :: rest.1, rest.2)
  | [] => ([], carry)

def mulLong (sIn : SBigInt) (ulIn : Nat) : Except Fault SBigInt := do
  let as ← sIn.limbs sIn.iLength32
  let (products, carry) := mulLimbs ulIn 0 as
  SBigInt.ofLimbs (if carry ≠ 0 then products ++ [UInt32.ofNat carry] else products)

/-- The inner loop of `Mul_bigint` at column `i`: one product added to
`(sum, carry)`. -/
def columnStep (as bs : List UInt32) (i : Nat) (acc : Nat × Nat) (j : Nat) : Nat × Nat :=
  if j ≤ i ∧ i - j < as.length then
    let mul := (as.getD (i - j) 0).toNat * (bs.getD j 0).toNat % 2 ^ 64
    ((acc.1 + mul % 2 ^ 32) % 2 ^ 64, (acc.2 + mul / 2 ^ 32) % 2 ^ 64)
  else acc

/-- The outer loop of `Mul_bigint`: `columns` columns from column `i` on. -/
def mulColumns (as bs : List UInt32) : Nat → Nat → Nat → List UInt32 × Nat
  | 0, _, carry => ([], carry)
  | columns + 1, i, carry =>
      let (sum, carry) := (List.range bs.length).foldl (columnStep as bs i) (carry, 0)
      let rest := mulColumns as bs columns (i + 1) ((carry + sum / 2 ^ 32) % 2 ^ 64)
      (UInt32.ofNat sum :: rest.1, rest.2)

def mulBigint (sIn sIn2 : SBigInt) : Except Fault SBigInt := do
  if sIn2.iLength32 = 1 then mulLong sIn ((← sIn2.fromTop 1).toNat)
  else
    let as ← sIn.limbs sIn.iLength32
    let bs ← sIn2.limbs sIn2.iLength32
    let (sums, carry) := mulColumns as bs (sIn.iLength32 + sIn2.iLength32 - 1) 0 0
    SBigInt.ofLimbs (if carry ≠ 0 then sums ++ [UInt32.ofNat carry] else sums)

/-- The quotient that `Mod_bigint` estimates from the top limbs `div` and
`num`, and the number of limbs it is moved up by. -/
def modQuotient (sOut : SBigInt) (div num len : Nat) : Except Fault (Nat × Nat) := do
  if div ≤ num ∧ len ≠ 0 then
    let next ← sOut.fromTop 2
    return ((div * 2 ^ 32 + next.toNat) % 2 ^ 64 / ((num + 1) % 2 ^ 64), len - 1)
  else return (div / ((num + 1) % 2 ^ 64), len)

/-- One pass through the loop of `Mod_bigint`, with whether it ends in
`break`. -/
def modPass (sOut sIn2 : SBigInt) : Except Fault (SBigInt × Bool) := do
  let div ← sOut.fromTop 1
  let num ← sIn2.fromTop 1
  let len := sOut.iLength32 - sIn2.iLength32
  if div = num ∧ len = 0 then
    return (← subBigint sOut sIn2, true)
  else
    let (div, len) ← modQuotient sOut div.toNat num.toNat len
    let sTemp2 ← movLong div >>= mulBigint sIn2
    return (← subBigint sOut (← sTemp2.shiftLimbs len), false)

/-- What one pass of `Mod_bigint` hands to `Sub_bigint` to take away. -/
def modSubtrahend (sOut sIn2 : SBigInt) : Except Fault SBigInt := do
  let div ← sOut.fromTop 1
  let num ← sIn2.fromTop 1
  let len := sOut.iLength32 - sIn2.iLength32
  if div = num ∧ len = 0 then return sIn2
  else
    let (div, len) ← modQuotient sOut div.toNat num.toNat len
    let sTemp2 ← movLong div >>= mulBigint sIn2
    sTemp2.shiftLimbs len

/-- The loop of `Mod_bigint`, at most `fuel` passes. -/
def modLoop (sIn2 : SBigInt) : Nat → SBigInt → Except Fault SBigInt
  | 0, _ => .error .endless
  | fuel + 1, sOut => do
      if (← cmp sOut sIn2) < 0 then return sOut
      else
        let (sOut, done) ← modPass sOut sIn2
        if done then return sOut else modLoop sIn2 fuel sOut

/-- The number of states of a bignum: a loop over one bignum that takes more
passes comes back to a state it has been in, and never ends. -/
def bigintStates : Nat := (bigintMaxlen + 1) * 2 ^ (32 * bigintMaxlen)

def modBigint (sIn sIn2 : SBigInt) : Except Fault SBigInt := modLoop sIn2 (bigintStates + 1) sIn

/-- One pass of the inner loop of `RsaTrans`: `sTemp1` moved up by one limb,
plus `sIn` times the next limb of the other factor, modulo `sN`. -/
def mulModPass (sIn sN sTemp1 : SBigInt) (limb : UInt32) : Except Fault SBigInt := do
  let sTemp1 ← sTemp1.shiftLimbs 1
  let sTemp2 ← mulLong sIn limb.toNat
  modBigint (← addBigint sTemp1 sTemp2) sN

/-- The product of `sIn` and `sOut` modulo `sN`, over the limbs of `sOut`
from the top. -/
def mulMod (sIn sOut sN : SBigInt) : Except Fault SBigInt := do
  let top ← sOut.fromTop 1
  let limbs ← sOut.limbs (sOut.iLength32 - 1)
  let sTemp1 ← modBigint (← mulLong sIn top.toNat) sN
  limbs.reverse.foldlM (mulModPass sIn sN) sTemp1

/-- The bit `(m_ulValue[i >> 5] >> (i & 31)) & 1`. -/
def SBigInt.bit (x : SBigInt) (i : Nat) : Except Fault Bool := do
  let limb ← inBounds x.ulValue[i / 32]?
  return limb.toNat.testBit (i % 32)

/-- The square-and-multiply loop of `RsaTrans` over the exponent bits below
`count`. -/
def rsaTransLoop (sIn sE sN : SBigInt) : Nat → SBigInt → Except Fault SBigInt
  | 0, sOut => return sOut
  | i + 1, sOut => do
      let sOut ← mulMod sOut sOut sN
      let sOut ← if ← sE.bit i then mulMod sIn sOut sN else pure sOut
      rsaTransLoop sIn sE sN i sOut

/-- `while (num) { num = num >> 1; k++; }`, which an `unsigned long` ends in
64 passes. -/
def countBits : Nat → Nat → Nat
  | 0, _ => 0
  | fuel + 1, num => if num = 0 then 0 else countBits fuel (num / 2) + 1

def rsaTrans (sIn sE sN : SBigInt) : Except Fault SBigInt := do
  let top ← sE.fromTop 1
  let k := sE.iLength32 * 32 - 32 + countBits 64 top.toNat
  rsaTransLoop sIn sE sN (k - 1) sIn

end SignImage
