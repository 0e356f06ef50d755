import Gtexswifi.SignImage.Rsa
import Gtexswifi.SignImage.Sha256

/-! The verification of signed images and debug certificates. Structures are
packed, and their fields are read at their offsets; a pointer is the cells
from it on. -/
namespace SignImage

open Radix

def hashByteLen : Nat := 32

def keycertHashLen : Nat := 72

def primdbgHashLen : Nat := 40

/-- The signed fields of a developer certificate hold two words of a chip's
uid, or its `soc_id` in a build for it. -/
def devedbgHashLen (socId : Bool) : Nat := if socId then 36 else 12

def certtypeContent : UInt8 := 0

def certtypeKey : UInt8 := 1

def certtypePrimdbg : Nat := 2

def certtypeDevelopdbg : Nat := 3

/-- `sizeof(sprd_rsapubkey)`. -/
def sprdRsapubklen : Nat := 264

/-- `sizeof(sys_img_header)`. -/
def sysImgHeaderSize : Nat := 512

/-- `sizeof(sprdsignedimageheader)`. -/
def signedHeaderSize : Nat := 96

/-- What memory that has not been written holds: the stack, and a block of
the heap. -/
structure Stale where
  stack : Nat → UInt8
  heap : Nat → UInt8

def malloc (size : Nat) (heap : Nat → UInt8) : List UInt8 := (List.range size).map heap

@[simp] theorem length_malloc (size : Nat) (heap : Nat → UInt8) :
    (malloc size heap).length = size := by
  rw [malloc, List.length_map, List.length_range]

/-- The little-endian number in `len` bytes. -/
def loadWord (p : List UInt8) (len : Nat) : Except Fault Nat := do
  return value (← inBounds (Memory.slice p 0 len))

/-- The comparison of bytes up to the first difference. -/
def secMemcmp : List UInt8 → List UInt8 → Nat → Except Fault Int
  | _, _, 0 => .ok 0
  | a :: cs, b :: st, count + 1 =>
      if (a.toNat : Int) - b.toNat ≠ 0 then .ok ((a.toNat : Int) - b.toNat)
      else secMemcmp cs st count
  | _, _, _ + 1 => .error .outOfBounds

/-- The hash of the bytes at `input`. The parameter `bytes_num` has 32 bits. -/
def calSha256 (input : List UInt8) (bytesNum : Nat) : Except Fault (List UInt8) := do
  return sha256CsumWd (← inBounds (Memory.slice input 0 (bytesNum % 2 ^ 32)))

/-- A 32-bit word passed as an `int`. -/
def toInt32 (word : Nat) : Int := if word < 2 ^ 31 then word else (word : Int) - 2 ^ 32

/-- An `int` passed as an `unsigned int`. -/
def toUnsigned (n : Int) : Nat := (n % 2 ^ 32).toNat

/-- The block that a signature opens to under the key at `pubkey`. -/
def openedBlock (pubkey signature : List UInt8) (stale : Stale) : Except Fault (List UInt8) := do
  let keybitLen ← loadWord pubkey 4
  rsaBlock (some (pubkey.drop 4)) (some (pubkey.drop 8)) (toInt32 keybitLen) signature stale.stack

/-- The call of `RSA_PubDec` with the fields of the key at `pubkey`. -/
def openSignature (pubkey signature dest : List UInt8) (stale : Stale) :
    Except Fault (Int × List UInt8) := do
  let keybitLen ← loadWord pubkey 4
  rsaPubDec (some (pubkey.drop 4)) (some (pubkey.drop 8)) (toInt32 keybitLen) signature dest
    stale.stack

/-- The buffer `to`, with room for the modulus of the key at `pubkey`. -/
def allocateTo (pubkey : List UInt8) (stale : Stale) : Except Fault (List UInt8) := do
  return malloc ((← loadWord pubkey 4) / 8) stale.heap

def sprdVerifyCert (hashKeyPrecert hashData certptr : List UInt8) (stale : Stale) :
    Except Fault Bool := do
  let certtype ← inBounds certptr[0]?
  let pubkey := certptr.drop 4
  let certHashData := certptr.drop 268
  if certtype = certtypeKey then
    let _temphashData ← calSha256 pubkey sprdRsapubklen
    if (← secMemcmp hashData certHashData hashByteLen) ≠ 0 then return false
    else
      let dest ← allocateTo pubkey stale
      let (_, dest) ← openSignature pubkey (certptr.drop 340) dest stale
      return (← secMemcmp certHashData dest keycertHashLen) = 0
  else if certtype = certtypeContent then
    let temphashData ← calSha256 pubkey sprdRsapubklen
    if (← secMemcmp hashData certHashData hashByteLen) ≠ 0 then return false
    else if (← secMemcmp hashKeyPrecert temphashData hashByteLen) ≠ 0 then return false
    else
      let dest ← allocateTo pubkey stale
      let (ret, dest) ← openSignature pubkey (certptr.drop 308) dest stale
      return (← secMemcmp certHashData dest (toUnsigned ret)) = 0
  else return false

def sprdGetSechdrAddr (buf : List UInt8) : Except Fault (List UInt8) := do
  let mImgSize ← loadWord (buf.drop 48) 4
  return buf.drop (mImgSize + sysImgHeaderSize)

def sprdGetCodeAddr (buf : List UInt8) : Except Fault (List UInt8) := do
  let sechdr ← sprdGetSechdrAddr buf
  return buf.drop (← loadWord (sechdr.drop 24) 8)

def sprdGetCertAddr (buf : List UInt8) : Except Fault (List UInt8) := do
  let sechdr ← sprdGetSechdrAddr buf
  return buf.drop (← loadWord (sechdr.drop 40) 8)

def sprdVerifyImg (hashKeyPrecert imgbuf : List UInt8) (stale : Stale) : Except Fault Bool := do
  let imghdr ← sprdGetSechdrAddr imgbuf
  let codeAddr ← sprdGetCodeAddr imgbuf
  let softHashData ← calSha256 codeAddr (← loadWord (imghdr.drop 16) 8)
  let curcertptr ← sprdGetCertAddr imgbuf
  sprdVerifyCert hashKeyPrecert softHashData curcertptr stale

/-- The two kinds of debug certificate. Both take room for the modulus of
the key certificate, and open a signature of the debug certificate. -/
def sprdSbdebugVerifyCert (socId : Bool) (devDbgcert primDbgcert curKeycert : List UInt8)
    (dbgcertType : Nat) (stale : Stale) : Except Fault Bool := do
  if dbgcertType = certtypePrimdbg then
    let temphashData ← calSha256 (primDbgcert.drop 4) sprdRsapubklen
    if (← secMemcmp (curKeycert.drop 300) temphashData hashByteLen) ≠ 0 then return false
    else
      let dest ← allocateTo (curKeycert.drop 4) stale
      let (_, dest) ← openSignature (primDbgcert.drop 4) (primDbgcert.drop 308) dest stale
      return (← secMemcmp (primDbgcert.drop 268) dest primdbgHashLen) = 0
  else if dbgcertType = certtypeDevelopdbg then
    let temphashData ← calSha256 (devDbgcert.drop 4) sprdRsapubklen
    if (← secMemcmp (primDbgcert.drop 268) temphashData hashByteLen) ≠ 0 then return false
    else
      let dest ← allocateTo (curKeycert.drop 4) stale
      let signature := devDbgcert.drop (if socId then 304 else 280)
      let (_, dest) ← openSignature (devDbgcert.drop 4) signature dest stale
      return (← secMemcmp (devDbgcert.drop 268) dest (devedbgHashLen socId)) = 0
  else return false

/-- Two buffers have the same `count` bytes at their start. -/
def Agree (cs st : List UInt8) (count : Nat) : Prop :=
  count ≤ cs.length ∧ count ≤ st.length ∧ cs.take count = st.take count

instance (cs st : List UInt8) (count : Nat) : Decidable (Agree cs st count) :=
  inferInstanceAs (Decidable (_ ∧ _ ∧ _))

/-- The comparison gives zero exactly if all the bytes are there and agree. -/
theorem secMemcmp_eq_zero {cs st : List UInt8} {count : Nat} :
    secMemcmp cs st count = .ok 0 ↔ Agree cs st count := by
  induction count generalizing cs st with
  | zero => simp [secMemcmp, Agree]
  | succ count ih =>
      cases cs with
      | nil => simp [secMemcmp, Agree]
      | cons a cs =>
          cases st with
          | nil => simp [secMemcmp, Agree]
          | cons b st =>
              rw [secMemcmp]
              split
              · next hDiffer =>
                  have hByte : a ≠ b := fun hSame => hDiffer (by rw [hSame, sub_self])
                  simp [Agree, hByte, hDiffer]
              · next hSame =>
                  have hByte : a = b := by
                    apply UInt8.toNat_inj.mp
                    omega
                  rw [ih]
                  simp [Agree, hByte]

end SignImage
