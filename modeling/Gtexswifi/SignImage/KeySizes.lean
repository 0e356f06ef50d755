import Gtexswifi.SignImage.ContentCertificate
import Gtexswifi.SignImage.Opening

/-! What a verification copies for the size of key that a certificate
states. No size is checked: the code takes it for the lengths of two fields,
of a stack array and of a buffer. -/
namespace SignImage

open Radix

def rsaKeyByteLenMax : Nat := 256

/-- The key, the signature and the size of the buffer that `RSA_PubDec` is
called with. -/
structure PubDecCall where
  pubkey : List UInt8
  signature : List UInt8
  room : Nat

/-- What `sprd_verify_cert` does up to its call of `RSA_PubDec`, if it comes
to one. -/
def sprdVerifyCertCall (hashKeyPrecert hashData certptr : List UInt8) :
    Except Fault (Option PubDecCall) := do
  let certtype ← inBounds certptr[0]?
  let pubkey := certptr.drop 4
  let certHashData := certptr.drop 268
  if certtype = certtypeKey then
    let _temphashData ← calSha256 pubkey sprdRsapubklen
    if (← secMemcmp hashData certHashData hashByteLen) ≠ 0 then return none
    else return some ⟨pubkey, certptr.drop 340, (← loadWord pubkey 4) / 8⟩
  else if certtype = certtypeContent then
    let temphashData ← calSha256 pubkey sprdRsapubklen
    if (← secMemcmp hashData certHashData hashByteLen) ≠ 0 then return none
    else if (← secMemcmp hashKeyPrecert temphashData hashByteLen) ≠ 0 then return none
    else return some ⟨pubkey, certptr.drop 308, (← loadWord pubkey 4) / 8⟩
  else return none

/-- What `sprd_sbdebug_verify_cert` does up to its call of `RSA_PubDec`. -/
def sprdSbdebugVerifyCertCall (socId : Bool) (devDbgcert primDbgcert curKeycert : List UInt8)
    (dbgcertType : Nat) : Except Fault (Option PubDecCall) := do
  if dbgcertType = certtypePrimdbg then
    let temphashData ← calSha256 (primDbgcert.drop 4) sprdRsapubklen
    if (← secMemcmp (curKeycert.drop 300) temphashData hashByteLen) ≠ 0 then return none
    else
      let room := (← loadWord (curKeycert.drop 4) 4) / 8
      return some ⟨primDbgcert.drop 4, primDbgcert.drop 308, room⟩
  else if dbgcertType = certtypeDevelopdbg then
    let temphashData ← calSha256 (devDbgcert.drop 4) sprdRsapubklen
    if (← secMemcmp (primDbgcert.drop 268) temphashData hashByteLen) ≠ 0 then return none
    else
      let room := (← loadWord (curKeycert.drop 4) 4) / 8
      return some ⟨devDbgcert.drop 4, devDbgcert.drop (if socId then 304 else 280), room⟩
  else return none

/-- The rest of the verification: `RSA_PubDec` into a new buffer, and the
comparison. -/
def compareOpened (fields : List UInt8) (count : Int → Nat) (stale : Stale) :
    Option PubDecCall → Except Fault Bool
  | none => .ok false
  | some call => do
      let dest := malloc call.room stale.heap
      let (ret, dest) ← openSignature call.pubkey call.signature dest stale
      return (← secMemcmp fields dest (count ret)) = 0

/-- The bytes that `sprd_verify_cert` compares. -/
def comparedBytes (certptr : List UInt8) (ret : Int) : Nat :=
  if certptr[0]? = some certtypeKey then keycertHashLen else toUnsigned ret

theorem bind_ite {α β : Type} {c : Prop} [Decidable c] (x y : Except Fault α)
    (f : α → Except Fault β) : (if c then x else y) >>= f = if c then x >>= f else y >>= f :=
  apply_ite (· >>= f) c x y

/-- The verification of a certificate is its call of `RSA_PubDec` and the
comparison behind it. -/
theorem sprdVerifyCert_call (hashKeyPrecert hashData certptr : List UInt8) (stale : Stale) :
    sprdVerifyCert hashKeyPrecert hashData certptr stale =
      sprdVerifyCertCall hashKeyPrecert hashData certptr >>=
        compareOpened (certptr.drop 268) (comparedBytes certptr) stale := by
  unfold sprdVerifyCert sprdVerifyCertCall allocateTo
  cases hType : certptr[0]? with
  | none => rfl
  | some certtype =>
      simp only [inBounds, ok_bind, bind_ite, bind_assoc, pure_eq_ok, compareOpened, comparedBytes,
        hType, Option.some.injEq]
      by_cases hKey : certtype = certtypeKey
      · simp only [if_pos hKey]
      · simp only [if_neg hKey]

theorem sprdSbdebugVerifyCert_call (socId : Bool) (devDbgcert primDbgcert curKeycert : List UInt8)
    (dbgcertType : Nat) (stale : Stale) :
    sprdSbdebugVerifyCert socId devDbgcert primDbgcert curKeycert dbgcertType stale =
      sprdSbdebugVerifyCertCall socId devDbgcert primDbgcert curKeycert dbgcertType >>=
        compareOpened ((if dbgcertType = certtypePrimdbg then primDbgcert else devDbgcert).drop 268)
          (fun _ => if dbgcertType = certtypePrimdbg then primdbgHashLen else devedbgHashLen socId)
          stale := by
  unfold sprdSbdebugVerifyCert sprdSbdebugVerifyCertCall allocateTo
  by_cases hPrimary : dbgcertType = certtypePrimdbg
  · simp only [if_pos hPrimary, bind_ite, bind_assoc, ok_bind, pure_eq_ok, compareOpened]
  · simp only [if_neg hPrimary, bind_ite, bind_assoc, ok_bind, pure_eq_ok, compareOpened]

/-- A comparison that ends the verification unless it finds no difference. -/
theorem guard_eq_some {comparison : Except Fault Int} {rest : Except Fault (Option PubDecCall)}
    {call : PubDecCall} :
    (comparison >>= fun res => if res ≠ 0 then pure none else rest) = .ok (some call) ↔
      comparison = .ok 0 ∧ rest = .ok (some call) := by
  cases comparison with
  | error fault => simp
  | ok res =>
      rw [ok_bind]
      split
      · next hDiffer => simp [hDiffer]
      · next hSame => simp [not_not.mp hSame]

/-- The call that a key certificate makes, and when it makes one. -/
theorem keyCall_eq_some {hashKeyPrecert hashData certptr : List UInt8} {call : PubDecCall}
    (hType : certptr[0]? = some certtypeKey) :
    sprdVerifyCertCall hashKeyPrecert hashData certptr = .ok (some call) ↔
      (∃ hash, calSha256 (certptr.drop 4) sprdRsapubklen = .ok hash) ∧
        Agree hashData (certptr.drop 268) hashByteLen ∧
          ∃ keybitLen, loadWord (certptr.drop 4) 4 = .ok keybitLen ∧
            call = ⟨certptr.drop 4, certptr.drop 340, keybitLen / 8⟩ := by
  rw [sprdVerifyCertCall, hType]
  simp only [inBounds, ok_bind, if_true]
  rw [bind_eq_ok]
  simp only [guard_eq_some, secMemcmp_eq_zero, exists_and_right]
  simp only [bind_eq_ok, pure_eq_ok, Except.ok.injEq, Option.some.injEq, eq_comm (a := call)]

/-- The call that a content certificate makes, and when it makes one. -/
theorem contentCall_eq_some {hashKeyPrecert hashData certptr : List UInt8} {call : PubDecCall}
    (hType : certptr[0]? = some certtypeContent) :
    sprdVerifyCertCall hashKeyPrecert hashData certptr = .ok (some call) ↔
      ∃ hash, calSha256 (certptr.drop 4) sprdRsapubklen = .ok hash ∧
        Agree hashData (certptr.drop 268) hashByteLen ∧ Agree hashKeyPrecert hash hashByteLen ∧
          ∃ keybitLen, loadWord (certptr.drop 4) 4 = .ok keybitLen ∧
            call = ⟨certptr.drop 4, certptr.drop 308, keybitLen / 8⟩ := by
  have hKey : ¬certtypeContent = certtypeKey := by decide
  rw [sprdVerifyCertCall, hType]
  simp only [inBounds, ok_bind, if_neg hKey, if_true]
  rw [bind_eq_ok]
  simp only [guard_eq_some, secMemcmp_eq_zero]
  simp only [bind_eq_ok, pure_eq_ok, Except.ok.injEq, Option.some.injEq, eq_comm (a := call)]

/-- The call that a primary debug certificate makes, and when it makes one. -/
theorem primaryCall_eq_some {socId : Bool} {devDbgcert primDbgcert curKeycert : List UInt8}
    {call : PubDecCall} :
    sprdSbdebugVerifyCertCall socId devDbgcert primDbgcert curKeycert certtypePrimdbg =
        .ok (some call) ↔
      ∃ hash, calSha256 (primDbgcert.drop 4) sprdRsapubklen = .ok hash ∧
        Agree (curKeycert.drop 300) hash hashByteLen ∧
          ∃ keybitLen, loadWord (curKeycert.drop 4) 4 = .ok keybitLen ∧
            call = ⟨primDbgcert.drop 4, primDbgcert.drop 308, keybitLen / 8⟩ := by
  rw [sprdSbdebugVerifyCertCall, if_pos rfl]
  rw [bind_eq_ok]
  simp only [guard_eq_some, secMemcmp_eq_zero]
  simp only [bind_eq_ok, pure_eq_ok, Except.ok.injEq, Option.some.injEq, eq_comm (a := call)]

/-- The call that a developer certificate makes, and when it makes one. -/
theorem developerCall_eq_some {socId : Bool} {devDbgcert primDbgcert curKeycert : List UInt8}
    {call : PubDecCall} :
    sprdSbdebugVerifyCertCall socId devDbgcert primDbgcert curKeycert certtypeDevelopdbg =
        .ok (some call) ↔
      ∃ hash, calSha256 (devDbgcert.drop 4) sprdRsapubklen = .ok hash ∧
        Agree (primDbgcert.drop 268) hash hashByteLen ∧
          ∃ keybitLen, loadWord (curKeycert.drop 4) 4 = .ok keybitLen ∧
            call = ⟨devDbgcert.drop 4, devDbgcert.drop (if socId then 304 else 280),
              keybitLen / 8⟩ := by
  have hPrimary : ¬certtypeDevelopdbg = certtypePrimdbg := by decide
  rw [sprdSbdebugVerifyCertCall, if_neg hPrimary, if_pos rfl]
  rw [bind_eq_ok]
  simp only [guard_eq_some, secMemcmp_eq_zero]
  simp only [bind_eq_ok, pure_eq_ok, Except.ok.injEq, Option.some.injEq, eq_comm (a := call)]

/-- `iLength32 * sizeof(unsigned int)`, which `memcpy` gets as a `size_t`. -/
def copySize (iLength32 : Int) : Nat := (iLength32 * 4 % 2 ^ 64).toNat

/-- The bytes of `str` that `SetParameter_char_openssl` turns around or
copies. -/
def parameterBytes (strLen : Int) : Nat := max strLen.toNat (copySize (strLen / 4))

/-- The lengths for `RSA_D`, `RSA_N` and `RSA_C`, with the sizes of the
fields `e`, `mod` and `signature`. -/
def parameters (byteLenN : Int) : List (Int × Nat) :=
  [(4, 4), (byteLenN, rsaKeyByteLenMax), (byteLenN, rsaKeyByteLenMax)]

/-- No bignum, no field and no buffer is left by a call for a key of so many
bits. -/
structure PubDecCall.KeepsBounds (call : PubDecCall) (keybitLen : Nat) (stale : Stale) : Prop where
  limbs : ∀ p ∈ parameters (toInt32 keybitLen / 8), copySize (p.1 / 4) ≤ 4 * bigintMaxlen
  fields : ∀ p ∈ parameters (toInt32 keybitLen / 8), parameterBytes p.1 ≤ p.2
  payload : ∀ text data, openedBlock call.pubkey call.signature stale = .ok text →
    payload text = some data → data.length ≤ call.room

/-- A verification with its arguments. -/
inductive Verification
  | cert (hashKeyPrecert hashData certptr : List UInt8)
  | sbdebug (socId : Bool) (devDbgcert primDbgcert curKeycert : List UInt8) (dbgcertType : Nat)

/-- The value of `keybit_len` in a certificate of each kind, and in the key
certificate of a debug certificate. -/
inductive StatedSizes
  | key (keybitLen : UInt32)
  | content (keybitLen : UInt32)
  | primaryDebug (keybitLen keycertBitLen : UInt32)
  | developerDebug (keybitLen keycertBitLen : UInt32)

namespace StatedSizes

def keybitLen : StatedSizes → UInt32
  | key k | content k | primaryDebug k _ | developerDebug k _ => k

/-- The size by which the buffer is allocated. -/
def roomBitLen : StatedSizes → UInt32
  | key k | content k => k
  | primaryDebug _ m | developerDebug _ m => m

end StatedSizes

namespace Verification

def run (stale : Stale) : Verification → Except Fault Bool
  | cert hashKeyPrecert hashData certptr => sprdVerifyCert hashKeyPrecert hashData certptr stale
  | sbdebug socId devDbgcert primDbgcert curKeycert dbgcertType =>
      sprdSbdebugVerifyCert socId devDbgcert primDbgcert curKeycert dbgcertType stale

def call : Verification → Except Fault (Option PubDecCall)
  | cert hashKeyPrecert hashData certptr => sprdVerifyCertCall hashKeyPrecert hashData certptr
  | sbdebug socId devDbgcert primDbgcert curKeycert dbgcertType =>
      sprdSbdebugVerifyCertCall socId devDbgcert primDbgcert curKeycert dbgcertType

/-- A verification is its call of `RSA_PubDec`, if it comes to one, and a
comparison of the buffer afterwards. -/
theorem run_eq (v : Verification) (stale : Stale) :
    ∃ fields count, v.run stale = v.call >>= compareOpened fields count stale := by
  cases v with
  | cert hashKeyPrecert hashData certptr => exact ⟨_, _, sprdVerifyCert_call _ _ _ _⟩
  | sbdebug socId devDbgcert primDbgcert curKeycert dbgcertType =>
      exact ⟨_, _, sprdSbdebugVerifyCert_call _ _ _ _ _ _⟩

/-- Nothing is left, whatever is read as the size of the key and whatever
memory held. -/
def StaysInBounds (v : Verification) : Prop :=
  ∀ (call : PubDecCall) (keybitLen : Nat) (stale : Stale), v.call = .ok (some call) →
    loadWord call.pubkey 4 = .ok keybitLen → call.KeepsBounds keybitLen stale

end Verification

/-- A certificate of its full size, with a key that states its own. -/
structure HasKey (cert : List UInt8) (size : Nat) (keybitLen : UInt32) : Prop where
  size_le : size ≤ cert.length
  keybitLen_eq : loadWord (cert.drop 4) 4 = .ok keybitLen.toNat

def sizeofKeycert : Nat := 596

def sizeofContentcert : Nat := 564

def sizeofPrimaryDebugcert : Nat := 564

def sizeofDeveloperDebugcert (socId : Bool) : Nat := if socId then 560 else 536

/-- The arguments are certificates of the kind, with these sizes. -/
def Verification.States : Verification → StatedSizes → Prop
  | cert _ _ certptr, .key k => certptr[0]? = some certtypeKey ∧ HasKey certptr sizeofKeycert k
  | cert _ _ certptr, .content k =>
      certptr[0]? = some certtypeContent ∧ HasKey certptr sizeofContentcert k
  | sbdebug _ _ primDbgcert curKeycert dbgcertType, .primaryDebug k m =>
      dbgcertType = certtypePrimdbg ∧ HasKey primDbgcert sizeofPrimaryDebugcert k ∧
        HasKey curKeycert sizeofKeycert m
  | sbdebug socId devDbgcert primDbgcert curKeycert dbgcertType, .developerDebug k m =>
      dbgcertType = certtypeDevelopdbg ∧ HasKey devDbgcert (sizeofDeveloperDebugcert socId) k ∧
        sizeofPrimaryDebugcert ≤ primDbgcert.length ∧ HasKey curKeycert sizeofKeycert m
  | _, _ => False

/-- At most 256 bytes, and not more than eleven bytes more than the buffer
has. -/
def StatedSizes.Fit (sizes : StatedSizes) : Prop :=
  sizes.keybitLen.toNat < 2056 ∧ sizes.keybitLen.toNat / 8 ≤ sizes.roomBitLen.toNat / 8 + 11

/-- A call with a key size that fits the arrays, and with room for what the
block can hold, stays in bounds whatever the memory holds. -/
theorem keepsBounds_of_le {call : PubDecCall} {keybitLen : Nat} (hSize : keybitLen < 2056)
    (hRoom : keybitLen / 8 ≤ call.room + 11) (hLoad : loadWord call.pubkey 4 = .ok keybitLen)
    (stale : Stale) : call.KeepsBounds keybitLen stale := by
  have hInt : toInt32 keybitLen = keybitLen := if_pos (by omega)
  refine ⟨?_, ?_, ?_⟩
  · simp only [parameters, copySize, bigintMaxlen, hInt, List.forall_mem_cons]
    refine ⟨?_, ?_, ?_, ?_⟩ <;> try omega
    simp
  · simp only [parameters, parameterBytes, copySize, rsaKeyByteLenMax, hInt, List.forall_mem_cons]
    refine ⟨?_, ?_, ?_, ?_⟩ <;> try omega
    simp
  · intro text data hText hPayload
    rw [openedBlock, hLoad, ok_bind, rsaBlock, hInt] at hText
    split_ifs at hText with hNone
    obtain ⟨rsaM, -, hBlock⟩ := bind_eq_ok.mp hText
    have hLength := length_of_textBlock hBlock
    have hData := length_of_payload hPayload
    omega

/-- The key of a call and the size of its buffer are the ones that are
stated. -/
theorem Verification.States.call_eq {v : Verification} {sizes : StatedSizes} {call : PubDecCall}
    (h : v.States sizes) (hCall : v.call = .ok (some call)) :
    loadWord call.pubkey 4 = .ok sizes.keybitLen.toNat ∧
      call.room = sizes.roomBitLen.toNat / 8 := by
  cases v with
  | cert hashKeyPrecert hashData certptr =>
      cases sizes with
      | key k =>
          obtain ⟨hType, hKey⟩ := h
          obtain ⟨-, -, keybitLen, hLoad, rfl⟩ := (keyCall_eq_some hType).mp hCall
          obtain rfl := ok_unique hKey.keybitLen_eq hLoad
          exact ⟨hLoad, rfl⟩
      | content k =>
          obtain ⟨hType, hKey⟩ := h
          obtain ⟨-, -, -, -, keybitLen, hLoad, rfl⟩ := (contentCall_eq_some hType).mp hCall
          obtain rfl := ok_unique hKey.keybitLen_eq hLoad
          exact ⟨hLoad, rfl⟩
      | primaryDebug k m => exact h.elim
      | developerDebug k m => exact h.elim
  | sbdebug socId devDbgcert primDbgcert curKeycert dbgcertType =>
      cases sizes with
      | key k => exact h.elim
      | content k => exact h.elim
      | primaryDebug k m =>
          obtain ⟨rfl, hKey, hRoom⟩ := h
          obtain ⟨-, -, -, keybitLen, hLoad, rfl⟩ := primaryCall_eq_some.mp hCall
          obtain rfl := ok_unique hRoom.keybitLen_eq hLoad
          exact ⟨hKey.keybitLen_eq, rfl⟩
      | developerDebug k m =>
          obtain ⟨rfl, hKey, -, hRoom⟩ := h
          obtain ⟨-, -, -, keybitLen, hLoad, rfl⟩ := developerCall_eq_some.mp hCall
          obtain rfl := ok_unique hRoom.keybitLen_eq hLoad
          exact ⟨hKey.keybitLen_eq, rfl⟩

/-- Sizes that fit keep every verification in bounds. -/
theorem staysInBounds_of_fit {v : Verification} {sizes : StatedSizes} (h : v.States sizes)
    (hFit : sizes.Fit) : v.StaysInBounds := by
  intro call keybitLen stale hCall hLoad
  obtain ⟨hStated, hRoom⟩ := h.call_eq hCall
  obtain rfl := ok_unique hStated hLoad
  exact keepsBounds_of_le hFit.1 (by rw [hRoom]; exact hFit.2) hLoad stale

end SignImage
