import Gtexswifi.SignImage.ContentCertificate

/-! What accepted key and debug certificates say about their signatures. The
branches compare a fixed number of bytes of a buffer that only a good block
is written to, and drop what `RSA_PubDec` returned. -/
namespace SignImage

/-- The signature opens to exactly the signed fields. -/
def OpensTo (pubkey signature dest fields : List UInt8) (count : Nat) (stale : Stale) : Prop :=
  ∃ r, openSignature pubkey signature dest stale = .ok r ∧ r.1 = count ∧
    r.2.take count = fields.take count

/-- The buffer starts with the signed fields without a block of exactly
their length: what the heap held, or data of another length over it. -/
def StaleMatch (pubkey signature dest fields : List UInt8) (count : Nat) (stale : Stale) : Prop :=
  ∃ block, openedBlock pubkey signature stale = .ok block ∧
    ((payload block = none ∧ Agree fields dest count) ∨
      ∃ data, payload block = some data ∧ data.length ≠ count ∧ data.length ≤ dest.length ∧
        Agree fields (data ++ dest.drop data.length) count)

/-- A branch with a fixed count is sound exactly when the buffer does not
match by what it held. -/
theorem compareOpened_sound_iff {pubkey signature dest fields : List UInt8} {count : Nat}
    {stale : Stale} :
    ((∃ r, openSignature pubkey signature dest stale = .ok r ∧ Agree fields r.2 count) →
        OpensTo pubkey signature dest fields count stale) ↔
      ¬StaleMatch pubkey signature dest fields count stale := by
  constructor
  · rintro hSound ⟨block, hBlock, ⟨hPayload, hAgree⟩ | ⟨data, hPayload, hOther, hRoom, hAgree⟩⟩
    · have hOpen : openSignature pubkey signature dest stale = .ok (-1, dest) :=
        openSignature_eq_ok.mpr ⟨block, hBlock, Or.inl ⟨hPayload, rfl, rfl⟩⟩
      obtain ⟨r, hOpen', hRet, -⟩ := hSound ⟨_, hOpen, hAgree⟩
      obtain rfl := ok_unique hOpen hOpen'
      dsimp only at hRet
      omega
    · have hOpen := openSignature_eq_ok.mpr
        ⟨block, hBlock, Or.inr ⟨data, hPayload, hRoom, rfl, rfl⟩⟩
      obtain ⟨r, hOpen', hRet, -⟩ := hSound ⟨_, hOpen, hAgree⟩
      obtain rfl := ok_unique hOpen hOpen'
      exact hOther (Int.ofNat.inj hRet)
  · rintro hNot ⟨r, hOpen, hAgree⟩
    refine ⟨r, hOpen, ?_, hAgree.2.2.symm⟩
    obtain ⟨block, hBlock, hCase⟩ := openSignature_eq_ok.mp hOpen
    rcases hCase with ⟨hPayload, -, hSame⟩ | ⟨data, hPayload, hRoom, hRet, hBuffer⟩
    · exact absurd ⟨block, hBlock, Or.inl ⟨hPayload, hSame ▸ hAgree⟩⟩ hNot
    · rw [hRet]
      by_contra hOther
      have hLength : data.length ≠ count := fun hSame => hOther (by rw [hSame])
      exact hNot ⟨block, hBlock, Or.inr ⟨data, hPayload, hLength, hRoom, hBuffer ▸ hAgree⟩⟩

/-- An accepted certificate has a signature that opens to its signed fields.
The buffer has room for the modulus of `modulusKey`. -/
def FixedCountSound (verdict : Except Fault Bool) (modulusKey pubkey signature fields : List UInt8)
    (count : Nat) (stale : Stale) : Prop :=
  verdict = .ok true →
    ∃ dest, allocateTo modulusKey stale = .ok dest ∧
      OpensTo pubkey signature dest fields count stale

/-- The new buffer matches the signed fields by what it held. -/
def StaleAccepted (modulusKey pubkey signature fields : List UInt8) (count : Nat)
    (stale : Stale) : Prop :=
  ∃ dest, allocateTo modulusKey stale = .ok dest ∧
    StaleMatch pubkey signature dest fields count stale

/-- What the branches share: hash checks first, then the comparison of the
opened buffer. -/
theorem fixedCount_sound_iff {verdict : Except Fault Bool} {checks : Prop}
    {modulusKey pubkey signature fields : List UInt8} {count : Nat} {stale : Stale}
    (hVerdict : verdict = .ok true ↔ checks ∧ ∃ dest, allocateTo modulusKey stale = .ok dest ∧
      ∃ r, openSignature pubkey signature dest stale = .ok r ∧ Agree fields r.2 count) :
    FixedCountSound verdict modulusKey pubkey signature fields count stale ↔
      ¬(checks ∧ StaleAccepted modulusKey pubkey signature fields count stale) := by
  unfold FixedCountSound StaleAccepted
  rw [hVerdict]
  constructor
  · rintro hSound ⟨hChecks, dest, hDest, hStale⟩
    refine compareOpened_sound_iff.mp (fun hOpened => ?_) hStale
    obtain ⟨dest', hDest', hOpens⟩ := hSound ⟨hChecks, dest, hDest, hOpened⟩
    obtain rfl := ok_unique hDest hDest'
    exact hOpens
  · rintro hNot ⟨hChecks, dest, hDest, hOpened⟩
    refine ⟨dest, hDest, compareOpened_sound_iff.mpr (fun hStale => ?_) hOpened⟩
    exact hNot ⟨hChecks, dest, hDest, hStale⟩

/-- A key certificate is accepted exactly if it holds the hash of the image
and its own key opens the signature to the signed fields. The key is
compared with nothing. -/
theorem keyCert_eq_true {hashKeyPrecert hashData certptr : List UInt8} {stale : Stale}
    (hType : certptr[0]? = some certtypeKey) :
    sprdVerifyCert hashKeyPrecert hashData certptr stale = .ok true ↔
      Agree hashData (certptr.drop 268) hashByteLen ∧
        ∃ dest, allocateTo (certptr.drop 4) stale = .ok dest ∧
          ∃ r, openSignature (certptr.drop 4) (certptr.drop 340) dest stale = .ok r ∧
            Agree (certptr.drop 268) r.2 keycertHashLen := by
  rw [sprdVerifyCert, hType]
  simp only [inBounds, ok_bind, if_true]
  rw [bind_eq_ok]
  simp only [guard_eq_true, secMemcmp_eq_zero, compareOpened_eq_true]
  constructor
  · rintro ⟨_, _, hAccepted⟩
    exact hAccepted
  · intro hAccepted
    exact ⟨_, calSha256_pubkey (hAccepted.1.pos (by decide)).2, hAccepted⟩

/-- A primary debug certificate is accepted exactly if the key certificate
holds the hash of its key and the signature opens to its fields. -/
theorem primaryCert_eq_true {socId : Bool} {devDbgcert primDbgcert curKeycert : List UInt8}
    {stale : Stale} :
    sprdSbdebugVerifyCert socId devDbgcert primDbgcert curKeycert certtypePrimdbg stale =
        .ok true ↔
      Agree (curKeycert.drop 300) (pubkeyHash primDbgcert) hashByteLen ∧
        ∃ dest, allocateTo (curKeycert.drop 4) stale = .ok dest ∧
          ∃ r, openSignature (primDbgcert.drop 4) (primDbgcert.drop 308) dest stale = .ok r ∧
            Agree (primDbgcert.drop 268) r.2 primdbgHashLen := by
  rw [sprdSbdebugVerifyCert, if_pos rfl, bind_eq_ok]
  simp only [guard_eq_true, secMemcmp_eq_zero, compareOpened_eq_true]
  constructor
  · rintro ⟨temphashData, hTemphash, hAccepted⟩
    obtain rfl := calSha256_eq_ok hTemphash
    exact hAccepted
  · rintro ⟨hKey, dest, hDest, r, hOpen, hAgree⟩
    exact ⟨_, calSha256_pubkey (hAgree.pos (by decide)).1, hKey, dest, hDest, r, hOpen, hAgree⟩

theorem devedbgHashLen_pos (socId : Bool) : 0 < devedbgHashLen socId := by
  cases socId <;> decide

/-- A developer certificate is accepted exactly if the primary one holds the
hash of its key and the signature opens to its fields. -/
theorem developerCert_eq_true {socId : Bool} {devDbgcert primDbgcert curKeycert : List UInt8}
    {stale : Stale} :
    sprdSbdebugVerifyCert socId devDbgcert primDbgcert curKeycert certtypeDevelopdbg stale =
        .ok true ↔
      Agree (primDbgcert.drop 268) (pubkeyHash devDbgcert) hashByteLen ∧
        ∃ dest, allocateTo (curKeycert.drop 4) stale = .ok dest ∧
          ∃ r, openSignature (devDbgcert.drop 4) (devDbgcert.drop (if socId then 304 else 280))
            dest stale = .ok r ∧ Agree (devDbgcert.drop 268) r.2 (devedbgHashLen socId) := by
  have hPrimary : ¬certtypeDevelopdbg = certtypePrimdbg := by decide
  rw [sprdSbdebugVerifyCert, if_neg hPrimary, if_pos rfl, bind_eq_ok]
  simp only [guard_eq_true, secMemcmp_eq_zero, compareOpened_eq_true]
  constructor
  · rintro ⟨temphashData, hTemphash, hAccepted⟩
    obtain rfl := calSha256_eq_ok hTemphash
    exact hAccepted
  · rintro ⟨hKey, dest, hDest, r, hOpen, hAgree⟩
    exact ⟨_, calSha256_pubkey (hAgree.pos (devedbgHashLen_pos socId)).1, hKey, dest, hDest, r,
      hOpen, hAgree⟩

/-- The branches for key, primary and developer certificates are sound
exactly when the buffer does not match the signed fields by what the heap
held. -/
theorem signedCerts_sound_iff (hashKeyPrecert hashData rest : List UInt8) (socId : Bool)
    (devDbgcert primDbgcert curKeycert : List UInt8) (stale : Stale) :
    (FixedCountSound (sprdVerifyCert hashKeyPrecert hashData (certtypeKey :: rest) stale)
        ((certtypeKey :: rest).drop 4) ((certtypeKey :: rest).drop 4)
        ((certtypeKey :: rest).drop 340) ((certtypeKey :: rest).drop 268) 72 stale ↔
      ¬(Agree hashData ((certtypeKey :: rest).drop 268) hashByteLen ∧
        StaleAccepted ((certtypeKey :: rest).drop 4) ((certtypeKey :: rest).drop 4)
          ((certtypeKey :: rest).drop 340) ((certtypeKey :: rest).drop 268) 72 stale)) ∧
    (FixedCountSound
        (sprdSbdebugVerifyCert socId devDbgcert primDbgcert curKeycert certtypePrimdbg stale)
        (curKeycert.drop 4) (primDbgcert.drop 4) (primDbgcert.drop 308) (primDbgcert.drop 268)
        40 stale ↔
      ¬(Agree (curKeycert.drop 300) (pubkeyHash primDbgcert) hashByteLen ∧
        StaleAccepted (curKeycert.drop 4) (primDbgcert.drop 4) (primDbgcert.drop 308)
          (primDbgcert.drop 268) 40 stale)) ∧
    (FixedCountSound
        (sprdSbdebugVerifyCert socId devDbgcert primDbgcert curKeycert certtypeDevelopdbg stale)
        (curKeycert.drop 4) (devDbgcert.drop 4)
        (devDbgcert.drop (if socId then 304 else 280)) (devDbgcert.drop 268)
        (devedbgHashLen socId) stale ↔
      ¬(Agree (primDbgcert.drop 268) (pubkeyHash devDbgcert) hashByteLen ∧
        StaleAccepted (curKeycert.drop 4) (devDbgcert.drop 4)
          (devDbgcert.drop (if socId then 304 else 280)) (devDbgcert.drop 268)
          (devedbgHashLen socId) stale)) :=
  ⟨fixedCount_sound_iff (keyCert_eq_true rfl), fixedCount_sound_iff primaryCert_eq_true,
    fixedCount_sound_iff developerCert_eq_true⟩

/-- A key certificate of zeros behind its type, key and all-zero signature,
over a heap that held zeros. -/
def zeroKeyCert : List UInt8 := [0, 0, 0] ++ plainPubkey ++ List.replicate 328 0

/-- The certificate is accepted although `RSA_PubDec` returns -1. -/
theorem zeroKeyCert_accepted :
    sprdVerifyCert [] (List.replicate 32 0) (certtypeKey :: zeroKeyCert) zeroStale = .ok true ∧
      openSignature ((certtypeKey :: zeroKeyCert).drop 4) ((certtypeKey :: zeroKeyCert).drop 340)
        (List.replicate 96 0) zeroStale = .ok (-1, List.replicate 96 0) ∧
      ¬∀ hashKeyPrecert hashData rest stale,
        FixedCountSound (sprdVerifyCert hashKeyPrecert hashData (certtypeKey :: rest) stale)
          ((certtypeKey :: rest).drop 4) ((certtypeKey :: rest).drop 4)
          ((certtypeKey :: rest).drop 340) ((certtypeKey :: rest).drop 268) 72 stale := by
  have hAccepted : sprdVerifyCert [] (List.replicate 32 0) (certtypeKey :: zeroKeyCert)
      zeroStale = .ok true := by decide +kernel
  have hOpened : openSignature ((certtypeKey :: zeroKeyCert).drop 4)
      ((certtypeKey :: zeroKeyCert).drop 340) (List.replicate 96 0) zeroStale =
        .ok (-1, List.replicate 96 0) := by decide +kernel
  have hDest : allocateTo ((certtypeKey :: zeroKeyCert).drop 4) zeroStale =
      .ok (List.replicate 96 0) := by decide +kernel
  refine ⟨hAccepted, hOpened, fun hSound => ?_⟩
  obtain ⟨dest, hDest', r, hOpened', hRet, -⟩ := hSound _ _ _ _ hAccepted
  obtain rfl := ok_unique hDest hDest'
  obtain rfl := ok_unique hOpened hOpened'
  exact absurd hRet (by decide)

end SignImage
