import Gtexswifi.SignImage.Verify

/-! What an accepted content certificate says about its signature. The
branch compares as many bytes as the padding check returned. -/
namespace SignImage

/-- A check that returns `false` unless the comparison finds no difference. -/
theorem guard_eq_true {comparison : Except Fault Int} {rest : Except Fault Bool} :
    (comparison >>= fun res => if res ≠ 0 then pure false else rest) = .ok true ↔
      comparison = .ok 0 ∧ rest = .ok true := by
  cases comparison with
  | error fault => simp
  | ok res =>
      rw [ok_bind]
      split
      · next hDiffer => simp [hDiffer]
      · next hSame => simp [not_not.mp hSame]

/-- The end of every branch: open the signature into a new buffer and
compare it. -/
theorem compareOpened_eq_true {allocated : Except Fault (List UInt8)} {fields : List UInt8}
    {opened : List UInt8 → Except Fault (Int × List UInt8)} {count : Int × List UInt8 → Nat} :
    (allocated >>= fun dest => opened dest >>= fun r =>
        secMemcmp fields r.2 (count r) >>= fun res => pure (decide (res = 0))) = .ok true ↔
      ∃ dest, allocated = .ok dest ∧
        ∃ r, opened dest = .ok r ∧ Agree fields r.2 (count r) := by
  simp only [bind_eq_ok, pure_eq_ok, Except.ok.injEq, decide_eq_true_eq, ← secMemcmp_eq_zero]
  simp only [exists_eq_right]

/-- Opening a signature is opening its block, and copying the payload of the
block into the room there is. -/
theorem openSignature_eq (pubkey signature dest : List UInt8) (stale : Stale) :
    openSignature pubkey signature dest stale = do
      let block ← openedBlock pubkey signature stale
      match payload block with
      | none => .ok (-1, dest)
      | some data => do return ((data.length : Int), ← inBounds (Memory.write dest 0 data)) := by
  rw [openSignature, openedBlock, bind_assoc]
  congr 1
  funext keybitLen
  exact rsaPubDec_eq _ _ _ _ _ _

/-- The return value and the buffer, from the data of the block. -/
theorem openSignature_eq_ok {pubkey signature dest dest' : List UInt8} {stale : Stale} {ret : Int} :
    openSignature pubkey signature dest stale = .ok (ret, dest') ↔
      ∃ block, openedBlock pubkey signature stale = .ok block ∧
        ((payload block = none ∧ ret = -1 ∧ dest' = dest) ∨
          ∃ data, payload block = some data ∧ data.length ≤ dest.length ∧ ret = data.length ∧
            dest' = data ++ dest.drop data.length) := by
  rw [openSignature_eq, bind_eq_ok]
  apply exists_congr
  intro block
  apply and_congr_right
  intro _
  cases payload block with
  | none => simp [eq_comm]
  | some data =>
      by_cases hRoom : data.length ≤ dest.length
      · have hWrite : Memory.write dest 0 data = some (data ++ dest.drop data.length) := by
          rw [Memory.write, if_pos (by omega)]
          simp
        simp [hWrite, inBounds, hRoom, eq_comm]
      · have hWrite : Memory.write dest 0 data = none := if_neg (by omega)
        simp [hWrite, inBounds, hRoom]

theorem loadWord_lt {p : List UInt8} {len v : Nat} (h : loadWord p len = .ok v) :
    v < 256 ^ len := by
  obtain ⟨bytes, hSlice, hValue⟩ := bind_eq_ok.mp h
  obtain rfl := Except.ok.inj hValue
  unfold inBounds at hSlice
  split at hSlice
  · next cells hCells =>
      obtain rfl := Except.ok.inj hSlice
      rw [← Memory.length_of_slice hCells]
      exact Radix.value_lt cells
  · cases hSlice

theorem loadWord_encode {len v : Nat} (rest : List UInt8) (h : v < 256 ^ len) :
    loadWord (Radix.encode len v ++ rest) len = .ok v := by
  have hSlice := Memory.slice_zero_append (Radix.encode len v : List UInt8) rest
  rw [Radix.length_encode] at hSlice
  rw [loadWord, hSlice]
  exact congrArg Except.ok (Radix.value_encode_of_lt h)

/-- The buffer is as long as the block. -/
theorem length_openedBlock {pubkey signature dest block : List UInt8} {stale : Stale}
    (hDest : allocateTo pubkey stale = .ok dest)
    (hBlock : openedBlock pubkey signature stale = .ok block) : block.length = dest.length := by
  obtain ⟨keybitLen, hLoad, hDest⟩ := bind_eq_ok.mp hDest
  obtain rfl := Except.ok.inj hDest
  rw [openedBlock, hLoad, ok_bind, rsaBlock] at hBlock
  split_ifs at hBlock with hNone
  obtain ⟨rsaM, -, hText⟩ := bind_eq_ok.mp hBlock
  rw [length_of_textBlock hText, length_malloc]
  have hWord : keybitLen < 2 ^ 32 := loadWord_lt hLoad
  unfold toInt32 at hNone ⊢
  split_ifs at hNone ⊢ with hSmall <;> omega

/-- The hash of the key in a certificate. -/
def pubkeyHash (certptr : List UInt8) : List UInt8 :=
  sha256CsumWd ((certptr.drop 4).take sprdRsapubklen)

/-- The hash of the key field is that of the certificate's key. -/
theorem calSha256_eq_ok {certptr hash : List UInt8}
    (h : calSha256 (certptr.drop 4) sprdRsapubklen = .ok hash) : hash = pubkeyHash certptr := by
  unfold calSha256 Memory.slice at h
  split_ifs at h with hBound
  · exact (Except.ok.inj h).symm
  · cases h

/-- The key is there when a byte behind it is. -/
theorem calSha256_pubkey {certptr : List UInt8} (h : 0 < (certptr.drop 268).length) :
    calSha256 (certptr.drop 4) sprdRsapubklen = .ok (pubkeyHash certptr) := by
  rw [List.length_drop] at h
  have hSize : sprdRsapubklen % 2 ^ 32 = 264 := rfl
  rw [calSha256, hSize, Memory.slice_eq_some (by rw [List.length_drop]; omega)]
  rfl

/-- The hash of the image and the hash of the key are those that the
certificate is held against. -/
def HashesMatch (hashKeyPrecert hashData certptr : List UInt8) : Prop :=
  Agree hashData (certptr.drop 268) hashByteLen ∧
    Agree hashKeyPrecert (pubkeyHash certptr) hashByteLen

theorem Agree.pos {cs st : List UInt8} {count : Nat} (h : Agree cs st count) (hCount : 0 < count) :
    0 < cs.length ∧ 0 < st.length :=
  ⟨Nat.lt_of_lt_of_le hCount h.1, Nat.lt_of_lt_of_le hCount h.2.1⟩

/-- A content certificate is accepted exactly if both hashes match and the
signature opens to as many of the signed bytes as `RSA_PubDec` has returned. -/
theorem contentCert_eq_true {hashKeyPrecert hashData certptr : List UInt8} {stale : Stale}
    (hType : certptr[0]? = some certtypeContent) :
    sprdVerifyCert hashKeyPrecert hashData certptr stale = .ok true ↔
      HashesMatch hashKeyPrecert hashData certptr ∧
        ∃ dest, allocateTo (certptr.drop 4) stale = .ok dest ∧
          ∃ r, openSignature (certptr.drop 4) (certptr.drop 308) dest stale = .ok r ∧
            Agree (certptr.drop 268) r.2 (toUnsigned r.1) := by
  have hKey : ¬certtypeContent = certtypeKey := by decide
  rw [sprdVerifyCert, hType]
  simp only [inBounds, ok_bind, if_neg hKey, if_true]
  rw [bind_eq_ok]
  simp only [guard_eq_true, secMemcmp_eq_zero, compareOpened_eq_true, HashesMatch]
  constructor
  · rintro ⟨temphashData, hTemphash, hData, hKeyHash, hOpened⟩
    obtain rfl := calSha256_eq_ok hTemphash
    exact ⟨⟨hData, hKeyHash⟩, hOpened⟩
  · rintro ⟨⟨hData, hKeyHash⟩, hOpened⟩
    exact ⟨_, calSha256_pubkey (hData.pos (by decide)).2, hData, hKeyHash, hOpened⟩

/-- An accepted content certificate has a signature that opens to its signed
fields, the 40 bytes of `hash_data`, `type` and `version`. -/
def ContentSound (hashKeyPrecert hashData certptr : List UInt8) (stale : Stale) : Prop :=
  sprdVerifyCert hashKeyPrecert hashData certptr stale = .ok true →
    ∃ dest, allocateTo (certptr.drop 4) stale = .ok dest ∧
      ∃ r, openSignature (certptr.drop 4) (certptr.drop 308) dest stale = .ok r ∧
        r.1 = 40 ∧ r.2.take 40 = (certptr.drop 268).take 40

/-- The signature opens to data of another length than the signed fields,
which are the first bytes of the certificate from `hash_data` on. -/
def OpensToPrefix (certptr : List UInt8) (stale : Stale) : Prop :=
  ∃ block data, openedBlock (certptr.drop 4) (certptr.drop 308) stale = .ok block ∧
    payload block = some data ∧ data.length ≠ 40 ∧ data <+: certptr.drop 268

/-- The room for the opened signature is what the key's own size gives,
which is less than 2^29 bytes. -/
theorem length_allocateTo {pubkey dest : List UInt8} {stale : Stale}
    (hDest : allocateTo pubkey stale = .ok dest) : dest.length < 2 ^ 29 := by
  obtain ⟨keybitLen, hLoad, hDest⟩ := bind_eq_ok.mp hDest
  obtain rfl := Except.ok.inj hDest
  have hWord : keybitLen < 2 ^ 32 := loadWord_lt hLoad
  rw [length_malloc]
  omega

/-- The count of a failed check is larger than every buffer. -/
theorem not_agree_failed {fields dest : List UInt8} (hDest : dest.length < 2 ^ 29) :
    ¬Agree fields dest (toUnsigned (-1)) := by
  rintro ⟨_, hRoom, _⟩
  rw [show toUnsigned (-1) = 2 ^ 32 - 1 from rfl] at hRoom
  omega

theorem toUnsigned_natCast {n : Nat} (h : n < 2 ^ 29) : toUnsigned n = n := by
  unfold toUnsigned
  omega

/-- Where the block of a signature can be opened its key has a size, and
there is room. -/
theorem allocateTo_of_openedBlock {pubkey signature block : List UInt8} {stale : Stale}
    (h : openedBlock pubkey signature stale = .ok block) :
    ∃ dest, allocateTo pubkey stale = .ok dest := by
  obtain ⟨keybitLen, hLoad, -⟩ := bind_eq_ok.mp h
  exact ⟨_, by rw [allocateTo, hLoad]; rfl⟩

/-- A field agrees with data of its own length exactly if the data is its
beginning. -/
theorem agree_append {fields data rest : List UInt8} :
    Agree fields (data ++ rest) data.length ↔ data <+: fields := by
  unfold Agree
  rw [List.take_left, List.length_append]
  constructor
  · rintro ⟨_, _, hSame⟩
    exact List.prefix_iff_eq_take.mpr hSame.symm
  · rintro ⟨tail, rfl⟩
    simp

/-- The content branch is sound for a certificate exactly when it is not one
whose hashes match and whose signature opens to a prefix of another length. -/
theorem contentCert_sound_iff (hashKeyPrecert hashData rest : List UInt8) (stale : Stale) :
    ContentSound hashKeyPrecert hashData (certtypeContent :: rest) stale ↔
      ¬(HashesMatch hashKeyPrecert hashData (certtypeContent :: rest) ∧
        OpensToPrefix (certtypeContent :: rest) stale) := by
  generalize hCert : certtypeContent :: rest = certptr
  have hType : certptr[0]? = some certtypeContent := by rw [← hCert]; rfl
  unfold ContentSound
  rw [contentCert_eq_true hType]
  constructor
  · rintro hSound ⟨hMatch, block, data, hBlock, hPayload, hOther, hPrefix⟩
    obtain ⟨dest, hDest⟩ := allocateTo_of_openedBlock hBlock
    have hSmall := length_allocateTo hDest
    have hRoom : data.length ≤ dest.length := by
      rw [← length_openedBlock hDest hBlock]
      have := length_of_payload hPayload
      omega
    have hOpen := openSignature_eq_ok.mpr
      ⟨block, hBlock, Or.inr ⟨data, hPayload, hRoom, rfl, rfl⟩⟩
    have hAgree : Agree (certptr.drop 268) (data ++ dest.drop data.length)
        (toUnsigned data.length) := by
      rw [toUnsigned_natCast (by omega)]
      exact agree_append.mpr hPrefix
    obtain ⟨dest', hDest', r, hOpen', hRet, -⟩ :=
      hSound ⟨hMatch, dest, hDest, _, hOpen, hAgree⟩
    obtain rfl := ok_unique hDest hDest'
    obtain rfl := ok_unique hOpen hOpen'
    exact hOther (Int.ofNat.inj hRet)
  · rintro hNot ⟨hMatch, dest, hDest, r, hOpen, hAgree⟩
    obtain ⟨block, hBlock, hCase⟩ := openSignature_eq_ok.mp hOpen
    rcases hCase with ⟨-, hRet, hSame⟩ | ⟨data, hPayload, hRoom, hRet, hBuffer⟩
    · rw [hRet, hSame] at hAgree
      exact absurd hAgree (not_agree_failed (length_allocateTo hDest))
    · have hSmall := length_allocateTo hDest
      rw [hRet, hBuffer, toUnsigned_natCast (by omega), agree_append] at hAgree
      have hLength : data.length = 40 := by
        by_contra hOther
        exact hNot ⟨hMatch, block, data, hBlock, hPayload, hOther, hAgree⟩
      refine ⟨dest, hDest, r, hOpen, by rw [hRet, hLength]; rfl, ?_⟩
      rw [hBuffer, ← hLength, List.take_left]
      exact List.prefix_iff_eq_take.mp hAgree

/-- A key of 768 bits with exponent 1, so that a signature opens to itself. -/
def plainPubkey : List UInt8 :=
  [0, 3, 0, 0] ++ [0, 0, 0, 1] ++ List.replicate 96 0xff ++ List.replicate 160 0

/-- A content certificate over a hash of zeros, whose signature opens to no
data, behind its type byte. -/
def emptyPayloadCert : List UInt8 :=
  [0, 0, 0] ++ plainPubkey ++ List.replicate 40 0 ++
    ([0, 1] ++ List.replicate 93 0xff ++ [0]) ++ List.replicate 160 0

def zeroStale : Stale where
  stack _ := 0
  heap _ := 0

/-- The certificate is accepted although `RSA_PubDec` returns 0. -/
theorem emptyPayloadCert_accepted :
    sprdVerifyCert (sha256CsumWd plainPubkey) (List.replicate 32 0)
        (certtypeContent :: emptyPayloadCert) zeroStale = .ok true ∧
      openSignature ((certtypeContent :: emptyPayloadCert).drop 4)
        ((certtypeContent :: emptyPayloadCert).drop 308) (List.replicate 96 0) zeroStale =
          .ok (0, List.replicate 96 0) ∧
      ¬∀ hashKeyPrecert hashData rest stale,
        ContentSound hashKeyPrecert hashData (certtypeContent :: rest) stale := by
  have hAccepted : sprdVerifyCert (sha256CsumWd plainPubkey) (List.replicate 32 0)
      (certtypeContent :: emptyPayloadCert) zeroStale = .ok true := by decide +kernel
  have hOpened : openSignature ((certtypeContent :: emptyPayloadCert).drop 4)
      ((certtypeContent :: emptyPayloadCert).drop 308) (List.replicate 96 0) zeroStale =
        .ok (0, List.replicate 96 0) := by decide +kernel
  have hDest : allocateTo ((certtypeContent :: emptyPayloadCert).drop 4) zeroStale =
      .ok (List.replicate 96 0) := by decide +kernel
  refine ⟨hAccepted, hOpened, fun hSound => ?_⟩
  obtain ⟨dest, hDest', r, hOpened', hRet, -⟩ := hSound _ _ _ _ hAccepted
  obtain rfl := ok_unique hDest hDest'
  obtain rfl := ok_unique hOpened hOpened'
  exact absurd hRet (by decide)

end SignImage
