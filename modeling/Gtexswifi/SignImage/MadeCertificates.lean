import Gtexswifi.SignImage.SignedImage

/-! The certificates that the signing tool makes, whichever of the keys can
be read, however long they are and whether or not `RSA_private_encrypt`
succeeds. The tool looks at none of this. -/
namespace SignImage

open Radix

variable {Key : Type} {openssl : Openssl Key}

/-- What a variable of type `sprd_rsapubkey` holds. -/
def SprdRsapubkey : Type := { bytes : List UInt8 // bytes.length = sprdRsapubklen }

def ImageClass.certtype : ImageClass → UInt8
  | .spl | .uboot => certtypeKey
  | .trusted | .boot => certtypeContent

def ImageClass.certSize : ImageClass → Nat
  | .spl | .uboot => keycertSize
  | .trusted | .boot => contentcertSize

/-- The key that signs the images of a class. -/
def ImageClass.signer : ImageClass → KeyPair
  | .spl => .rsa0
  | .uboot | .trusted => .rsa1
  | .boot => .rsa2

/-- The key whose hash goes into the certificates of a class. -/
def ImageClass.next : ImageClass → Option KeyPair
  | .spl => some .rsa1
  | .uboot => some .rsa2
  | .trusted | .boot => none

/-- The number of bytes that the signature of a certificate is made over. -/
def ImageClass.signedSize : ImageClass → Nat
  | .spl | .uboot => keycertHashLen
  | .trusted | .boot => hashByteLen + 8

/-- A certificate is a key, the signed fields and the signature. -/
theorem ImageClass.certSize_eq (stage : ImageClass) :
    stage.certSize = hashDataOffset + stage.signedSize + 256 := by
  cases stage <;> rfl

/-- Exponent and modulus stay inside an object that has so many bytes in
front of the structure and behind it. -/
def PublicKey.Within (key : PublicKey) (before after : Nat) : Prop :=
  key.e.length ≤ before + 8 ∧ key.n.length ≤ 256 + after

/-- A key that stays inside an object stays inside a larger one. -/
theorem PublicKey.Within.mono {key : PublicKey} {before before' after after' : Nat}
    (h : key.Within before after) (hBefore : before ≤ before') (hAfter : after ≤ after') :
    key.Within before' after' := by
  obtain ⟨hExponent, hModulus⟩ := h
  exact ⟨by omega, by omega⟩

/-- The structure after a key that stays inside it has been read over what it
held. -/
def storedPubkey (held : List UInt8) : Option PublicKey → List UInt8
  | none => held
  | some key => (encode 4 (key.rsaSize * 8)).take (8 - key.e.length) ++
      (List.replicate (4 - key.e.length) 0 ++ key.e) ++ key.n ++ held.drop (8 + key.n.length)

/-- The signature field once a signature has been written to it. -/
def signatureField (signature : List UInt8) : List UInt8 :=
  signature ++ List.replicate (256 - signature.length) 0

/-- What the signature field holds in the end: zeros, if the key cannot be
read or has no room for the signed bytes. -/
def storedSignature (openssl : Openssl Key) (pem : Option Key) (signed : List UInt8) : List UInt8 :=
  signatureField ((pem.bind (openssl.rsaPrivateEncrypt · signed)).getD [])

/-- The bytes that are to be hashed can be read. -/
def Hashable (payloadAddr : List UInt8) (payloadSize : Nat) : Prop :=
  ∃ hash, calSha256 payloadAddr payloadSize = .ok hash

/-- A hash that has been computed is as long as the field for it. -/
theorem length_calSha256 {data hash : List UInt8} {len : Nat} (h : calSha256 data len = .ok hash) :
    hash.length = hashByteLen := by
  obtain ⟨bytes, -, hHash⟩ := bind_eq_ok.mp h
  rw [← Except.ok.inj hHash]
  exact length_sha256CsumWd bytes

/-- Bytes that cannot be read end the run. -/
theorem calSha256_eq_error {data : List UInt8} {len : Nat} {fault : Fault}
    (h : calSha256 data len = .error fault) : fault = .outOfBounds := by
  rw [calSha256] at h
  cases hSlice : Memory.slice data 0 (len % 2 ^ 32) with
  | none =>
      rw [hSlice] at h
      exact (Except.error.inj h).symm
  | some bytes =>
      rw [hSlice] at h
      cases h

theorem not_hashable {data : List UInt8} {len : Nat} {fault : Fault}
    (h : calSha256 data len = .error fault) : ¬Hashable data len := by
  rintro ⟨hash, hHash⟩
  cases h.symm.trans hHash

/-- The hash of a whole structure. -/
theorem calSha256_whole {data : List UInt8} (h : data.length = sprdRsapubklen) :
    calSha256 data sprdRsapubklen = .ok (sha256CsumWd data) := by
  have hSlice := Memory.slice_zero_append data []
  rw [List.append_nil, h] at hSlice
  rw [calSha256, Nat.mod_eq_of_lt (by decide), hSlice]
  rfl

section Reading

variable {before held after : List UInt8} {pem : Option PublicKey}

/-- A key that stays inside the structure leaves the object around it as it
is. -/
theorem getpubkeyfrmPEM_inside (hInside : ∀ key, pem = some key → key.Within 0 0)
    (hHeld : held.length = sprdRsapubklen ∨ after = []) :
    getpubkeyfrmPEM before held after pem = .ok (before ++ storedPubkey held pem ++ after) := by
  cases pem with
  | none => rfl
  | some key =>
      obtain ⟨hExponent, hModulus⟩ := hInside key rfl
      have hLen : sprdRsapubklen = 264 := rfl
      have hFront : (before ++ encode 4 (key.rsaSize * 8)).take (before.length + 8 - key.e.length) =
          before ++ (encode 4 (key.rsaSize * 8)).take (8 - key.e.length) := by
        rw [List.take_append, List.take_of_length_le (by omega)]
        congr 2
        omega
      have hBehind : (held ++ after).drop (8 + key.n.length) =
          held.drop (8 + key.n.length) ++ after := by
        rcases hHeld with hHeld | rfl
        · exact List.drop_append_of_le_length (by omega)
        · rw [List.append_nil, List.append_nil]
      rw [getpubkeyfrmPEM, if_pos ⟨by omega, by omega⟩, hFront, hBehind]
      simp only [storedPubkey, List.append_assoc]

/-- Reading a key keeps the length of the object, also where the key does
not fit the structure. -/
theorem getpubkeyfrmPEM_within (hHeld : held.length = sprdRsapubklen)
    (hWithin : ∀ key, pem = some key → key.Within before.length after.length) :
    ∃ object, getpubkeyfrmPEM before held after pem = .ok object ∧
      object.length = before.length + sprdRsapubklen + after.length := by
  cases pem with
  | none => exact ⟨_, rfl, by rw [List.length_append, List.length_append, hHeld]⟩
  | some key =>
      obtain ⟨hExponent, hModulus⟩ := hWithin key rfl
      have hLen : sprdRsapubklen = 264 := rfl
      rw [getpubkeyfrmPEM, if_pos ⟨hExponent, hModulus⟩]
      refine ⟨_, rfl, ?_⟩
      simp only [List.length_append, List.length_take, length_encode, List.length_replicate,
        List.length_drop, hHeld]
      omega

/-- A key that does not stay inside the object is written over what stands
around it. -/
theorem getpubkeyfrmPEM_overrun {key : PublicKey}
    (h : ¬key.Within before.length after.length) :
    getpubkeyfrmPEM before held after (some key) = .error .overrun := if_neg h

end Reading

section Signing

variable {pem : Option Key} {start signed cert : List UInt8} {hashData hashLen signature : Nat}

/-- The signature is written behind the signed bytes, and the rest of its
field stays zero. -/
theorem calcSignature_signed
    (hFits : ∀ priv, pem = some priv → openssl.hasRoom priv signed.length = true →
      openssl.rsaSize priv ≤ 256) :
    calcSignature openssl pem (start ++ signed ++ List.replicate 256 0) start.length signed.length
      (start.length + signed.length) =
        .ok (start ++ signed ++ storedSignature openssl pem signed) := by
  have hSlice : Memory.slice (start ++ signed ++ List.replicate 256 0) start.length signed.length =
      some signed := Memory.slice_append _ _ _
  cases pem with
  | none => rfl
  | some priv =>
      rw [calcSignature, hSlice, storedSignature, Option.bind_some]
      simp only [inBounds, ok_bind]
      cases hWritten : openssl.rsaPrivateEncrypt priv signed with
      | none => rfl
      | some encrypted =>
          have hRoom : openssl.hasRoom priv signed.length = true := by
            rw [← openssl.isSome_rsaPrivateEncrypt, hWritten]
            rfl
          have hLength := openssl.length_rsaPrivateEncrypt priv signed encrypted hWritten
          have hBound := hFits priv rfl hRoom
          have hSplit : List.replicate 256 (0 : UInt8) = List.replicate encrypted.length 0 ++
              List.replicate (256 - encrypted.length) 0 := by
            rw [List.replicate_append_replicate]
            congr 1
            omega
          have hWrite := Memory.write_append (start ++ signed)
            (List.replicate encrypted.length 0) encrypted
            (List.replicate (256 - encrypted.length) 0) List.length_replicate
          rw [List.length_append] at hWrite
          rw [hSplit, ← List.append_assoc]
          dsimp only
          rw [hWrite]
          simp only [inArray, Option.getD_some, signatureField, List.append_assoc]

/-- A signature that fits into the certificate keeps its length. -/
theorem calcSignature_fits (hSlice : hashData + hashLen ≤ cert.length)
    (hFits : ∀ priv, pem = some priv → openssl.hasRoom priv hashLen = true →
      signature + openssl.rsaSize priv ≤ cert.length) :
    ∃ out, calcSignature openssl pem cert hashData hashLen signature = .ok out ∧
      out.length = cert.length := by
  cases pem with
  | none => exact ⟨cert, rfl, rfl⟩
  | some priv =>
      obtain ⟨message, hMessage⟩ : ∃ message, Memory.slice cert hashData hashLen = some message :=
        ⟨_, Memory.slice_eq_some hSlice⟩
      rw [calcSignature, hMessage]
      simp only [inBounds, ok_bind]
      cases hWritten : openssl.rsaPrivateEncrypt priv message with
      | none => exact ⟨cert, rfl, rfl⟩
      | some encrypted =>
          have hRoom : openssl.hasRoom priv hashLen = true := by
            rw [← Memory.length_of_slice hMessage, ← openssl.isSome_rsaPrivateEncrypt, hWritten]
            rfl
          have hBound := hFits priv rfl hRoom
          rw [← openssl.length_rsaPrivateEncrypt priv message encrypted hWritten] at hBound
          obtain ⟨stored, hStored, hLength, -⟩ :=
            Memory.exists_write cert signature encrypted hBound
          simp only [hStored, inArray]
          exact ⟨stored, rfl, hLength⟩

/-- A longer one is written behind its end. -/
theorem calcSignature_overrun {priv : Key} (hSlice : hashData + hashLen ≤ cert.length)
    (hRoom : openssl.hasRoom priv hashLen = true)
    (hLong : cert.length < signature + openssl.rsaSize priv) :
    calcSignature openssl (some priv) cert hashData hashLen signature = .error .overrun := by
  obtain ⟨message, hMessage⟩ : ∃ message, Memory.slice cert hashData hashLen = some message :=
    ⟨_, Memory.slice_eq_some hSlice⟩
  rw [← Memory.length_of_slice hMessage, ← openssl.isSome_rsaPrivateEncrypt] at hRoom
  obtain ⟨encrypted, hWritten⟩ := Option.isSome_iff_exists.mp hRoom
  have hLength := openssl.length_rsaPrivateEncrypt priv message encrypted hWritten
  have hOutside : Memory.write cert signature encrypted = none := by
    rw [Memory.write, if_neg (by omega)]
  rw [calcSignature, hMessage]
  simp only [inBounds, ok_bind, hWritten, hOutside, inArray]

end Signing

/-- The key that is read into a certificate stays inside the certificate, the
key of the next stage inside its variable, and the signature inside its
field. No signature is made where the payload cannot be hashed. -/
structure WritesInside (openssl : Openssl Key) (stage : ImageClass) (payloadAddr : List UInt8)
    (payloadSize : Nat) : Prop where
  pubkey : ∀ key, openssl.readPubkey stage.signer = some key → key.Within 4 (stage.signedSize + 256)
  nextpubk : ∀ pair key, stage.next = some pair → openssl.readPubkey pair = some key →
    key.Within 0 0
  signature : Hashable payloadAddr payloadSize → ∀ priv,
    openssl.readPrivateKey stage.signer = some priv →
      openssl.hasRoom priv stage.signedSize = true → openssl.rsaSize priv ≤ 256

section Making

variable {nextpubk payloadAddr : List UInt8} {payloadSize type version : Nat}
  {current next : KeyPair} {stage : ImageClass}

/-- How the making of a certificate of a class ends. -/
inductive Made (openssl : Openssl Key) (stage : ImageClass) (payloadAddr : List UInt8)
    (payloadSize : Nat) : Except Fault (List UInt8) → Prop
  | cert {cert : List UInt8} : WritesInside openssl stage payloadAddr payloadSize →
      Hashable payloadAddr payloadSize → cert.length = stage.certSize →
      Made openssl stage payloadAddr payloadSize (.ok cert)
  | unread : WritesInside openssl stage payloadAddr payloadSize →
      ¬Hashable payloadAddr payloadSize →
      Made openssl stage payloadAddr payloadSize (.error .outOfBounds)
  | overrun : ¬WritesInside openssl stage payloadAddr payloadSize →
      Made openssl stage payloadAddr payloadSize (.error .overrun)

/-- The signature ends the making of a certificate whose other fields have
been set. -/
theorem made_calcSignature {cert : List UInt8} (hLength : cert.length = stage.certSize)
    (hPubkey : ∀ key, openssl.readPubkey stage.signer = some key →
      key.Within 4 (stage.signedSize + 256))
    (hNext : ∀ pair key, stage.next = some pair → openssl.readPubkey pair = some key →
      key.Within 0 0)
    (hHash : Hashable payloadAddr payloadSize) :
    Made openssl stage payloadAddr payloadSize
      (calcSignature openssl (openssl.readPrivateKey stage.signer) cert hashDataOffset
        stage.signedSize (hashDataOffset + stage.signedSize)) := by
  have hSize := hLength.trans stage.certSize_eq
  by_cases hFits : ∀ priv, openssl.readPrivateKey stage.signer = some priv →
      openssl.hasRoom priv stage.signedSize = true → openssl.rsaSize priv ≤ 256
  · have hRoom : ∀ priv, openssl.readPrivateKey stage.signer = some priv →
        openssl.hasRoom priv stage.signedSize = true →
          hashDataOffset + stage.signedSize + openssl.rsaSize priv ≤ cert.length := by
      intro priv hPriv hRoom
      have hBound := hFits priv hPriv hRoom
      omega
    have hSlice : hashDataOffset + stage.signedSize ≤ cert.length := by omega
    obtain ⟨out, hOut, hSame⟩ := calcSignature_fits hSlice hRoom
    rw [hOut]
    exact .cert ⟨hPubkey, hNext, fun _ => hFits⟩ hHash (hSame.trans hLength)
  · have hOverruns : ¬WritesInside openssl stage payloadAddr payloadSize :=
      fun hInside => hFits (hInside.signature hHash)
    push Not at hFits
    obtain ⟨priv, hPriv, hRoom, hLong⟩ := hFits
    rw [hPriv, calcSignature_overrun (by omega) hRoom (by omega)]
    exact .overrun hOverruns

/-- A hash that is written inside a certificate keeps its length. -/
theorem write_hash (offset : Nat) (cert : List UInt8) {hash : List UInt8}
    (hHash : hash.length = hashByteLen) (hFits : offset + hashByteLen ≤ cert.length) :
    ∃ stored, inBounds (Memory.write cert offset hash) = .ok stored ∧
      stored.length = cert.length := by
  obtain ⟨stored, hStored, hLength, -⟩ := Memory.exists_write cert offset hash (by omega)
  exact ⟨stored, by rw [hStored, inBounds], hLength⟩

/-- So does a key that stays inside the certificate. -/
theorem read_pubkey (certtype : Nat) {held after : List UInt8}
    (hHeld : held.length = sprdRsapubklen) (hAfter : after.length = stage.signedSize + 256)
    (hPubkey : ∀ key, openssl.readPubkey stage.signer = some key →
      key.Within 4 (stage.signedSize + 256)) :
    ∃ cert, getpubkeyfrmPEM (encode 4 certtype) held after (openssl.readPubkey stage.signer) =
      .ok cert ∧ cert.length = stage.certSize := by
  have hBefore : (encode 4 certtype : List UInt8).length = 4 := length_encode _ _
  have hWithin : ∀ key, openssl.readPubkey stage.signer = some key →
      key.Within (encode 4 certtype : List UInt8).length after.length := by
    rwa [hBefore, hAfter]
  obtain ⟨cert, hCert, hLength⟩ := getpubkeyfrmPEM_within hHeld hWithin
  refine ⟨cert, hCert, ?_⟩
  have hOffset : hashDataOffset = 268 := rfl
  have hLen : sprdRsapubklen = 264 := rfl
  rw [hLength, hBefore, hAfter, stage.certSize_eq]
  omega

/-- Any other key overruns it. -/
theorem read_pubkey_overrun (certtype : Nat) (held : List UInt8) {after : List UInt8}
    (hAfter : after.length = stage.signedSize + 256)
    (hPubkey : ¬∀ key, openssl.readPubkey stage.signer = some key →
      key.Within 4 (stage.signedSize + 256)) :
    getpubkeyfrmPEM (encode 4 certtype) held after (openssl.readPubkey stage.signer) =
      .error .overrun := by
  push Not at hPubkey
  obtain ⟨key, hKey, hLong⟩ := hPubkey
  rw [hKey]
  apply getpubkeyfrmPEM_overrun
  rwa [length_encode, hAfter]

/-- The signed fields of a key certificate. -/
theorem length_keycertFields {hashData hashKey : List UInt8} (hData : hashData.length = hashByteLen)
    (hKey : hashKey.length = hashByteLen) (type version : Nat) :
    (hashData ++ hashKey ++ encode 4 type ++ encode 4 version).length = keycertHashLen := by
  rw [List.length_append, List.length_append, List.length_append, hData, hKey, length_encode,
    length_encode]
  rfl

/-- The signed fields of a content certificate, whose type is zero. -/
theorem length_contentcertFields {hashData : List UInt8} (hData : hashData.length = hashByteLen)
    (version : Nat) : (hashData ++ encode 4 0 ++ encode 4 version).length = hashByteLen + 8 := by
  rw [List.length_append, List.length_append, hData, length_encode, length_encode]

/-- The fields of a cleared key certificate behind its key. -/
theorem length_clearedKeycert (type version : Nat) : ((clearedKeycert type version).fields ++
    (clearedKeycert type version).signature).length = keycertHashLen + 256 := by
  rw [List.length_append]
  exact congrArg₂ (· + ·) (length_keycertFields List.length_replicate List.length_replicate _ _)
    List.length_replicate

theorem length_clearedContentcert (version : Nat) : ((clearedContentcert version).fields ++
    (clearedContentcert version).signature).length = hashByteLen + 8 + 256 := by
  rw [List.length_append]
  exact congrArg₂ (· + ·) (length_contentcertFields List.length_replicate _) List.length_replicate

/-- The making of a key certificate: the keys are read, the hashes of the
payload and of the next key are written, and the signature comes last. -/
theorem makeKeycert_made (type version : Nat) (hClass : stage.next = some next)
    (hSize : stage.signedSize = keycertHashLen) (hNextpubk : nextpubk.length = sprdRsapubklen) :
    Made openssl stage payloadAddr payloadSize
      (makeKeycert openssl type version stage.signer next payloadAddr payloadSize nextpubk) := by
  have hHeld : (clearedKeycert type version).pubkey.length = sprdRsapubklen := List.length_replicate
  have hAfter := length_clearedKeycert type version
  rw [← hSize] at hAfter
  have hCertSize := stage.certSize_eq
  have hOffsets : hashDataOffset = 268 ∧ hashKeyOffset = 300 ∧ hashByteLen = 32 ∧
      keycertHashLen = 72 := ⟨rfl, rfl, rfl, rfl⟩
  rw [makeKeycert, SprdKeycert.readPubkey]
  by_cases hPubkey : ∀ key, openssl.readPubkey stage.signer = some key →
      key.Within 4 (stage.signedSize + 256)
  · obtain ⟨cert, hCert, hLength⟩ := read_pubkey _ hHeld hAfter hPubkey
    rw [hCert, ok_bind]
    by_cases hNext : ∀ key, openssl.readPubkey next = some key → key.Within 0 0
    · have hNexts : ∀ pair key, stage.next = some pair → openssl.readPubkey pair = some key →
          key.Within 0 0 := by
        rintro pair key hPair
        obtain rfl := Option.some.inj (hClass.symm.trans hPair)
        exact hNext key
      obtain ⟨nextKey, hNextKey, hNextLength⟩ :
          ∃ nextKey, getpubkeyfrmPEM [] nextpubk [] (openssl.readPubkey next) = .ok nextKey ∧
            nextKey.length = 0 + sprdRsapubklen + 0 := getpubkeyfrmPEM_within hNextpubk hNext
      rw [Nat.zero_add, Nat.add_zero] at hNextLength
      rw [hNextKey, ok_bind]
      cases hHash : calSha256 payloadAddr payloadSize with
      | error fault =>
          obtain rfl := calSha256_eq_error hHash
          have hUnread := not_hashable hHash
          exact .unread ⟨hPubkey, hNexts, fun hHashed => absurd hHashed hUnread⟩ hUnread
      | ok hashData =>
          have hHashKey := calSha256_whole hNextLength
          obtain ⟨withData, hData, hSame⟩ :=
            write_hash hashDataOffset cert (length_calSha256 hHash) (by omega)
          obtain ⟨withKey, hKey, hSame'⟩ :=
            write_hash hashKeyOffset withData (length_calSha256 hHashKey) (by omega)
          rw [ok_bind, hData, ok_bind, hHashKey, ok_bind, hKey, ok_bind, ← hSize]
          exact made_calcSignature (hSame'.trans (hSame.trans hLength)) hPubkey hNexts
            ⟨hashData, hHash⟩
    · push Not at hNext
      obtain ⟨key, hKey, hLong⟩ := hNext
      rw [hKey, getpubkeyfrmPEM_overrun hLong, error_bind]
      exact .overrun fun hInside => hLong (hInside.nextpubk next key hClass hKey)
  · rw [read_pubkey_overrun _ _ hAfter hPubkey, error_bind]
    exact .overrun fun hInside => hPubkey hInside.pubkey

/-- The making of a content certificate, which has no hash of a further
key. -/
theorem makeContentcert_made (version : Nat) (hClass : stage.next = none)
    (hSize : stage.signedSize = hashByteLen + 8) :
    Made openssl stage payloadAddr payloadSize
      (makeContentcert openssl version stage.signer payloadAddr payloadSize) := by
  have hHeld : (clearedContentcert version).pubkey.length = sprdRsapubklen := List.length_replicate
  have hAfter := length_clearedContentcert version
  rw [← hSize] at hAfter
  have hCertSize := stage.certSize_eq
  have hOffsets : hashDataOffset = 268 ∧ hashByteLen = 32 := ⟨rfl, rfl⟩
  rw [makeContentcert, SprdContentcert.readPubkey]
  by_cases hPubkey : ∀ key, openssl.readPubkey stage.signer = some key →
      key.Within 4 (stage.signedSize + 256)
  · obtain ⟨cert, hCert, hLength⟩ := read_pubkey _ hHeld hAfter hPubkey
    have hNexts : ∀ pair key, stage.next = some pair → openssl.readPubkey pair = some key →
        key.Within 0 0 := by
      rintro pair key hPair
      cases hClass.symm.trans hPair
    rw [hCert, ok_bind]
    cases hHash : calSha256 payloadAddr payloadSize with
    | error fault =>
        obtain rfl := calSha256_eq_error hHash
        have hUnread := not_hashable hHash
        exact .unread ⟨hPubkey, hNexts, fun hHashed => absurd hHashed hUnread⟩ hUnread
    | ok hashData =>
        obtain ⟨withData, hData, hSame⟩ :=
          write_hash hashDataOffset cert (length_calSha256 hHash) (by omega)
        rw [ok_bind, hData, ok_bind, ← hSize]
        exact made_calcSignature (hSame.trans hLength) hPubkey hNexts ⟨hashData, hHash⟩
  · rw [read_pubkey_overrun _ _ hAfter hPubkey, error_bind]
    exact .overrun fun hInside => hPubkey hInside.pubkey

/-- The making of the certificate of a class ends in one of three ways. -/
theorem makeCert_made (openssl : Openssl Key) (payloadAddr : List UInt8) (payloadSize : Nat)
    (stage : ImageClass) (hNextpubk : nextpubk.length = sprdRsapubklen) :
    ∃ made, Made openssl stage payloadAddr payloadSize made ∧
      makeCert openssl nextpubk payloadAddr payloadSize stage =
        made >>= fun cert => .ok (stage.certSize, cert) := by
  cases stage with
  | spl => exact ⟨_, makeKeycert_made 1 1 rfl rfl hNextpubk, rfl⟩
  | uboot => exact ⟨_, makeKeycert_made 0 1 rfl rfl hNextpubk, rfl⟩
  | trusted => exact ⟨_, makeContentcert_made 0 rfl rfl, rfl⟩
  | boot => exact ⟨_, makeContentcert_made 1 rfl rfl, rfl⟩

section Ends

variable {cert : List UInt8} {certSize : Nat}

/-- A certificate is made where everything is written inside its object and
the payload can be hashed. -/
theorem makeCert_eq_ok (hNextpubk : nextpubk.length = sprdRsapubklen)
    (hInside : WritesInside openssl stage payloadAddr payloadSize)
    (hHash : Hashable payloadAddr payloadSize) :
    ∃ cert, makeCert openssl nextpubk payloadAddr payloadSize stage = .ok (stage.certSize, cert) ∧
      cert.length = stage.certSize := by
  obtain ⟨made, hMade, hCert⟩ := makeCert_made openssl payloadAddr payloadSize stage hNextpubk
  rw [hCert]
  cases hMade with
  | cert _ _ hLength => exact ⟨_, rfl, hLength⟩
  | unread _ hUnread => exact absurd hHash hUnread
  | overrun hOutside => exact absurd hInside hOutside

/-- And nowhere else. Its size is that of its class. -/
theorem of_makeCert_eq_ok (hNextpubk : nextpubk.length = sprdRsapubklen)
    (h : makeCert openssl nextpubk payloadAddr payloadSize stage = .ok (certSize, cert)) :
    WritesInside openssl stage payloadAddr payloadSize ∧ Hashable payloadAddr payloadSize ∧
      certSize = stage.certSize ∧ cert.length = stage.certSize := by
  obtain ⟨made, hMade, hCert⟩ := makeCert_made openssl payloadAddr payloadSize stage hNextpubk
  rw [hCert] at h
  cases hMade with
  | cert hInside hHash hLength =>
      obtain ⟨rfl, rfl⟩ := Prod.mk.inj (Except.ok.inj h)
      exact ⟨hInside, hHash, rfl, hLength⟩
  | unread => cases h
  | overrun => cases h

/-- What is written outside its object overruns it. -/
theorem makeCert_eq_overrun (hNextpubk : nextpubk.length = sprdRsapubklen) :
    makeCert openssl nextpubk payloadAddr payloadSize stage = .error .overrun ↔
      ¬WritesInside openssl stage payloadAddr payloadSize := by
  obtain ⟨made, hMade, hCert⟩ := makeCert_made openssl payloadAddr payloadSize stage hNextpubk
  rw [hCert]
  cases hMade with
  | cert hInside => simp [hInside]
  | unread hInside => simp [hInside]
  | overrun hOutside => simp [hOutside]

/-- A certificate is small against an image that an `int` has no room for. -/
theorem ImageClass.certSize_lt (stage : ImageClass) : stage.certSize < 1024 := by
  cases stage <;> decide

end Ends

/-- The fields of a certificate in front of the hash of the payload, with a
key that stays inside the structure. -/
def certStart (certtype : UInt8) (pem : Option PublicKey) : List UInt8 :=
  encode 4 certtype.toNat ++ storedPubkey (List.replicate sprdRsapubklen 0) pem

theorem length_certStart {certtype : UInt8} {pem : Option PublicKey}
    (hInside : ∀ key, pem = some key → key.Within 0 0) :
    (certStart certtype pem).length = hashDataOffset := by
  cases pem with
  | none =>
      rw [certStart, storedPubkey, List.length_append, length_encode, List.length_replicate]
      rfl
  | some key =>
      obtain ⟨hExponent, hModulus⟩ := hInside key rfl
      have hOffset : hashDataOffset = 268 := rfl
      have hLen : sprdRsapubklen = 264 := rfl
      simp only [certStart, storedPubkey, List.length_append, List.length_take, length_encode,
        List.length_replicate, List.length_drop]
      omega

/-- A hash that is written behind the start of a certificate fills its
field. -/
theorem write_field {start cleared hash rest : List UInt8} {offset : Nat}
    (hStart : start.length = offset) (hSame : cleared.length = hash.length) :
    inBounds (Memory.write (start ++ cleared ++ rest) offset hash) =
      .ok (start ++ hash ++ rest) := by
  rw [← hStart, Memory.write_append _ _ _ _ hSame, inBounds]

/-- A key certificate with a key that stays inside its structure is signed
over its four fields. -/
theorem makeKeycert_inside (type version : Nat) (next : KeyPair)
    (hInside : ∀ key, openssl.readPubkey current = some key → key.Within 0 0) :
    makeKeycert openssl type version current next payloadAddr payloadSize nextpubk = (do
      let nextpubk ← getpubkeyfrmPEM [] nextpubk [] (openssl.readPubkey next)
      let hashData ← calSha256 payloadAddr payloadSize
      let hashKey ← calSha256 nextpubk sprdRsapubklen
      calcSignature openssl (openssl.readPrivateKey current)
        (certStart certtypeKey (openssl.readPubkey current) ++
          (hashData ++ hashKey ++ encode 4 type ++ encode 4 version) ++ List.replicate 256 0)
        hashDataOffset keycertHashLen (hashDataOffset + keycertHashLen)) := by
  have hStart : (certStart certtypeKey (openssl.readPubkey current)).length = hashDataOffset :=
    length_certStart hInside
  have hRead : (clearedKeycert type version).readPubkey (openssl.readPubkey current) =
      .ok (certStart certtypeKey (openssl.readPubkey current) ++ List.replicate hashByteLen 0 ++
        (List.replicate hashByteLen 0 ++
          (encode 4 type ++ encode 4 version ++ List.replicate 256 0))) := by
    have hHeld : (clearedKeycert type version).pubkey.length = sprdRsapubklen :=
      List.length_replicate
    rw [SprdKeycert.readPubkey, getpubkeyfrmPEM_inside hInside (Or.inl hHeld)]
    simp only [clearedKeycert, certStart, SprdKeycert.fields, List.append_assoc]
  rw [makeKeycert, hRead, ok_bind]
  cases getpubkeyfrmPEM [] nextpubk [] (openssl.readPubkey next) with
  | error fault => rfl
  | ok nextKey =>
      rw [ok_bind, ok_bind]
      cases hHash : calSha256 payloadAddr payloadSize with
      | error fault => rfl
      | ok hashData =>
          have hLength := length_calSha256 hHash
          rw [ok_bind, ok_bind, write_field hStart (List.length_replicate.trans hLength.symm),
            ok_bind]
          cases hHashKey : calSha256 nextKey sprdRsapubklen with
          | error fault => rfl
          | ok hashKey =>
              have hBehind : (certStart certtypeKey (openssl.readPubkey current) ++
                  hashData).length = hashKeyOffset := by
                rw [List.length_append, hStart, hLength]
                rfl
              rw [ok_bind, ok_bind, ← List.append_assoc,
                write_field hBehind (List.length_replicate.trans (length_calSha256 hHashKey).symm),
                ok_bind]
              simp only [List.append_assoc]

/-- A content certificate with a key that stays inside its structure is
signed over its three fields. -/
theorem makeContentcert_inside (version : Nat)
    (hInside : ∀ key, openssl.readPubkey current = some key → key.Within 0 0) :
    makeContentcert openssl version current payloadAddr payloadSize = (do
      let hashData ← calSha256 payloadAddr payloadSize
      calcSignature openssl (openssl.readPrivateKey current)
        (certStart certtypeContent (openssl.readPubkey current) ++
          (hashData ++ encode 4 0 ++ encode 4 version) ++ List.replicate 256 0)
        hashDataOffset (hashByteLen + 8) (hashDataOffset + (hashByteLen + 8))) := by
  have hStart : (certStart certtypeContent (openssl.readPubkey current)).length =
      hashDataOffset := length_certStart hInside
  have hRead : (clearedContentcert version).readPubkey (openssl.readPubkey current) =
      .ok (certStart certtypeContent (openssl.readPubkey current) ++
        List.replicate hashByteLen 0 ++
          (encode 4 0 ++ encode 4 version ++ List.replicate 256 0)) := by
    have hHeld : (clearedContentcert version).pubkey.length = sprdRsapubklen :=
      List.length_replicate
    rw [SprdContentcert.readPubkey, getpubkeyfrmPEM_inside hInside (Or.inl hHeld)]
    simp only [clearedContentcert, certStart, SprdContentcert.fields, List.append_assoc]
  rw [makeContentcert, hRead, ok_bind]
  cases hHash : calSha256 payloadAddr payloadSize with
  | error fault => rfl
  | ok hashData =>
      rw [ok_bind, ok_bind,
        write_field hStart (List.length_replicate.trans (length_calSha256 hHash).symm), ok_bind]
      simp only [List.append_assoc]

/-- The signed fields behind the start of a certificate, with the signature
over them. -/
theorem calcSignature_certStart {certtype : UInt8} {pub : Option PublicKey} {pem : Option Key}
    {signed : List UInt8} {signedSize : Nat} (hInside : ∀ key, pub = some key → key.Within 0 0)
    (hSize : signed.length = signedSize)
    (hFits : ∀ priv, pem = some priv → openssl.hasRoom priv signedSize = true →
      openssl.rsaSize priv ≤ 256) :
    calcSignature openssl pem (certStart certtype pub ++ signed ++ List.replicate 256 0)
      hashDataOffset signedSize (hashDataOffset + signedSize) =
        .ok (certStart certtype pub ++ signed ++ storedSignature openssl pem signed) := by
  have hStart : (certStart certtype pub).length = hashDataOffset := length_certStart hInside
  subst hSize
  rw [← hStart]
  exact calcSignature_signed hFits

/-- A signature that has been made is inside its field. -/
theorem eq_of_calcSignature {certtype : UInt8} {pub : Option PublicKey} {pem : Option Key}
    {signed cert : List UInt8} {signedSize : Nat}
    (hInside : ∀ key, pub = some key → key.Within 0 0) (hSize : signed.length = signedSize)
    (h : calcSignature openssl pem (certStart certtype pub ++ signed ++ List.replicate 256 0)
      hashDataOffset signedSize (hashDataOffset + signedSize) = .ok cert) :
    cert = certStart certtype pub ++ signed ++ storedSignature openssl pem signed := by
  by_cases hFits : ∀ priv, pem = some priv → openssl.hasRoom priv signedSize = true →
      openssl.rsaSize priv ≤ 256
  · rw [calcSignature_certStart hInside hSize hFits] at h
    exact (Except.ok.inj h).symm
  · push Not at hFits
    obtain ⟨priv, rfl, hRoom, hLong⟩ := hFits
    have hStart : (certStart certtype pub).length = hashDataOffset := length_certStart hInside
    have hLength : (certStart certtype pub ++ signed ++ List.replicate 256 0).length =
        hashDataOffset + signedSize + 256 := by
      rw [List.length_append, List.length_append, hStart, hSize, List.length_replicate]
    rw [calcSignature_overrun (by omega) hRoom (by omega)] at h
    cases h

/-- A key certificate with a key that stays inside its structure is made of
the key, the signed fields and the signature. -/
theorem eq_of_makeKeycert {type version : Nat} {cert : List UInt8}
    (hInside : ∀ key, openssl.readPubkey current = some key → key.Within 0 0)
    (h : makeKeycert openssl type version current next payloadAddr payloadSize nextpubk =
      .ok cert) :
    ∃ nextKey hashData hashKey,
      getpubkeyfrmPEM [] nextpubk [] (openssl.readPubkey next) = .ok nextKey ∧
      calSha256 payloadAddr payloadSize = .ok hashData ∧
      calSha256 nextKey sprdRsapubklen = .ok hashKey ∧
      cert = certStart certtypeKey (openssl.readPubkey current) ++
        (hashData ++ hashKey ++ encode 4 type ++ encode 4 version) ++
          storedSignature openssl (openssl.readPrivateKey current)
            (hashData ++ hashKey ++ encode 4 type ++ encode 4 version) := by
  rw [makeKeycert_inside type version next hInside] at h
  obtain ⟨nextKey, hNextKey, h⟩ := bind_eq_ok.mp h
  obtain ⟨hashData, hData, h⟩ := bind_eq_ok.mp h
  obtain ⟨hashKey, hKey, h⟩ := bind_eq_ok.mp h
  refine ⟨nextKey, hashData, hashKey, hNextKey, hData, hKey, eq_of_calcSignature hInside ?_ h⟩
  exact length_keycertFields (length_calSha256 hData) (length_calSha256 hKey) type version

/-- The same of a content certificate. -/
theorem eq_of_makeContentcert {version : Nat} {cert : List UInt8}
    (hInside : ∀ key, openssl.readPubkey current = some key → key.Within 0 0)
    (h : makeContentcert openssl version current payloadAddr payloadSize = .ok cert) :
    ∃ hashData, calSha256 payloadAddr payloadSize = .ok hashData ∧
      cert = certStart certtypeContent (openssl.readPubkey current) ++
        (hashData ++ encode 4 0 ++ encode 4 version) ++
          storedSignature openssl (openssl.readPrivateKey current)
            (hashData ++ encode 4 0 ++ encode 4 version) := by
  rw [makeContentcert_inside version hInside] at h
  obtain ⟨hashData, hData, h⟩ := bind_eq_ok.mp h
  refine ⟨hashData, hData, eq_of_calcSignature hInside ?_ h⟩
  exact length_contentcertFields (length_calSha256 hData) version

/-- The certificate of a class, over as many signed bytes as it has. -/
theorem eq_of_makeCert {cert : List UInt8} {certSize : Nat}
    (hInside : ∀ key, openssl.readPubkey stage.signer = some key → key.Within 0 0)
    (h : makeCert openssl nextpubk payloadAddr payloadSize stage = .ok (certSize, cert)) :
    ∃ signed, signed.length = stage.signedSize ∧
      cert = certStart stage.certtype (openssl.readPubkey stage.signer) ++ signed ++
        storedSignature openssl (openssl.readPrivateKey stage.signer) signed := by
  cases stage with
  | spl | uboot =>
      obtain ⟨made, hMade, h⟩ := bind_eq_ok.mp h
      obtain ⟨rfl, rfl⟩ := Prod.mk.inj (Except.ok.inj h)
      obtain ⟨_, _, _, -, hData, hKey, hCert⟩ := eq_of_makeKeycert hInside hMade
      exact ⟨_, length_keycertFields (length_calSha256 hData) (length_calSha256 hKey) _ _, hCert⟩
  | trusted | boot =>
      obtain ⟨made, hMade, h⟩ := bind_eq_ok.mp h
      obtain ⟨rfl, rfl⟩ := Prod.mk.inj (Except.ok.inj h)
      obtain ⟨_, hData, hCert⟩ := eq_of_makeContentcert hInside hMade
      exact ⟨_, length_contentcertFields (length_calSha256 hData) _, hCert⟩

end Making

end SignImage
