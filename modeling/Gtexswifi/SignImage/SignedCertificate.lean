import Gtexswifi.SignImage.MadeCertificates

/-! The certificates that the signing tool makes from 2048-bit keys, and
what the verifier answers to them. -/
namespace SignImage

open Radix

/-- The exponent as `sprd_rsapubkey` holds it. -/
def PublicKey.exponent (key : PublicKey) : List UInt8 :=
  List.replicate (4 - key.e.length) 0 ++ key.e

/-- The structure `sprd_rsapubkey`. -/
def PublicKey.bytes (key : PublicKey) : List UInt8 :=
  encode 4 (key.rsaSize * 8) ++ key.exponent ++ key.n

/-- A key that fits the fields of the structure stays inside it. -/
theorem PublicKey.within_of_fits {key : PublicKey} (he : key.e.length ≤ 4)
    (hn : key.n.length ≤ 256) : key.Within 0 0 := ⟨by omega, by omega⟩

/-- Such a key is written to the start of the structure, and what that held
behind the modulus stays. -/
theorem storedPubkey_short {key : PublicKey} (he : key.e.length ≤ 4) (held : List UInt8) :
    storedPubkey held (some key) = key.bytes ++ held.drop (8 + key.n.length) := by
  have hSize : (encode 4 (key.rsaSize * 8)).take (8 - key.e.length) =
      (encode 4 (key.rsaSize * 8) : List UInt8) := by
    rw [List.take_of_length_le]
    rw [length_encode]
    omega
  rw [storedPubkey, hSize]
  rfl

/-- A variable that a key is read into holds the key. -/
theorem getpubkeyfrmPEM_short {key : PublicKey} (he : key.e.length ≤ 4)
    (hn : key.n.length ≤ 256) (held : List UInt8) :
    getpubkeyfrmPEM [] held [] (some key) =
      .ok (key.bytes ++ held.drop (8 + key.n.length)) := by
  have hInside : ∀ read, some key = some read → read.Within 0 0 := by
    rintro read hRead
    obtain rfl := Option.some.inj hRead
    exact PublicKey.within_of_fits he hn
  rw [getpubkeyfrmPEM_inside hInside (Or.inr rfl), storedPubkey_short he, List.nil_append,
    List.append_nil]

variable {Key : Type} {openssl : Openssl Key}

/-- The PEM readers return three keys of 2048 bits with exponents of at most
32 bits. -/
structure KeyFiles (openssl : Openssl Key) where
  pub : KeyPair → PublicKey
  priv : KeyPair → Key
  readPubkey : ∀ k, openssl.readPubkey k = some (pub k)
  readPrivateKey : ∀ k, openssl.readPrivateKey k = some (priv k)
  rsaSize : ∀ k, (pub k).rsaSize = 256
  length_n : ∀ k, (pub k).n.length = 256
  length_e : ∀ k, (pub k).e.length ≤ 4

namespace KeyFiles

/-- The signature that `RSA_private_encrypt` writes, which is nothing where
it fails. -/
def signature (keys : KeyFiles openssl) (k : KeyPair) (message : List UInt8) : List UInt8 :=
  (openssl.rsaPrivateEncrypt (keys.priv k) message).getD []

/-- The signature is as long as the modulus, and `RSA_PubDec` opens it to
exactly the message, whatever buffer and stack hold. -/
structure Signs (keys : KeyFiles openssl) (k : KeyPair) (message : List UInt8) : Prop where
  length_signature : (keys.signature k message).length = 256
  opens : ∀ dest stack, dest.length = 256 →
    rsaPubDec (some (keys.pub k).exponent) (some (keys.pub k).n) 2048 (keys.signature k message)
      dest stack = .ok ((message.length : Int), message ++ dest.drop message.length)

/-- A signature that is as long as the modulus has been written. -/
theorem Signs.rsaPrivateEncrypt {keys : KeyFiles openssl} {k : KeyPair} {message : List UInt8}
    (h : keys.Signs k message) :
    openssl.rsaPrivateEncrypt (keys.priv k) message = some (keys.signature k message) := by
  have hLength := h.length_signature
  rw [signature] at hLength ⊢
  cases hWritten : openssl.rsaPrivateEncrypt (keys.priv k) message with
  | none =>
      rw [hWritten] at hLength
      cases hLength
  | some encrypted => rfl

theorem length_exponent (keys : KeyFiles openssl) (k : KeyPair) :
    (keys.pub k).exponent.length = 4 := by
  rw [PublicKey.exponent, List.length_append, List.length_replicate,
    Nat.sub_add_cancel (keys.length_e k)]

theorem length_bytes (keys : KeyFiles openssl) (k : KeyPair) :
    (keys.pub k).bytes.length = sprdRsapubklen := by
  rw [PublicKey.bytes, List.length_append, List.length_append, length_encode,
    keys.length_exponent, keys.length_n]
  rfl

/-- The keys stay inside the structure. -/
theorem within (keys : KeyFiles openssl) (k : KeyPair) (key : PublicKey)
    (h : openssl.readPubkey k = some key) : key.Within 0 0 := by
  obtain rfl := Option.some.inj ((keys.readPubkey k).symm.trans h)
  exact PublicKey.within_of_fits (keys.length_e k) (keys.length_n k).le

/-- A key that is read covers the variable it is read into. -/
theorem getpubkeyfrmPEM_eq (keys : KeyFiles openssl) (k : KeyPair) (held : List UInt8) :
    getpubkeyfrmPEM [] held [] (openssl.readPubkey k) =
      .ok ((keys.pub k).bytes ++ held.drop sprdRsapubklen) := by
  rw [keys.readPubkey, getpubkeyfrmPEM_short (keys.length_e k) (keys.length_n k).le,
    keys.length_n]
  rfl

/-- And so it covers the structure in a certificate. -/
theorem certStart_eq (keys : KeyFiles openssl) (certtype : UInt8) (k : KeyPair) :
    certStart certtype (openssl.readPubkey k) = encode 4 certtype.toNat ++ (keys.pub k).bytes := by
  have hBehind : (List.replicate sprdRsapubklen (0 : UInt8)).drop (8 + 256) = [] :=
    List.drop_of_length_le List.length_replicate.le
  rw [certStart, keys.readPubkey, storedPubkey_short (keys.length_e k), keys.length_n, hBehind,
    List.append_nil]

theorem calSha256_bytes (keys : KeyFiles openssl) (k : KeyPair) (behind : List UInt8) :
    calSha256 ((keys.pub k).bytes ++ behind) sprdRsapubklen =
      .ok (sha256CsumWd (keys.pub k).bytes) := by
  have hSlice := Memory.slice_zero_append (keys.pub k).bytes behind
  rw [keys.length_bytes] at hSlice
  rw [calSha256, Nat.mod_eq_of_lt (by decide), hSlice]
  rfl

/-- The signature of a message fills its field. -/
theorem storedSignature_eq (keys : KeyFiles openssl) {k : KeyPair} {message : List UInt8}
    (hSigns : keys.Signs k message) :
    storedSignature openssl (openssl.readPrivateKey k) message = keys.signature k message := by
  rw [storedSignature, keys.readPrivateKey, Option.bind_some]
  change signatureField (keys.signature k message) = _
  rw [signatureField, hSigns.length_signature]
  exact List.append_nil _

/-- A certificate with one of the keys is signed with its private key. -/
theorem calcSignature_eq (keys : KeyFiles openssl) {k : KeyPair} {message : List UInt8}
    (hSigns : keys.Signs k message) {hashLen : Nat} (hLen : message.length = hashLen)
    (certtype : UInt8) :
    calcSignature openssl (openssl.readPrivateKey k)
      (certStart certtype (openssl.readPubkey k) ++ message ++ List.replicate 256 0) hashDataOffset
        hashLen (hashDataOffset + hashLen) =
      .ok (encode 4 certtype.toNat ++ (keys.pub k).bytes ++ message ++
        keys.signature k message) := by
  have hFits : ∀ priv, openssl.readPrivateKey k = some priv →
      openssl.hasRoom priv hashLen = true → openssl.rsaSize priv ≤ 256 := by
    rintro priv hPriv -
    obtain rfl := Option.some.inj ((keys.readPrivateKey k).symm.trans hPriv)
    rw [← openssl.length_rsaPrivateEncrypt _ _ _ hSigns.rsaPrivateEncrypt, hSigns.length_signature]
  rw [calcSignature_certStart (keys.within k) hLen hFits, keys.storedSignature_eq hSigns,
    keys.certStart_eq]

end KeyFiles

/-- What a certificate signs besides the hash of the image. -/
def KeyFiles.attributes (keys : KeyFiles openssl) : ImageClass → List UInt8
  | .spl => sha256CsumWd (keys.pub .rsa1).bytes ++ encode 4 1 ++ encode 4 1
  | .uboot => sha256CsumWd (keys.pub .rsa2).bytes ++ encode 4 0 ++ encode 4 1
  | .trusted => encode 4 0 ++ encode 4 0
  | .boot => encode 4 0 ++ encode 4 1

/-- The message that is signed. -/
def KeyFiles.fields (keys : KeyFiles openssl) (imageClass : ImageClass) (hash : List UInt8) :
    List UInt8 := hash ++ keys.attributes imageClass

/-- The certificate for an image with a hash. -/
def KeyFiles.cert (keys : KeyFiles openssl) (imageClass : ImageClass) (hash : List UInt8) :
    List UInt8 :=
  encode 4 imageClass.certtype.toNat ++ (keys.pub imageClass.signer).bytes ++
    keys.fields imageClass hash ++
      keys.signature imageClass.signer (keys.fields imageClass hash)

namespace KeyFiles

variable (keys : KeyFiles openssl) {imageClass : ImageClass} {hash : List UInt8}

/-- The key certificate is made of the key, the two hashes and the signature
over them. -/
theorem makeKeycert_eq (type version : Nat) (current next : KeyPair) (nextpubk : List UInt8)
    {payloadAddr : List UInt8} {payloadSize : Nat}
    (hHash : calSha256 payloadAddr payloadSize = .ok hash) (hLength : hash.length = 32)
    {message : List UInt8} (hSigns : keys.Signs current message)
    (hMessage : message =
      hash ++ (sha256CsumWd (keys.pub next).bytes ++ encode 4 type ++ encode 4 version)) :
    makeKeycert openssl type version current next payloadAddr payloadSize nextpubk =
      .ok (encode 4 certtypeKey.toNat ++ (keys.pub current).bytes ++ message ++
        keys.signature current message) := by
  have hFields : hash ++ sha256CsumWd (keys.pub next).bytes ++ encode 4 type ++
      encode 4 version = message := by
    simp only [hMessage, List.append_assoc]
  have hLen : message.length = keycertHashLen := by
    rw [← hFields]
    exact length_keycertFields hLength (length_sha256CsumWd _) type version
  rw [makeKeycert_inside type version next (keys.within current), keys.getpubkeyfrmPEM_eq, ok_bind,
    hHash, ok_bind, keys.calSha256_bytes, ok_bind, hFields]
  exact keys.calcSignature_eq hSigns hLen certtypeKey

/-- The content certificate is made of the key, the hash, the version and
the signature over them. -/
theorem makeContentcert_eq (version : Nat) (current : KeyPair) {payloadAddr : List UInt8}
    {payloadSize : Nat} (hHash : calSha256 payloadAddr payloadSize = .ok hash)
    (hLength : hash.length = 32) {message : List UInt8} (hSigns : keys.Signs current message)
    (hMessage : message = hash ++ (encode 4 0 ++ encode 4 version)) :
    makeContentcert openssl version current payloadAddr payloadSize =
      .ok (encode 4 certtypeContent.toNat ++ (keys.pub current).bytes ++ message ++
        keys.signature current message) := by
  have hFields : hash ++ encode 4 0 ++ encode 4 version = message := by
    simp only [hMessage, List.append_assoc]
  have hLen : message.length = hashByteLen + 8 := by
    rw [← hFields]
    exact length_contentcertFields hLength version
  rw [makeContentcert_inside version (keys.within current), hHash, ok_bind, hFields]
  exact keys.calcSignature_eq hSigns hLen certtypeContent

/-- Every class gets its certificate, whatever `nextpubk` held. -/
theorem makeCert_eq {payloadAddr : List UInt8} {payloadSize : Nat}
    (hHash : calSha256 payloadAddr payloadSize = .ok hash) (hLength : hash.length = 32)
    (hSigns : keys.Signs imageClass.signer (keys.fields imageClass hash))
    (nextpubk : List UInt8) :
    makeCert openssl nextpubk payloadAddr payloadSize imageClass =
      .ok (imageClass.certSize, keys.cert imageClass hash) := by
  cases imageClass with
  | spl =>
      rw [makeCert, keys.makeKeycert_eq 1 1 .rsa0 .rsa1 nextpubk hHash hLength hSigns rfl, ok_bind]
      rfl
  | uboot =>
      rw [makeCert, keys.makeKeycert_eq 0 1 .rsa1 .rsa2 nextpubk hHash hLength hSigns rfl, ok_bind]
      rfl
  | trusted =>
      rw [makeCert, keys.makeContentcert_eq 0 .rsa1 hHash hLength hSigns rfl, ok_bind]
      rfl
  | boot =>
      rw [makeCert, keys.makeContentcert_eq 1 .rsa2 hHash hLength hSigns rfl, ok_bind]
      rfl

end KeyFiles

theorem setParameterCharOpenssl_append {str : List UInt8} {strLen : Nat} (h : str.length = strLen)
    (behind : List UInt8) :
    setParameterCharOpenssl (str ++ behind) strLen = setParameterCharOpenssl str strLen := by
  have hAlone := Memory.slice_zero_append str []
  rw [List.append_nil] at hAlone
  subst h
  rw [setParameterCharOpenssl, setParameterCharOpenssl, hAlone, Memory.slice_zero_append]

/-- Exponent and modulus are not read behind their ends. -/
theorem rsaPubDec_append {pubD modN : List UInt8} {bitLenN : Int} (hPubD : pubD.length = 4)
    (hModN : modN.length = (bitLenN / 8).toNat) (behindD behindN signature dest : List UInt8)
    (stack : Nat → UInt8) :
    rsaPubDec (some (pubD ++ behindD)) (some (modN ++ behindN)) bitLenN signature dest stack =
      rsaPubDec (some pubD) (some modN) bitLenN signature dest stack := by
  simp only [rsaPubDec, rsaBlock, decrypted, setUnlessNull,
    setParameterCharOpenssl_append hPubD, setParameterCharOpenssl_append hModN]

theorem secMemcmp_defined {cs st : List UInt8} {count : Nat} (hcs : count ≤ cs.length)
    (hst : count ≤ st.length) : ∃ res, secMemcmp cs st count = .ok res := by
  induction count generalizing cs st with
  | zero => exact ⟨0, by simp [secMemcmp]⟩
  | succ count ih =>
      cases cs with
      | nil => cases hcs
      | cons a cs =>
          cases st with
          | nil => cases hst
          | cons b st =>
              rw [secMemcmp]
              split
              · exact ⟨_, rfl⟩
              · exact ih (Nat.le_of_succ_le_succ hcs) (Nat.le_of_succ_le_succ hst)

/-- Both kinds of certificate are rejected for another hash than that of the
image. -/
theorem sprdVerifyCert_otherHash {hashKeyPrecert hashData certptr : List UInt8} {stale : Stale}
    (hType : certptr[0]? = some certtypeKey ∨ certptr[0]? = some certtypeContent)
    (hBound : hashByteLen ≤ (certptr.drop 268).length) (hLength : hashByteLen ≤ hashData.length)
    (hOther : ¬Agree hashData (certptr.drop 268) hashByteLen) :
    sprdVerifyCert hashKeyPrecert hashData certptr stale = .ok false := by
  obtain ⟨res, hRes⟩ := secMemcmp_defined hLength hBound
  have hDiffer : res ≠ 0 := by
    rintro rfl
    exact hOther (secMemcmp_eq_zero.mp hRes)
  have hPubkey := calSha256_pubkey (Nat.lt_of_lt_of_le (by decide) hBound)
  have hKinds : ¬certtypeContent = certtypeKey := by decide
  rw [sprdVerifyCert]
  rcases hType with hType | hType
  · simp only [hType, inBounds, ok_bind, if_true, hPubkey, hRes, if_pos hDiffer, pure_eq_ok]
  · simp only [hType, inBounds, ok_bind, if_neg hKinds, if_true, hPubkey, hRes, if_pos hDiffer,
      pure_eq_ok]

/-- A field that begins with a hash agrees with a hash exactly if they are
equal. -/
theorem agree_hash {hash hash' rest : List UInt8} (hLength : hash.length = hashByteLen)
    (hLength' : hash'.length = hashByteLen) : Agree hash' (hash ++ rest) hashByteLen ↔
      hash' = hash := by
  rw [← hLength, agree_append]
  constructor
  · intro hPrefix
    exact (hPrefix.eq_of_length (hLength.trans hLength'.symm)).symm
  · rintro rfl
    exact List.prefix_rfl

namespace KeyFiles

variable (keys : KeyFiles openssl) {imageClass : ImageClass} {hash : List UInt8}

theorem drop_cert (imageClass : ImageClass) (hash : List UInt8) :
    (keys.cert imageClass hash).drop 4 = (keys.pub imageClass.signer).bytes ++
      (keys.fields imageClass hash ++
        keys.signature imageClass.signer (keys.fields imageClass hash)) := by
  rw [cert]
  simp only [List.append_assoc]
  exact List.drop_left' (length_encode _ _)

theorem drop_cert_fields (imageClass : ImageClass) (hash : List UInt8) :
    (keys.cert imageClass hash).drop 268 = keys.fields imageClass hash ++
      keys.signature imageClass.signer (keys.fields imageClass hash) := by
  have hDrop : (keys.cert imageClass hash).drop 268 =
      ((keys.cert imageClass hash).drop 4).drop sprdRsapubklen := by
    rw [List.drop_drop]
    rfl
  rw [hDrop, drop_cert, List.drop_left' (keys.length_bytes _)]

/-- The signature stands behind the signed fields, whose length the class of
the image decides. -/
theorem drop_cert_signature {n : Nat} (hn : (keys.fields imageClass hash).length = n) :
    (keys.cert imageClass hash).drop (268 + n) =
      keys.signature imageClass.signer (keys.fields imageClass hash) := by
  rw [← List.drop_drop, drop_cert_fields, List.drop_left' hn]

/-- The buffer takes the modulus, and the signature opens to the signed
fields. -/
theorem opens_cert (hSigns : keys.Signs imageClass.signer (keys.fields imageClass hash))
    (hSmall : (keys.fields imageClass hash).length < 2 ^ 29) (stale : Stale) :
    ∃ dest, allocateTo ((keys.cert imageClass hash).drop 4) stale = .ok dest ∧
      ∃ r, openSignature ((keys.cert imageClass hash).drop 4)
          (keys.signature imageClass.signer (keys.fields imageClass hash)) dest stale = .ok r ∧
        toUnsigned r.1 = (keys.fields imageClass hash).length ∧
        Agree ((keys.cert imageClass hash).drop 268) r.2
          (keys.fields imageClass hash).length := by
  have hLoad : loadWord ((keys.cert imageClass hash).drop 4) 4 = .ok 2048 := by
    rw [drop_cert, PublicKey.bytes, keys.rsaSize]
    simp only [List.append_assoc]
    exact loadWord_encode _ (by decide)
  have hDest : allocateTo ((keys.cert imageClass hash).drop 4) stale =
      .ok (malloc 256 stale.heap) := by
    rw [allocateTo, hLoad]
    rfl
  have hExponent : ((keys.cert imageClass hash).drop 4).drop 4 =
      (keys.pub imageClass.signer).exponent ++ ((keys.pub imageClass.signer).n ++
        (keys.fields imageClass hash ++
          keys.signature imageClass.signer (keys.fields imageClass hash))) := by
    rw [drop_cert, PublicKey.bytes]
    simp only [List.append_assoc]
    exact List.drop_left' (length_encode _ _)
  have hModulus : ((keys.cert imageClass hash).drop 4).drop 8 =
      (keys.pub imageClass.signer).n ++ (keys.fields imageClass hash ++
        keys.signature imageClass.signer (keys.fields imageClass hash)) := by
    rw [← List.drop_drop (i := 4) (j := 4), hExponent, List.drop_left' (keys.length_exponent _)]
  have hOpen := hSigns.opens (malloc 256 stale.heap) stale.stack (length_malloc _ _)
  rw [← rsaPubDec_append (keys.length_exponent _) (keys.length_n _), ← hExponent,
    ← hModulus] at hOpen
  have hSignature : openSignature ((keys.cert imageClass hash).drop 4)
      (keys.signature imageClass.signer (keys.fields imageClass hash)) (malloc 256 stale.heap)
        stale = .ok (((keys.fields imageClass hash).length : Int), keys.fields imageClass hash ++
          (malloc 256 stale.heap).drop (keys.fields imageClass hash).length) := by
    rw [openSignature, hLoad]
    exact hOpen
  refine ⟨_, hDest, _, hSignature, toUnsigned_natCast hSmall, ?_⟩
  rw [drop_cert_fields, agree_append]
  exact List.prefix_append _ _

/-- A certificate is one with a key or one with content, and the signed
fields have the length of their kind. -/
theorem cert_kind (imageClass : ImageClass) (hLength : hash.length = hashByteLen) :
    (imageClass.certtype = certtypeKey ∧
      (keys.fields imageClass hash).length = keycertHashLen) ∨
    (imageClass.certtype = certtypeContent ∧ (keys.fields imageClass hash).length = 40) := by
  cases imageClass with
  | spl => exact Or.inl ⟨rfl, by simp [fields, attributes, hLength, hashByteLen, keycertHashLen]⟩
  | uboot => exact Or.inl ⟨rfl, by simp [fields, attributes, hLength, hashByteLen, keycertHashLen]⟩
  | trusted => exact Or.inr ⟨rfl, by simp [fields, attributes, hLength, hashByteLen]⟩
  | boot => exact Or.inr ⟨rfl, by simp [fields, attributes, hLength, hashByteLen]⟩

theorem cert_type (imageClass : ImageClass) (hash : List UInt8) :
    (keys.cert imageClass hash)[0]? = some imageClass.certtype := by
  rw [cert, encode_succ]
  exact congrArg some (Digit.ofNat_toNat imageClass.certtype)

/-- The verifier accepts a certificate of the signing tool, against the hash
of its key, for exactly the hash that was signed. -/
theorem sprdVerifyCert_cert (hLength : hash.length = hashByteLen)
    (hSigns : keys.Signs imageClass.signer (keys.fields imageClass hash)) {hashData : List UInt8}
    (hLength' : hashData.length = hashByteLen) (stale : Stale) :
    sprdVerifyCert (pubkeyHash (keys.cert imageClass hash)) hashData (keys.cert imageClass hash)
      stale = .ok (decide (hashData = hash)) := by
  have hType := keys.cert_type imageClass hash
  have hKind := keys.cert_kind imageClass hLength
  have hAgree : Agree hashData ((keys.cert imageClass hash).drop 268) hashByteLen ↔
      hashData = hash := by
    rw [drop_cert_fields, fields, List.append_assoc, agree_hash hLength hLength']
  by_cases hSame : hashData = hash
  · rw [decide_eq_true hSame]
    have hSmall : (keys.fields imageClass hash).length < 2 ^ 29 := by
      rcases hKind with ⟨-, hFields⟩ | ⟨-, hFields⟩ <;> rw [hFields] <;> decide
    obtain ⟨dest, hDest, r, hOpen, hCount, hOpened⟩ := keys.opens_cert hSigns hSmall stale
    rcases hKind with ⟨hKey, hFields⟩ | ⟨hContent, hFields⟩
    · rw [← keys.drop_cert_signature hFields] at hOpen
      rw [hFields] at hOpened
      exact (keyCert_eq_true (hType.trans (congrArg some hKey))).mpr
        ⟨hAgree.mpr hSame, dest, hDest, r, hOpen, hOpened⟩
    · rw [← keys.drop_cert_signature hFields] at hOpen
      rw [← hCount] at hOpened
      have hPubkey : Agree (pubkeyHash (keys.cert imageClass hash))
          (pubkeyHash (keys.cert imageClass hash)) hashByteLen :=
        ⟨(length_pubkeyHash _).ge, (length_pubkeyHash _).ge, rfl⟩
      exact (contentCert_eq_true (hType.trans (congrArg some hContent))).mpr
        ⟨⟨hAgree.mpr hSame, hPubkey⟩, dest, hDest, r, hOpen, hOpened⟩
  · rw [decide_eq_false hSame]
    apply sprdVerifyCert_otherHash
    · rw [hType]
      rcases hKind with ⟨hKey, -⟩ | ⟨hContent, -⟩
      · exact Or.inl (congrArg some hKey)
      · exact Or.inr (congrArg some hContent)
    · rw [drop_cert_fields, fields, List.length_append, List.length_append, hLength]
      omega
    · exact hLength'.ge
    · exact fun hMatch => hSame (hAgree.mp hMatch)

end KeyFiles

end SignImage
