import Gtexswifi.SignImage.FailedRuns
import Gtexswifi.SignImage.SignThenVerify

/-! The key hash in the certificate of one stage against the key in the
certificates of the next stage, for keys of both sizes. -/
namespace SignImage

open Radix

variable {Key : Type} {openssl : Openssl Key}

/-- The PEM reader returns three keys of 1024 or 2048 bits with exponents of
at most 32 bits. -/
structure AdmittedKeys (openssl : Openssl Key) where
  pub : KeyPair → PublicKey
  readPubkey : ∀ k, openssl.readPubkey k = some (pub k)
  rsaSize : ∀ k, (pub k).rsaSize = 128 ∨ (pub k).rsaSize = 256
  length_n : ∀ k, (pub k).n.length = (pub k).rsaSize
  length_e : ∀ k, (pub k).e.length ≤ 4

/-- The classes whose key a key certificate vouches for. -/
def ImageClass.links : ImageClass → List ImageClass
  | .spl => [.uboot, .trusted]
  | .uboot => [.boot]
  | .trusted | .boot => []

/-- The structure `sprd_rsapubkey` after a key has been read over what it
held. -/
def PublicKey.over (key : PublicKey) (held : List UInt8) : List UInt8 :=
  key.bytes ++ held.drop (8 + key.n.length)

/-- The structure in a certificate, which is cleared before the key is read. -/
def PublicKey.overZeros (key : PublicKey) : List UInt8 :=
  key.over (List.replicate sprdRsapubklen 0)

/-- The bytes behind the modulus are zero, as they are in a certificate. -/
def PublicKey.ZeroBehind (key : PublicKey) (held : List UInt8) : Prop :=
  held.drop (8 + key.n.length) = List.replicate (sprdRsapubklen - (8 + key.n.length)) 0

/-- Two different byte sequences with the same hash. -/
def Collision (a b : List UInt8) : Prop := a ≠ b ∧ sha256CsumWd a = sha256CsumWd b

/-- The certificate that a successful run over an image of a class leaves
behind the image and the sign header. -/
def Written (openssl : Openssl Key) (nextpubk : List UInt8) (stage : ImageClass)
    (cert : List UInt8) : Prop :=
  ∃ io slack imgName img inputData file, imageClass imgName = stage ∧
    loadFile io img = some inputData ∧
    sprdSignimg openssl io slack nextpubk imgName img = .ok (1, some file) ∧
    cert = file.drop (inputData.length + signedHeaderSize)

/-- The fields `pubkey` and `hash_key` of a certificate. -/
def certPubkey (cert : List UInt8) : List UInt8 := (cert.drop 4).take sprdRsapubklen

def certHashKey (cert : List UInt8) : List UInt8 := (cert.drop 300).take hashByteLen

/-- A successful run has appended a certificate to image and sign header. -/
theorem Written.makeCert {nextpubk cert : List UInt8} {stage : ImageClass}
    (h : Written openssl nextpubk stage cert) :
    ∃ payloadAddr payloadSize certSize,
      makeCert openssl nextpubk payloadAddr payloadSize stage = .ok (certSize, cert) := by
  obtain ⟨io, slack, imgName, img, inputData, file, rfl, hLoad, hRun, rfl⟩ := h
  have hEnd := sprdSignimg_run openssl io slack nextpubk imgName img
  rw [hRun] at hEnd
  cases hEnd with
  | @signed _ payloadAddr cert payloadSize certSize hPrepared hRewrites hCert hSigns =>
      obtain rfl := Option.some.inj (hPrepared.loaded.symm.trans hLoad)
      refine ⟨payloadAddr, payloadSize, certSize, ?_⟩
      rw [List.drop_left' (by rw [List.length_append, length_signHeader])]
      exact hCert

namespace AdmittedKeys

variable (keys : AdmittedKeys openssl)

theorem length_bytes (k : KeyPair) : (keys.pub k).bytes.length = 8 + (keys.pub k).n.length := by
  have hLength := keys.length_e k
  simp only [PublicKey.bytes, PublicKey.exponent, List.length_append, length_encode,
    List.length_replicate]
  omega

theorem modulus_le (k : KeyPair) : (keys.pub k).n.length ≤ 256 := by
  rw [keys.length_n]
  rcases keys.rsaSize k with hSize | hSize <;> omega

/-- Written over what a buffer held, a key fills the structure. -/
theorem length_over (k : KeyPair) {held : List UInt8} (h : held.length = sprdRsapubklen) :
    ((keys.pub k).over held).length = sprdRsapubklen := by
  have hModulus := keys.modulus_le k
  have hLen : sprdRsapubklen = 264 := rfl
  rw [PublicKey.over, List.length_append, keys.length_bytes, List.length_drop, h]
  omega

theorem length_overZeros (k : KeyPair) : (keys.pub k).overZeros.length = sprdRsapubklen :=
  keys.length_over k List.length_replicate

/-- The keys stay inside the structure. -/
theorem within (keys : AdmittedKeys openssl) (k : KeyPair) (key : PublicKey)
    (h : openssl.readPubkey k = some key) : key.Within 0 0 := by
  obtain rfl := Option.some.inj ((keys.readPubkey k).symm.trans h)
  exact PublicKey.within_of_fits (keys.length_e k) (keys.modulus_le k)

/-- Reading a key leaves behind a short modulus what the variable held. -/
theorem getpubkeyfrmPEM_over (k : KeyPair) (held : List UInt8) :
    getpubkeyfrmPEM [] held [] (openssl.readPubkey k) = .ok ((keys.pub k).over held) := by
  rw [keys.readPubkey, getpubkeyfrmPEM_short (keys.length_e k) (keys.modulus_le k)]
  rfl

/-- In a certificate it leaves zeros. -/
theorem certStart_eq (certtype : UInt8) (k : KeyPair) :
    certStart certtype (openssl.readPubkey k) =
      encode 4 certtype.toNat ++ (keys.pub k).overZeros := by
  rw [certStart, keys.readPubkey, storedPubkey_short (keys.length_e k)]
  rfl

/-- A key of 2048 bits leaves nothing of what the structure held. -/
theorem zeroBehind_of_2048 {k : KeyPair} (h : (keys.pub k).rsaSize = 256) {held : List UInt8}
    (hHeld : held.length = sprdRsapubklen) : (keys.pub k).ZeroBehind held := by
  have hBehind : held.drop (8 + 256) = [] := List.drop_of_length_le hHeld.le
  rw [PublicKey.ZeroBehind, keys.length_n, h, hBehind]
  rfl

/-- The structures agree exactly when nothing but zeros stands behind the
modulus. -/
theorem over_eq_overZeros (k : KeyPair) (held : List UInt8) :
    (keys.pub k).over held = (keys.pub k).overZeros ↔ (keys.pub k).ZeroBehind held := by
  rw [PublicKey.overZeros, PublicKey.over, PublicKey.over, List.append_cancel_left_eq,
    List.drop_replicate]
  rfl

/-- The two hashes of a key are equal exactly if the buffer held zeros
behind the modulus, or a collision is met. -/
theorem hash_over_eq (k : KeyPair) (held : List UInt8) :
    sha256CsumWd ((keys.pub k).over held) = sha256CsumWd (keys.pub k).overZeros ↔
      (keys.pub k).ZeroBehind held ∨
        Collision ((keys.pub k).over held) (keys.pub k).overZeros := by
  rw [← keys.over_eq_overZeros, Collision]
  constructor
  · intro hHash
    by_cases hSame : (keys.pub k).over held = (keys.pub k).overZeros
    · exact Or.inl hSame
    · exact Or.inr ⟨hSame, hHash⟩
  · rintro (hSame | ⟨-, hHash⟩)
    · rw [hSame]
    · exact hHash

end AdmittedKeys

/-- The fields of a certificate by their lengths. -/
theorem certPubkey_eq {certtype : Nat} {pubkey rest : List UInt8}
    (h : pubkey.length = sprdRsapubklen) : certPubkey (encode 4 certtype ++ (pubkey ++ rest)) =
      pubkey := by
  rw [certPubkey, List.drop_left' (length_encode _ _), List.take_left' h]

theorem certHashKey_eq {certtype : Nat} {pubkey hashData hashKey rest : List UInt8}
    (hPubkey : pubkey.length = sprdRsapubklen) (hData : hashData.length = hashByteLen)
    (hKey : hashKey.length = hashByteLen) :
    certHashKey (encode 4 certtype ++ (pubkey ++ (hashData ++ (hashKey ++ rest)))) = hashKey := by
  have hDrop : (encode 4 certtype ++ (pubkey ++ (hashData ++ (hashKey ++ rest)))).drop 300 =
      hashKey ++ rest := by
    rw [← List.append_assoc, ← List.append_assoc]
    refine List.drop_left' ?_
    rw [List.length_append, List.length_append, length_encode, hPubkey, hData]
    rfl
  rw [certHashKey, hDrop, List.take_left' hKey]

namespace AdmittedKeys

variable (keys : AdmittedKeys openssl) {payloadAddr nextpubk : List UInt8}
  {payloadSize type version : Nat} {current next : KeyPair}

/-- What a key certificate says of its own key and of the next one. -/
theorem makeKeycert_fields (hNextpubk : nextpubk.length = sprdRsapubklen) {cert : List UInt8}
    (h : makeKeycert openssl type version current next payloadAddr payloadSize nextpubk =
      .ok cert) :
    certPubkey cert = (keys.pub current).overZeros ∧
      certHashKey cert = sha256CsumWd ((keys.pub next).over nextpubk) := by
  obtain ⟨nextKey, hashData, hashKey, hNext, hHash, hKey, rfl⟩ :=
    eq_of_makeKeycert (keys.within current) h
  rw [keys.getpubkeyfrmPEM_over, Except.ok.injEq] at hNext
  subst hNext
  rw [calSha256_whole (keys.length_over next hNextpubk), Except.ok.injEq] at hKey
  subst hKey
  rw [keys.certStart_eq]
  simp only [List.append_assoc]
  exact ⟨certPubkey_eq (keys.length_overZeros current),
    certHashKey_eq (keys.length_overZeros current) (length_calSha256 hHash)
      (length_sha256CsumWd _)⟩

theorem makeContentcert_fields {cert : List UInt8}
    (h : makeContentcert openssl version current payloadAddr payloadSize = .ok cert) :
    certPubkey cert = (keys.pub current).overZeros := by
  obtain ⟨hashData, -, rfl⟩ := eq_of_makeContentcert (keys.within current) h
  rw [keys.certStart_eq]
  simp only [List.append_assoc]
  exact certPubkey_eq (keys.length_overZeros current)

/-- Every certificate holds the key of its class over zeros. -/
theorem certPubkey_written (hNextpubk : nextpubk.length = sprdRsapubklen) {stage : ImageClass}
    {cert : List UInt8} (h : Written openssl nextpubk stage cert) :
    certPubkey cert = (keys.pub stage.signer).overZeros := by
  obtain ⟨payloadAddr, payloadSize, certSize, hCert⟩ := h.makeCert
  cases stage with
  | spl =>
      obtain ⟨keycert, hKeycert, hCert⟩ := bind_eq_ok.mp hCert
      obtain ⟨-, rfl⟩ := Prod.mk.inj (Except.ok.inj hCert)
      exact (keys.makeKeycert_fields hNextpubk hKeycert).1
  | uboot =>
      obtain ⟨keycert, hKeycert, hCert⟩ := bind_eq_ok.mp hCert
      obtain ⟨-, rfl⟩ := Prod.mk.inj (Except.ok.inj hCert)
      exact (keys.makeKeycert_fields hNextpubk hKeycert).1
  | trusted =>
      obtain ⟨contentcert, hContentcert, hCert⟩ := bind_eq_ok.mp hCert
      obtain ⟨-, rfl⟩ := Prod.mk.inj (Except.ok.inj hCert)
      exact keys.makeContentcert_fields hContentcert
  | boot =>
      obtain ⟨contentcert, hContentcert, hCert⟩ := bind_eq_ok.mp hCert
      obtain ⟨-, rfl⟩ := Prod.mk.inj (Except.ok.inj hCert)
      exact keys.makeContentcert_fields hContentcert

/-- A key certificate holds the hash of the next key over what `nextpubk`
held. -/
theorem certHashKey_written (hNextpubk : nextpubk.length = sprdRsapubklen)
    {stage next : ImageClass} (hLinks : next ∈ stage.links) {cert : List UInt8}
    (h : Written openssl nextpubk stage cert) :
    certHashKey cert = sha256CsumWd ((keys.pub next.signer).over nextpubk) := by
  obtain ⟨payloadAddr, payloadSize, certSize, hCert⟩ := h.makeCert
  cases stage with
  | spl =>
      have hSigner : next.signer = .rsa1 := by
        rcases List.mem_pair.mp hLinks with rfl | rfl <;> rfl
      obtain ⟨keycert, hKeycert, hCert⟩ := bind_eq_ok.mp hCert
      obtain ⟨-, rfl⟩ := Prod.mk.inj (Except.ok.inj hCert)
      rw [hSigner]
      exact (keys.makeKeycert_fields hNextpubk hKeycert).2
  | uboot =>
      obtain rfl := List.mem_singleton.mp hLinks
      obtain ⟨keycert, hKeycert, hCert⟩ := bind_eq_ok.mp hCert
      obtain ⟨-, rfl⟩ := Prod.mk.inj (Except.ok.inj hCert)
      exact (keys.makeKeycert_fields hNextpubk hKeycert).2
  | trusted => cases hLinks
  | boot => cases hLinks

end AdmittedKeys

/-- The certificates of two linked stages, each written by a run of its own,
link up exactly when the next key fills the structure, or what `nextpubk`
held behind the modulus was zero, unless the two structures happen to
collide. -/
theorem stages_link_iff (keys : AdmittedKeys openssl) {nextpubk nextpubk' : List UInt8}
    (hNextpubk : nextpubk.length = sprdRsapubklen)
    (hNextpubk' : nextpubk'.length = sprdRsapubklen) {stage next : ImageClass}
    (hLinks : next ∈ stage.links) {cert cert' : List UInt8}
    (hCert : Written openssl nextpubk stage cert)
    (hNext : Written openssl nextpubk' next cert') :
    certHashKey cert = sha256CsumWd (certPubkey cert') ↔
      (keys.pub next.signer).rsaSize = 256 ∨ (keys.pub next.signer).ZeroBehind nextpubk ∨
        Collision ((keys.pub next.signer).over nextpubk) (keys.pub next.signer).overZeros := by
  rw [keys.certHashKey_written hNextpubk hLinks hCert, keys.certPubkey_written hNextpubk' hNext,
    keys.hash_over_eq]
  constructor
  · exact Or.inr
  · rintro (hSize | hHash)
    · exact Or.inl (keys.zeroBehind_of_2048 hSize hNextpubk)
    · exact hHash

/-- Keys of 1024 bits with exponent one, under which a signature is the
padded message. -/
def shortOpenssl : Openssl Unit where
  readPubkey _ := some ⟨128, [1], List.replicate 128 0xff⟩
  readPrivateKey _ := some ()
  rsaSize _ := 128
  hasRoom _ length := length ≤ 117
  rsaPrivateEncrypt _ message :=
    if message.length ≤ 117 then
      some ([0, 1] ++ List.replicate (125 - message.length) 0xff ++ [0] ++ message)
    else none
  isSome_rsaPrivateEncrypt _ message := by
    by_cases h : message.length ≤ 117 <;> simp [h]
  length_rsaPrivateEncrypt _ message encrypted h := by
    split_ifs at h with hRoom
    rw [← Option.some.inj h]
    simp only [List.length_append, List.length_cons, List.length_nil, List.length_replicate]
    omega

def shortKeys : AdmittedKeys shortOpenssl where
  pub _ := ⟨128, [1], List.replicate 128 0xff⟩
  readPubkey _ := rfl
  rsaSize _ := Or.inl rfl
  length_n _ := List.length_replicate
  length_e _ := by decide

/-- The certificate that a run over an image of zeros writes, if it
succeeds. -/
def shortCert (nextpubk : List UInt8) (imgName : String) : Option (List UInt8) :=
  match sprdSignimg shortOpenssl Io.successful [] nextpubk imgName.toList
      (List.replicate 528 0) with
  | .ok (1, some file) => some (file.drop (528 + signedHeaderSize))
  | _ => none

theorem written_of_shortCert {nextpubk cert : List UInt8} {imgName : String} {stage : ImageClass}
    (hClass : imageClass imgName.toList = stage) (h : shortCert nextpubk imgName = some cert) :
    Written shortOpenssl nextpubk stage cert := by
  have hLoad : loadFile Io.successful (List.replicate 528 0) = some (List.replicate 528 0) := by
    decide +kernel
  unfold shortCert at h
  split at h
  · next file hRun =>
      refine ⟨_, _, _, _, _, file, hClass, hLoad, hRun, ?_⟩
      rw [List.length_replicate]
      exact (Option.some.inj h).symm
  · cases h

/-- The stale bytes of `nextpubk` that the failing run finds on its stack. -/
def staleNextpubk : List UInt8 := List.replicate sprdRsapubklen 1

theorem exists_shortCert : (∃ cert, shortCert staleNextpubk "fdl1-sign.bin" = some cert) ∧
    ∃ cert, shortCert staleNextpubk "fdl2-sign.bin" = some cert := by
  have hSpl : (shortCert staleNextpubk "fdl1-sign.bin").isSome = true := by decide +kernel
  have hUboot : (shortCert staleNextpubk "fdl2-sign.bin").isSome = true := by decide +kernel
  exact ⟨Option.isSome_iff_exists.mp hSpl, Option.isSome_iff_exists.mp hUboot⟩

/-- In the example the stages are linked exactly if the stale buffer held
zeros. -/
theorem stages_link_iff_short : ∃ cert cert', Written shortOpenssl staleNextpubk .spl cert ∧
    Written shortOpenssl staleNextpubk .uboot cert' ∧
      (certHashKey cert = sha256CsumWd (certPubkey cert') ↔
        (shortKeys.pub .rsa1).rsaSize = 256 ∨ (shortKeys.pub .rsa1).ZeroBehind staleNextpubk ∨
          Collision ((shortKeys.pub .rsa1).over staleNextpubk)
            (shortKeys.pub .rsa1).overZeros) := by
  obtain ⟨⟨cert, hSpl⟩, cert', hUboot⟩ := exists_shortCert
  have hCert : Written shortOpenssl staleNextpubk .spl cert :=
    written_of_shortCert (by decide) hSpl
  have hNext : Written shortOpenssl staleNextpubk .uboot cert' :=
    written_of_shortCert (by decide) hUboot
  exact ⟨cert, cert', hCert, hNext, stages_link_iff shortKeys List.length_replicate
    List.length_replicate (by decide) hCert hNext⟩

/-- The boot loader's certificates do not link up for keys of 1024 bits and
stale bytes in `nextpubk`. -/
theorem stages_unlinked : (∃ cert cert', Written shortOpenssl staleNextpubk .spl cert ∧
    Written shortOpenssl staleNextpubk .uboot cert' ∧
      certHashKey cert ≠ sha256CsumWd (certPubkey cert')) ∧
    ¬∀ (_ : AdmittedKeys shortOpenssl) (nextpubk nextpubk' : List UInt8)
      (stage next : ImageClass) (cert cert' : List UInt8),
      nextpubk.length = sprdRsapubklen → nextpubk'.length = sprdRsapubklen →
      next ∈ stage.links → Written shortOpenssl nextpubk stage cert →
      Written shortOpenssl nextpubk' next cert' →
      certHashKey cert = sha256CsumWd (certPubkey cert') := by
  obtain ⟨⟨cert, hSpl⟩, cert', hUboot⟩ := exists_shortCert
  have hCert : Written shortOpenssl staleNextpubk .spl cert :=
    written_of_shortCert (by decide) hSpl
  have hNext : Written shortOpenssl staleNextpubk .uboot cert' :=
    written_of_shortCert (by decide) hUboot
  have hOther : sha256CsumWd ((shortKeys.pub .rsa1).over staleNextpubk) ≠
      sha256CsumWd (shortKeys.pub .rsa1).overZeros := by
    decide +kernel
  have hUnlinked : certHashKey cert ≠ sha256CsumWd (certPubkey cert') := by
    have hLinks : ImageClass.uboot ∈ ImageClass.spl.links := by decide
    rw [shortKeys.certHashKey_written List.length_replicate hLinks hCert,
      shortKeys.certPubkey_written List.length_replicate hNext]
    exact hOther
  refine ⟨⟨cert, cert', hCert, hNext, hUnlinked⟩, fun hAll => hUnlinked ?_⟩
  exact hAll shortKeys _ _ _ _ _ _ List.length_replicate List.length_replicate (by decide) hCert
    hNext

end SignImage
