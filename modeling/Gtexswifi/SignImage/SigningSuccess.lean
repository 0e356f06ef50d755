import Gtexswifi.SignImage.FailedRuns
import Gtexswifi.SignImage.StageLinking

/-! What a successful run of the signing tool has written. The tool does not
look at what reading a key has returned: a key that cannot be read leaves
zeros in the certificate. -/
namespace SignImage

open Radix

variable {Key : Type} {openssl : Openssl Key}

/-- A certificate with the key that is named for a class, and with a
signature by it over the bytes between key and signature. -/
def Certified (openssl : Openssl Key) (stage : ImageClass) (cert : List UInt8) : Prop :=
  ∃ key priv signed encrypted, openssl.readPubkey stage.signer = some key ∧
    openssl.readPrivateKey stage.signer = some priv ∧ signed.length = stage.signedSize ∧
    openssl.rsaPrivateEncrypt priv signed = some encrypted ∧
    cert = encode 4 stage.certtype.toNat ++ key.overZeros ++ signed ++ signatureField encrypted

/-- The image, the sign header and such a certificate. -/
def Signed (openssl : Openssl Key) (imgName : List Char) (img file : List UInt8) : Prop :=
  ∃ payloadSize cert, Certified openssl (imageClass imgName) cert ∧
    file = img ++ signHeader payloadSize (imageClass imgName).certSize img ++ cert

/-- The public key that is named for a class can be read, and fits the fields
of its structure. -/
def PublicKeyFits (openssl : Openssl Key) (stage : ImageClass) : Prop :=
  ∃ key, openssl.readPubkey stage.signer = some key ∧ key.e.length ≤ 4 ∧ key.n.length ≤ 256

/-- The private key that is named for a class can be read, and has room for
the signed bytes. -/
def PrivateKeyFits (openssl : Openssl Key) (stage : ImageClass) : Prop :=
  ∃ priv, openssl.readPrivateKey stage.signer = some priv ∧
    openssl.hasRoom priv stage.signedSize = true

section Making

variable {stage : ImageClass} {cert : List UInt8}

/-- With both keys, the certificate is what it is to be. -/
theorem certified_of_makeCert {nextpubk payloadAddr : List UInt8} {payloadSize certSize : Nat}
    (hPub : PublicKeyFits openssl stage) (hPriv : PrivateKeyFits openssl stage)
    (h : makeCert openssl nextpubk payloadAddr payloadSize stage = .ok (certSize, cert)) :
    Certified openssl stage cert := by
  obtain ⟨key, hKey, hExponent, hModulus⟩ := hPub
  obtain ⟨priv, hRead, hRoom⟩ := hPriv
  have hInside : ∀ read, openssl.readPubkey stage.signer = some read → read.Within 0 0 := by
    rintro read hReads
    obtain rfl := Option.some.inj (hKey.symm.trans hReads)
    exact PublicKey.within_of_fits hExponent hModulus
  obtain ⟨signed, hSigned, rfl⟩ := eq_of_makeCert hInside h
  rw [← hSigned, ← openssl.isSome_rsaPrivateEncrypt] at hRoom
  obtain ⟨encrypted, hWritten⟩ := Option.isSome_iff_exists.mp hRoom
  refine ⟨key, priv, signed, encrypted, hKey, hRead, hSigned, hWritten, ?_⟩
  rw [certStart, hKey, storedPubkey_short hExponent, storedSignature, hRead, Option.bind_some,
    hWritten]
  rfl

/-- The structure in a certificate, with a key of any length. -/
theorem length_overZeros (key : PublicKey) :
    key.overZeros.length = max 4 key.e.length + max 256 key.n.length + 4 := by
  have hLen : sprdRsapubklen = 264 := rfl
  simp only [PublicKey.overZeros, PublicKey.over, PublicKey.bytes, PublicKey.exponent,
    List.length_append, length_encode, List.length_replicate, List.length_drop]
  omega

theorem length_signatureField_ge (signature : List UInt8) :
    256 ≤ (signatureField signature).length := by
  rw [signatureField, List.length_append, List.length_replicate]
  omega

/-- A certificate that is what it is to be is no shorter than the structure.
It is as long only if the key fits its fields. -/
theorem Certified.length_cert (h : Certified openssl stage cert) :
    stage.certSize ≤ cert.length ∧ (cert.length = stage.certSize →
      PublicKeyFits openssl stage) := by
  obtain ⟨key, priv, signed, encrypted, hKey, -, hSigned, -, rfl⟩ := h
  have hField := length_signatureField_ge encrypted
  have hOffset : hashDataOffset = 268 := rfl
  rw [List.length_append, List.length_append, List.length_append, length_encode,
    length_overZeros, hSigned, stage.certSize_eq]
  exact ⟨by omega, fun hLength => ⟨key, hKey, by omega, by omega⟩⟩

/-- A certified image has been signed with a key that has room. -/
theorem Certified.privateKeyFits (h : Certified openssl stage cert) :
    PrivateKeyFits openssl stage := by
  obtain ⟨_, priv, signed, encrypted, -, hPriv, hSigned, hSome, -⟩ := h
  refine ⟨priv, hPriv, ?_⟩
  rw [← hSigned, ← openssl.isSome_rsaPrivateEncrypt, hSome, Option.isSome_some]

end Making

section Success

variable {io : Io} {slack img : List UInt8} {imgName : List Char}

/-- Success means a signed image. A run that overruns an array may return
anything. -/
def SuccessMeansSigned (openssl : Openssl Key) (io : Io) (slack nextpubk : List UInt8)
    (imgName : List Char) (img : List UInt8) : Prop :=
  sprdSignimg openssl io slack nextpubk imgName img ≠ .error .overrun ∧
    ∀ file, sprdSignimg openssl io slack nextpubk imgName img = .ok (1, file) →
      ∃ bytes, file = some bytes ∧ Signed openssl imgName img bytes

/-- The run gets to the certificate, over a payload that it has found. -/
def GetsToCertificate (io : Io) (slack img payloadAddr : List UInt8) (payloadSize : Nat) : Prop :=
  ∃ inputData, Prepared io slack img inputData payloadAddr payloadSize ∧ io.Rewrites inputData

/-- Nothing behind that ends it before it has signed. -/
def Io.SignsAll (io : Io) (stage : ImageClass) (payloadAddr : List UInt8) (payloadSize : Nat) :
    Prop :=
  Hashable payloadAddr payloadSize ∧ io.Complete 1 signedHeaderSize ∧ io.Complete 2 stage.certSize

/-- The public keys of a directory without private ones. -/
def publicKey : PublicKey := ⟨256, [1, 0, 1], List.replicate 256 1⟩

theorem publicKey_within : publicKey.Within 0 0 :=
  PublicKey.within_of_fits (by decide) List.length_replicate.le

/-- A directory without the private keys. -/
def publicOnly : Openssl Empty :=
  { noKeys with readPubkey := fun _ => some publicKey }

end Success

end SignImage
