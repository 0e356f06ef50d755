import Gtexswifi.SignImage.KeyCertificates

/-! The binding of an accepted image to the key that the previous stage
vouched for. The key branch computes the hash of the key and does not
compare it. -/
namespace SignImage

/-- The hash that `sprd_verify_img` takes over the payload. -/
def imageHash (imgbuf : List UInt8) : Except Fault (List UInt8) := do
  let imghdr ← sprdGetSechdrAddr imgbuf
  let codeAddr ← sprdGetCodeAddr imgbuf
  calSha256 codeAddr (← loadWord (imghdr.drop 16) 8)

/-- The verification of an image is that of its certificate with the hash of
its code. -/
theorem sprdVerifyImg_eq (hashKeyPrecert imgbuf : List UInt8) (stale : Stale) :
    sprdVerifyImg hashKeyPrecert imgbuf stale =
      imageHash imgbuf >>= fun hash => sprdGetCertAddr imgbuf >>= fun certptr =>
        sprdVerifyCert hashKeyPrecert hash certptr stale := by
  simp only [sprdVerifyImg, imageHash, bind_assoc]

/-- An image is accepted exactly if its code can be hashed and its
certificate is accepted for the hash. -/
theorem sprdVerifyImg_eq_true {hashKeyPrecert imgbuf : List UInt8} {stale : Stale} :
    sprdVerifyImg hashKeyPrecert imgbuf stale = .ok true ↔
      ∃ hash, imageHash imgbuf = .ok hash ∧ ∃ certptr, sprdGetCertAddr imgbuf = .ok certptr ∧
        sprdVerifyCert hashKeyPrecert hash certptr stale = .ok true := by
  rw [sprdVerifyImg_eq]
  simp only [bind_eq_ok]

/-- An accepted image carries the key whose hash is `hash_key_precert`. -/
def ChainOfTrust (hashKeyPrecert imgbuf : List UInt8) (stale : Stale) : Prop :=
  sprdVerifyImg hashKeyPrecert imgbuf stale = .ok true →
    ∃ certptr, sprdGetCertAddr imgbuf = .ok certptr ∧
      pubkeyHash certptr = hashKeyPrecert.take hashByteLen

/-- The certificate is a key certificate for the hash of the image, and its
own key opens its signature to its signed fields. -/
def SelfConsistent (hash certptr : List UInt8) (stale : Stale) : Prop :=
  certptr[0]? = some certtypeKey ∧ Agree hash (certptr.drop 268) hashByteLen ∧
    ∃ dest, allocateTo (certptr.drop 4) stale = .ok dest ∧
      ∃ r, openSignature (certptr.drop 4) (certptr.drop 340) dest stale = .ok r ∧
        Agree (certptr.drop 268) r.2 keycertHashLen

theorem length_pubkeyHash (certptr : List UInt8) : (pubkeyHash certptr).length = hashByteLen :=
  length_sha256CsumWd _

/-- Verification binds the key except in images with a key certificate that
is consistent with itself and has another key. -/
theorem chainOfTrust_iff (hashKeyPrecert imgbuf : List UInt8) (stale : Stale) :
    ChainOfTrust hashKeyPrecert imgbuf stale ↔
      ¬∃ hash certptr, imageHash imgbuf = .ok hash ∧ sprdGetCertAddr imgbuf = .ok certptr ∧
        SelfConsistent hash certptr stale ∧
        pubkeyHash certptr ≠ hashKeyPrecert.take hashByteLen := by
  unfold ChainOfTrust
  rw [sprdVerifyImg_eq_true]
  constructor
  · rintro hChain ⟨hash, certptr, hHash, hCert, ⟨hType, hConsistent⟩, hOther⟩
    have hAccepted : sprdVerifyCert hashKeyPrecert hash certptr stale = .ok true :=
      (keyCert_eq_true hType).mpr hConsistent
    obtain ⟨certptr', hCert', hKey⟩ := hChain ⟨hash, hHash, certptr, hCert, hAccepted⟩
    obtain rfl := ok_unique hCert hCert'
    exact hOther hKey
  · rintro hNot ⟨hash, hHash, certptr, hCert, hAccepted⟩
    refine ⟨certptr, hCert, ?_⟩
    by_cases hKey : certptr[0]? = some certtypeKey
    · by_contra hOther
      exact hNot ⟨hash, certptr, hHash, hCert, ⟨hKey, (keyCert_eq_true hKey).mp hAccepted⟩, hOther⟩
    · by_cases hContent : certptr[0]? = some certtypeContent
      · obtain ⟨-, -, hBound, hSame⟩ := ((contentCert_eq_true hContent).mp hAccepted).1
        rw [hSame, List.take_of_length_le (length_pubkeyHash certptr).le]
      · -- every other type, and a certificate without a byte, is not accepted
        exfalso
        rw [sprdVerifyCert] at hAccepted
        cases hType : certptr[0]? with
        | none =>
            rw [hType] at hAccepted
            cases hAccepted
        | some certtype =>
            rw [hType] at hAccepted hKey hContent
            simp only [Option.some.injEq] at hKey hContent
            simp only [inBounds, ok_bind, if_neg hKey, if_neg hContent] at hAccepted
            cases hAccepted

/-- A signed image without payload. Its key certificate holds the hash of
the empty payload, and the signature, which opens to itself, holds the
signed fields. -/
def unvouchedImage : List UInt8 :=
  let fields := sha256CsumWd [] ++ List.replicate 40 0
  List.replicate 512 0 ++
    (List.replicate 24 0 ++ [0x00, 0x02] ++ List.replicate 14 0 ++ [0x60, 0x02] ++
      List.replicate 54 0) ++
    ([1, 0, 0, 0] ++ plainPubkey ++ fields ++
      ([0, 1] ++ List.replicate 21 0xff ++ [0] ++ fields) ++ List.replicate 160 0)

/-- The image is accepted against a hash of zeros, which is not that of its
key. -/
theorem unvouchedImage_accepted :
    sprdVerifyImg (List.replicate 32 0) unvouchedImage zeroStale = .ok true ∧
      ¬∀ hashKeyPrecert imgbuf stale, ChainOfTrust hashKeyPrecert imgbuf stale := by
  have hAccepted : sprdVerifyImg (List.replicate 32 0) unvouchedImage zeroStale = .ok true := by
    decide +kernel
  have hCert : sprdGetCertAddr unvouchedImage = .ok (unvouchedImage.drop 608) := by decide +kernel
  have hOther : pubkeyHash (unvouchedImage.drop 608) ≠ List.replicate 32 0 := by decide +kernel
  refine ⟨hAccepted, fun hChain => ?_⟩
  obtain ⟨certptr, hCert', hKey⟩ := hChain _ _ _ hAccepted
  obtain rfl := ok_unique hCert hCert'
  exact hOther hKey

end SignImage
