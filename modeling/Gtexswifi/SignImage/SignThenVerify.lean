import Gtexswifi.SignImage.SignedCertificate
import Gtexswifi.SignImage.StackDependence

/-! Insert the header, sign, verify: which images the verifier accepts after
the tools. The signer moves its hash range by the offset of the modem block,
and the verifier hashes from the start of the payload. -/
namespace SignImage

open Radix

variable {Key : Type} {openssl : Openssl Key}

/-- The signing tool signs the image, and the verifier accepts the result
against the hash of the key in its certificate. -/
def SignedAndAccepted (openssl : Openssl Key) (slack nextpubk : List UInt8)
    (imgName : List Char) (img : List UInt8) : Prop :=
  ∃ signed certptr,
    sprdSignimg openssl Io.successful slack nextpubk imgName img = .ok (1, some signed) ∧
      sprdGetCertAddr signed = .ok certptr ∧
        ∀ stale, sprdVerifyImg (pubkeyHash certptr) signed stale = .ok true

section Run

variable (keys : KeyFiles openssl) (i : SysImage) {slack : List UInt8} (nextpubk : List UInt8)
  {imgName : List Char} {payloadAddr hash : List UInt8} {payloadSize : Nat}

/-- Without a failure the tool writes the header, the payload, the signed
header and the certificate. -/
theorem sprdSignimg_signed
    (hWindow : payloadWindow (i.bytes ++ slack) i.bytes.length = .ok (payloadAddr, payloadSize))
    (hHash : calSha256 payloadAddr payloadSize = .ok hash) (hLength : hash.length = hashByteLen)
    (hSigns : keys.Signs (imageClass imgName).signer (keys.fields (imageClass imgName) hash)) :
    sprdSignimg openssl Io.successful slack nextpubk imgName i.bytes =
      .ok (1, some (signedBytes i payloadSize (imageClass imgName).certSize
        (keys.cert (imageClass imgName) hash))) := by
  have hCert := keys.makeCert_eq hHash hLength hSigns nextpubk
  have hOpens : Io.successful.opens 0 = some (2 + 1) := rfl
  have hComplete : ¬true = false := by decide
  rw [sprdSignimg, loadFile_bytes]
  simp only [hWindow, ok_bind, hOpens, append_successful, List.nil_append, hCert,
    if_neg hComplete, pure_eq_ok]
  rfl

/-- The verdict over a signed image: the first bytes of the payload, as many
as were signed, must have the hash of the signed range. -/
theorem sprdVerifyImg_signed (hSize : payloadSize ≤ i.payload.length)
    (hLength : hash.length = hashByteLen)
    (hSigns : keys.Signs (imageClass imgName).signer (keys.fields (imageClass imgName) hash))
    (stale : Stale) :
    sprdVerifyImg (pubkeyHash (keys.cert (imageClass imgName) hash))
        (signedBytes i payloadSize (imageClass imgName).certSize
          (keys.cert (imageClass imgName) hash)) stale =
      .ok (decide (sha256CsumWd (i.payload.take payloadSize) = hash)) := by
  rw [sprdVerifyImg_eq, imageHash_signed i _ _ hSize, ok_bind, sprdGetCertAddr_signed, ok_bind]
  exact keys.sprdVerifyCert_cert hLength hSigns (length_sha256CsumWd _) stale

end Run

theorem payloadWindow_ordinary (i : SysImage) {slack : List UInt8}
    (hOrdinary : isPackedModemImage (i.payload ++ slack) = .ok false) :
    payloadWindow (i.bytes ++ slack) i.bytes.length =
      .ok (i.payload ++ slack, i.payload.length) := by
  have hLoadable := i.loadable
  have hSize : (((i.bytes.length : Int) - sysImgHeaderSize) % 2 ^ 64).toNat =
      i.payload.length := by
    rw [i.length_bytes]
    omega
  rw [payloadWindow, i.drop_bytes, hOrdinary, ok_bind, hSize]
  rfl

theorem payloadWindow_packed (i : SysImage) {slack : List UInt8} {offset len : Nat}
    (hPacked : isPackedModemImage (i.payload ++ slack) = .ok true)
    (hFound : getModemInfo (i.payload ++ slack) = .ok (offset, len)) :
    payloadWindow (i.bytes ++ slack) i.bytes.length =
      .ok ((i.payload ++ slack).drop offset, len) := by
  rw [payloadWindow, i.drop_bytes, hPacked, ok_bind, hFound]
  rfl

/-- A range inside the payload is hashed whatever lies behind. -/
theorem calSha256_range (i : SysImage) (slack : List UInt8) {offset len : Nat}
    (hInside : offset + len ≤ i.payload.length) :
    calSha256 ((i.payload ++ slack).drop offset) len =
      .ok (sha256CsumWd ((i.payload.drop offset).take len)) := by
  have hPayload := payload_length_lt i
  have hSlice : Memory.slice ((i.payload ++ slack).drop offset) 0 len =
      some ((i.payload.drop offset).take len) := by
    rw [Memory.slice_eq_some (by rw [List.length_drop, List.length_append]; omega),
      List.drop_zero, List.drop_append_of_le_length (by omega),
      List.take_append_of_le_length (by rw [List.length_drop]; omega)]
  rw [calSha256, Nat.mod_eq_of_lt (by omega), hSlice]
  rfl

/-- A type-1 block of 256 bytes. -/
def paddedBlock (message : List UInt8) : List UInt8 :=
  [0, 1] ++ List.replicate (253 - message.length) 0xff ++ [0] ++ message

theorem length_paddedBlock {message : List UInt8} (h : message.length ≤ 245) :
    (paddedBlock message).length = 256 := by
  simp only [paddedBlock, List.length_append, List.length_replicate, List.length_cons,
    List.length_nil]
  omega

/-- What is written of a message that leaves room for the padding fills the
modulus. -/
theorem length_of_paddedBlock {message encrypted : List UInt8}
    (h : (if message.length ≤ 245 then some (paddedBlock message) else none) = some encrypted) :
    encrypted.length = 256 := by
  split_ifs at h with hRoom
  rw [← Option.some.inj h, length_paddedBlock hRoom]

/-- Keys with exponent one, for which encryption keeps the padded message as
it is. -/
def plainOpenssl : Openssl Unit where
  readPubkey _ := some ⟨256, [1], List.replicate 256 0xff⟩
  readPrivateKey _ := some ()
  rsaSize _ := 256
  hasRoom _ length := length ≤ 245
  rsaPrivateEncrypt _ message := if message.length ≤ 245 then some (paddedBlock message) else none
  isSome_rsaPrivateEncrypt _ message := by
    by_cases h : message.length ≤ 245 <;> simp [h]
  length_rsaPrivateEncrypt _ _ _ := length_of_paddedBlock

def plainKeys : KeyFiles plainOpenssl where
  pub _ := ⟨256, [1], List.replicate 256 0xff⟩
  priv _ := ()
  readPubkey _ := rfl
  readPrivateKey _ := rfl
  rsaSize _ := rfl
  length_n _ := List.length_replicate
  length_e _ := by decide

/-- A message that leaves room for the padding is padded and kept. -/
theorem plainKeys_signature (k : KeyPair) {message : List UInt8} (h : message.length ≤ 245) :
    plainKeys.signature k message = paddedBlock message := by
  have hWritten : plainOpenssl.rsaPrivateEncrypt () message = some (paddedBlock message) := if_pos h
  exact congrArg (Option.getD · []) hWritten

theorem payload_paddedBlock {message : List UInt8} (h : message.length ≤ 245) :
    payload (paddedBlock message) = some message := by
  refine payload_eq_some.mpr ⟨0, 253 - message.length, by omega, ?_⟩
  simp [paddedBlock]

/-- The call of `RSA_PubDec` for a padded message under the key with
exponent one. -/
def plainInput (k : KeyPair) {message : List UInt8} (h : message.length ≤ 245)
    {dest : List UInt8} (hDest : dest.length = 256) : KeyedInput where
  words := 64
  words_le := Nat.le_refl 64
  pubD := (plainKeys.pub k).exponent
  length_pubD := plainKeys.length_exponent k
  modN := (plainKeys.pub k).n
  length_modN := plainKeys.length_n k
  signature := paddedBlock message
  length_signature := length_paddedBlock h
  dest := dest
  length_dest := hDest
  top_ne_zero := by
    change limbBase ^ (64 - 1) ≤ bigEndianValue (List.replicate 256 0xff)
    decide +kernel
  exponent_ne_zero := by
    change bigEndianValue ([0, 0, 0] ++ [1]) ≠ 0
    decide

/-- The first byte of the block is zero, that of the modulus is not. -/
theorem plainInput_less (k : KeyPair) {message : List UInt8} (h : message.length ≤ 245)
    {dest : List UInt8} (hDest : dest.length = 256) :
    (plainInput k h hDest).cipher.value < (plainInput k h hDest).key.value := by
  have hLength := length_paddedBlock h
  change value (paddedBlock message).reverse < value (List.replicate (255 + 1) 0xff).reverse
  rw [List.replicate_succ, List.reverse_cons]
  simp only [paddedBlock, List.cons_append, List.nil_append, List.length_cons] at hLength ⊢
  rw [List.reverse_cons]
  apply value_concat_lt
  · simp only [List.length_reverse, List.length_replicate]
    simp only [List.length_cons] at hLength ⊢
    omega
  · decide

theorem plainKeys_signs (k : KeyPair) {message : List UInt8} (h : message.length ≤ 245) :
    plainKeys.Signs k message where
  length_signature := by rw [plainKeys_signature k h, length_paddedBlock h]
  opens dest stack hDest := by
    rw [plainKeys_signature k h]
    have hRun := (plainInput k h hDest).run_exponent_one (n := (plainInput k h hDest).key) rfl rfl
      (plainInput_less k h hDest) stack
    have hPayload : payload (plainInput k h hDest).signature = some message :=
      payload_paddedBlock h
    have hWrite : Memory.write dest 0 message = some (message ++ dest.drop message.length) := by
      rw [Memory.write, if_pos (by omega)]
      simp
    rw [hPayload] at hRun
    change _ = (inBounds (Memory.write dest 0 message) >>= _) at hRun
    rw [hWrite] at hRun
    exact hRun

/-- A payload as long as the magic number is told by its first bytes alone. -/
theorem isPackedModemImage_append {payload : List UInt8}
    (h : modemMagic.length ≤ payload.length) (slack : List UInt8) :
    isPackedModemImage (payload ++ slack) = .ok (decide (modemMagic <+: payload)) := by
  have hRead : modemMagic.length ≤ (payload ++ slack).length := by
    rw [List.length_append]
    omega
  obtain ⟨res, hRes⟩ := secMemcmp_defined hRead (Nat.le_refl modemMagic.length)
  have hMagic : modemMagic <+: payload ++ slack ↔ modemMagic <+: payload := by
    constructor
    · intro hPrefix
      exact List.prefix_of_prefix_length_le hPrefix (List.prefix_append _ _) h
    · exact fun hPrefix => hPrefix.trans (List.prefix_append _ _)
  have hSame : res = 0 ↔ modemMagic <+: payload := by
    have hAgree := @agree_append (payload ++ slack) modemMagic []
    rw [List.append_nil, ← secMemcmp_eq_zero, hRes, Except.ok.injEq] at hAgree
    exact hAgree.trans hMagic
  rw [isPackedModemImage, hRes, ok_bind, pure_eq_ok]
  exact congrArg Except.ok (decide_eq_decide.mpr hSame)

/-- An image that `imgheaderinsert` has written and that is not a packed
modem image is accepted after it has been signed, under every name and with
every keys. -/
theorem ordinaryImage_accepted (keys : KeyFiles openssl) {doSha256 : List UInt8 → Digest}
    {addPayloadHash : Int} {filename : List Char} {file original image : List UInt8}
    {earlier : Option (List UInt8)}
    (hInsert : imgheaderinsert Io.successful doSha256 addPayloadHash filename file earlier =
      .ok ⟨0, original, some image⟩)
    (hLoad : loadFile Io.successful image = some image) {slack : List UInt8}
    (hOrdinary : isPackedModemImage (image.drop sysImgHeaderSize ++ slack) = .ok false)
    {imgName : List Char}
    (hSigns : keys.Signs (imageClass imgName).signer
      (keys.fields (imageClass imgName) (sha256CsumWd (image.drop sysImgHeaderSize))))
    (nextpubk : List UInt8) :
    SignedAndAccepted openssl slack nextpubk imgName image := by
  obtain ⟨i, rfl, -⟩ := imgheaderinsert_image hInsert hLoad
  have hDrop : i.bytes.drop sysImgHeaderSize = i.payload := by
    simpa using i.drop_bytes []
  rw [hDrop] at hOrdinary hSigns
  have hInside : 0 + i.payload.length ≤ i.payload.length := by omega
  have hHash : calSha256 (i.payload ++ slack) i.payload.length =
      .ok (sha256CsumWd i.payload) := by
    simpa using calSha256_range i slack hInside
  refine ⟨_, _, sprdSignimg_signed keys i nextpubk (payloadWindow_ordinary i hOrdinary) hHash
    (length_sha256CsumWd _) hSigns, sprdGetCertAddr_signed i _ _, fun stale => ?_⟩
  rw [sprdVerifyImg_signed keys i (Nat.le_refl _) (length_sha256CsumWd _) hSigns,
    List.take_length, decide_eq_true rfl]

/-- The image of a file of three bytes. -/
def smallImage : List UInt8 :=
  sysImgHeader (List.replicate 32 0) 16 ++ ([1, 2, 3] ++ List.replicate 13 0)

theorem smallImage_accepted :
    SignedAndAccepted plainOpenssl [] [] "boot-sign.img".toList smallImage :=
  ordinaryImage_accepted plainKeys
    (show imgheaderinsert Io.successful (fun data => ⟨sha256CsumWd data, length_sha256CsumWd data⟩)
        0 "boot.img".toList [1, 2, 3] none =
      .ok ⟨0, [1, 2, 3] ++ List.replicate 13 0, some smallImage⟩ by decide +kernel)
    (by decide +kernel) (by decide +kernel) (plainKeys_signs _ (by decide +kernel)) []

section Packed

variable (keys : KeyFiles openssl) (i : SysImage) {slack : List UInt8} {offset len : Nat}
  {imgName : List Char} (nextpubk : List UInt8)

/-- The signer hashes the modem block, and the verifier as many bytes from
the start of the payload. -/
theorem packedImage_verdict (hPacked : isPackedModemImage (i.payload ++ slack) = .ok true)
    (hFound : getModemInfo (i.payload ++ slack) = .ok (offset, len))
    (hInside : offset + len ≤ i.payload.length)
    (hSigns : keys.Signs (imageClass imgName).signer (keys.fields (imageClass imgName)
      (sha256CsumWd ((i.payload.drop offset).take len)))) :
    ∃ signed certptr,
      sprdSignimg openssl Io.successful slack nextpubk imgName i.bytes = .ok (1, some signed) ∧
        sprdGetCertAddr signed = .ok certptr ∧
          ∀ stale, sprdVerifyImg (pubkeyHash certptr) signed stale =
            .ok (decide (sha256CsumWd (i.payload.take len) =
              sha256CsumWd ((i.payload.drop offset).take len))) := by
  have hSize : len ≤ i.payload.length := by omega
  refine ⟨_, _, sprdSignimg_signed keys i nextpubk (payloadWindow_packed i hPacked hFound)
    (calSha256_range i slack hInside) (length_sha256CsumWd _) hSigns,
    sprdGetCertAddr_signed i _ _, ?_⟩
  exact sprdVerifyImg_signed keys i hSize (length_sha256CsumWd _) hSigns

end Packed

/-- A packed modem image is accepted after it has been signed exactly when
its first bytes, as many as the modem block has, hash to the same as the
modem block. -/
theorem packedImage_accepted_iff (keys : KeyFiles openssl) (i : SysImage) {slack : List UInt8}
    {offset len : Nat} (hPacked : isPackedModemImage (i.payload ++ slack) = .ok true)
    (hFound : getModemInfo (i.payload ++ slack) = .ok (offset, len))
    (hInside : offset + len ≤ i.payload.length) {imgName : List Char}
    (hSigns : keys.Signs (imageClass imgName).signer (keys.fields (imageClass imgName)
      (sha256CsumWd ((i.payload.drop offset).take len))))
    (nextpubk : List UInt8) :
    SignedAndAccepted openssl slack nextpubk imgName i.bytes ↔
      sha256CsumWd (i.payload.take len) = sha256CsumWd ((i.payload.drop offset).take len) := by
  obtain ⟨signed, certptr, hSigned, hCert, hVerdict⟩ :=
    packedImage_verdict keys i nextpubk hPacked hFound hInside hSigns
  constructor
  · rintro ⟨signed', certptr', hSigned', hCert', hAccepted⟩
    obtain rfl : signed = signed' := by
      simpa using hSigned.symm.trans hSigned'
    obtain rfl := ok_unique hCert hCert'
    simpa using (hVerdict zeroStale).symm.trans (hAccepted zeroStale)
  · intro hSame
    exact ⟨signed, certptr, hSigned, hCert, fun stale => by rw [hVerdict, decide_eq_true hSame]⟩

/-- An image with one modem block, of 16 bytes behind the header table. -/
def packedImage : SysImage where
  start := encode 4 0x42544844 ++ encode 4 1 ++ List.replicate 40 0
  length_start := by simp
  reserved := List.replicate 460 0
  length_reserved := List.length_replicate
  payload := modemMagic ++ List.replicate 7 0 ++
    (encode 4 1 ++ encode 4 96 ++ encode 4 16) ++ List.replicate 72 0 ++ List.replicate 16 1
  loadable := by decide

theorem packedImage_packed : isPackedModemImage (packedImage.payload ++ []) = .ok true := by
  decide +kernel

theorem packedImage_found : getModemInfo (packedImage.payload ++ []) = .ok (96, 16) := by
  decide +kernel

theorem packedImage_signs : plainKeys.Signs (imageClass "modem-sign.bin".toList).signer
    (plainKeys.fields (imageClass "modem-sign.bin".toList)
      (sha256CsumWd ((packedImage.payload.drop 96).take 16))) :=
  plainKeys_signs _ (by decide +kernel)

/-- The first bytes of the payload have another hash than the modem block. -/
theorem packedImage_otherHash : sha256CsumWd (packedImage.payload.take 16) ≠
    sha256CsumWd ((packedImage.payload.drop 96).take 16) := by
  decide +kernel

/-- The packed image would be accepted exactly if the two hashes were equal. -/
theorem packedImage_accepted_iff_modem :
    SignedAndAccepted plainOpenssl [] [] "modem-sign.bin".toList packedImage.bytes ↔
      sha256CsumWd (packedImage.payload.take 16) =
        sha256CsumWd ((packedImage.payload.drop 96).take 16) :=
  packedImage_accepted_iff plainKeys packedImage packedImage_packed packedImage_found
    (by decide) packedImage_signs []

/-- The signed image is rejected. -/
theorem packedImage_rejected :
    (∃ signed certptr,
      sprdSignimg plainOpenssl Io.successful [] [] "modem-sign.bin".toList packedImage.bytes =
          .ok (1, some signed) ∧ sprdGetCertAddr signed = .ok certptr ∧
        ∀ stale, sprdVerifyImg (pubkeyHash certptr) signed stale = .ok false) ∧
      ¬∀ (keys : KeyFiles plainOpenssl) (i : SysImage) (slack nextpubk : List UInt8)
        (offset len : Nat) (imgName : List Char),
        isPackedModemImage (i.payload ++ slack) = .ok true →
        getModemInfo (i.payload ++ slack) = .ok (offset, len) →
        offset + len ≤ i.payload.length →
        keys.Signs (imageClass imgName).signer (keys.fields (imageClass imgName)
          (sha256CsumWd ((i.payload.drop offset).take len))) →
        SignedAndAccepted plainOpenssl slack nextpubk imgName i.bytes := by
  obtain ⟨signed, certptr, hSigned, hCert, hVerdict⟩ :=
    packedImage_verdict plainKeys packedImage [] packedImage_packed packedImage_found (by decide)
      packedImage_signs
  have hRejected (stale : Stale) : sprdVerifyImg (pubkeyHash certptr) signed stale = .ok false := by
    rw [hVerdict, decide_eq_false packedImage_otherHash]
  refine ⟨⟨signed, certptr, hSigned, hCert, hRejected⟩, fun hAll => ?_⟩
  obtain ⟨signed', certptr', hSigned', hCert', hAccepted⟩ := hAll plainKeys packedImage [] [] 96 16
    "modem-sign.bin".toList packedImage_packed packedImage_found (by decide) packedImage_signs
  obtain rfl : signed = signed' := by
    simpa using hSigned.symm.trans hSigned'
  obtain rfl := ok_unique hCert hCert'
  exact absurd ((hRejected zeroStale).symm.trans (hAccepted zeroStale)) (by decide)

end SignImage
