import Gtexswifi.SignImage.ChainOfTrust
import Gtexswifi.SignImage.HashStreaming

/-! What two messages with one hash say about the compression: the padding
ends with the length, so that the two runs agree or contain a collision.
From that, what two images say that are accepted with the same certificate. -/
namespace SignImage

open Sampling BlockHash

theorem store64H_inj {x y : UInt64} (h : store64H x = store64H y) : x = y := by
  apply UInt64.toNat_inj.mp
  simp only [store64H, List.cons.injEq, and_true, ← UInt8.toNat_inj, UInt64.toNat_toUInt8,
    UInt64.toNat_shiftRight, Nat.shiftRight_eq_div_pow, UInt64.reduceToNat, Nat.reduceMod,
    Nat.reducePow] at h
  obtain ⟨h7, h6, h5, h4, h3, h2, h1, h0⟩ := h
  have hx := x.toNat_lt
  have hy := y.toNat_lt
  omega

theorem store32H_inj {x y : UInt32} (h : store32H x = store32H y) : x = y := by
  apply UInt32.toNat_inj.mp
  simp only [store32H, List.cons.injEq, and_true, ← UInt8.toNat_inj, UInt32.toNat_toUInt8,
    UInt32.toNat_shiftRight, Nat.shiftRight_eq_div_pow, UInt32.reduceToNat, Nat.reduceMod,
    Nat.reducePow] at h
  obtain ⟨h3, h2, h1, h0⟩ := h
  have hx := x.toNat_lt
  have hy := y.toNat_lt
  omega

theorem HashWords.bytes_inj {s t : HashWords} (h : s.bytes = t.bytes) : s = t := by
  have hSplit {x y : UInt32} {front back : List UInt8}
      (hBytes : front ++ store32H x = back ++ store32H y) : front = back ∧ x = y := by
    obtain ⟨hFront, hLast⟩ := List.append_inj' hBytes rfl
    exact ⟨hFront, store32H_inj hLast⟩
  unfold HashWords.bytes at h
  obtain ⟨h, hh⟩ := hSplit h
  obtain ⟨h, hg⟩ := hSplit h
  obtain ⟨h, hf⟩ := hSplit h
  obtain ⟨h, he⟩ := hSplit h
  obtain ⟨h, hd⟩ := hSplit h
  obtain ⟨h, hc⟩ := hSplit h
  obtain ⟨h, hb⟩ := hSplit h
  cases s
  cases t
  simp only [HashWords.mk.injEq]
  exact ⟨store32H_inj h, hb, hc, hd, he, hf, hg, hh⟩

theorem length_paddedMessage (message : List UInt8) :
    (paddedMessage message).length = message.length + 9 + paddingZeros message.length := by
  simp only [paddedMessage, List.length_append, List.length_replicate, List.length_singleton,
    length_store64H]
  omega

theorem paddedMessage_whole (message : List UInt8) : (paddedMessage message).length % 64 = 0 := by
  rw [length_paddedMessage, paddingZeros]
  omega

/-- The blocks of a padded message. -/
def paddedBlocks (message : List UInt8) : List (List UInt8) := windows 64 (paddedMessage message)

theorem paddedBlocks_ne_nil (message : List UInt8) : paddedBlocks message ≠ [] := by
  have hLength := length_paddedMessage message
  have hWhole := paddedMessage_whole message
  rw [← List.length_pos_iff, paddedBlocks, length_windows]
  omega

/-- The last block ends with the length of the message in bits. -/
theorem drop_last_paddedBlocks (message : List UInt8) :
    ((paddedBlocks message).getLast (paddedBlocks_ne_nil message)).drop 56 =
      store64H (message.length * 8).toUInt64 := by
  have hBlocks := List.dropLast_append_getLast (paddedBlocks_ne_nil message)
  have hLast : ((paddedBlocks message).getLast (paddedBlocks_ne_nil message)).length = 64 :=
    length_of_mem_windows (List.getLast_mem _)
  have hStream := flatten_windows (by decide : 0 < 64) (paddedMessage message)
  have hRest : rest 64 (paddedMessage message) = [] :=
    List.eq_nil_of_length_eq_zero ((length_rest 64 _).trans (paddedMessage_whole message))
  change (paddedBlocks message).flatten ++ _ = _ at hStream
  rw [hRest, List.append_nil, ← hBlocks, List.flatten_append, List.flatten_singleton,
    ← List.take_append_drop 56 ((paddedBlocks message).getLast _), ← List.append_assoc,
    paddedMessage, ← List.append_assoc] at hStream
  exact (List.append_inj' hStream (by rw [List.length_drop, hLast, length_store64H])).2

/-- The last block holds the length in bits, which is that of the message as
long as it fits. -/
theorem length_of_last_block {a b : List UInt8} (ha : a.length < 2 ^ 61) (hb : b.length < 2 ^ 61)
    (h : (paddedBlocks a).getLast (paddedBlocks_ne_nil a) =
      (paddedBlocks b).getLast (paddedBlocks_ne_nil b)) : a.length = b.length := by
  have hBits := drop_last_paddedBlocks a
  rw [h, drop_last_paddedBlocks b] at hBits
  have hSame := congrArg UInt64.toNat (store64H_inj hBits)
  simp only [Nat.toUInt64, UInt64.toNat_ofNat'] at hSame
  omega

/-- Messages of one length with the same padded blocks are the same. -/
theorem eq_of_paddedBlocks {a b : List UInt8} (hLength : a.length = b.length)
    (h : paddedBlocks a = paddedBlocks b) : a = b := by
  have hPadded : paddedMessage a = paddedMessage b :=
    eq_of_windows_eq (by decide) (paddedMessage_whole a) (paddedMessage_whole b) h
  exact (List.append_inj hPadded hLength).1

/-- The compressions of two messages contain different inputs with the same
result. -/
def CompressionsCollide (a b : List UInt8) : Prop :=
  Collide sha256Compress sha256Init.state (paddedBlocks a) sha256Init.state (paddedBlocks b)

theorem sha256CsumWd_eq (message : List UInt8) :
    sha256CsumWd message = messageDigest message := by
  rw [sha256CsumWd, sha256Init_eq, sha256Process_of, sha256Done_of, List.nil_append]

/-- Messages with the same hash are the same, or their compressions meet a
collision: the padding keeps the lengths apart. -/
theorem eq_or_compressionsCollide {a b : List UInt8} (ha : a.length < 2 ^ 61)
    (hb : b.length < 2 ^ 61) (h : sha256CsumWd a = sha256CsumWd b) :
    a = b ∨ CompressionsCollide a b := by
  rw [sha256CsumWd_eq, sha256CsumWd_eq] at h
  have hCount (hLast : (paddedBlocks a).getLast (paddedBlocks_ne_nil a) =
      (paddedBlocks b).getLast (paddedBlocks_ne_nil b)) :
      (paddedBlocks a).length = (paddedBlocks b).length := by
    simp only [paddedBlocks, length_windows, length_paddedMessage,
      length_of_last_block ha hb hLast]
  by_cases hLength : a.length = b.length
  · exact (eq_or_collide (paddedBlocks_ne_nil a) (paddedBlocks_ne_nil b) hCount
      (HashWords.bytes_inj h)).imp_left (eq_of_paddedBlocks hLength)
  · rcases eq_or_collide (paddedBlocks_ne_nil a) (paddedBlocks_ne_nil b) hCount
      (HashWords.bytes_inj h) with hSame | hCollide
    · refine absurd (length_of_last_block ha hb ?_) hLength
      simp only [hSame]
    · exact Or.inr hCollide

instance (a b : List UInt8) : Decidable (CompressionsCollide a b) :=
  inferInstanceAs (Decidable (Collide ..))

/-- The code that `sprd_verify_img` hashes. -/
def hashedCode (imgbuf : List UInt8) : Except Fault (List UInt8) := do
  let imghdr ← sprdGetSechdrAddr imgbuf
  let codeAddr ← sprdGetCodeAddr imgbuf
  inBounds (Memory.slice codeAddr 0 ((← loadWord (imghdr.drop 16) 8) % 2 ^ 32))

theorem imageHash_eq (imgbuf : List UInt8) :
    imageHash imgbuf = hashedCode imgbuf >>= fun code => .ok (sha256CsumWd code) := by
  simp only [imageHash, hashedCode, calSha256, bind_assoc]
  rfl

/-- The code has less than 2^32 bytes, so that its length fits the counter. -/
theorem length_hashedCode {imgbuf code : List UInt8} (h : hashedCode imgbuf = .ok code) :
    code.length < 2 ^ 61 := by
  obtain ⟨imghdr, -, h⟩ := bind_eq_ok.mp h
  obtain ⟨codeAddr, -, h⟩ := bind_eq_ok.mp h
  obtain ⟨size, -, h⟩ := bind_eq_ok.mp h
  unfold inBounds at h
  split at h
  · next cells hSlice =>
      obtain rfl := Except.ok.inj h
      rw [Memory.length_of_slice hSlice]
      omega
  · cases h

/-- The field `hash_data` of a certificate. -/
def certHashData (certptr : List UInt8) : List UInt8 := (certptr.drop 268).take hashByteLen

/-- Every branch that accepts has compared the hash of the image. -/
theorem agree_of_accepted {hashKeyPrecert hashData certptr : List UInt8} {stale : Stale}
    (h : sprdVerifyCert hashKeyPrecert hashData certptr stale = .ok true) :
    Agree hashData (certptr.drop 268) hashByteLen := by
  by_cases hKey : certptr[0]? = some certtypeKey
  · exact ((keyCert_eq_true hKey).mp h).1
  · by_cases hContent : certptr[0]? = some certtypeContent
    · exact ((contentCert_eq_true hContent).mp h).1.1
    · exfalso
      rw [sprdVerifyCert] at h
      cases hType : certptr[0]? with
      | none =>
          rw [hType] at h
          cases h
      | some certtype =>
          rw [hType] at h hKey hContent
          simp only [Option.some.injEq] at hKey hContent
          simp only [inBounds, ok_bind, if_neg hKey, if_neg hContent] at h
          cases h

/-- An accepted image has the code whose hash its certificate holds. -/
theorem hashedCode_of_accepted {hashKeyPrecert imgbuf certptr : List UInt8} {stale : Stale}
    (h : sprdVerifyImg hashKeyPrecert imgbuf stale = .ok true)
    (hCert : sprdGetCertAddr imgbuf = .ok certptr) :
    ∃ code, hashedCode imgbuf = .ok code ∧ sha256CsumWd code = certHashData certptr := by
  obtain ⟨hash, hHash, certptr', hCert', hAccepted⟩ := sprdVerifyImg_eq_true.mp h
  obtain rfl := ok_unique hCert hCert'
  rw [imageHash_eq] at hHash
  obtain ⟨code, hCode, hHash⟩ := bind_eq_ok.mp hHash
  obtain rfl := Except.ok.inj hHash
  obtain ⟨-, -, hSame⟩ := agree_of_accepted hAccepted
  have hLength : (sha256CsumWd code).length = hashByteLen := length_sha256CsumWd code
  rw [List.take_of_length_le (Nat.le_of_eq hLength)] at hSame
  exact ⟨code, hCode, hSame⟩

/-- Images that are accepted with one `hash_data` have the same code, unless
hashing their codes meets a collision of the compression. -/
theorem accepted_same_code {hashKeyPrecert hashKeyPrecert' image image' cert cert' : List UInt8}
    {stale stale' : Stale}
    (hAccepted : sprdVerifyImg hashKeyPrecert image stale = .ok true)
    (hAccepted' : sprdVerifyImg hashKeyPrecert' image' stale' = .ok true)
    (hCert : sprdGetCertAddr image = .ok cert) (hCert' : sprdGetCertAddr image' = .ok cert')
    (hSame : certHashData cert = certHashData cert') :
    ∃ code code', hashedCode image = .ok code ∧ hashedCode image' = .ok code' ∧
      (code = code' ∨ CompressionsCollide code code') := by
  obtain ⟨code, hCode, hHash⟩ := hashedCode_of_accepted hAccepted hCert
  obtain ⟨code', hCode', hHash'⟩ := hashedCode_of_accepted hAccepted' hCert'
  refine ⟨code, code', hCode, hCode', ?_⟩
  exact eq_or_compressionsCollide (length_hashedCode hCode) (length_hashedCode hCode')
    (hHash.trans (hSame.trans hHash'.symm))

/-- An image with the payload "BL1", a part of it in front of the signed
header and the rest behind, and a payload offset. The signature of its
certificate opens to the signed fields. -/
def splitImage (front behind : List UInt8) (offset : UInt8) : List UInt8 :=
  let fields := sha256CsumWd [0x42, 0x4c, 0x31] ++ List.replicate 40 0
  (List.replicate 48 0 ++ [front.length.toUInt8] ++ List.replicate 463 0) ++ front ++
    (List.replicate 16 0 ++ [3] ++ List.replicate 7 0 ++ [offset, 0x02] ++ List.replicate 14 0 ++
      [0x63, 0x02] ++ List.replicate 54 0) ++ behind ++
    ([1, 0, 0, 0] ++ plainPubkey ++ fields ++
      ([0, 1] ++ List.replicate 21 0xff ++ [0] ++ fields) ++ List.replicate 160 0)

/-- The payload behind the system header, as the signing tool leaves it. -/
def frontImage : List UInt8 := splitImage [0x42, 0x4c, 0x31] [] 0

/-- The payload behind the signed header. -/
def behindImage : List UInt8 := splitImage [] [0x42, 0x4c, 0x31] 0x60

/-- The two images are accepted with one hash, and their code is the same
although it stands at different places. -/
theorem accepted_same_code_moved :
    hashedCode frontImage = .ok [0x42, 0x4c, 0x31] ∧
      ∃ code code', hashedCode frontImage = .ok code ∧ hashedCode behindImage = .ok code' ∧
        (code = code' ∨ CompressionsCollide code code') :=
  ⟨by decide +kernel,
    accepted_same_code
      (show sprdVerifyImg (List.replicate 32 0) frontImage zeroStale = .ok true by decide +kernel)
      (show sprdVerifyImg [] behindImage zeroStale = .ok true by decide +kernel)
      (show sprdGetCertAddr frontImage = .ok (frontImage.drop 611) by decide +kernel)
      (show sprdGetCertAddr behindImage = .ok (behindImage.drop 611) by decide +kernel)
      (by decide +kernel)⟩

end SignImage
