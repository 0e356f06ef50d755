import Gtexswifi.SignImage.ChainOfTrust
import Gtexswifi.SignImage.Sign

/-! The layout that the tools and the verifier share: where the verifier
finds hash range and certificate of a signed image. -/
namespace SignImage

open Radix

/-- An image that tells the size of its payload in byte 48 of its system
header, and that is small enough to be loaded. -/
structure SysImage where
  start : List UInt8
  length_start : start.length = 48
  reserved : List UInt8
  length_reserved : reserved.length = 460
  payload : List UInt8
  loadable : sysImgHeaderSize + payload.length < 2 ^ 31

namespace SysImage

def header (i : SysImage) : List UInt8 := i.start ++ encode 4 i.payload.length ++ i.reserved

def bytes (i : SysImage) : List UInt8 := i.header ++ i.payload

@[simp] theorem length_header (i : SysImage) : i.header.length = sysImgHeaderSize := by
  simp [header, i.length_start, i.length_reserved, sysImgHeaderSize]

@[simp] theorem length_bytes (i : SysImage) :
    i.bytes.length = sysImgHeaderSize + i.payload.length := by
  rw [bytes, List.length_append, length_header]

theorem drop_bytes (i : SysImage) (behind : List UInt8) :
    (i.bytes ++ behind).drop sysImgHeaderSize = i.payload ++ behind := by
  rw [bytes, List.append_assoc, List.drop_left' i.length_header]

end SysImage

theorem toInt32_natCast {n : Nat} (h : n < 2 ^ 31) : toInt32 n = n := if_pos h

theorem fileSize_eq {file : List UInt8} (h : file.length < 2 ^ 31) :
    fileSize file = file.length := by
  rw [fileSize, Nat.mod_eq_of_lt (by omega), toInt32_natCast h]

theorem append_successful (i : Nat) (file data : List UInt8) :
    Io.successful.append i file data = (true, file ++ data) := by
  simp [Io.append, Io.successful]

/-- A file that is loaded as a whole has a size that an `int` holds. -/
theorem length_of_loadFile {io : Io} {file : List UInt8} (h : loadFile io file = some file) :
    file.length < 2 ^ 31 := by
  rw [loadFile] at h
  split_ifs at h with hNone
  have hTake := congrArg List.length (Option.some.inj h)
  rw [List.length_take] at hTake
  unfold fileSize toInt32 at hNone hTake
  split_ifs at hNone hTake <;> omega

theorem loadFile_bytes (i : SysImage) : loadFile Io.successful i.bytes = some i.bytes := by
  have hSize := fileSize_eq (i.length_bytes.trans_lt i.loadable)
  have hWhole : i.bytes.take (fileSize i.bytes).toNat = i.bytes := by
    rw [hSize, Int.toNat_natCast, List.take_length]
  rw [loadFile, hWhole, if_neg]
  rintro (hFails | hNegative)
  · cases hFails
  · omega

theorem length_sysImgHeader {mPayloadHash : List UInt8} (h : mPayloadHash.length = 32)
    (mImgSize : Nat) : (sysImgHeader mPayloadHash mImgSize).length = sysImgHeaderSize := by
  simp only [sysImgHeader, List.length_append, length_encode, List.length_replicate, h,
    sysImgHeaderSize]

/-- What `imgheaderinsert` writes is a system image with the padded payload. -/
theorem imgheaderinsert_image {doSha256 : List UInt8 → Digest} {addPayloadHash : Int}
    {filename : List Char} {file original image : List UInt8} {earlier : Option (List UInt8)}
    (hInsert : imgheaderinsert Io.successful doSha256 addPayloadHash filename file earlier =
      .ok ⟨0, original, some image⟩)
    (hLoad : loadFile Io.successful image = some image) :
    ∃ i : SysImage, i.bytes = image ∧ loadPadded Io.successful file = some i.payload := by
  obtain ⟨name, -, hRun⟩ := bind_eq_ok.mp hInsert
  cases name with
  | none => cases hRun
  | some name =>
      cases hPayload : loadPadded Io.successful file with
      | none =>
          rw [hPayload] at hRun
          cases hRun
      | some payload =>
          simp only [hPayload, append_successful, List.nil_append, pure_eq_ok] at hRun
          generalize hHash : (if addPayloadHash = 1 then (doSha256 payload).val
            else List.replicate 32 0) = mPayloadHash at hRun
          have hLength : mPayloadHash.length = 32 := by
            rw [← hHash]
            split
            · exact (doSha256 payload).property
            · exact List.length_replicate
          obtain ⟨-, hImage⟩ : payload = original ∧
              sysImgHeader mPayloadHash payload.length ++ payload = image := by
            simpa [Io.successful] using hRun
          have hLoadable := length_of_loadFile hLoad
          rw [← hImage, List.length_append, length_sysImgHeader hLength] at hLoadable
          refine ⟨⟨encode 4 0x42544844 ++ encode 4 1 ++ mPayloadHash ++ List.replicate 8 0, ?_,
            List.replicate 460 0, List.length_replicate, payload, hLoadable⟩, hImage, rfl⟩
          simp only [List.length_append, length_encode, List.length_replicate, hLength]

/-- A signed image: the sign header and the certificate stand behind the
image. -/
def signedBytes (i : SysImage) (payloadSize certSize : Nat) (cert : List UInt8) : List UInt8 :=
  i.bytes ++ (SignedImageHeader.mk payloadSize sysImgHeaderSize certSize
    (i.bytes.length + signedHeaderSize)).bytes ++ cert

section Reading

variable (i : SysImage) {payloadSize : Nat} (certSize : Nat) (cert : List UInt8)

theorem payload_length_lt : i.payload.length < 256 ^ 4 := by
  have hLoadable := i.loadable
  omega

/-- The verifier finds the header that the tool has put behind the payload. -/
theorem sprdGetSechdrAddr_signed :
    sprdGetSechdrAddr (signedBytes i payloadSize certSize cert) =
      .ok ((SignedImageHeader.mk payloadSize sysImgHeaderSize certSize
        (i.bytes.length + signedHeaderSize)).bytes ++ cert) := by
  have hSize : loadWord ((signedBytes i payloadSize certSize cert).drop 48) 4 =
      .ok i.payload.length := by
    rw [signedBytes, SysImage.bytes, SysImage.header]
    simp only [List.append_assoc]
    rw [List.drop_left' i.length_start]
    exact loadWord_encode _ (payload_length_lt i)
  rw [sprdGetSechdrAddr, hSize, ok_bind, Nat.add_comm, ← i.length_bytes, signedBytes,
    List.append_assoc, List.drop_left]
  rfl

/-- A word of the sign header, behind the bytes before it. -/
theorem loadWord_drop {hdr before rest : List UInt8} {offset len v : Nat}
    (hHdr : hdr = before ++ (encode len v ++ rest)) (hOffset : before.length = offset)
    (h : v < 256 ^ len) : loadWord (hdr.drop offset) len = .ok v := by
  rw [hHdr, List.drop_left' hOffset]
  exact loadWord_encode rest h

/-- The verifier reads the size from where the tool has written it. -/
theorem loadWord_payloadSize {hdr : SignedImageHeader} (h : hdr.payloadSize < 256 ^ 8) :
    loadWord ((hdr.bytes ++ cert).drop 16) 8 = .ok hdr.payloadSize := by
  have hHdr : hdr.bytes ++ cert = List.replicate 16 0 ++ (encode 8 hdr.payloadSize ++
      (encode 8 hdr.payloadOffset ++ (encode 8 hdr.certSize ++ (encode 8 hdr.certOffset ++
        (List.replicate 48 0 ++ cert))))) := by
    simp only [SignedImageHeader.bytes, List.append_assoc]
  exact loadWord_drop hHdr List.length_replicate h

/-- The verifier reads the offset of the payload from where the tool has
written it. -/
theorem loadWord_payloadOffset {hdr : SignedImageHeader} (h : hdr.payloadOffset < 256 ^ 8) :
    loadWord ((hdr.bytes ++ cert).drop 24) 8 = .ok hdr.payloadOffset := by
  have hHdr : hdr.bytes ++ cert = (List.replicate 16 0 ++ encode 8 hdr.payloadSize) ++
      (encode 8 hdr.payloadOffset ++ (encode 8 hdr.certSize ++ (encode 8 hdr.certOffset ++
        (List.replicate 48 0 ++ cert)))) := by
    simp only [SignedImageHeader.bytes, List.append_assoc]
  exact loadWord_drop hHdr (by simp) h

/-- The verifier reads the offset of the certificate from where the tool has
written it. -/
theorem loadWord_certOffset {hdr : SignedImageHeader} (h : hdr.certOffset < 256 ^ 8) :
    loadWord ((hdr.bytes ++ cert).drop 40) 8 = .ok hdr.certOffset := by
  have hHdr : hdr.bytes ++ cert = (List.replicate 16 0 ++ encode 8 hdr.payloadSize ++
      encode 8 hdr.payloadOffset ++ encode 8 hdr.certSize) ++ (encode 8 hdr.certOffset ++
        (List.replicate 48 0 ++ cert)) := by
    simp only [SignedImageHeader.bytes, List.append_assoc]
  exact loadWord_drop hHdr (by simp) h

/-- The code address is that of the payload, whatever was signed. -/
theorem sprdGetCodeAddr_signed (payloadSize : Nat) :
    ∃ behind, sprdGetCodeAddr (signedBytes i payloadSize certSize cert) =
      .ok (i.payload ++ behind) := by
  refine ⟨(SignedImageHeader.mk payloadSize sysImgHeaderSize certSize
    (i.bytes.length + signedHeaderSize)).bytes ++ cert, ?_⟩
  have hOffset : sysImgHeaderSize < 256 ^ 8 := by decide
  rw [sprdGetCodeAddr, sprdGetSechdrAddr_signed, ok_bind, loadWord_payloadOffset _ hOffset,
    ok_bind, signedBytes, List.append_assoc, SysImage.drop_bytes]
  rfl

/-- The verifier hashes the first bytes of the payload, as many as were
signed. -/
theorem imageHash_signed (hSize : payloadSize ≤ i.payload.length) :
    imageHash (signedBytes i payloadSize certSize cert) =
      .ok (sha256CsumWd (i.payload.take payloadSize)) := by
  obtain ⟨behind, hCode⟩ := sprdGetCodeAddr_signed i certSize cert payloadSize
  have hPayload := payload_length_lt i
  have hSlice : Memory.slice (i.payload ++ behind) 0 payloadSize =
      some (i.payload.take payloadSize) := by
    rw [Memory.slice_eq_some (by rw [List.length_append]; omega), List.drop_zero,
      List.take_append_of_le_length hSize]
  rw [imageHash, sprdGetSechdrAddr_signed, ok_bind, hCode, ok_bind,
    loadWord_payloadSize _ (by simp only; omega), ok_bind, calSha256,
    Nat.mod_eq_of_lt (by simp only; omega), hSlice]
  rfl

theorem length_signedImageHeader (hdr : SignedImageHeader) :
    hdr.bytes.length = signedHeaderSize := by
  simp only [SignedImageHeader.bytes, List.length_append, length_encode, List.length_replicate,
    signedHeaderSize]

theorem sprdGetCertAddr_signed :
    sprdGetCertAddr (signedBytes i payloadSize certSize cert) = .ok cert := by
  have hBytes := i.length_bytes.trans_lt i.loadable
  rw [sprdGetCertAddr, sprdGetSechdrAddr_signed, ok_bind,
    loadWord_certOffset _ (by simp only [signedHeaderSize]; omega), ok_bind, signedBytes,
    List.drop_left' (by rw [List.length_append, length_signedImageHeader])]
  rfl

end Reading

end SignImage
