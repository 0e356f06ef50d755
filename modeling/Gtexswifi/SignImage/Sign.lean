import Gtexswifi.SignImage.InsertHeader

/-! `sprd_signimg`: the class of an image by its name, the modem block of a
packed image, and the header and certificate behind the signed image. -/
namespace SignImage

open Radix

/-- What OpenSSL reads from a public key file: the size of the modulus in
bytes, and exponent and modulus as `BN_bn2bin` writes them. -/
structure PublicKey where
  rsaSize : Nat
  e : List UInt8
  n : List UInt8

/-- The key pairs of a directory, `rsa2048_0` to `rsa2048_2`. -/
inductive KeyPair
  | rsa0
  | rsa1
  | rsa2
  deriving DecidableEq

/-- OpenSSL on the key files of a directory: the keys it reads, and the
bytes that `RSA_private_encrypt` writes, as many as `RSA_size` says. It
returns -1 and writes nothing when the modulus has no room for the message
and its padding, which is a matter of the key and of the length of the
message. -/
structure Openssl (Key : Type) where
  readPubkey : KeyPair → Option PublicKey
  readPrivateKey : KeyPair → Option Key
  rsaSize : Key → Nat
  hasRoom : Key → Nat → Bool
  rsaPrivateEncrypt : Key → List UInt8 → Option (List UInt8)
  isSome_rsaPrivateEncrypt : ∀ key message,
    (rsaPrivateEncrypt key message).isSome = hasRoom key message.length
  length_rsaPrivateEncrypt : ∀ key message encrypted,
    rsaPrivateEncrypt key message = some encrypted → encrypted.length = rsaSize key

structure SprdKeycert where
  certtype : Nat
  pubkey : List UInt8
  hashData : List UInt8
  hashKey : List UInt8
  type : Nat
  version : Nat
  signature : List UInt8

structure SprdContentcert where
  certtype : Nat
  pubkey : List UInt8
  hashData : List UInt8
  type : Nat
  version : Nat
  signature : List UInt8

/-- The certificate from `hash_data` to the signature. -/
def SprdKeycert.fields (cert : SprdKeycert) : List UInt8 :=
  cert.hashData ++ cert.hashKey ++ encode 4 cert.type ++ encode 4 cert.version

def SprdContentcert.fields (cert : SprdContentcert) : List UInt8 :=
  cert.hashData ++ encode 4 cert.type ++ encode 4 cert.version

/-- `sizeof(sprd_keycert)`. -/
def keycertSize : Nat := 596

/-- `sizeof(sprd_contentcert)`. -/
def contentcertSize : Nat := 564

/-- The fields of `sprdsignedimageheader` that are set; the others are zero. -/
structure SignedImageHeader where
  payloadSize : Nat
  payloadOffset : Nat
  certSize : Nat
  certOffset : Nat

def SignedImageHeader.bytes (hdr : SignedImageHeader) : List UInt8 :=
  List.replicate 16 0 ++ encode 8 hdr.payloadSize ++ encode 8 hdr.payloadOffset ++
    encode 8 hdr.certSize ++ encode 8 hdr.certOffset ++ List.replicate 48 0

/-- The signing tool loads a file without padding. -/
def loadFile (io : Io) (file : List UInt8) : Option (List UInt8) :=
  let sz := fileSize file
  if io.loads = false ∨ sz < 0 then none else some (file.take sz.toNat)

/-- `"SCI1"` with its terminating zero. -/
def modemMagic : List UInt8 := [0x53, 0x43, 0x49, 0x31, 0]

def isPackedModemImage (data : List UInt8) : Except Fault Bool := do
  return (← secMemcmp data modemMagic modemMagic.length) = 0

structure DataBlockHeader where
  typeFlags : UInt32
  offset : UInt32
  length : UInt32
  deriving DecidableEq

def modemImgHdr : UInt32 := 0x1

def modemLastHdr : UInt32 := 0x100

def modemSha1Hdr : UInt32 := 0x400

def modemSha1Size : UInt32 := 20

/-- The entries of the header buffer, of three words each. -/
def dataBlockHeaders : List UInt32 → List DataBlockHeader
  | typeFlags :: offset :: length :: rest => ⟨typeFlags, offset, length⟩ :: dataBlockHeaders rest
  | _ => []

/-- How the inner loop of `get_modem_info` ends. -/
inductive ScanEnd
  | image (hdr : DataBlockHeader)
  | notFound
  | lastHeader
  deriving DecidableEq

/-- The inner loop from an entry on: to the first entry of an image, unless
the buffer ends or the entry to be looked at next is marked as the last one. -/
def scanHeaders : List DataBlockHeader → ScanEnd
  | [] => .notFound
  | hdr :: rest =>
      if hdr.typeFlags &&& modemImgHdr ≠ 0 then .image hdr
      else match rest with
        | [] => .notFound
        | next :: _ =>
            if next.typeFlags &&& modemLastHdr ≠ 0 then .lastHeader else scanHeaders rest

/-- The outer loop. Once `result` is 1, every further pass starts at the
first entry and `result` stays 1 unless a last header is met, so a second
such pass is like the first. -/
def scanLoop (table : List DataBlockHeader) :
    Nat → List DataBlockHeader → Nat → Except Fault (Option DataBlockHeader)
  | 0, _, _ => .error .endless
  | passes + 1, start, result =>
      match scanHeaders start with
      | .image hdr => if result ≠ 1 then .ok (some hdr) else scanLoop table passes table 1
      | .notFound => scanLoop table passes table 1
      | .lastHeader => .ok none

/-- The offset and the length of the modem block, or zeros when an error
ends the scan. -/
def getModemInfo (data : List UInt8) : Except Fault (Nat × Nat) := do
  let hdrBuf ← inBounds (Memory.slice data 0 96)
  let table := dataBlockHeaders (limbsOfBytes 24 hdrBuf)
  match ← scanLoop table 2 (table.drop 1) 0 with
  | none => return (0, 0)
  | some hdr =>
      let offset := if hdr.typeFlags &&& modemSha1Hdr ≠ 0 then hdr.offset + modemSha1Size
        else hdr.offset
      return (offset.toNat, hdr.length.toNat)

/-- A key read into the structure `sprd_pubk`, which stands between `before`
and `after` in its object. One that cannot be read leaves the structure as
it is. The exponent is written so that it ends where the field `e` does, and
one of more than four bytes begins in `keybit_len` or in front of it; a
modulus of more than 256 bytes goes on behind the structure. -/
def getpubkeyfrmPEM (before sprdPubk after : List UInt8) (pem : Option PublicKey) :
    Except Fault (List UInt8) :=
  match pem with
  | none => .ok (before ++ sprdPubk ++ after)
  | some key =>
      if key.e.length ≤ before.length + 8 ∧ key.n.length ≤ 256 + after.length then
        .ok ((before ++ encode 4 (key.rsaSize * 8)).take (before.length + 8 - key.e.length) ++
          (List.replicate (4 - key.e.length) 0 ++ key.e) ++ key.n ++
            (sprdPubk ++ after).drop (8 + key.n.length))
      else .error .overrun

/-- A certificate with a key read into it, as the bytes it is made of. -/
def SprdKeycert.readPubkey (cert : SprdKeycert) (pem : Option PublicKey) :
    Except Fault (List UInt8) :=
  getpubkeyfrmPEM (encode 4 cert.certtype) cert.pubkey (cert.fields ++ cert.signature) pem

def SprdContentcert.readPubkey (cert : SprdContentcert) (pem : Option PublicKey) :
    Except Fault (List UInt8) :=
  getpubkeyfrmPEM (encode 4 cert.certtype) cert.pubkey (cert.fields ++ cert.signature) pem

variable {Key : Type}

/-- The signed bytes and the signature are given by where they are in the
certificate. The result of `RSA_private_encrypt` is not looked at: where it
is -1 the signature stays as it is, as it does for a key that cannot be
read. -/
def calcSignature (openssl : Openssl Key) (pem : Option Key) (cert : List UInt8)
    (hashData hashLen signature : Nat) : Except Fault (List UInt8) :=
  match pem with
  | none => .ok cert
  | some key => do
      let message ← inBounds (Memory.slice cert hashData hashLen)
      match openssl.rsaPrivateEncrypt key message with
      | none => return cert
      | some encrypted => inArray (Memory.write cert signature encrypted)

/-- Where `hash_data` is in both certificates. -/
def hashDataOffset : Nat := 268

/-- Where `hash_key` is in a key certificate. -/
def hashKeyOffset : Nat := 300

/-- A key certificate after `memset` and the fields that are set before the
keys are read. -/
def clearedKeycert (type version : Nat) : SprdKeycert :=
  ⟨certtypeKey.toNat, List.replicate sprdRsapubklen 0, List.replicate hashByteLen 0,
    List.replicate hashByteLen 0, type, version, List.replicate 256 0⟩

def clearedContentcert (version : Nat) : SprdContentcert :=
  ⟨certtypeContent.toNat, List.replicate sprdRsapubklen 0, List.replicate hashByteLen 0, 0,
    version, List.replicate 256 0⟩

/-- A key certificate for the payload, with the key `current`, the hash of
the key `next` and a signature by the private key `current`. -/
def makeKeycert (openssl : Openssl Key) (type version : Nat) (current next : KeyPair)
    (payloadAddr : List UInt8) (payloadSize : Nat) (nextpubk : List UInt8) :
    Except Fault (List UInt8) := do
  let cert ← (clearedKeycert type version).readPubkey (openssl.readPubkey current)
  let nextpubk ← getpubkeyfrmPEM [] nextpubk [] (openssl.readPubkey next)
  let hashData ← calSha256 payloadAddr payloadSize
  let cert ← inBounds (Memory.write cert hashDataOffset hashData)
  let hashKey ← calSha256 nextpubk sprdRsapubklen
  let cert ← inBounds (Memory.write cert hashKeyOffset hashKey)
  calcSignature openssl (openssl.readPrivateKey current) cert hashDataOffset keycertHashLen
    (hashDataOffset + keycertHashLen)

def makeContentcert (openssl : Openssl Key) (version : Nat) (current : KeyPair)
    (payloadAddr : List UInt8) (payloadSize : Nat) : Except Fault (List UInt8) := do
  let cert ← (clearedContentcert version).readPubkey (openssl.readPubkey current)
  let hashData ← calSha256 payloadAddr payloadSize
  let cert ← inBounds (Memory.write cert hashDataOffset hashData)
  calcSignature openssl (openssl.readPrivateKey current) cert hashDataOffset (hashByteLen + 8)
    (hashDataOffset + (hashByteLen + 8))

/-- The four branches of `sprd_signimg`. -/
inductive ImageClass
  | spl
  | uboot
  | trusted
  | boot
  deriving DecidableEq

def splNames : List String := ["fdl1-sign.bin", "u-boot-spl-16k-sign.bin"]

def ubootNames : List String := ["fdl2-sign.bin", "u-boot-sign.bin", "u-boot-dtb-sign.bin"]

def trustedNames : List String :=
  ["tos-sign.bin", "sml-sign.bin", "mobilevisor-sign.bin", "secvm-sign.bin", "mvconfig-sign.bin"]

/-- The name starts with one of the names; what follows is not looked at. -/
def startsWithAny (names : List String) (imgName : List Char) : Bool :=
  names.any fun name => name.toList.isPrefixOf imgName

def imageClass (imgName : List Char) : ImageClass :=
  if startsWithAny splNames imgName then .spl
  else if startsWithAny ubootNames imgName then .uboot
  else if startsWithAny trustedNames imgName then .trusted
  else .boot

/-- The certificate of each branch, with its size. -/
def makeCert (openssl : Openssl Key) (nextpubk payloadAddr : List UInt8) (payloadSize : Nat) :
    ImageClass → Except Fault (Nat × List UInt8)
  | .spl => do
      let cert ← makeKeycert openssl 1 1 .rsa0 .rsa1 payloadAddr payloadSize nextpubk
      return (keycertSize, cert)
  | .uboot => do
      let cert ← makeKeycert openssl 0 1 .rsa1 .rsa2 payloadAddr payloadSize nextpubk
      return (keycertSize, cert)
  | .trusted => do
      let cert ← makeContentcert openssl 0 .rsa1 payloadAddr payloadSize
      return (contentcertSize, cert)
  | .boot => do
      let cert ← makeContentcert openssl 1 .rsa2 payloadAddr payloadSize
      return (contentcertSize, cert)

/-- Where the hashed bytes are, and how many there are. `memory` starts with
the image. -/
def payloadWindow (memory : List UInt8) (imgLen : Nat) : Except Fault (List UInt8 × Nat) := do
  let payloadAddr := memory.drop sysImgHeaderSize
  if ← isPackedModemImage payloadAddr then
    let (modemOffset, modemLen) ← getModemInfo payloadAddr
    return (payloadAddr.drop modemOffset, modemLen)
  else return (payloadAddr, ((imgLen : Int) - sysImgHeaderSize) % 2 ^ 64 |>.toNat)

/-- The return value, and the image file afterwards unless it was unlinked.
`slack` is the memory behind the loaded image, and `nextpubk` what the
automatic variable held. The open is tested against 0, which it gives to a
process without a standard input and only after it has truncated the file.
An open that fails is found out by the first write, which fails with it. -/
def sprdSignimg (openssl : Openssl Key) (io : Io) (slack nextpubk : List UInt8)
    (imgName : List Char) (img : List UInt8) : Except Fault (Int × Option (List UInt8)) := do
  match loadFile io img with
  | none => return (0, some img)
  | some inputData =>
      let imgLen := inputData.length
      let (payloadAddr, payloadSize) ← payloadWindow (inputData ++ slack) imgLen
      match io.opens 0 with
      | none => return (0, io.unlink (some img))
      | some 0 => return (0, some [])
      | some (_ + 1) =>
          let (complete, file) := io.append 0 [] inputData
          if complete = false then return (0, io.unlink (some file))
          else
            let (certSize, cert) ← makeCert openssl nextpubk payloadAddr payloadSize
              (imageClass imgName)
            let signHdr : SignedImageHeader :=
              ⟨payloadSize, sysImgHeaderSize, certSize, imgLen + signedHeaderSize⟩
            let (complete, file) := io.append 1 file signHdr.bytes
            if complete = false then return (0, io.unlink (some file))
            else
              let (complete, file) := io.append 2 file cert
              if complete = false then return (0, io.unlink (some file))
              else return (1, some file)

end SignImage
