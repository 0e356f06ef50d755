import Gtexswifi.SignImage.Verify

/-! `imgheaderinsert`, which puts the system header in front of a payload,
and the outcomes of file operations that it shares with the signing tool. -/
namespace SignImage

open Radix

/-- What the operating system answers: whether a file can be loaded, the
descriptor of a file that is opened for writing, what the write of so many
bytes returns, both by the order of the calls, and whether `unlink`
succeeds. An open that fails has no descriptor, and no write returns more
than it was to write. -/
structure Io where
  loads : Bool
  opens : Nat → Option Nat
  writes : Nat → Nat → Int
  writes_le : ∀ i count, writes i count ≤ count
  unlinks : Bool

/-- No operation fails, and every write is complete. The descriptors are
those of a process whose three standard streams are open. -/
def Io.successful : Io where
  loads := true
  opens i := some (i + 3)
  writes _ count := count
  writes_le _ count := Int.le_refl count
  unlinks := true

/-- The write `i`, with whether it was complete and the file afterwards. -/
def Io.append (io : Io) (i : Nat) (file data : List UInt8) : Bool × List UInt8 :=
  (io.writes i data.length = data.length, file ++ data.take (io.writes i data.length).toNat)

/-- What `unlink` leaves of a file: all of it when it fails, in a read-only
directory for one. -/
def Io.unlink (io : Io) (file : Option (List UInt8)) : Option (List UInt8) :=
  if io.unlinks = true then none else file

/-- The size that `lseek` reports, as the `int` it is stored in. -/
def fileSize (file : List UInt8) : Int := toInt32 (file.length % 2 ^ 32)

/-- The bytes of the file, padded to a multiple of 16. A size that does not
leave room for the padding in an `int` is not loaded. -/
def loadPadded (io : Io) (file : List UInt8) : Option (List UInt8) :=
  let sz := fileSize file
  if io.loads = false ∨ sz < 0 ∨ 2 ^ 31 ≤ sz + 15 then none
  else
    let psz := (sz + 15) / 16 * 16
    some (file.take sz.toNat ++ List.replicate (psz - sz).toNat 0)

/-- The image header: magic number, version, payload hash, no load address,
and the size. -/
def sysImgHeader (mPayloadHash : List UInt8) (mImgSize : Nat) : List UInt8 :=
  encode 4 0x42544844 ++ encode 4 1 ++ mPayloadHash ++ List.replicate 8 0 ++
    encode 4 mImgSize ++ List.replicate 460 0

/-- `FILE_NAME_SIZE`, the size of the arrays for names. -/
def fileNameSize : Nat := 2048

/-- The size of the array `suffix`. -/
def suffixSize : Nat := 10

/-- The name of the image: `-sign` goes before the suffix, from the last
point on. A name without a point has none. The copies into the arrays take a
terminating zero with them. -/
def imageName (filename : List Char) : Except Fault (Option (List Char)) :=
  if fileNameSize < filename.length + 1 then .error .overrun
  else
    let suffix := filename.reverse.takeWhile (· ≠ '.')
    if suffix.length = filename.length then .ok none
    else if suffixSize < suffix.length + 2 then .error .overrun
    else
      let start := filename.take (filename.length - suffix.length - 1)
      let name := start ++ "-sign".toList ++ ['.'] ++ suffix.reverse
      if fileNameSize < name.length + 1 then .error .overrun else .ok (some name)

/-- A digest of the `mincrypt` library, as long as `mPayloadHash`. -/
def Digest : Type := { hash : List UInt8 // hash.length = 32 }

/-- What a run leaves: the exit status, the file it read and the image it
wrote. -/
structure InsertResult where
  status : Int
  original : List UInt8
  image : Option (List UInt8)
  deriving DecidableEq

/-- The run over a file and the image of an earlier run. Every failure once
the file has been loaded ends in `unlink`, also where the image could not be
opened and is still that of the earlier run. -/
def imgheaderinsert (io : Io) (doSha256 : List UInt8 → Digest) (addPayloadHash : Int)
    (filename : List Char) (file : List UInt8) (earlier : Option (List UInt8)) :
    Except Fault InsertResult := do
  match ← imageName filename, loadPadded io file with
  | some _, some payload =>
      let mPayloadHash :=
        if addPayloadHash = 1 then (doSha256 payload).val else List.replicate 32 0
      if io.opens 0 = none then return ⟨1, file, io.unlink earlier⟩
      else if io.opens 1 = none then return ⟨1, file, io.unlink (some [])⟩
      else
        let (complete, original) := io.append 0 [] payload
        if complete = false then return ⟨1, original, io.unlink (some [])⟩
        else
          let (complete, image) := io.append 1 [] (sysImgHeader mPayloadHash payload.length)
          if complete = false then return ⟨1, original, io.unlink (some image)⟩
          else
            let (complete, image) := io.append 2 image payload
            if complete = false then return ⟨1, original, io.unlink (some image)⟩
            else return ⟨0, original, some image⟩
  | _, _ => return ⟨1, file, earlier⟩

end SignImage
