import Gtexswifi.Dtbtool.Layout

/-! The second half of `dtbtool` with calls that fail or are cut short: the
open of the output file, every write to it, and the open and the reads of
every device tree. -/
namespace Dtbtool

open Radix

/-- What a `write` does. One that is cut short still has a byte left to
write. -/
inductive WriteOutcome
  | complete
  | short (n : Nat)
  | fails
  deriving DecidableEq, Repr

/-- What the operating system answers: whether the output file can be
opened, what the writes do, by their order, and for each file what its
`fread`s return up to the one that returns zero, unless it cannot be opened. -/
structure Io where
  opens : Bool
  writes : Nat → WriteOutcome
  reads : Nat → Option (List Nat)

/-- Writes to a file that could not be opened fail. -/
def Io.outcome (io : Io) (call : Nat) : WriteOutcome :=
  if io.opens = true then io.writes call else .fails

/-- `COPY_BLK`. -/
def copyBlk : Nat := 1024

/-- The variables of the writing part. `wrote` is the sum of what the writes
return. -/
structure IoWriter where
  masters : Nat → Master
  out : List UInt8
  wrote : Int
  expected : Nat
  calls : Nat

variable (io : Io)

def IoWriter.write (w : IoWriter) (bytes : List UInt8) : IoWriter :=
  match io.outcome w.calls with
  | .complete =>
      { w with out := w.out ++ bytes, wrote := w.wrote + bytes.length, calls := w.calls + 1 }
  | .short n =>
      { w with
        out := w.out ++ bytes.take (min n (bytes.length - 1))
        wrote := w.wrote + min n (bytes.length - 1)
        calls := w.calls + 1 }
  | .fails => { w with wrote := w.wrote - 1, calls := w.calls + 1 }

/-- One row of the index table. -/
def IoWriter.writeRow (w : IoWriter) (chip : ChipInfo) : IoWriter :=
  let w := ((w.write io (encode 4 chip.id.chipset.toNat)).write io
    (encode 4 chip.id.platform.toNat)).write io (encode 4 chip.id.revNum.toNat)
  let master := w.masters chip.master
  let w :=
    if master.masterOffset ≠ 0 then w.write io (encode 4 master.masterOffset)
    else
      { w.write io (encode 4 w.expected) with
        masters := Function.update w.masters chip.master
          { master with masterOffset := w.expected % 2 ^ 32 }
        expected := w.expected + master.dtbSize }
  w.write io (encode 4 (w.masters chip.master).dtbSize)

/-- What is written in front of the device trees. -/
def IoWriter.writeTable (page : PageSize) (s : Scan) : IoWriter :=
  let padding := page.size - tableEnd s.dtbCount % page.size
  let w : IoWriter := ⟨s.masters, [], 0, tableEnd s.dtbCount + padding, 0⟩
  let w := ((w.write io qcdtMagic).write io (encode 4 qcdtVersion)).write io (encode 4 s.dtbCount)
  let w := s.chipList.foldl (IoWriter.writeRow io) w
  (w.write io (encode 4 0)).write io (List.replicate padding 0)

/-- The pieces of a file that its `fread`s deliver. -/
def freads : List UInt8 → List Nat → List (List UInt8)
  | _, [] => []
  | content, n :: results =>
      let piece := content.take (min n copyBlk)
      if piece = [] then [] else piece :: freads (content.drop piece.length) results

/-- The device trees. A file that cannot be opened or has another size ends
the loop. `totBytesRead` and `padding` are of type `int` in the source, and
their sum is not defined from 2 GiB on: what is proved of a run asks for an
output below that size. -/
def IoWriter.writeDtbs (page : PageSize) : IoWriter → List ChipInfo → Int × IoWriter
  | w, [] => (rcSuccess, w)
  | w, chip :: next =>
      let master := w.masters chip.master
      if master.wroteDtb = true then writeDtbs page w next
      else
        let w := { w with
          masters := Function.update w.masters chip.master { master with wroteDtb := true } }
        match io.reads chip.master with
        | none => (rcError, w)
        | some results =>
            let pieces := freads master.dtbFile results
            let w := pieces.foldl (IoWriter.write io) w
            let totBytesRead := pieces.flatten.length
            let padding := page.size - totBytesRead % page.size
            if (totBytesRead + padding) % 2 ^ 32 ≠ master.dtbSize then (rcError, w)
            else writeDtbs page (w.write io (List.replicate padding 0)) next

/-- `main` behind the command line: the exit status, and the output file
unless it was unlinked. The file is opened without `O_TRUNC`, and the counts
are of 64 bits. -/
def combineIo (page : PageSize) (dir : List DirEntry) (earlier : Option (List UInt8)) :
    Int × Option (List UInt8) :=
  let s := scan page dir
  if s.dtbCount = 0 then (s.rc, earlier)
  else
    let (rc, w) := IoWriter.writeDtbs io page (IoWriter.writeTable io page s) s.chipList
    let rc := if (w.expected : Int) % 2 ^ 64 ≠ w.wrote % 2 ^ 64 then rcError else rc
    let file := if io.opens = true then some (w.out ++ (earlier.getD []).drop w.out.length)
      else earlier
    (rc, if rc ≠ rcSuccess then none else file)

end Dtbtool
