import Gtexswifi.Dtbtool.Scan
import Gtexswifi.Library.Radix
import Gtexswifi.Library.Regions

/-! The second half of `dtbtool`: the master DTB, with an index table that
is written in one pass over the list of chips and the device trees in a
second one. -/
namespace Dtbtool

open Radix

/-- `QCDT_MAGIC`. -/
def qcdtMagic : List UInt8 := [0x53, 0x50, 0x52, 0x44]

/-- `QCDT_VERSION`. -/
def qcdtVersion : Nat := 1

/-- The variables of the writing part: the fields of the first nodes, what
the output file has got and its count in `wrote`, and the count to be met. -/
structure Writer where
  masters : Nat → Master
  out : List UInt8
  wrote : Nat
  expected : Nat

/-- A complete `write`. -/
def Writer.write (w : Writer) (bytes : List UInt8) : Writer :=
  { w with out := w.out ++ bytes, wrote := w.wrote + bytes.length }

/-- One row of the index table. The first row of a master settles its
offset. -/
def writeRow (w : Writer) (chip : ChipInfo) : Writer :=
  let w := ((w.write (encode 4 chip.id.chipset.toNat)).write
    (encode 4 chip.id.platform.toNat)).write (encode 4 chip.id.revNum.toNat)
  let master := w.masters chip.master
  let w :=
    if master.masterOffset ≠ 0 then w.write (encode 4 master.masterOffset)
    else
      { w.write (encode 4 w.expected) with
        masters := Function.update w.masters chip.master
          { master with masterOffset := w.expected % 2 ^ 32 }
        expected := w.expected + master.dtbSize }
  w.write (encode 4 (w.masters chip.master).dtbSize)

/-- The device trees. A size that has changed ends the loop with an error.
The sum of `totBytesRead` and `padding` is an `int`, which holds it as long
as the output is below 2 GiB. -/
def writeDtbs (page : PageSize) : Writer → List ChipInfo → Int × Writer
  | w, [] => (rcSuccess, w)
  | w, chip :: next =>
      let master := w.masters chip.master
      if master.wroteDtb = true then writeDtbs page w next
      else
        let w := { w with
          masters := Function.update w.masters chip.master { master with wroteDtb := true } }
        -- the blocks of `COPY_BLK` bytes make up the whole file
        let w := w.write master.dtbFile
        let padding := page.size - master.dtbFile.length % page.size
        if (master.dtbFile.length + padding) % 2 ^ 32 ≠ master.dtbSize then (rcError, w)
        else writeDtbs page (w.write (List.replicate padding 0)) next

/-- What a run leaves: the exit status, the output file unless it was
unlinked, and the two counts that are compared. -/
structure Combined where
  rc : Int
  output : Option (List UInt8)
  wrote : Nat
  expected : Nat

/-- Where the index table with its header and end ends. -/
def tableEnd (dtbCount : Nat) : Nat := 12 + 20 * dtbCount + 4

/-- What is written in front of the device trees: the header, the rows, the
end of the table and zeros up to the next page. -/
def writeTable (page : PageSize) (s : Scan) : Writer :=
  let padding := page.size - tableEnd s.dtbCount % page.size
  let w : Writer := ⟨s.masters, [], 0, tableEnd s.dtbCount + padding⟩
  let w := ((w.write qcdtMagic).write (encode 4 qcdtVersion)).write (encode 4 s.dtbCount)
  let w := s.chipList.foldl writeRow w
  (w.write (encode 4 0)).write (List.replicate padding 0)

/-- A run over the files of a directory, with an output file that is there
already. -/
def combine (page : PageSize) (dir : List DirEntry) (earlier : Option (List UInt8)) : Combined :=
  let s := scan page dir
  if s.dtbCount = 0 then ⟨s.rc, earlier, 0, 0⟩
  else
    let (rc, w) := writeDtbs page (writeTable page s) s.chipList
    let rc := if w.expected ≠ w.wrote then rcError else rc
    let file := w.out ++ (earlier.getD []).drop w.out.length
    ⟨rc, if rc ≠ rcSuccess then none else some file, w.wrote, w.expected⟩

/-- A row of the index table. The pointer to the master is not written. -/
structure Row where
  id : ChipId
  master : Nat
  offset : Nat
  size : Nat

def Row.bytes (row : Row) : List UInt8 :=
  encode 4 row.id.chipset.toNat ++ encode 4 row.id.platform.toNat ++
    encode 4 row.id.revNum.toNat ++ encode 4 row.offset ++ encode 4 row.size

theorem Row.length_bytes (row : Row) : row.bytes.length = 20 := by
  simp only [bytes, List.length_append, length_encode]

/-- The row of a chip when the regions of the masters in `order` start at
`base`. -/
def rowOf (base : Nat) (size : Nat → Nat) (order : List Nat) (chip : ChipInfo) : Row where
  id := chip.id
  master := chip.master
  offset := base + Regions.start size order chip.master
  size := size chip.master

/-- The masters seen after another chip. -/
def seenAfter (seen : List Nat) (r : Nat) : List Nat := if r ∈ seen then seen else seen ++ [r]

/-- The next row adds its file to those that have been seen, or not. -/
theorem firsts_cons (seen : List Nat) (r : Nat) (rest : List Nat) :
    Regions.firsts seen (r :: rest) = Regions.firsts (seenAfter seen r) rest := rfl

/-- What the first pass has settled when the masters in `seen` have come up:
the offset of each is that of its region, and the others are not settled. -/
structure Indexed (names : List Nat) (base : Nat) (before : Nat → Master) (seen : List Nat)
    (w : Writer) : Prop where
  masters : ∀ r ∈ names, w.masters r = { before r with
    masterOffset := if r ∈ seen then base + Regions.start (fun q => (before q).dtbSize) seen r
      else 0 }
  expected : w.expected = base + Regions.total (fun q => (before q).dtbSize) seen
  counted : w.wrote = w.out.length

section FirstPass

variable {names seen : List Nat} {base : Nat} {before : Nat → Master} {w : Writer}
  {chip : ChipInfo}

/-- A row is written with the offset of its file, which is the next free one
where the file has none. -/
theorem writeRow_out (w : Writer) (chip : ChipInfo) :
    (writeRow w chip).out = w.out ++ Row.bytes ⟨chip.id, chip.master,
      if (w.masters chip.master).masterOffset ≠ 0 then (w.masters chip.master).masterOffset
        else w.expected, (w.masters chip.master).dtbSize⟩ := by
  by_cases hSettled : (w.masters chip.master).masterOffset ≠ 0
  · simp only [writeRow, Writer.write, if_pos hSettled, Row.bytes, List.append_assoc]
  · simp only [writeRow, Writer.write, if_neg hSettled, Row.bytes, List.append_assoc,
      Function.update_self]

theorem writeRow_wrote (w : Writer) (chip : ChipInfo) :
    (writeRow w chip).wrote = w.wrote + 20 := by
  by_cases hSettled : (w.masters chip.master).masterOffset ≠ 0
  · simp only [writeRow, Writer.write, if_pos hSettled, length_encode]
  · simp only [writeRow, Writer.write, if_neg hSettled, length_encode]

/-- A row of a settled master changes nothing else. -/
theorem writeRow_settled (h : (w.masters chip.master).masterOffset ≠ 0) :
    (writeRow w chip).masters = w.masters ∧ (writeRow w chip).expected = w.expected := by
  simp only [writeRow, Writer.write, h, ne_eq, not_false_eq_true, if_true, and_self]

/-- The first row of a file gives it the next free offset, and the size is
put aside for it. -/
theorem writeRow_unsettled (h : (w.masters chip.master).masterOffset = 0) :
    (writeRow w chip).masters = Function.update w.masters chip.master
        { w.masters chip.master with masterOffset := w.expected % 2 ^ 32 } ∧
      (writeRow w chip).expected = w.expected + (w.masters chip.master).dtbSize := by
  simp only [writeRow, Writer.write, h, ne_eq, not_true_eq_false, if_false, and_self]

/-- The row that is written holds the region of its master. -/
theorem writeRow_indexed (h : Indexed names base before seen w) (hMem : chip.master ∈ names)
    (hBase : 0 < base)
    (hBound : base + Regions.total (fun q => (before q).dtbSize) (seenAfter seen chip.master) <
      2 ^ 32) :
    Indexed names base before (seenAfter seen chip.master) (writeRow w chip) ∧
      (writeRow w chip).out = w.out ++ (rowOf base (fun q => (before q).dtbSize)
        (seenAfter seen chip.master) chip).bytes := by
  have hMaster := h.masters chip.master hMem
  have hOut := writeRow_out w chip
  have hCounted : (writeRow w chip).wrote = (writeRow w chip).out.length := by
    rw [writeRow_wrote, hOut, List.length_append, Row.length_bytes, h.counted]
  by_cases hSeen : chip.master ∈ seen
  · rw [if_pos hSeen] at hMaster
    have hSettled : (w.masters chip.master).masterOffset ≠ 0 := by
      rw [hMaster]
      simp only
      omega
    obtain ⟨hMasters, hExpected⟩ := writeRow_settled hSettled
    rw [seenAfter, if_pos hSeen]
    refine ⟨⟨?_, ?_, hCounted⟩, ?_⟩
    · rw [hMasters]
      exact h.masters
    · rw [hExpected, h.expected]
    · rw [hOut, if_pos hSettled, hMaster]
      rfl
  · rw [if_neg hSeen] at hMaster
    have hUnsettled : (w.masters chip.master).masterOffset = 0 := by
      rw [hMaster]
    obtain ⟨hMasters, hExpected⟩ := writeRow_unsettled hUnsettled
    rw [seenAfter, if_neg hSeen] at hBound ⊢
    have hStart := Regions.start_append_self (fun q => (before q).dtbSize) hSeen
    rw [Regions.total_append] at hBound
    refine ⟨⟨fun r hr => ?_, ?_, hCounted⟩, ?_⟩
    · rw [hMasters]
      by_cases hSame : r = chip.master
      · subst hSame
        rw [Function.update_self, hMaster, if_pos (by simp), hStart, h.expected,
          Nat.mod_eq_of_lt (by omega)]
      · rw [Function.update_of_ne hSame, h.masters r hr]
        by_cases hOld : r ∈ seen
        · rw [if_pos hOld, if_pos (List.mem_append_left _ hOld),
            Regions.start_append_of_mem hOld]
        · have hNew : r ∉ seen ++ [chip.master] := by
            simp [hOld, hSame]
          rw [if_neg hOld, if_neg hNew]
    · rw [hExpected, hMaster, h.expected, Regions.total_append, Nat.add_assoc]
      rfl
    · rw [hOut, hUnsettled, if_neg (not_not.mpr rfl), hMaster, rowOf, hStart, h.expected]

/-- The whole table, in which every row holds the final region of its
master. -/
theorem foldl_writeRow (h : Indexed names base before seen w) (hBase : 0 < base)
    (chips : List ChipInfo) (hMem : ∀ chip ∈ chips, chip.master ∈ names)
    (hBound : base + Regions.total (fun q => (before q).dtbSize)
      (Regions.firsts seen (chips.map ChipInfo.master)) < 2 ^ 32) :
    Indexed names base before (Regions.firsts seen (chips.map ChipInfo.master))
        (chips.foldl writeRow w) ∧
      (chips.foldl writeRow w).out = w.out ++ (chips.map (rowOf base
        (fun q => (before q).dtbSize)
          (Regions.firsts seen (chips.map ChipInfo.master)))).flatMap Row.bytes := by
  induction chips generalizing seen w with
  | nil => exact ⟨h, (List.append_nil _).symm⟩
  | cons chip rest ih =>
      rw [List.map_cons, firsts_cons] at hBound ⊢
      have hPrefix := Regions.prefix_firsts (seenAfter seen chip.master)
        (rest.map ChipInfo.master)
      have hTotal : Regions.total (fun q => (before q).dtbSize) (seenAfter seen chip.master) ≤
          Regions.total (fun q => (before q).dtbSize)
            (Regions.firsts (seenAfter seen chip.master) (rest.map ChipInfo.master)) := by
        obtain ⟨more, hMore⟩ := hPrefix
        rw [← hMore, Regions.total_append]
        exact Nat.le_add_right _ _
      have hHere : chip.master ∈ seenAfter seen chip.master := by
        rw [seenAfter]
        split_ifs with hSeen
        · exact hSeen
        · simp
      obtain ⟨hNext, hOut⟩ := writeRow_indexed h (hMem chip List.mem_cons_self) hBase (by omega)
      obtain ⟨hAll, hOutAll⟩ := ih hNext
        (fun other hOther => hMem other (List.mem_cons_of_mem chip hOther)) hBound
      refine ⟨hAll, ?_⟩
      rw [List.foldl_cons, hOutAll, hOut, List.map_cons, List.flatMap_cons, List.append_assoc,
        rowOf, rowOf, Regions.start_of_prefix hPrefix hHere]

end FirstPass

end Dtbtool
