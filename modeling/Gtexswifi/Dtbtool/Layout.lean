import Gtexswifi.Dtbtool.MasterDtb

/-! The layout of the master DTB: both passes agree on where each device
tree stands. -/
namespace Dtbtool

open Radix

/-- A device tree with its padding. -/
def paddedDtb (page : PageSize) (dtbFile : List UInt8) : List UInt8 :=
  dtbFile ++ List.replicate (page.size - dtbFile.length % page.size) 0

theorem length_paddedDtb (page : PageSize) (dtbFile : List UInt8) :
    (paddedDtb page dtbFile).length = paddedSize page dtbFile.length := by
  rw [paddedDtb, List.length_append, List.length_replicate, paddedSize]

/-- A size and its padding make up whole pages. -/
theorem dvd_paddedSize (page : PageSize) (size : Nat) : page.size ∣ paddedSize page size := by
  have hRest := Nat.mod_lt size page.pos
  have hWhole : paddedSize page size = page.size * (size / page.size + 1) := by
    have hDiv := Nat.div_add_mod size page.size
    rw [paddedSize, Nat.mul_add, Nat.mul_one]
    omega
  rw [hWhole]
  exact Nat.dvd_mul_right _ _

/-- The masters in `seen` have been written, and nothing else of the masters
has changed. -/
structure Copying (names : List Nat) (before : Nat → Master) (seen : List Nat) (w : Writer) :
    Prop where
  dtbFile : ∀ r ∈ names, (w.masters r).dtbFile = (before r).dtbFile
  dtbSize : ∀ r ∈ names, (w.masters r).dtbSize = (before r).dtbSize
  wroteDtb : ∀ r ∈ names, (w.masters r).wroteDtb = true ↔ r ∈ seen
  counted : w.wrote = w.out.length

section SecondPass

variable {page : PageSize} {names seen : List Nat} {before : Nat → Master} {w : Writer}
  {chip : ChipInfo}

/-- The device tree of a master that has not been written yet. -/
def Writer.copy (page : PageSize) (w : Writer) (r : Nat) : Writer :=
  let master := w.masters r
  let w := { w with masters := Function.update w.masters r { master with wroteDtb := true } }
  (w.write master.dtbFile).write
    (List.replicate (page.size - master.dtbFile.length % page.size) 0)

/-- A copy puts the file with its padding behind what has been written, and
is made once for each file. -/
theorem Copying.copy (h : Copying names before seen w) (page : PageSize) {r : Nat}
    (hMem : r ∈ names) :
    Copying names before (seen ++ [r]) (w.copy page r) ∧
      (w.copy page r).out = w.out ++ paddedDtb page (before r).dtbFile ∧
      (w.copy page r).expected = w.expected := by
  have hFile := h.dtbFile r hMem
  refine ⟨⟨fun q hq => ?_, fun q hq => ?_, fun q hq => ?_, ?_⟩, ?_, rfl⟩
  · by_cases hSame : q = r
    · subst hSame
      simp only [Writer.copy, Writer.write, Function.update_self, hFile]
    · simp only [Writer.copy, Writer.write, Function.update_of_ne hSame, h.dtbFile q hq]
  · by_cases hSame : q = r
    · subst hSame
      simp only [Writer.copy, Writer.write, Function.update_self, h.dtbSize q hq]
    · simp only [Writer.copy, Writer.write, Function.update_of_ne hSame, h.dtbSize q hq]
  · by_cases hSame : q = r
    · subst hSame
      simp [Writer.copy, Writer.write]
    · simp [Writer.copy, Writer.write, h.wroteDtb q hq, hSame]
  · simp only [Writer.copy, Writer.write, h.counted, List.length_append, Nat.add_assoc]
  · simp only [Writer.copy, Writer.write, hFile, paddedDtb, List.append_assoc]

/-- The row of a file that has not been written copies it, where its size is
the one that was announced. -/
theorem writeDtbs_unwritten (h : (w.masters chip.master).wroteDtb = false)
    (hSize : paddedSize page (w.masters chip.master).dtbFile.length % 2 ^ 32 =
      (w.masters chip.master).dtbSize) (next : List ChipInfo) :
    writeDtbs page w (chip :: next) = writeDtbs page (w.copy page chip.master) next := by
  have hSame : ¬((w.masters chip.master).dtbFile.length + (page.size -
      (w.masters chip.master).dtbFile.length % page.size)) % 2 ^ 32 ≠
        (w.masters chip.master).dtbSize := not_not.mpr hSize
  rw [writeDtbs]
  simp only [h, Bool.false_eq_true, if_false, if_neg hSame]
  rfl

/-- The second pass writes the regions in the order in which the masters
first appear. -/
theorem writeDtbs_spec (h : Copying names before seen w) {chips : List ChipInfo}
    (hMem : ∀ chip ∈ chips, chip.master ∈ names)
    (hSize : ∀ r ∈ names, paddedSize page (before r).dtbFile.length % 2 ^ 32 = (before r).dtbSize)
    {front : List UInt8}
    (hOut : w.out = front ++ seen.flatMap fun r => paddedDtb page (before r).dtbFile) :
    ∃ w', writeDtbs page w chips = (rcSuccess, w') ∧ w'.wrote = w'.out.length ∧
      w'.expected = w.expected ∧
      w'.out = front ++ (Regions.firsts seen (chips.map ChipInfo.master)).flatMap fun r =>
        paddedDtb page (before r).dtbFile := by
  induction chips generalizing seen w with
  | nil => exact ⟨w, rfl, h.counted, rfl, hOut⟩
  | cons chip rest ih =>
      have hHere := hMem chip List.mem_cons_self
      have hRest : ∀ other ∈ rest, other.master ∈ names :=
        fun other hOther => hMem other (List.mem_cons_of_mem chip hOther)
      rw [List.map_cons]
      by_cases hSeen : chip.master ∈ seen
      · rw [Regions.firsts_cons_of_mem hSeen, writeDtbs]
        simp only [(h.wroteDtb _ hHere).mpr hSeen, if_true]
        exact ih h hRest hOut
      · have hUnwritten : (w.masters chip.master).wroteDtb = false :=
          Bool.eq_false_iff.mpr (mt (h.wroteDtb _ hHere).mp hSeen)
        have hFits := hSize _ hHere
        rw [← h.dtbFile _ hHere, ← h.dtbSize _ hHere] at hFits
        rw [Regions.firsts_cons_of_not_mem hSeen, writeDtbs_unwritten hUnwritten hFits]
        obtain ⟨hCopied, hOut', hExpected⟩ := h.copy page hHere
        rw [← hExpected]
        apply ih hCopied hRest
        rw [hOut', hOut, List.flatMap_append, List.flatMap_singleton, List.append_assoc]

end SecondPass

/-- The masters of the table in the order in which they first appear. -/
def masterOrder (s : Scan) : List Nat := Regions.firsts [] (s.chipList.map ChipInfo.master)

/-- The size of the region of a master. -/
def regionSize (page : PageSize) (s : Scan) (r : Nat) : Nat :=
  paddedSize page (s.masters r).dtbFile.length

/-- The size of the whole output: table and regions. -/
def outputSize (page : PageSize) (s : Scan) : Nat :=
  paddedSize page (tableEnd s.dtbCount) + Regions.total (regionSize page s) (masterOrder s)

/-- What a master DTB is to be, with the rows of its index table. -/
structure MasterDtb (page : PageSize) (dir : List DirEntry) (file : List UInt8)
    (rows : List Row) : Prop where
  header : ∃ rest, file = qcdtMagic ++ encode 4 qcdtVersion ++ encode 4 rows.length ++
    rows.flatMap Row.bytes ++ encode 4 0 ++ rest
  count : rows.length < 2 ^ 32
  table : rows.map (fun row => ⟨row.id, row.master⟩) = (scan page dir).chipList
  increasing : rows.Pairwise fun a b => a.id.precedes b.id = true
  aligned : ∀ row ∈ rows, page.size ∣ row.offset ∧ page.size ∣ row.size
  inside : ∀ row ∈ rows, row.offset + row.size ≤ file.length ∧ row.offset + row.size < 2 ^ 32
  region : ∀ row ∈ rows, ∃ entry padding, dir[row.master]? = some entry ∧
    row.id ∈ entry.declares ∧
    (file.drop row.offset).take row.size = entry.content ++ List.replicate padding 0
  shared : ∀ a ∈ rows, ∀ b ∈ rows, a.master = b.master → a.offset = b.offset ∧ a.size = b.size
  disjoint : ∀ a ∈ rows, ∀ b ∈ rows, a.master ≠ b.master →
    a.offset + a.size ≤ b.offset ∨ b.offset + b.size ≤ a.offset

section Output

variable {page : PageSize} {dir : List DirEntry}

/-- The size and the content that a row refers to are those of a file in the
directory. -/
theorem master_of_mem {r : Nat}
    (h : r ∈ (scan page dir).chipList.map ChipInfo.master) :
    ∃ entry, dir[r]? = some entry ∧ (scan page dir).masters r = entry.master page := by
  obtain ⟨x, hx, rfl⟩ := List.mem_map.mp h
  obtain ⟨entry, hAt, -, hMaster⟩ := scan_describes page dir x hx
  exact ⟨entry, hAt, hMaster⟩

theorem mem_masterOrder {s : Scan} {r : Nat} :
    r ∈ masterOrder s ↔ r ∈ s.chipList.map ChipInfo.master := by
  rw [masterOrder, Regions.mem_firsts]
  exact or_iff_right List.not_mem_nil

/-- The size that a master of the table tells is that of its region, unless
it is truncated. -/
theorem dtbSize_eq (hSize : outputSize page (scan page dir) < 2 ^ 32) {r : Nat}
    (h : r ∈ masterOrder (scan page dir)) :
    ((scan page dir).masters r).dtbSize = regionSize page (scan page dir) r := by
  obtain ⟨entry, -, hMaster⟩ := master_of_mem (mem_masterOrder.mp h)
  have hTotal := Regions.size_le_total (regionSize page (scan page dir)) h
  rw [outputSize] at hSize
  have hFits : regionSize page (scan page dir) r < 2 ^ 32 := by omega
  rw [regionSize, hMaster] at hFits ⊢
  exact Nat.mod_eq_of_lt hFits

/-- The rows that the first pass writes. -/
def tableRows (page : PageSize) (s : Scan) : List Row :=
  s.chipList.map (rowOf (paddedSize page (tableEnd s.dtbCount)) (regionSize page s)
    (masterOrder s))

/-- The rows depend on the sizes of the files that are laid out, and on no
others. -/
theorem rows_congr {s : Scan} {size : Nat → Nat}
    (h : ∀ r ∈ masterOrder s, size r = regionSize page s r) :
    s.chipList.map (rowOf (paddedSize page (tableEnd s.dtbCount)) size (masterOrder s)) =
      tableRows page s := by
  apply List.map_congr_left
  intro chip hChip
  have hMem : chip.master ∈ masterOrder s :=
    mem_masterOrder.mpr (List.mem_map_of_mem hChip)
  rw [rowOf, rowOf, Regions.start_congr h, h _ hMem]

theorem length_rows (rows : List Row) : (rows.flatMap Row.bytes).length = 20 * rows.length := by
  induction rows with
  | nil => rfl
  | cons row rest ih =>
      rw [List.flatMap_cons, List.length_append, ih, row.length_bytes, List.length_cons]
      omega

/-- The bytes in front of the regions. -/
def frontBytes (page : PageSize) (s : Scan) : List UInt8 :=
  qcdtMagic ++ encode 4 qcdtVersion ++ encode 4 s.dtbCount ++
    (tableRows page s).flatMap Row.bytes ++ encode 4 0 ++
    List.replicate (page.size - tableEnd s.dtbCount % page.size) 0

theorem length_frontBytes {s : Scan} (h : s.WellFormed) :
    (frontBytes page s).length = paddedSize page (tableEnd s.dtbCount) := by
  have hRows : (tableRows page s).length = s.dtbCount := by
    rw [tableRows, List.length_map, h.counted]
  simp only [frontBytes, List.length_append, length_rows, hRows, length_encode,
    List.length_replicate, paddedSize, tableEnd, qcdtMagic, List.length_cons, List.length_nil]

/-- All regions in their order. -/
def regionBytes (page : PageSize) (s : Scan) : List UInt8 :=
  (masterOrder s).flatMap fun r => paddedDtb page (s.masters r).dtbFile

theorem length_regionBytes (page : PageSize) (s : Scan) :
    (regionBytes page s).length = Regions.total (regionSize page s) (masterOrder s) := by
  rw [regionBytes, Regions.length_flatMap]
  exact Regions.total_congr fun r _ => length_paddedDtb page _

/-- In front of the device trees, every master of the table has its region
assigned. -/
theorem writeTable_spec (hSize : outputSize page (scan page dir) < 2 ^ 32) :
    Copying ((scan page dir).chipList.map ChipInfo.master) (scan page dir).masters []
        (writeTable page (scan page dir)) ∧
      (writeTable page (scan page dir)).out = frontBytes page (scan page dir) ∧
      (writeTable page (scan page dir)).expected = outputSize page (scan page dir) := by
  have hDtbSize {r : Nat} (hr : r ∈ masterOrder (scan page dir)) := dtbSize_eq hSize hr
  have hMaster {r : Nat} (hr : r ∈ (scan page dir).chipList.map ChipInfo.master) :=
    master_of_mem hr
  have hRows := rows_congr fun r hr => hDtbSize hr
  have hTotal := Regions.total_congr fun r hr => hDtbSize hr
  generalize scan page dir = s at *
  have hBase : 0 < paddedSize page (tableEnd s.dtbCount) := by
    unfold paddedSize tableEnd
    omega
  have hStart : Indexed (s.chipList.map ChipInfo.master) (paddedSize page (tableEnd s.dtbCount))
      s.masters [] ((((⟨s.masters, [], 0, paddedSize page (tableEnd s.dtbCount)⟩ : Writer).write
        qcdtMagic).write (encode 4 qcdtVersion)).write (encode 4 s.dtbCount)) := by
    refine ⟨fun r hr => ?_, rfl, ?_⟩
    · obtain ⟨entry, -, hEntry⟩ := hMaster hr
      simp only [Writer.write, hEntry, DirEntry.master, List.not_mem_nil, if_false]
    · simp only [Writer.write, List.length_append, List.nil_append, Nat.zero_add]
  obtain ⟨hIndexed, hOut⟩ := foldl_writeRow hStart hBase s.chipList
    (fun chip hChip => List.mem_map_of_mem hChip) (by rw [← masterOrder, hTotal]; exact hSize)
  rw [← masterOrder, hRows] at hOut
  have hExpected := hIndexed.expected
  rw [← masterOrder, hTotal] at hExpected
  refine ⟨⟨fun r hr => ?_, fun r hr => ?_, fun r hr => ?_, ?_⟩, ?_, hExpected⟩
  · have hFile := congrArg Master.dtbFile (hIndexed.masters r hr)
    exact hFile
  · have hTold := congrArg Master.dtbSize (hIndexed.masters r hr)
    exact hTold
  · obtain ⟨entry, -, hEntry⟩ := hMaster hr
    have hWrote := congrArg Master.wroteDtb (hIndexed.masters r hr)
    have hUnwritten : ((writeTable page s).masters r).wroteDtb = (s.masters r).wroteDtb := hWrote
    rw [hUnwritten, hEntry]
    exact iff_of_false Bool.false_ne_true List.not_mem_nil
  · have hCounted := hIndexed.counted
    simp only [writeTable, Writer.write, List.length_append]
    exact congrArg (· + _ + _) hCounted
  · have hBytes := congrArg (fun out => out ++ encode 4 0 ++
      List.replicate (page.size - tableEnd s.dtbCount % page.size) 0) hOut
    exact hBytes

/-- The run writes table and regions, and as many bytes as it expects to. -/
theorem combine_eq (hCount : (scan page dir).dtbCount ≠ 0)
    (hSize : outputSize page (scan page dir) < 2 ^ 32) (earlier : Option (List UInt8)) :
    combine page dir earlier =
      ⟨rcSuccess, some (frontBytes page (scan page dir) ++ regionBytes page (scan page dir) ++
          (earlier.getD []).drop (outputSize page (scan page dir))),
        outputSize page (scan page dir), outputSize page (scan page dir)⟩ := by
  obtain ⟨hCopying, hFront, hExpected⟩ := writeTable_spec hSize
  have hFits : ∀ r ∈ (scan page dir).chipList.map ChipInfo.master,
      paddedSize page ((scan page dir).masters r).dtbFile.length % 2 ^ 32 =
        ((scan page dir).masters r).dtbSize := by
    intro r hr
    obtain ⟨entry, -, hEntry⟩ := master_of_mem hr
    rw [hEntry]
    rfl
  obtain ⟨w, hRun, hWrote, hMet, hOut⟩ := writeDtbs_spec hCopying
    (fun chip hChip => List.mem_map_of_mem hChip) hFits (List.append_nil _).symm
  have hWhole : w.out = frontBytes page (scan page dir) ++ regionBytes page (scan page dir) := by
    rw [hOut, hFront]
    rfl
  have hLength : w.out.length = outputSize page (scan page dir) := by
    rw [hWhole, List.length_append, length_frontBytes (scan_wellFormed page dir),
      length_regionBytes]
    rfl
  rw [hExpected] at hMet
  rw [hLength] at hWrote
  simp only [combine, if_neg hCount, hRun, hMet, hWrote, hLength, ne_eq, not_true_eq_false,
    if_false]
  rw [hWhole]

/-- The bytes of a region, in the file as in the sequence of regions. -/
theorem slice_region (behind : List UInt8) {r : Nat} (h : r ∈ masterOrder (scan page dir)) :
    ((frontBytes page (scan page dir) ++ regionBytes page (scan page dir) ++ behind).drop
        (paddedSize page (tableEnd (scan page dir).dtbCount) +
          Regions.start (regionSize page (scan page dir)) (masterOrder (scan page dir)) r)).take
      (regionSize page (scan page dir) r) =
        paddedDtb page ((scan page dir).masters r).dtbFile := by
  have hSizes : ∀ q ∈ masterOrder (scan page dir), regionSize page (scan page dir) q =
      (paddedDtb page ((scan page dir).masters q).dtbFile).length :=
    fun q _ => (length_paddedDtb page _).symm
  have hInside := Regions.start_add_size_le (regionSize page (scan page dir)) h
  rw [← length_regionBytes] at hInside
  rw [← length_frontBytes (scan_wellFormed page dir), List.append_assoc, ← List.drop_drop,
    List.drop_left, List.drop_append_of_le_length (by omega),
    List.take_append_of_le_length (by rw [List.length_drop]; omega), hSizes r h,
    Regions.start_congr hSizes]
  exact Regions.slice_flatMap (fun q => paddedDtb page ((scan page dir).masters q).dtbFile) h

/-- Each row of the table is that of a chip of the list, for a file that is
laid out. -/
theorem mem_tableRows {row : Row} (h : row ∈ tableRows page (scan page dir)) :
    ∃ chip ∈ (scan page dir).chipList, row.master ∈ masterOrder (scan page dir) ∧
      row = rowOf (paddedSize page (tableEnd (scan page dir).dtbCount))
        (regionSize page (scan page dir)) (masterOrder (scan page dir)) chip := by
  obtain ⟨chip, hChip, rfl⟩ := List.mem_map.mp h
  exact ⟨chip, hChip, mem_masterOrder.mpr (List.mem_map_of_mem hChip), rfl⟩

/-- Table and regions make up a master DTB, whatever stands behind them. -/
theorem masterDtb_combined (hSize : outputSize page (scan page dir) < 2 ^ 31)
    (behind : List UInt8) :
    MasterDtb page dir
      (frontBytes page (scan page dir) ++ regionBytes page (scan page dir) ++ behind)
      (tableRows page (scan page dir)) where
  header := by
    have hRows : (tableRows page (scan page dir)).length = (scan page dir).dtbCount := by
      rw [tableRows, List.length_map, (scan_wellFormed page dir).counted]
    refine ⟨List.replicate (page.size - tableEnd (scan page dir).dtbCount % page.size) 0 ++
      (regionBytes page (scan page dir) ++ behind), ?_⟩
    rw [hRows, frontBytes]
    simp only [List.append_assoc]
  count := by
    have hEnd : (scan page dir).dtbCount < 2 ^ 32 := by
      unfold outputSize paddedSize tableEnd at hSize
      omega
    rw [tableRows, List.length_map, ← (scan_wellFormed page dir).counted]
    exact hEnd
  table := by
    rw [tableRows, List.map_map]
    exact List.map_id _
  increasing := by
    apply List.pairwise_map.mpr
    exact (scan_wellFormed page dir).sorted.imp fun hLess => ChipId.precedes_iff.mpr hLess
  aligned := by
    intro row hRow
    obtain ⟨chip, -, -, rfl⟩ := mem_tableRows hRow
    exact ⟨Nat.dvd_add (dvd_paddedSize page _)
      (Regions.dvd_start fun q _ => dvd_paddedSize page _), dvd_paddedSize page _⟩
  inside := by
    intro row hRow
    obtain ⟨chip, -, hMem, rfl⟩ := mem_tableRows hRow
    have hInside := Regions.start_add_size_le (regionSize page (scan page dir)) hMem
    rw [List.length_append, List.length_append, length_frontBytes (scan_wellFormed page dir),
      length_regionBytes]
    simp only [rowOf, outputSize] at hInside hSize ⊢
    omega
  region := by
    intro row hRow
    obtain ⟨chip, hChip, hMem, rfl⟩ := mem_tableRows hRow
    obtain ⟨entry, hAt, hId, hMaster⟩ := scan_describes page dir chip hChip
    refine ⟨entry, page.size - entry.content.length % page.size, hAt, hId, ?_⟩
    have hSlice := slice_region behind hMem
    simp only [rowOf, hMaster] at hSlice ⊢
    exact hSlice
  shared := by
    intro a ha b hb hSame
    obtain ⟨chip, -, -, rfl⟩ := mem_tableRows ha
    obtain ⟨chip', -, -, rfl⟩ := mem_tableRows hb
    simp only [rowOf] at hSame ⊢
    rw [hSame]
    exact ⟨rfl, rfl⟩
  disjoint := by
    intro a ha b hb hOther
    obtain ⟨chip, -, hMem, rfl⟩ := mem_tableRows ha
    obtain ⟨chip', -, hMem', rfl⟩ := mem_tableRows hb
    have hApart := Regions.disjoint (regionSize page (scan page dir)) hMem hMem' hOther
    simp only [rowOf] at hApart ⊢
    omega

theorem count_ne_zero (h : ∃ entry ∈ dir, entry.declares ≠ []) : (scan page dir).dtbCount ≠ 0 := by
  obtain ⟨entry, hEntry, hDeclares⟩ := h
  cases hFirst : entry.declares with
  | nil => exact absurd hFirst hDeclares
  | cons id rest =>
      have hHead : entry.declares.head? = some id := by rw [hFirst]; rfl
      have hKey := first_mem_keys page hEntry hHead
      have hLength := List.length_pos_of_mem hKey
      rw [Scan.keys, List.length_map, ← (scan_wellFormed page dir).counted] at hLength
      exact hLength.ne'

/-- For every directory with something to put into the table, a run with
less than 2 GiB to write ends with success and a master DTB, and has written
as many bytes as expected. -/
theorem master_dtb_layout (page : PageSize) (dir : List DirEntry)
    (earlier : Option (List UInt8)) (hDeclares : ∃ entry ∈ dir, entry.declares ≠ [])
    (hSize : outputSize page (scan page dir) < 2 ^ 31) :
    ∃ file rows, combine page dir earlier = ⟨rcSuccess, some file,
        outputSize page (scan page dir), outputSize page (scan page dir)⟩ ∧
      MasterDtb page dir file rows :=
  ⟨_, _, combine_eq (count_ne_zero hDeclares) (by omega) earlier, masterDtb_combined hSize _⟩

/-- Two files, one of which shares its region between two boards. -/
theorem master_dtb_layout_boards : ∃ file rows,
    combine .default [boardBoth, dtbOf "zero.dtb" "sprd,sc-id = <0x0 0x7 0x0>;"] none =
      ⟨rcSuccess, some file, 6144, 6144⟩ ∧
      MasterDtb .default [boardBoth, dtbOf "zero.dtb" "sprd,sc-id = <0x0 0x7 0x0>;"] file rows := by
  have hOutput : outputSize .default (scan .default
      [boardBoth, dtbOf "zero.dtb" "sprd,sc-id = <0x0 0x7 0x0>;"]) = 6144 := by
    decide +kernel
  have hLayout := master_dtb_layout .default
    [boardBoth, dtbOf "zero.dtb" "sprd,sc-id = <0x0 0x7 0x0>;"] none
    ⟨boardBoth, List.mem_cons_self, by decide +kernel⟩ (by rw [hOutput]; decide)
  rw [hOutput] at hLayout
  exact hLayout

end Output

end Dtbtool
