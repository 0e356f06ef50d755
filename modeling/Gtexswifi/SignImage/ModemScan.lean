import Gtexswifi.SignImage.Sign

/-! The scan for the modem block. Entry 0 of the table of a packed image is
its magic, which reads as an image header, so that a scan that comes back to
it never ends. -/
namespace SignImage

open Radix

namespace DataBlockHeader

abbrev IsImage (hdr : DataBlockHeader) : Prop := hdr.typeFlags &&& modemImgHdr ≠ 0

abbrev IsLast (hdr : DataBlockHeader) : Prop := hdr.typeFlags &&& modemLastHdr ≠ 0

/-- Offset and length of the block, without the checksum in front of it. -/
def located (hdr : DataBlockHeader) : Nat × Nat :=
  let offset := if hdr.typeFlags &&& modemSha1Hdr ≠ 0 then hdr.offset + modemSha1Size
    else hdr.offset
  (offset.toNat, hdr.length.toNat)

/-- Where the scan stops, if it has come past the entry before. -/
abbrev Stops (hdr : DataBlockHeader) : Prop := hdr.IsImage ∨ hdr.IsLast

end DataBlockHeader

/-- The entries of the table at the start of the data. -/
def modemTable (data : List UInt8) : List DataBlockHeader :=
  dataBlockHeaders (limbsOfBytes 24 (data.take 96))

/-- `get_modem_info` with at most so many passes of its outer loop. -/
def getModemInfoIn (passes : Nat) (data : List UInt8) : Except Fault (Nat × Nat) := do
  let hdrBuf ← inBounds (Memory.slice data 0 96)
  let table := dataBlockHeaders (limbsOfBytes 24 hdrBuf)
  match ← scanLoop table passes (table.drop 1) 0 with
  | none => return (0, 0)
  | some hdr => return hdr.located

theorem getModemInfo_eq (data : List UInt8) : getModemInfo data = getModemInfoIn 2 data := rfl

/-- Behind the entry it starts from, the scan stops at the first image or
last header, and a last header is not looked at as an image. -/
theorem scanHeaders_cons (hdr : DataBlockHeader) (rest : List DataBlockHeader) :
    scanHeaders (hdr :: rest) =
      if hdr.IsImage then .image hdr
      else match rest.find? (·.Stops) with
        | none => .notFound
        | some stop => if stop.IsLast then .lastHeader else .image stop := by
  induction rest generalizing hdr with
  | nil => rfl
  | cons next rest ih =>
      rw [scanHeaders]
      by_cases hImage : hdr.IsImage
      · rw [if_pos hImage, if_pos hImage]
      · rw [if_neg hImage, if_neg hImage]
        by_cases hLast : next.IsLast
        · simp [hLast]
        · rw [if_neg hLast, ih]
          by_cases hNext : next.IsImage
          · simp [hNext, hLast]
          · simp [hNext, hLast]

/-- From an image in entry 0 on, every pass is like the one before. -/
theorem scanLoop_image {magic : DataBlockHeader} {entries : List DataBlockHeader}
    (h : magic.IsImage) (passes : Nat) :
    scanLoop (magic :: entries) passes (magic :: entries) 1 = .error .endless := by
  induction passes with
  | zero => rfl
  | succ passes ih =>
      rw [scanLoop, scanHeaders_cons, if_pos h]
      exact ih

/-- The table of a packed image: its magic, the first entry and six more. -/
structure PackedTable (data : List UInt8) (magic first : DataBlockHeader)
    (rest : List DataBlockHeader) : Prop where
  table_eq : modemTable data = magic :: first :: rest
  length_rest : rest.length = 6
  magic_image : magic.IsImage

/-- The entry at the start of some bytes. -/
def entryAt (bytes : List UInt8) : DataBlockHeader where
  typeFlags := UInt32.ofNat (value (bytes.take 4))
  offset := UInt32.ofNat (value ((bytes.drop 4).take 4))
  length := UInt32.ofNat (value ((bytes.drop 8).take 4))

theorem dataBlockHeaders_succ (count : Nat) (bytes : List UInt8) :
    dataBlockHeaders (limbsOfBytes (3 * (count + 1)) bytes) =
      entryAt bytes :: dataBlockHeaders (limbsOfBytes (3 * count) (bytes.drop 12)) := by
  rw [Nat.mul_succ, limbsOfBytes, limbsOfBytes, limbsOfBytes, dataBlockHeaders, List.drop_drop,
    List.drop_drop]
  rfl

theorem length_dataBlockHeaders (count : Nat) (bytes : List UInt8) :
    (dataBlockHeaders (limbsOfBytes (3 * count) bytes)).length = count := by
  induction count generalizing bytes with
  | zero => rfl
  | succ count ih => rw [dataBlockHeaders_succ, List.length_cons, ih]

/-- `"SCI1"` has the flag of an image header. -/
theorem exists_packedTable {data : List UInt8} (hPacked : isPackedModemImage data = .ok true) :
    ∃ magic first rest, PackedTable data magic first rest := by
  have hMagic : Agree data modemMagic modemMagic.length := by
    obtain ⟨order, hOrder, hSame⟩ := bind_eq_ok.mp hPacked
    obtain rfl := of_decide_eq_true (Except.ok.inj hSame)
    exact secMemcmp_eq_zero.mp hOrder
  have hWord : (data.take 96).take 4 = modemMagic.take 4 := by
    have hTake := congrArg (List.take 4) hMagic.2.2
    rw [List.take_take, List.take_take] at hTake
    rw [List.take_take]
    exact hTake
  have hTable : modemTable data = entryAt (data.take 96) ::
      entryAt ((data.take 96).drop 12) ::
        dataBlockHeaders (limbsOfBytes (3 * 6) (((data.take 96).drop 12).drop 12)) := by
    rw [← dataBlockHeaders_succ, ← dataBlockHeaders_succ]
    rfl
  refine ⟨_, _, _, hTable, length_dataBlockHeaders 6 _, ?_⟩
  rw [DataBlockHeader.IsImage, entryAt, hWord]
  change UInt32.ofNat (value (modemMagic.take 4)) &&& modemImgHdr ≠ 0
  decide

/-- What any number of passes over the table of a packed image comes to. -/
theorem PackedTable.getModemInfoIn_succ {data : List UInt8} {magic first : DataBlockHeader}
    {rest : List DataBlockHeader} (h : PackedTable data magic first rest)
    (hLength : 96 ≤ data.length) (passes : Nat) :
    getModemInfoIn (passes + 1) data =
      if first.IsImage then .ok first.located
      else match rest.find? (·.Stops) with
        | none => .error .endless
        | some stop => .ok (if stop.IsLast then (0, 0) else stop.located) := by
  have hSlice : Memory.slice data 0 96 = some (data.take 96) :=
    Memory.slice_eq_some (by omega)
  have hTable : dataBlockHeaders (limbsOfBytes 24 (data.take 96)) = magic :: first :: rest :=
    h.table_eq
  rw [getModemInfoIn, hSlice, inBounds, ok_bind]
  dsimp only
  rw [hTable, List.drop_succ_cons, List.drop_zero, scanLoop, scanHeaders_cons]
  by_cases hImage : first.IsImage
  · rw [if_pos hImage, if_pos hImage]
    rfl
  · rw [if_neg hImage, if_neg hImage]
    cases rest.find? (·.Stops) with
    | none =>
        dsimp only
        rw [scanLoop_image h.magic_image, error_bind]
    | some stop =>
        by_cases hLast : stop.IsLast
        · simp [hLast]
        · simp [hLast]

theorem find?_stops {entries : List DataBlockHeader} {stop : DataBlockHeader}
    (h : entries.find? (·.Stops) = some stop) : stop ∈ entries ∧ stop.Stops :=
  ⟨List.mem_of_find?_eq_some h,
    of_decide_eq_true (List.find?_some (p := fun hdr : DataBlockHeader => decide hdr.Stops) h)⟩

theorem find?_stops_isSome {entries : List DataBlockHeader} {hdr : DataBlockHeader}
    (hMem : hdr ∈ entries) (h : hdr.Stops) : ∃ stop, entries.find? (·.Stops) = some stop := by
  apply Option.isSome_iff_exists.mp
  exact List.find?_isSome.mpr ⟨hdr, hMem, decide_eq_true h⟩

/-- The scan ends, with zeros when none of the entries 1 to 7 is an image
header. -/
def ScanEnds (data : List UInt8) : Prop :=
  ∃ passes info, getModemInfoIn passes data = .ok info ∧
    ((∀ hdr ∈ (modemTable data).drop 1, ¬hdr.IsImage) → info = (0, 0))

/-- A scan that ends has met an image, or the mark of the end, at the entry
that each pass comes to. -/
theorem marked_of_ends {data : List UInt8} (hLength : 96 ≤ data.length)
    (hPacked : isPackedModemImage data = .ok true) (h : ScanEnds data) :
    (∃ hdr ∈ (modemTable data).drop 1, hdr.IsImage) ∨
      ∃ hdr ∈ (modemTable data).drop 2, hdr.IsLast := by
  obtain ⟨magic, first, rest, hTable⟩ := exists_packedTable hPacked
  have hEntries : (modemTable data).drop 1 = first :: rest := by rw [hTable.table_eq]; rfl
  have hRest : (modemTable data).drop 2 = rest := by rw [hTable.table_eq]; rfl
  rw [hEntries, hRest]
  obtain ⟨passes, info, hInfo, -⟩ := h
  cases passes with
  | zero =>
      obtain ⟨hdrBuf, -, hScan⟩ := bind_eq_ok.mp hInfo
      cases hScan
  | succ passes =>
      rw [hTable.getModemInfoIn_succ hLength] at hInfo
      by_cases hImage : first.IsImage
      · exact Or.inl ⟨first, List.mem_cons_self, hImage⟩
      · rw [if_neg hImage] at hInfo
        cases hStop : rest.find? (·.Stops) with
        | none =>
            rw [hStop] at hInfo
            cases hInfo
        | some stop =>
            obtain ⟨hMem, hStops⟩ := find?_stops hStop
            cases hStops with
            | inl hNext => exact Or.inl ⟨stop, List.mem_cons_of_mem first hMem, hNext⟩
            | inr hLast => exact Or.inr ⟨stop, hMem, hLast⟩

/-- The scan of a packed image ends if and only if one of the entries 1 to 7
is an image header or one of the entries 2 to 7 is a last header. -/
theorem scan_ends_iff {data : List UInt8} (hLength : 96 ≤ data.length)
    (hPacked : isPackedModemImage data = .ok true) :
    ScanEnds data ↔ (∃ hdr ∈ (modemTable data).drop 1, hdr.IsImage) ∨
      ∃ hdr ∈ (modemTable data).drop 2, hdr.IsLast := by
  constructor
  · exact marked_of_ends hLength hPacked
  · obtain ⟨magic, first, rest, hTable⟩ := exists_packedTable hPacked
    have hEntries : (modemTable data).drop 1 = first :: rest := by rw [hTable.table_eq]; rfl
    have hRest : (modemTable data).drop 2 = rest := by rw [hTable.table_eq]; rfl
    rw [ScanEnds, hEntries, hRest]
    intro hMarked
    by_cases hImage : first.IsImage
    · refine ⟨1, first.located, ?_, fun hNone => absurd hImage (hNone _ List.mem_cons_self)⟩
      rw [hTable.getModemInfoIn_succ hLength, if_pos hImage]
    · obtain ⟨stop, hStop⟩ : ∃ stop, rest.find? (·.Stops) = some stop := by
        rcases hMarked with ⟨hdr, hMem, hNext⟩ | ⟨hdr, hMem, hLast⟩
        · have hOther : hdr ≠ first := fun hSame => hImage (hSame ▸ hNext)
          exact find?_stops_isSome (List.mem_of_ne_of_mem hOther hMem) (Or.inl hNext)
        · exact find?_stops_isSome hMem (Or.inr hLast)
      obtain ⟨hMem, hStops⟩ := find?_stops hStop
      refine ⟨1, if stop.IsLast then (0, 0) else stop.located, ?_, fun hNone => ?_⟩
      · rw [hTable.getModemInfoIn_succ hLength, if_neg hImage, hStop]
      · exact if_pos (hStops.resolve_left (hNone stop (List.mem_cons_of_mem first hMem)))

/-- The magic and seven entries of three words. -/
def packedHeaders (words : List UInt32) : List UInt8 :=
  modemMagic ++ List.replicate 7 0 ++ bytesOfLimbs words

theorem firstImage_ends : ScanEnds (packedHeaders ([1, 96, 16] ++ List.replicate 18 0)) :=
  (scan_ends_iff (by decide) (by decide)).mpr (Or.inl (by decide +kernel))

/-- Without a mark in the table the scan comes back to the magic. -/
theorem unmarkedTable_endless :
    let data := packedHeaders (List.replicate 21 0)
    96 ≤ data.length ∧ isPackedModemImage data = .ok true ∧ ¬ScanEnds data := by
  have hLength : 96 ≤ (packedHeaders (List.replicate 21 0)).length := by decide
  have hPacked : isPackedModemImage (packedHeaders (List.replicate 21 0)) = .ok true := by decide
  refine ⟨hLength, hPacked, fun hEnds => ?_⟩
  exact absurd (marked_of_ends hLength hPacked hEnds) (by decide +kernel)

/-- The first image among the entries up to and including the first last
header. -/
def firstImage : List DataBlockHeader → Option DataBlockHeader
  | [] => none
  | hdr :: rest =>
      if hdr.IsImage then some hdr else if hdr.IsLast then none else firstImage rest

/-- Offset and length of that block, or zeros. -/
def modemBlock (entries : List DataBlockHeader) : Nat × Nat :=
  match firstImage entries with
  | none => (0, 0)
  | some hdr => hdr.located

/-- The first entry with a mark decides. -/
theorem firstImage_eq (entries : List DataBlockHeader) :
    firstImage entries = (entries.find? (·.Stops)).filter (·.IsImage) := by
  induction entries with
  | nil => rfl
  | cons hdr rest ih =>
      rw [firstImage]
      by_cases hImage : hdr.IsImage
      · have hStops : decide hdr.Stops = true := decide_eq_true (Or.inl hImage)
        rw [if_pos hImage, List.find?_cons, hStops]
        exact (if_pos (decide_eq_true hImage)).symm
      · rw [if_neg hImage]
        by_cases hLast : hdr.IsLast
        · have hStops : decide hdr.Stops = true := decide_eq_true (Or.inr hLast)
          rw [if_pos hLast, List.find?_cons, hStops]
          exact (if_neg (ne_true_of_eq_false (decide_eq_false hImage))).symm
        · have hStops : decide hdr.Stops = false :=
            decide_eq_false fun hStops => hStops.elim hImage hLast
          rw [if_neg hLast, ih, List.find?_cons, hStops]

/-- Entry 1 is an image. Or another entry stops the scan, with all zeros, or
as an image or a last header but not both, where an image may not come
behind a last header in entry 1. -/
def StopsRight : List DataBlockHeader → Prop
  | [] => False
  | first :: rest => first.IsImage ∨ ∃ stop, rest.find? (·.Stops) = some stop ∧
      (stop.located = (0, 0) ∨ if first.IsLast then stop.IsLast else ¬(stop.IsImage ∧ stop.IsLast))

/-- The block of a packed image is found if and only if the scan stops at
the right entry. -/
theorem modem_found_iff {data : List UInt8} (hLength : 96 ≤ data.length)
    (hPacked : isPackedModemImage data = .ok true) :
    getModemInfo data = .ok (modemBlock ((modemTable data).drop 1)) ↔
      StopsRight ((modemTable data).drop 1) := by
  obtain ⟨magic, first, rest, hTable⟩ := exists_packedTable hPacked
  have hEntries : (modemTable data).drop 1 = first :: rest := by rw [hTable.table_eq]; rfl
  rw [hEntries, getModemInfo_eq, hTable.getModemInfoIn_succ hLength, StopsRight, modemBlock,
    firstImage]
  by_cases hImage : first.IsImage
  · rw [if_pos hImage, if_pos hImage]
    exact iff_of_true rfl (Or.inl hImage)
  · rw [if_neg hImage, if_neg hImage, or_iff_right hImage]
    cases hStop : rest.find? (·.Stops) with
    | none => simp
    | some stop =>
        have hStops := (find?_stops hStop).2
        simp only [Option.some.injEq, exists_eq_left', Except.ok.injEq, firstImage_eq, hStop,
          Option.filter_some]
        by_cases hFirst : first.IsLast
        · rw [if_pos hFirst, if_pos hFirst]
          by_cases hLast : stop.IsLast
          · rw [if_pos hLast]
            exact iff_of_true rfl (Or.inr hLast)
          · rw [if_neg hLast, or_iff_left hLast]
        · rw [if_neg hFirst, if_neg hFirst]
          by_cases hLast : stop.IsLast
          · by_cases hBoth : stop.IsImage
            · rw [if_pos hLast, if_pos (decide_eq_true hBoth),
                or_iff_left (not_not.mpr ⟨hBoth, hLast⟩)]
              exact eq_comm
            · rw [if_pos hLast, if_neg (ne_true_of_eq_false (decide_eq_false hBoth))]
              exact iff_of_true rfl (Or.inr fun h => hBoth h.1)
          · have hFound := hStops.resolve_right hLast
            rw [if_neg hLast, if_pos (decide_eq_true hFound)]
            exact iff_of_true rfl (Or.inr fun h => hLast h.2)

/-- The block that is found in the example is the one of the first image. -/
theorem image_then_last_found :
    getModemInfo (packedHeaders ([1, 96, 16, 0x100, 0, 0] ++ List.replicate 15 0)) =
      .ok (modemBlock ((modemTable
        (packedHeaders ([1, 96, 16, 0x100, 0, 0] ++ List.replicate 15 0))).drop 1)) :=
  (modem_found_iff (by decide) (by decide)).mpr (Or.inl (by decide +kernel))

/-- An entry 2 that is the image and the last header is passed over, and a
last header in entry 1 does not end the scan. -/
theorem lastImage_notFound :
    let lastImage := packedHeaders ([2, 0, 0, 0x101, 96, 16] ++ List.replicate 15 0)
    let lastFirst := packedHeaders ([0x100, 0, 0, 1, 96, 16] ++ List.replicate 15 0)
    (isPackedModemImage lastImage = .ok true ∧
        (∃ hdr ∈ (modemTable lastImage).drop 1, hdr.IsLast) ∧
          getModemInfo lastImage = .ok (0, 0) ∧
            modemBlock ((modemTable lastImage).drop 1) = (96, 16)) ∧
      isPackedModemImage lastFirst = .ok true ∧
        (∃ hdr ∈ (modemTable lastFirst).drop 1, hdr.IsLast) ∧
          getModemInfo lastFirst = .ok (96, 16) ∧
            modemBlock ((modemTable lastFirst).drop 1) = (0, 0) := by
  decide +kernel

end SignImage
