import Gtexswifi.Dtbtool.Outcomes

/-! The byte count of `dtbtool` notices every write that fails or is cut
short, but neither what an earlier file leaves behind the new end nor reads
that stop in the last page of a file. -/
namespace Dtbtool

open Radix

variable {io : Io}

/-- The bytes in `asked` have been given to `write` so far. The sum of the
results falls behind their number, unless all calls were complete. -/
structure Ledger (io : Io) (w : IoWriter) (asked : List UInt8) : Prop where
  upper : w.wrote ≤ asked.length
  lower : -(w.calls : Int) ≤ w.wrote
  calls : w.calls ≤ asked.length
  exact : w.wrote = asked.length ↔ ∀ n < w.calls, io.outcome n = .complete
  out : (∀ n < w.calls, io.outcome n = .complete) → w.out = asked

section Write

variable {w : IoWriter} {asked bytes : List UInt8}

@[simp] theorem IoWriter.write_masters (w : IoWriter) (bytes : List UInt8) :
    (w.write io bytes).masters = w.masters := by
  unfold write
  split <;> rfl

@[simp] theorem IoWriter.write_expected (w : IoWriter) (bytes : List UInt8) :
    (w.write io bytes).expected = w.expected := by
  unfold write
  split <;> rfl

@[simp] theorem IoWriter.write_calls (w : IoWriter) (bytes : List UInt8) :
    (w.write io bytes).calls = w.calls + 1 := by
  unfold write
  split <;> rfl

/-- What holds below a number and at it holds below the next one. -/
theorem forall_lt_succ {P : Nat → Prop} {n : Nat} :
    (∀ k < n + 1, P k) ↔ (∀ k < n, P k) ∧ P n := by
  constructor
  · exact fun h => ⟨fun k hk => h k (Nat.lt_succ_of_lt hk), h n (Nat.lt_succ_self n)⟩
  · rintro ⟨hBelow, hLast⟩ k hk
    rcases Nat.lt_succ_iff_lt_or_eq.mp hk with hLess | rfl
    · exact hBelow k hLess
    · exact hLast

/-- A call that is not complete leaves the sum behind for good. -/
theorem Ledger.incomplete (h : Ledger io w asked) (hPos : 0 < bytes.length) {w' : IoWriter}
    (hOutcome : io.outcome w.calls ≠ .complete) (hCalls : w'.calls = w.calls + 1)
    (hLower : w.wrote - 1 ≤ w'.wrote) (hUpper : w'.wrote < w.wrote + bytes.length) :
    Ledger io w' (asked ++ bytes) := by
  have hLast : ¬∀ k < w'.calls, io.outcome k = .complete := by
    intro hAll
    exact hOutcome (hAll w.calls (by rw [hCalls]; exact Nat.lt_succ_self _))
  have hBefore := h.upper
  have hSum := h.lower
  have hCount := h.calls
  constructor
  · rw [List.length_append]
    omega
  · omega
  · rw [List.length_append]
    omega
  · refine iff_of_false ?_ hLast
    rw [List.length_append]
    omega
  · exact fun hAll => absurd hAll hLast

/-- What one write does to the count: it adds the number of bytes, or less. -/
theorem Ledger.write (h : Ledger io w asked) (hBytes : bytes ≠ []) :
    Ledger io (w.write io bytes) (asked ++ bytes) := by
  have hPos : 0 < bytes.length := List.length_pos_iff.mpr hBytes
  cases hOutcome : io.outcome w.calls with
  | complete =>
      have hWrite : w.write io bytes =
          { w with
            out := w.out ++ bytes
            wrote := w.wrote + bytes.length
            calls := w.calls + 1 } := by
        rw [IoWriter.write, hOutcome]
      have hUpper := h.upper
      have hLower := h.lower
      have hCalls := h.calls
      rw [hWrite]
      constructor
      · simp only [List.length_append]
        omega
      · simp only
        omega
      · simp only [List.length_append]
        omega
      · simp only [forall_lt_succ, hOutcome, and_true, ← h.exact, List.length_append]
        omega
      · intro hAll
        simp only [h.out fun n hn => hAll n (Nat.lt_succ_of_lt hn)]
  | short n =>
      have hWrote : (w.write io bytes).wrote = w.wrote + min n (bytes.length - 1) := by
        rw [IoWriter.write, hOutcome]
      apply h.incomplete hPos
      · simp [hOutcome]
      · exact w.write_calls bytes
      · omega
      · omega
  | fails =>
      have hWrote : (w.write io bytes).wrote = w.wrote - 1 := by
        rw [IoWriter.write, hOutcome]
      apply h.incomplete hPos
      · simp [hOutcome]
      · exact w.write_calls bytes
      · omega
      · omega

/-- The other variables do not matter. -/
theorem Ledger.setVariables (h : Ledger io w asked) (masters : Nat → Master) (expected : Nat) :
    Ledger io { w with masters := masters, expected := expected } asked :=
  ⟨h.upper, h.lower, h.calls, h.exact, h.out⟩

/-- A sequence of writes, none of which is of no bytes. -/
theorem Ledger.foldl_write {pieces : List (List UInt8)} (h : Ledger io w asked)
    (hPieces : ∀ piece ∈ pieces, piece ≠ []) :
    Ledger io (pieces.foldl (IoWriter.write io) w) (asked ++ pieces.flatten) ∧
      (pieces.foldl (IoWriter.write io) w).masters = w.masters ∧
      (pieces.foldl (IoWriter.write io) w).expected = w.expected ∧
      (pieces.foldl (IoWriter.write io) w).calls = w.calls + pieces.length := by
  induction pieces generalizing w asked with
  | nil => exact ⟨by rwa [List.flatten_nil, List.append_nil], rfl, rfl, rfl⟩
  | cons piece pieces ih =>
      obtain ⟨hLedger, hMasters, hExpected, hCalls⟩ :=
        ih (h.write (hPieces piece List.mem_cons_self))
          fun x hx => hPieces x (List.mem_cons_of_mem piece hx)
      rw [List.append_assoc] at hLedger
      refine ⟨hLedger, ?_, ?_, ?_⟩
      · rw [List.foldl_cons, hMasters, IoWriter.write_masters]
      · rw [List.foldl_cons, hExpected, IoWriter.write_expected]
      · rw [List.foldl_cons, hCalls, IoWriter.write_calls, List.length_cons]
        omega

end Write

/-- The run without faults that has asked for the same. -/
structure Follows (io : Io) (w : IoWriter) (v : Writer) : Prop where
  masters : w.masters = v.masters
  expected : w.expected = v.expected
  ledger : Ledger io w v.out

section FirstPass

variable {w : IoWriter} {v : Writer} {bytes : List UInt8}

/-- As long as no write falls short, the run over the file writes what the
run without faults writes. -/
theorem Follows.write (h : Follows io w v) (hBytes : bytes ≠ []) :
    Follows io (w.write io bytes) (v.write bytes) where
  masters := (IoWriter.write_masters w bytes).trans h.masters
  expected := (IoWriter.write_expected w bytes).trans h.expected
  ledger := h.ledger.write hBytes

/-- Each of the stores into the table has four bytes to write. -/
theorem encode_four_ne_nil (n : Nat) : (encode 4 n : List UInt8) ≠ [] := List.cons_ne_nil _ _

/-- A row takes five writes, and follows the row of the run without faults. -/
theorem Follows.writeRow (h : Follows io w v) (chip : ChipInfo) :
    Follows io (w.writeRow io chip) (Dtbtool.writeRow v chip) ∧
      (w.writeRow io chip).calls = w.calls + 5 := by
  have hIds := ((h.write (encode_four_ne_nil chip.id.chipset.toNat)).write
    (encode_four_ne_nil chip.id.platform.toNat)).write (encode_four_ne_nil chip.id.revNum.toNat)
  have hCalls : (((w.write io (encode 4 chip.id.chipset.toNat)).write io
      (encode 4 chip.id.platform.toNat)).write io (encode 4 chip.id.revNum.toNat)).calls =
        w.calls + 3 := by
    simp only [IoWriter.write_calls]
  unfold IoWriter.writeRow Dtbtool.writeRow
  dsimp only
  generalize (((w.write io (encode 4 chip.id.chipset.toNat)).write io
    (encode 4 chip.id.platform.toNat)).write io (encode 4 chip.id.revNum.toNat)) = w' at *
  generalize (((v.write (encode 4 chip.id.chipset.toNat)).write
    (encode 4 chip.id.platform.toNat)).write (encode 4 chip.id.revNum.toNat)) = v' at *
  rw [hIds.masters, hIds.expected]
  by_cases hSettled : (v'.masters chip.master).masterOffset ≠ 0
  · rw [if_pos hSettled, if_pos hSettled]
    have hOffset := hIds.write (encode_four_ne_nil (v'.masters chip.master).masterOffset)
    rw [hOffset.masters]
    exact ⟨hOffset.write (encode_four_ne_nil _), by simp only [IoWriter.write_calls, hCalls]⟩
  · rw [if_neg hSettled, if_neg hSettled]
    have hOffset := hIds.write (encode_four_ne_nil v'.expected)
    constructor
    · apply Follows.write _ (encode_four_ne_nil _)
      exact ⟨rfl, rfl, hOffset.ledger.setVariables _ _⟩
    · simp only [IoWriter.write_calls, hCalls]

theorem Follows.foldl_writeRow (h : Follows io w v) (chips : List ChipInfo) :
    Follows io (chips.foldl (IoWriter.writeRow io) w) (chips.foldl Dtbtool.writeRow v) ∧
      (chips.foldl (IoWriter.writeRow io) w).calls = w.calls + 5 * chips.length := by
  induction chips generalizing w v with
  | nil => exact ⟨h, rfl⟩
  | cons chip chips ih =>
      obtain ⟨hRow, hRowCalls⟩ := h.writeRow chip
      obtain ⟨hAll, hCalls⟩ := ih hRow
      refine ⟨hAll, ?_⟩
      rw [List.foldl_cons, hCalls, hRowCalls, List.length_cons]
      omega

/-- In front of the device trees. -/
theorem writeTable_follows (io : Io) (page : PageSize) (s : Scan) :
    Follows io (IoWriter.writeTable io page s) (writeTable page s) ∧
      (IoWriter.writeTable io page s).calls = 5 + 5 * s.chipList.length := by
  have hPadding :
      List.replicate (page.size - tableEnd s.dtbCount % page.size) (0 : UInt8) ≠ [] := by
    have hRest := Nat.mod_lt (tableEnd s.dtbCount) page.pos
    rw [Ne, List.replicate_eq_nil_iff]
    omega
  have hStart : Follows io
      ⟨s.masters, [], 0, tableEnd s.dtbCount + (page.size - tableEnd s.dtbCount % page.size), 0⟩
      ⟨s.masters, [], 0, tableEnd s.dtbCount + (page.size - tableEnd s.dtbCount % page.size)⟩ := by
    refine ⟨rfl, rfl, Int.le_refl 0, Int.le_refl 0, Nat.le_refl 0, ?_, fun _ => rfl⟩
    exact iff_of_true rfl fun n hn => absurd hn (Nat.not_lt_zero n)
  have hHeader := ((hStart.write (show qcdtMagic ≠ [] from List.cons_ne_nil _ _)).write
    (encode_four_ne_nil qcdtVersion)).write (encode_four_ne_nil s.dtbCount)
  obtain ⟨hRows, hCalls⟩ := hHeader.foldl_writeRow s.chipList
  refine ⟨(hRows.write (encode_four_ne_nil 0)).write hPadding, ?_⟩
  simp only [IoWriter.writeTable, IoWriter.write_calls, hCalls]
  omega

end FirstPass

/-- The masters that are written, behind those in `seen`, in their order. -/
def toWrite : List Nat → List Nat → List Nat
  | _, [] => []
  | seen, r :: rest => if r ∈ seen then toWrite seen rest else r :: toWrite (seen ++ [r]) rest

/-- Each file is copied where its first row stands, so that the copies are
made in the order of the first rows. -/
theorem firsts_eq_toWrite (seen names : List Nat) :
    Regions.firsts seen names = seen ++ toWrite seen names := by
  induction names generalizing seen with
  | nil => exact (List.append_nil seen).symm
  | cons r rest ih =>
      by_cases hSeen : r ∈ seen
      · rw [Regions.firsts_cons_of_mem hSeen, ih, toWrite, if_pos hSeen]
      · rw [Regions.firsts_cons_of_not_mem hSeen, ih, toWrite, if_neg hSeen, List.append_assoc]
        rfl

/-- Every piece that `fread` delivers has a byte at least. An empty one ends
the loop. -/
theorem freads_ne_nil {content : List UInt8} {results : List Nat} :
    ∀ piece ∈ freads content results, piece ≠ [] := by
  induction results generalizing content with
  | nil => exact fun piece h => absurd h List.not_mem_nil
  | cons n results ih =>
      intro piece hPiece
      rw [freads] at hPiece
      split at hPiece
      · cases hPiece
      · next hNe =>
          rcases List.mem_cons.mp hPiece with rfl | hRest
          · exact hNe
          · exact ih piece hRest

/-- The pieces make up the start of the file. -/
theorem flatten_freads (content : List UInt8) (results : List Nat) :
    (freads content results).flatten = content.take (freads content results).flatten.length := by
  induction results generalizing content with
  | nil => rfl
  | cons n results ih =>
      rw [freads]
      split
      · rfl
      · have hPiece : (content.take (min n copyBlk)) =
            content.take (content.take (min n copyBlk)).length := by
          rw [List.length_take, List.take_eq_take_iff]
          omega
        rw [List.flatten_cons, List.length_append, List.take_add, ← hPiece, ← ih]

/-- What is read of a file. -/
def piecesOf (io : Io) (before : Nat → Master) (r : Nat) : List (List UInt8) :=
  match io.reads r with
  | none => []
  | some results => freads (before r).dtbFile results

/-- A file that can be opened, and has its size as far as the pages go. -/
def Fits (io : Io) (page : PageSize) (before : Nat → Master) (r : Nat) : Prop :=
  io.reads r ≠ none ∧
    paddedSize page (piecesOf io before r).flatten.length % 2 ^ 32 = (before r).dtbSize

/-- The masters in `seen` have been written, and the sizes are those of the
table. -/
structure Copied (names : List Nat) (before : Nat → Master) (seen : List Nat)
    (masters : Nat → Master) : Prop where
  dtbFile : ∀ r ∈ names, (masters r).dtbFile = (before r).dtbFile
  dtbSize : ∀ r ∈ names, (masters r).dtbSize = (before r).dtbSize
  wroteDtb : ∀ r ∈ names, (masters r).wroteDtb = true ↔ r ∈ seen

section SecondPass

variable {page : PageSize} {names seen : List Nat} {before masters : Nat → Master}
  {w : IoWriter} {asked : List UInt8}

/-- A file that has been copied is marked, and the others keep their marks. -/
theorem Copied.mark (h : Copied names before seen masters) {r : Nat} (hMem : r ∈ names) :
    Copied names before (seen ++ [r])
      (Function.update masters r { masters r with wroteDtb := true }) := by
  constructor
  · intro q hq
    by_cases hSame : q = r
    · subst hSame
      rw [Function.update_self]
      exact h.dtbFile q hq
    · rw [Function.update_of_ne hSame, h.dtbFile q hq]
  · intro q hq
    by_cases hSame : q = r
    · subst hSame
      rw [Function.update_self]
      exact h.dtbSize q hq
    · rw [Function.update_of_ne hSame, h.dtbSize q hq]
  · intro q hq
    by_cases hSame : q = r
    · subst hSame
      rw [Function.update_self]
      simp
    · rw [Function.update_of_ne hSame, h.wroteDtb q hq]
      simp [hSame]

/-- A file of the second pass, read as `pieces`, and its padding. -/
def IoWriter.copy (io : Io) (page : PageSize) (w : IoWriter) (r : Nat)
    (pieces : List (List UInt8)) : IoWriter :=
  let master := w.masters r
  let w := { w with masters := Function.update w.masters r { master with wroteDtb := true } }
  (pieces.foldl (IoWriter.write io) w).write io
    (List.replicate (page.size - pieces.flatten.length % page.size) 0)

/-- A copy writes the pieces and the padding behind them, and marks the
file. The ledger says how much was asked to be written and how much was. -/
theorem IoWriter.copy_spec (hCopied : Copied names before seen w.masters)
    (hLedger : Ledger io w asked) (page : PageSize) {r : Nat} (hMem : r ∈ names)
    {pieces : List (List UInt8)} (hPieces : ∀ piece ∈ pieces, piece ≠ []) :
    Copied names before (seen ++ [r]) (w.copy io page r pieces).masters ∧
      Ledger io (w.copy io page r pieces) (asked ++ paddedDtb page pieces.flatten) ∧
      (w.copy io page r pieces).expected = w.expected ∧
      (w.copy io page r pieces).calls = w.calls + (pieces.length + 1) := by
  have hPadding :
      List.replicate (page.size - pieces.flatten.length % page.size) (0 : UInt8) ≠ [] := by
    have hRest := Nat.mod_lt pieces.flatten.length page.pos
    rw [Ne, List.replicate_eq_nil_iff]
    omega
  obtain ⟨hFolded, hMasters, hExpected, hCalls⟩ :=
    (hLedger.setVariables (Function.update w.masters r { w.masters r with wroteDtb := true })
      w.expected).foldl_write hPieces
  refine ⟨?_, ?_, ?_, ?_⟩
  · rw [copy, IoWriter.write_masters, hMasters]
    exact hCopied.mark hMem
  · have hPadded := hFolded.write hPadding
    rw [List.append_assoc] at hPadded
    exact hPadded
  · rw [copy, IoWriter.write_expected, hExpected]
  · rw [copy, IoWriter.write_calls, hCalls]
    rfl

/-- The second pass ends with success exactly when every file fits, and has
then asked for all files with their padding. -/
theorem writeDtbs_ledger (page : PageSize) (hCopied : Copied names before seen w.masters)
    (hLedger : Ledger io w asked) {chips : List ChipInfo}
    (hMem : ∀ chip ∈ chips, chip.master ∈ names) :
    (∃ w', IoWriter.writeDtbs io page w chips = (rcSuccess, w') ∧
      (∀ r ∈ toWrite seen (chips.map ChipInfo.master), Fits io page before r) ∧
      Ledger io w' (asked ++ (toWrite seen (chips.map ChipInfo.master)).flatMap fun r =>
        paddedDtb page (piecesOf io before r).flatten) ∧
      w'.expected = w.expected ∧
      w'.calls = w.calls + ((toWrite seen (chips.map ChipInfo.master)).map fun r =>
        (piecesOf io before r).length + 1).sum) ∨
    (∃ w', IoWriter.writeDtbs io page w chips = (rcError, w') ∧
      ∃ r ∈ toWrite seen (chips.map ChipInfo.master), ¬Fits io page before r) := by
  induction chips generalizing seen w asked with
  | nil =>
      refine Or.inl ⟨w, rfl, fun r hr => absurd hr List.not_mem_nil, ?_, rfl, rfl⟩
      rwa [List.map_nil, toWrite, List.flatMap_nil, List.append_nil]
  | cons chip rest ih =>
      have hHere := hMem chip List.mem_cons_self
      have hRest : ∀ other ∈ rest, other.master ∈ names :=
        fun other hOther => hMem other (List.mem_cons_of_mem chip hOther)
      rw [List.map_cons, toWrite, IoWriter.writeDtbs]
      by_cases hSeen : chip.master ∈ seen
      · simp only [(hCopied.wroteDtb _ hHere).mpr hSeen, if_true, if_pos hSeen]
        exact ih hCopied hLedger hRest
      · have hUnwritten : (w.masters chip.master).wroteDtb = false :=
          Bool.eq_false_iff.mpr (mt (hCopied.wroteDtb _ hHere).mp hSeen)
        simp only [hUnwritten, Bool.false_eq_true, if_false, if_neg hSeen]
        cases hReads : io.reads chip.master with
        | none =>
            refine Or.inr ⟨_, rfl, chip.master, List.mem_cons_self, ?_⟩
            exact fun hFits => hFits.1 hReads
        | some results =>
            dsimp only
            have hPieces : freads (w.masters chip.master).dtbFile results =
                piecesOf io before chip.master := by
              rw [piecesOf, hReads, hCopied.dtbFile _ hHere]
            have hNe : ∀ piece ∈ piecesOf io before chip.master, piece ≠ [] :=
              hPieces ▸ freads_ne_nil
            have hSize := hCopied.dtbSize _ hHere
            rw [hPieces]
            by_cases hFits : paddedSize page (piecesOf io before chip.master).flatten.length %
                2 ^ 32 = (before chip.master).dtbSize
            · have hSame : ¬((piecesOf io before chip.master).flatten.length + (page.size -
                  (piecesOf io before chip.master).flatten.length % page.size)) % 2 ^ 32 ≠
                    (w.masters chip.master).dtbSize := not_not.mpr (hFits.trans hSize.symm)
              rw [if_neg hSame]
              obtain ⟨hMarked, hPadded, hExpected, hCalls⟩ :=
                IoWriter.copy_spec hCopied hLedger page hHere hNe
              rcases ih hMarked hPadded hRest with ⟨w', hRun, hAll, hDone, hMet, hCounted⟩ |
                ⟨w', hRun, r, hr, hMisfit⟩
              · refine Or.inl ⟨w', hRun, ?_, ?_, hMet.trans hExpected, ?_⟩
                · exact List.forall_mem_cons.mpr ⟨⟨hReads ▸ Option.some_ne_none _, hFits⟩, hAll⟩
                · rw [List.flatMap_cons, ← List.append_assoc]
                  exact hDone
                · rw [hCounted, hCalls, List.map_cons, List.sum_cons]
                  omega
              · exact Or.inr ⟨w', hRun, r, List.mem_cons_of_mem _ hr, hMisfit⟩
            · have hOther : ((piecesOf io before chip.master).flatten.length + (page.size -
                  (piecesOf io before chip.master).flatten.length % page.size)) % 2 ^ 32 ≠
                    (w.masters chip.master).dtbSize := fun h => hFits (h.trans hSize)
              rw [if_pos hOther]
              refine Or.inr ⟨_, rfl, chip.master, List.mem_cons_self, ?_⟩
              exact fun h => hFits h.2

end SecondPass

/-- What is read of the file of a master. -/
def bytesRead (io : Io) (s : Scan) (r : Nat) : Nat := (piecesOf io s.masters r).flatten.length

/-- The number of writes of a run that copies every file. -/
def writeCount (io : Io) (s : Scan) : Nat :=
  5 + 5 * s.dtbCount + ((masterOrder s).map fun r => (piecesOf io s.masters r).length + 1).sum

/-- A run in which nothing happens that could be noticed: the output file is
opened, every write is complete, and of every device tree at least the start
of the last page is read. -/
structure Quiet (io : Io) (page : PageSize) (s : Scan) : Prop where
  opens : io.opens = true
  writes : ∀ n < writeCount io s, io.writes n = .complete
  reads : ∀ r ∈ masterOrder s, io.reads r ≠ none ∧
    paddedSize page (bytesRead io s r) = regionSize page s r

/-- Success with the master DTB and nothing behind it, or an error and no
output file. -/
def Sound (page : PageSize) (s : Scan) (result : Int × Option (List UInt8)) : Prop :=
  result = (rcSuccess, some (frontBytes page s ++ regionBytes page s)) ∨
    result = (rcError, none)

theorem paddedSize_mono (page : PageSize) {a b : Nat} (h : a ≤ b) :
    paddedSize page a ≤ paddedSize page b := by
  have hWhole (size : Nat) : paddedSize page size = page.size * (size / page.size + 1) := by
    have hRest := Nat.mod_lt size page.pos
    have hDiv := Nat.div_add_mod size page.size
    rw [paddedSize, Nat.mul_add, Nat.mul_one]
    omega
  rw [hWhole, hWhole]
  exact Nat.mul_le_mul_left _ (Nat.succ_le_succ (Nat.div_le_div_right h))

/-- A file read in part gives the same pages as the whole exactly if the
rest is all zeros, as the padding is. -/
theorem paddedDtb_take_iff {page : PageSize} {content : List UInt8} {k : Nat}
    (hSize : paddedSize page (content.take k).length = paddedSize page content.length) :
    paddedDtb page (content.take k) = paddedDtb page content ↔ ∀ b ∈ content.drop k, b = 0 := by
  have hSplit : paddedDtb page content = content.take k ++ (content.drop k ++
      List.replicate (page.size - content.length % page.size) 0) := by
    rw [← List.append_assoc, List.take_append_drop]
    rfl
  rw [hSplit, paddedDtb, List.append_cancel_left_eq, eq_comm, List.eq_replicate_iff]
  have hTogether : (content.take k).length + (content.drop k).length = content.length := by
    rw [← List.length_append, List.take_append_drop]
  unfold paddedSize at hSize
  constructor
  · exact fun h b hb => h.2 b (List.mem_append_left _ hb)
  · intro hZero
    constructor
    · rw [List.length_append, List.length_replicate]
      omega
    · intro b hb
      rcases List.mem_append.mp hb with hDrop | hPadding
      · exact hZero b hDrop
      · exact List.eq_of_mem_replicate hPadding

/-- Pieces of the same lengths put together are equal exactly if they are
equal one by one. -/
theorem flatMap_eq_flatMap_iff {f g : Nat → List UInt8} {l : List Nat}
    (h : ∀ r ∈ l, (f r).length = (g r).length) :
    l.flatMap f = l.flatMap g ↔ ∀ r ∈ l, f r = g r := by
  induction l with
  | nil => exact iff_of_true rfl fun r hr => absurd hr List.not_mem_nil
  | cons r l ih =>
      rw [List.flatMap_cons, List.flatMap_cons, List.forall_mem_cons,
        ← ih fun q hq => h q (List.mem_cons_of_mem r hq)]
      constructor
      · exact fun hEq => List.append_inj hEq (h r List.mem_cons_self)
      · rintro ⟨hHead, hTail⟩
        rw [hHead, hTail]

section Runs

variable {page : PageSize} {dir : List DirEntry}

theorem bytesRead_le (io : Io) (s : Scan) (r : Nat) :
    bytesRead io s r ≤ (s.masters r).dtbFile.length := by
  unfold bytesRead piecesOf
  split
  · exact Nat.zero_le _
  · rw [flatten_freads]
    exact List.length_take_le' _ _

theorem flatten_piecesOf (io : Io) (s : Scan) (r : Nat) :
    (piecesOf io s.masters r).flatten = (s.masters r).dtbFile.take (bytesRead io s r) := by
  unfold bytesRead piecesOf
  split
  · rfl
  · exact flatten_freads _ _

/-- Both passes, as far as every file fits. -/
theorem writeDtbs_writeTable (io : Io) (hSize : outputSize page (scan page dir) < 2 ^ 32) :
    (∃ w, IoWriter.writeDtbs io page (IoWriter.writeTable io page (scan page dir))
        (scan page dir).chipList = (rcSuccess, w) ∧
      (∀ r ∈ masterOrder (scan page dir), Fits io page (scan page dir).masters r) ∧
      Ledger io w (frontBytes page (scan page dir) ++ (masterOrder (scan page dir)).flatMap fun r =>
        paddedDtb page (piecesOf io (scan page dir).masters r).flatten) ∧
      w.expected = outputSize page (scan page dir) ∧ w.calls = writeCount io (scan page dir)) ∨
    (∃ w, IoWriter.writeDtbs io page (IoWriter.writeTable io page (scan page dir))
        (scan page dir).chipList = (rcError, w) ∧
      ∃ r ∈ masterOrder (scan page dir), ¬Fits io page (scan page dir).masters r) := by
  obtain ⟨hCopying, hFront, hExpected⟩ := writeTable_spec hSize
  obtain ⟨hFollows, hCalls⟩ := writeTable_follows io page (scan page dir)
  have hCopied : Copied ((scan page dir).chipList.map ChipInfo.master) (scan page dir).masters []
      (IoWriter.writeTable io page (scan page dir)).masters := by
    rw [hFollows.masters]
    exact ⟨hCopying.dtbFile, hCopying.dtbSize, hCopying.wroteDtb⟩
  have hLedger := hFollows.ledger
  have hOrder : toWrite [] ((scan page dir).chipList.map ChipInfo.master) =
      masterOrder (scan page dir) := by
    rw [masterOrder, firsts_eq_toWrite, List.nil_append]
  rcases writeDtbs_ledger page hCopied hLedger
    (fun chip hChip => List.mem_map_of_mem hChip) with ⟨w, hRun, hFits, hDone, hMet, hCounted⟩ |
    ⟨w, hRun, hMisfit⟩
  · rw [hOrder] at hFits hDone hCounted
    rw [hFront] at hDone
    refine Or.inl ⟨w, hRun, hFits, hDone, ?_, ?_⟩
    · rw [hMet, hFollows.expected, hExpected]
    · rw [hCounted, hCalls, writeCount, (scan_wellFormed page dir).counted]
  · rw [hOrder] at hMisfit
    exact Or.inr ⟨w, hRun, hMisfit⟩

/-- The check of the size passes exactly if the file could be opened and
what was read of it fills the pages that its rows announce. -/
theorem fits_iff (io : Io) (hSize : outputSize page (scan page dir) < 2 ^ 32) {r : Nat}
    (hMem : r ∈ masterOrder (scan page dir)) :
    Fits io page (scan page dir).masters r ↔ io.reads r ≠ none ∧
      paddedSize page (bytesRead io (scan page dir) r) = regionSize page (scan page dir) r := by
  have hTotal := Regions.size_le_total (regionSize page (scan page dir)) hMem
  have hMono : paddedSize page (bytesRead io (scan page dir) r) ≤
      regionSize page (scan page dir) r :=
    paddedSize_mono page (bytesRead_le io (scan page dir) r)
  have hFits : paddedSize page (bytesRead io (scan page dir) r) < 2 ^ 32 := by
    unfold outputSize at hSize
    omega
  rw [Fits, dtbSize_eq hSize hMem, ← bytesRead, Nat.mod_eq_of_lt hFits]

/-- The size of what is asked for, once every file fits. -/
theorem length_asked {io : Io} (h : ∀ r ∈ masterOrder (scan page dir),
    paddedSize page (bytesRead io (scan page dir) r) = regionSize page (scan page dir) r) :
    (frontBytes page (scan page dir) ++ (masterOrder (scan page dir)).flatMap fun r =>
      paddedDtb page (piecesOf io (scan page dir).masters r).flatten).length =
        outputSize page (scan page dir) := by
  rw [List.length_append, length_frontBytes (scan_wellFormed page dir), Regions.length_flatMap,
    outputSize]
  congr 1
  exact Regions.total_congr fun r hr => (length_paddedDtb page _).trans (h r hr)

/-- A run in which something can be noticed ends with an error, and no
output file. -/
theorem combineIo_of_not_quiet {io : Io} (hCount : (scan page dir).dtbCount ≠ 0)
    (hSize : outputSize page (scan page dir) < 2 ^ 32) (earlier : Option (List UInt8))
    (hNoticed : ¬Quiet io page (scan page dir)) :
    combineIo io page dir earlier = (rcError, none) := by
  have hError : rcError ≠ rcSuccess := by decide
  rcases writeDtbs_writeTable io hSize with ⟨w, hRun, hFits, hDone, hMet, hCounted⟩ |
    ⟨w, hRun, -⟩
  · have hReads r (hr : r ∈ masterOrder (scan page dir)) := (fits_iff io hSize hr).mp (hFits r hr)
    have hAsked := length_asked fun r hr => (hReads r hr).2
    have hShort : w.wrote ≠ outputSize page (scan page dir) := by
      intro hExact
      rw [← hAsked, hDone.exact, hCounted] at hExact
      apply hNoticed
      have hOpens : io.opens = true := by
        have hFirst := hExact 0 (by unfold writeCount; omega)
        by_contra hClosed
        rw [Io.outcome, if_neg hClosed] at hFirst
        cases hFirst
      refine ⟨hOpens, ?_, hReads⟩
      intro n hn
      have hCall := hExact n hn
      rwa [Io.outcome, if_pos hOpens] at hCall
    have hUpper := hDone.upper
    have hLower := hDone.lower
    have hCalls := hDone.calls
    rw [hAsked] at hUpper hCalls
    have hDiffers : (w.expected : Int) % 2 ^ 64 ≠ w.wrote % 2 ^ 64 := by
      rw [hMet]
      omega
    simp only [combineIo, if_neg hCount, hRun, if_pos hDiffers, if_pos hError]
  · simp only [combineIo, if_neg hCount, hRun, ite_self, if_pos hError]

/-- A run in which nothing can be noticed ends with success. The output file
holds what has been read, and what an earlier file had behind it. -/
theorem combineIo_of_quiet {io : Io} (hCount : (scan page dir).dtbCount ≠ 0)
    (hSize : outputSize page (scan page dir) < 2 ^ 32) (earlier : Option (List UInt8))
    (hQuiet : Quiet io page (scan page dir)) :
    combineIo io page dir earlier = (rcSuccess, some (frontBytes page (scan page dir) ++
      ((masterOrder (scan page dir)).flatMap fun r =>
        paddedDtb page (piecesOf io (scan page dir).masters r).flatten) ++
      (earlier.getD []).drop (outputSize page (scan page dir)))) := by
  rcases writeDtbs_writeTable io hSize with ⟨w, hRun, -, hDone, hMet, hCounted⟩ |
    ⟨w, -, r, hr, hMisfit⟩
  · have hAsked := length_asked fun r hr => (hQuiet.reads r hr).2
    have hComplete : ∀ n < w.calls, io.outcome n = .complete := by
      intro n hn
      rw [Io.outcome, if_pos hQuiet.opens]
      exact hQuiet.writes n (hCounted ▸ hn)
    have hWrote := hDone.exact.mpr hComplete
    have hOut := hDone.out hComplete
    rw [hAsked] at hWrote
    have hEqual : ¬(w.expected : Int) % 2 ^ 64 ≠ w.wrote % 2 ^ 64 := by
      rw [hMet, hWrote]
      exact not_not.mpr rfl
    have hLength : w.out.length = outputSize page (scan page dir) := by rw [hOut, hAsked]
    simp only [combineIo, if_neg hCount, hRun, if_neg hEqual, ne_eq, not_true_eq_false, if_false,
      if_pos hQuiet.opens, hLength]
    rw [hOut]
  · exact absurd ((fits_iff io hSize hr).mpr (hQuiet.reads r hr)) hMisfit

/-- No faults, where every file is of one byte. -/
def Io.faultless : Io := ⟨true, fun _ => .complete, fun _ => some [1, 0]⟩

theorem faultless_quiet : Quiet .faultless .default (scan .default [boardOne]) where
  opens := rfl
  writes := fun _ _ => rfl
  reads := by decide +kernel

theorem boardOne_size : outputSize .default (scan .default [boardOne]) = 4096 := by
  decide +kernel

end Runs

end Dtbtool
