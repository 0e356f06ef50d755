import Gtexswifi.Agps.LineExactness

/-! The bytes of the stream through the buffer. `readline` runs over cells
that remember where in the stream their bytes come from, so that a byte that
is returned twice is seen. -/
namespace Agps.Atc

/-- A byte of the buffer, with its place in the stream if it comes from
there. -/
structure Cell where
  byte : UInt8
  origin : Option Nat
  deriving DecidableEq

/-- A zero that `readline` stores. -/
def zeroCell : Cell := ⟨0, none⟩

def bytes (cells : List Cell) : List UInt8 := cells.map Cell.byte

/-- The bytes of a stream, each at its place. -/
def placed (stream : List UInt8) : List Cell := stream.zipIdx.map fun c => ⟨c.1, some c.2⟩

/-- The reader over cells, with the index of the zero behind the bytes read
last. -/
structure CellReader where
  cells : List Cell
  cur : Nat
  terminator : Nat
  pending : List Cell

namespace CellReader

def init (stream : List UInt8) : CellReader where
  cells := List.replicate (maxAtResponse + 1) zeroCell
  cur := 0
  terminator := 0
  pending := placed stream

/-- What the code sees of the reader. -/
def erase (r : CellReader) : LineReader := ⟨bytes r.cells, r.cur, bytes r.pending⟩

def returnLine (r : CellReader) (pEol : Nat) : Option (Option (List Cell) × CellReader) := do
  let cells ← Memory.write r.cells pEol [zeroCell]
  return (some ((cells.drop r.cur).takeWhile (·.byte ≠ 0)),
    { r with cells := cells, cur := pEol + 1 })

/-- A full buffer is given up. -/
def makeRoom (r : CellReader) : Option CellReader :=
  if maxAtResponse - r.terminator = 0 then
    (Memory.write r.cells 0 [zeroCell]).map fun cells => ⟨cells, 0, 0, r.pending⟩
  else some r

/-- One read of the loop: room is made for it, its bytes are stored behind
the text, and newlines in front of the text are skipped. The flag says
whether the read had anything to deliver. -/
def refill (more : Nat) (r : CellReader) : Option (CellReader × Bool) := do
  let r ← makeRoom r
  let count := min (more + 1) (maxAtResponse - r.terminator)
  let chunk := r.pending.take count
  if chunk = [] then some (r, false)
  else
    let cells ← Memory.write r.cells r.terminator (chunk ++ [zeroCell])
    let cur ← skipNewlines (bytes (cells.drop r.cur)) r.cur
    some (⟨cells, cur, r.terminator + chunk.length, r.pending.drop count⟩, true)

def readLoop : List Nat → CellReader → Option (Option (List Cell) × CellReader)
  | [], r => do
      let r ← makeRoom r
      return (none, r)
  | more :: reads, r => do
      let (r, delivered) ← refill more r
      if delivered = true then
        match ← findNextEOL (bytes (r.cells.drop r.cur)) r.cur with
        | some pEol => returnLine r pEol
        | none => readLoop reads r
      else some (none, r)

def readline (reads : List Nat) (r : CellReader) : Option (Option (List Cell) × CellReader) := do
  if (← r.cells[r.cur]?).byte = 0 then
    let cells ← Memory.write r.cells 0 [zeroCell]
    readLoop reads { r with cells := cells, cur := 0, terminator := 0 }
  else
    let cur ← skipNewlines (bytes (r.cells.drop r.cur)) r.cur
    match ← findNextEOL (bytes (r.cells.drop cur)) cur with
    | some pEol => returnLine { r with cur := cur } pEol
    | none =>
        let len ← strlen (bytes (r.cells.drop cur))
        let text ← Memory.slice r.cells cur (len + 1)
        let cells ← Memory.write r.cells 0 text
        readLoop reads { r with cells := cells, cur := 0, terminator := len }

end CellReader

/-- What the code sees of an outcome. -/
def eraseOutcome (outcome : Option (List Cell) × CellReader) : Option (List UInt8) × LineReader :=
  (outcome.1.map bytes, outcome.2.erase)

/-- A store of cells is the store of their characters. Where it leaves the
object, so does the other. -/
theorem write_bytes (object : List Cell) (offset : Nat) (cells : List Cell) :
    Memory.write (bytes object) offset (bytes cells) =
      (Memory.write object offset cells).map bytes := by
  unfold Memory.write bytes
  rw [List.length_map, List.length_map]
  split
  · simp
  · rfl

theorem slice_bytes (object : List Cell) (offset len : Nat) :
    Memory.slice (bytes object) offset len = (Memory.slice object offset len).map bytes := by
  unfold Memory.slice bytes
  rw [List.length_map]
  split
  · simp
  · rfl

/-- The characters from a cursor on are those of the cells from it on. -/
theorem drop_bytes (cells : List Cell) (cur : Nat) :
    (bytes cells).drop cur = bytes (cells.drop cur) := (List.map_drop ..).symm

/-- A string in the buffer ends at the first cell that holds a zero,
wherever that zero comes from. -/
theorem cString_bytes (cells : List Cell) (cur : Nat) :
    cString (bytes cells) cur = bytes ((cells.drop cur).takeWhile (·.byte ≠ 0)) := by
  rw [cString, drop_bytes, bytes, List.takeWhile_map]
  rfl

/-- The end of a line is overwritten, and the line returned, in the same way
over cells and over characters. -/
theorem returnLine_erase (r : CellReader) (pEol : Nat) :
    returnLine r.erase pEol = (r.returnLine pEol).map eraseOutcome := by
  have hWrite := write_bytes r.cells pEol [zeroCell]
  unfold returnLine CellReader.returnLine
  change (Memory.write (bytes r.cells) pEol (bytes [zeroCell]) >>= _) = _
  rw [hWrite]
  cases Memory.write r.cells pEol [zeroCell] with
  | none => rfl
  | some cells =>
      simp only [Option.map_some, Option.bind_eq_bind, Option.bind_some, Option.pure_def]
      rw [show r.erase.cur = r.cur from rfl, cString_bytes]
      rfl

/-- One read of the loop of `readline`, with the index behind the bytes that
it stored, if it had anything to deliver. -/
def refill (more : Nat) (r : LineReader) (pRead : Nat) : Option (LineReader × Option Nat) := do
  let (r, pRead) ← makeRoom r pRead
  let count := min (more + 1) (maxAtResponse - pRead)
  let chunk := r.pending.take count
  if chunk = [] then some (r, none)
  else
    let buffer ← Memory.write r.buffer pRead (chunk ++ [0])
    let cur ← skipNewlines (buffer.drop r.cur) r.cur
    some (⟨buffer, cur, r.pending.drop count⟩, some (pRead + chunk.length))

/-- One pass of the loop: room is made, a read fills it, and the line is
returned if its end has come with the read. -/
theorem readLoop_cons (more : Nat) (reads : List Nat) (r : LineReader) (pRead : Nat) :
    readLoop (more :: reads) r pRead = (refill more r pRead).bind fun next =>
      match next.2 with
      | none => some (none, next.1)
      | some pRead =>
          (findNextEOL (next.1.buffer.drop next.1.cur) next.1.cur).bind fun eol =>
            match eol with
            | some pEol => returnLine next.1 pEol
            | none => readLoop reads next.1 pRead := by
  rw [readLoop, refill]
  cases makeRoom r pRead with
  | none => rfl
  | some room =>
      simp only [Option.bind_eq_bind, Option.bind_some, Option.pure_def]
      split
      · rfl
      · cases Memory.write room.1.buffer room.2 (room.1.pending.take
            (min (more + 1) (maxAtResponse - room.2)) ++ [0]) with
        | none => rfl
        | some buffer =>
            simp only [Option.bind_some]
            cases skipNewlines (buffer.drop room.1.cur) room.1.cur with
            | none => rfl
            | some cur => rfl

theorem bytes_eq_nil {cells : List Cell} : bytes cells = [] ↔ cells = [] := List.map_eq_nil_iff

/-- The text is moved to the start of the buffer in the same way over cells
and over characters. -/
theorem makeRoom_erase (r : CellReader) : makeRoom r.erase r.terminator =
    r.makeRoom.map fun room => (room.erase, room.terminator) := by
  rw [makeRoom, CellReader.makeRoom]
  split
  · have hWrite := write_bytes r.cells 0 [zeroCell]
    rw [show r.erase.buffer = bytes r.cells from rfl,
      show ([0] : List UInt8) = bytes [zeroCell] from rfl, hWrite, Option.map_map, Option.map_map]
    rfl
  · rfl

/-- A read puts the same characters behind the text, and the same terminator
behind them. -/
theorem refill_erase (more : Nat) (r : CellReader) :
    refill more r.erase r.terminator = (r.refill more).map fun next =>
      (next.1.erase, if next.2 = true then some next.1.terminator else none) := by
  have hRest (r : CellReader) (count : Nat) :
      (if r.erase.pending.take count = [] then some (r.erase, none)
        else (Memory.write r.erase.buffer r.terminator
            (r.erase.pending.take count ++ [0])).bind fun buffer =>
          (skipNewlines (buffer.drop r.erase.cur) r.erase.cur).bind fun cur =>
            some ((⟨buffer, cur, r.erase.pending.drop count⟩ : LineReader),
              some (r.terminator + (r.erase.pending.take count).length))) =
      (if r.pending.take count = [] then some (r, false)
        else (Memory.write r.cells r.terminator (r.pending.take count ++ [zeroCell])).bind
          fun cells => (skipNewlines (bytes (cells.drop r.cur)) r.cur).bind fun cur =>
            some ((⟨cells, cur, r.terminator + (r.pending.take count).length,
              r.pending.drop count⟩ : CellReader), true)).map fun next =>
        (next.1.erase, if next.2 = true then some next.1.terminator else none) := by
    have hTake : r.erase.pending.take count = bytes (r.pending.take count) :=
      (List.map_take ..).symm
    have hWrite := write_bytes r.cells r.terminator (r.pending.take count ++ [zeroCell])
    rw [show bytes (r.pending.take count ++ [zeroCell]) = bytes (r.pending.take count) ++ [0] from
      List.map_append] at hWrite
    rw [hTake]
    by_cases hChunk : r.pending.take count = []
    · rw [if_pos (bytes_eq_nil.mpr hChunk), if_pos hChunk]
      rfl
    · rw [if_neg (mt bytes_eq_nil.mp hChunk), if_neg hChunk,
        show r.erase.buffer = bytes r.cells from rfl, hWrite]
      cases Memory.write r.cells r.terminator (r.pending.take count ++ [zeroCell]) with
      | none => rfl
      | some cells =>
          simp only [Option.map_some, Option.bind_some, drop_bytes,
            show r.erase.cur = r.cur from rfl]
          cases skipNewlines (bytes (cells.drop r.cur)) r.cur with
          | none => rfl
          | some cur =>
              simp [CellReader.erase, bytes]
  rw [refill, CellReader.refill, makeRoom_erase]
  cases r.makeRoom with
  | none => rfl
  | some room => exact hRest room _

/-- By induction on the reads, the loop over cells runs as the code does and
returns the same line. -/
theorem readLoop_erase (reads : List Nat) (r : CellReader) :
    readLoop reads r.erase r.terminator = (r.readLoop reads).map eraseOutcome := by
  induction reads generalizing r with
  | nil =>
      rw [readLoop, CellReader.readLoop, makeRoom_erase]
      cases r.makeRoom with
      | none => rfl
      | some room => rfl
  | cons more reads ih =>
      rw [readLoop_cons, CellReader.readLoop, refill_erase]
      cases r.refill more with
      | none => rfl
      | some next =>
          obtain ⟨r, delivered⟩ := next
          cases delivered with
          | false => rfl
          | true =>
              simp only [Option.map_some, Option.bind_eq_bind, Option.bind_some, if_true,
                show r.erase.buffer = bytes r.cells from rfl, show r.erase.cur = r.cur from rfl,
                drop_bytes]
              cases findNextEOL (bytes (r.cells.drop r.cur)) r.cur with
              | none => rfl
              | some eol =>
                  cases eol with
                  | some pEol => exact returnLine_erase r pEol
                  | none => exact ih r

/-- Over cells runs the same code. -/
theorem readline_erase (reads : List Nat) (r : CellReader) :
    readline reads r.erase = (r.readline reads).map eraseOutcome := by
  have hFirst : r.erase.buffer[r.erase.cur]? = (r.cells[r.cur]?).map Cell.byte :=
    List.getElem?_map ..
  unfold readline CellReader.readline
  rw [hFirst]
  cases r.cells[r.cur]? with
  | none => rfl
  | some c =>
      simp only [Option.map_some, Option.bind_eq_bind, Option.bind_some,
        show r.erase.buffer = bytes r.cells from rfl, show r.erase.cur = r.cur from rfl,
        drop_bytes]
      split
      · have hWrite := write_bytes r.cells 0 [zeroCell]
        change ((Memory.write (bytes r.cells) 0 (bytes [zeroCell])).bind _) = _
        rw [hWrite]
        cases Memory.write r.cells 0 [zeroCell] with
        | none => rfl
        | some cells => exact readLoop_erase reads ⟨cells, 0, 0, r.pending⟩
      · cases skipNewlines (bytes (r.cells.drop r.cur)) r.cur with
        | none => rfl
        | some cur =>
            simp only [Option.bind_some]
            cases findNextEOL (bytes (r.cells.drop cur)) cur with
            | none => rfl
            | some eol =>
                cases eol with
                | some pEol => exact returnLine_erase { r with cur := cur } pEol
                | none =>
                    simp only [Option.bind_some]
                    cases strlen (bytes (r.cells.drop cur)) with
                    | none => rfl
                    | some len =>
                        simp only [Option.bind_some, slice_bytes]
                        cases Memory.slice r.cells cur (len + 1) with
                        | none => rfl
                        | some text =>
                            simp only [Option.map_some, Option.bind_some, write_bytes]
                            cases Memory.write r.cells 0 text with
                            | none => rfl
                            | some cells => exact readLoop_erase reads ⟨cells, 0, len, r.pending⟩

/-- The first branch of `findNextEOL`. -/
def isPrompt (cells : List UInt8) : Bool := cells.take 3 = [0x3e, 0x20, 0]

/-- Whether `findNextEOL` takes its first branch in the loop of `readline`. -/
def loopMeetsPrompt : List Nat → LineReader → Nat → Option Bool
  | [], _, _ => some false
  | more :: reads, r, pRead => do
      match ← refill more r pRead with
      | (_, none) => some false
      | (r, some pRead) =>
          if isPrompt (r.buffer.drop r.cur) = true then some true
          else
            match ← scanEol (r.buffer.drop r.cur) r.cur with
            | some _ => some false
            | none => loopMeetsPrompt reads r pRead

/-- Whether `findNextEOL` takes its first branch in a call. -/
def meetsPrompt (reads : List Nat) (r : LineReader) : Option Bool := do
  if (← r.buffer[r.cur]?) = 0 then
    let buffer ← Memory.write r.buffer 0 [0]
    loopMeetsPrompt reads { r with buffer := buffer, cur := 0 } 0
  else
    let cur ← skipNewlines (r.buffer.drop r.cur) r.cur
    if isPrompt (r.buffer.drop cur) = true then some true
    else
      match ← scanEol (r.buffer.drop cur) cur with
      | some _ => some false
      | none =>
          let len ← strlen (r.buffer.drop cur)
          let text ← Memory.slice r.buffer cur (len + 1)
          let buffer ← Memory.write r.buffer 0 text
          loopMeetsPrompt reads { r with buffer := buffer, cur := 0 } len

/-- From the cursor to the zero behind the bytes read last stands `text`. -/
structure Holds (text : List Cell) (r : CellReader) : Prop where
  memory : ∃ before tail, r.cells = before ++ text ++ zeroCell :: tail ∧ before.length = r.cur
  terminator_eq : r.terminator = r.cur + text.length
  length_cells : r.cells.length = maxAtResponse + 1

/-- The text has no newline, or a line at its front. -/
def OpenOrLine (text : List Cell) : Prop :=
  (∀ c ∈ text, isNewline c.byte = false) ∨
    ∃ line c more, text = line ++ c :: more ∧ line ≠ [] ∧ (∀ x ∈ line, isNewline x.byte = false) ∧
      isNewline c.byte = true

/-- The text, the terminator, and what older reads have left behind it. -/
theorem bytes_text (text tail : List Cell) :
    bytes (text ++ zeroCell :: tail) = bytes text ++ 0 :: bytes tail := List.map_append

theorem bytes_ne_zero {cells : List Cell} (h : ∀ c ∈ cells, c.byte ≠ 0) :
    ∀ c ∈ bytes cells, c ≠ 0 := by
  intro c hc
  obtain ⟨cell, hCell, rfl⟩ := List.mem_map.mp hc
  exact h cell hCell

/-- The prompt is the whole text. -/
theorem isPrompt_text {text tail : List UInt8} (hZero : ∀ c ∈ text, c ≠ 0) :
    isPrompt (text ++ 0 :: tail) = true ↔ text = [0x3e, 0x20] := by
  unfold isPrompt
  rw [decide_eq_true_iff]
  match text with
  | [] => simp
  | [a] => simp
  | [a, b] => simp
  | a :: b :: c :: text =>
      have hThird : c ≠ 0 := hZero c (by simp)
      simp [hThird]

section Holds

variable {text : List Cell} {r : CellReader}

/-- At the start the buffer is all terminators and holds the empty text. -/
theorem CellReader.init_holds (stream : List UInt8) : Holds [] (CellReader.init stream) where
  memory := ⟨[], List.replicate maxAtResponse zeroCell, rfl, rfl⟩
  terminator_eq := rfl
  length_cells := List.length_replicate

/-- From the cursor on the buffer holds the text and its terminator. -/
theorem Holds.drop_cur (h : Holds text r) :
    ∃ tail, r.cells.drop r.cur = text ++ zeroCell :: tail := by
  obtain ⟨before, tail, hMemory, hCur⟩ := h.memory
  refine ⟨tail, ?_⟩
  rw [hMemory, ← hCur, List.append_assoc, List.drop_left]

/-- The terminator lies in the buffer, so that the code that looks for it
stays there. -/
theorem Holds.terminator_lt (h : Holds text r) : r.terminator < r.cells.length := by
  obtain ⟨before, tail, hMemory, hCur⟩ := h.memory
  have hLength := congrArg List.length hMemory
  have hTerminator := h.terminator_eq
  simp only [List.length_append, List.length_cons] at hLength
  omega

/-- Newlines in front of the text are skipped. -/
theorem Holds.skip (h : Holds text r) :
    ∃ run rest, text = run ++ rest ∧ (∀ c ∈ run, isNewline c.byte = true) ∧
      skipNewlines (bytes (r.cells.drop r.cur)) r.cur = some (r.cur + run.length) ∧
      Holds rest { r with cur := r.cur + run.length } ∧
      (∀ c ∈ rest.head?, isNewline c.byte = false) ∧ OpenOrLine rest := by
  obtain ⟨tail, hDrop⟩ := h.drop_cur
  obtain ⟨before, behind, hMemory, hCur⟩ := h.memory
  have hTerminator := h.terminator_eq
  obtain ⟨run, rest, rfl, hRun, hHead, hRest⟩ :=
    Lines.exists_split (fun c : Cell => isNewline c.byte) text
  rw [List.length_append] at hTerminator
  refine ⟨run, rest, rfl, hRun, ?_, ⟨⟨before ++ run, behind, ?_, ?_⟩, ?_, h.length_cells⟩, hHead,
    hRest⟩
  · have hBytes : ∀ c ∈ bytes run, isNewline c = true := by
      intro c hc
      obtain ⟨cell, hCell, rfl⟩ := List.mem_map.mp hc
      exact hRun cell hCell
    have hLength : (bytes run).length = run.length := List.length_map _
    rw [hDrop, List.append_assoc, bytes, List.map_append, ← hLength]
    cases rest with
    | nil => exact skipNewlines_run hBytes (by decide) _
    | cons c rest => exact skipNewlines_run hBytes (hHead c rfl) _
  · rw [hMemory]
    simp only [List.append_assoc]
  · rw [List.length_append, hCur]
  · dsimp only
    omega

/-- The zero over the end of a line, which is returned. -/
theorem Holds.returnLine {line more : List Cell} {c : Cell} (hLine : ∀ x ∈ line, x.byte ≠ 0)
    (h : Holds (line ++ c :: more) r) :
    ∃ r', r.returnLine (r.cur + line.length) = some (some line, r') ∧ Holds more r' ∧
      r'.pending = r.pending := by
  obtain ⟨before, tail, hMemory, hCur⟩ := h.memory
  have hWrite := Memory.write_append (before ++ line) [c] [zeroCell]
    (more ++ zeroCell :: tail) rfl
  have hShape : before ++ line ++ [c] ++ (more ++ zeroCell :: tail) = r.cells := by
    rw [hMemory]
    simp
  rw [hShape, List.length_append, hCur] at hWrite
  have hText : ((before ++ line ++ [zeroCell] ++ (more ++ zeroCell :: tail)).drop
      r.cur).takeWhile (·.byte ≠ 0) = line := by
    rw [← hCur, List.append_assoc, List.append_assoc, List.drop_left,
      List.takeWhile_append_of_pos (by simpa using hLine)]
    simp [zeroCell]
  refine ⟨⟨before ++ line ++ [zeroCell] ++ (more ++ zeroCell :: tail), r.cur + line.length + 1,
    r.terminator, r.pending⟩, ?_, ⟨⟨before ++ line ++ [zeroCell], tail, by simp, ?_⟩, ?_, ?_⟩, rfl⟩
  · rw [CellReader.returnLine, hWrite]
    simp only [Option.bind_eq_bind, Option.bind_some, hText, Option.pure_def]
  · simp only [List.length_append, hCur]
    rfl
  · have hTerminator := h.terminator_eq
    rw [List.length_append, List.length_cons] at hTerminator
    dsimp only
    omega
  · have hLength := h.length_cells
    rw [← hShape] at hLength
    simp only [List.length_append, List.length_cons] at hLength ⊢
    exact hLength

/-- The prompt, whose end is the zero behind the bytes read last. It is in
place already. -/
theorem Holds.returnPrompt (hText : ∀ c ∈ text, c.byte ≠ 0) (h : Holds text r)
    (hPrompt : text.length = 2) :
    r.returnLine (r.cur + 2) = some (some text, { r with cur := r.terminator + 1 }) := by
  obtain ⟨before, tail, hMemory, hCur⟩ := h.memory
  have hEnd : r.cur + 2 = r.terminator := by rw [h.terminator_eq, hPrompt]
  have hAt : (before ++ text).length = r.terminator := by
    rw [List.length_append, hCur, h.terminator_eq]
  have hWrite := Memory.write_append (before ++ text) [zeroCell] [zeroCell] tail rfl
  rw [hAt, List.append_assoc (before ++ text), List.singleton_append, ← hMemory] at hWrite
  have hReturned : (r.cells.drop r.cur).takeWhile (·.byte ≠ 0) = text := by
    rw [hMemory, ← hCur, List.append_assoc, List.drop_left,
      List.takeWhile_append_of_pos (by simpa using hText)]
    simp [zeroCell]
  rw [CellReader.returnLine, hEnd, hWrite]
  simp only [Option.bind_eq_bind, Option.bind_some, hReturned, Option.pure_def]

/-- What a search makes of the text: the prompt, a line, or text that is
left open. -/
theorem Holds.search (hText : ∀ c ∈ text, c.byte ≠ 0) (h : Holds text r)
    (hOpenOrLine : OpenOrLine text) :
    (isPrompt (bytes (r.cells.drop r.cur)) = true ∧ bytes text = [0x3e, 0x20] ∧
      findNextEOL (bytes (r.cells.drop r.cur)) r.cur = some (some (r.cur + 2))) ∨
    (isPrompt (bytes (r.cells.drop r.cur)) = false ∧
      findNextEOL (bytes (r.cells.drop r.cur)) r.cur =
        scanEol (bytes (r.cells.drop r.cur)) r.cur ∧
      ((∃ line c more, text = line ++ c :: more ∧ line ≠ [] ∧
          (∀ x ∈ line, isNewline x.byte = false) ∧ isNewline c.byte = true ∧
          scanEol (bytes (r.cells.drop r.cur)) r.cur = some (some (r.cur + line.length))) ∨
        scanEol (bytes (r.cells.drop r.cur)) r.cur = some none)) := by
  obtain ⟨tail, hDrop⟩ := h.drop_cur
  have hBytes := bytes_ne_zero hText
  rw [hDrop, bytes_text]
  by_cases hPrompt : isPrompt (bytes text ++ 0 :: bytes tail) = true
  · exact Or.inl ⟨hPrompt, (isPrompt_text hBytes).mp hPrompt, if_pos (of_decide_eq_true hPrompt)⟩
  · refine Or.inr ⟨eq_false_of_ne_true hPrompt,
      if_neg (mt decide_eq_true hPrompt), ?_⟩
    have hOf {cells : List Cell} (hCells : ∀ x ∈ cells, isNewline x.byte = false) :
        ∀ x ∈ bytes cells, isNewline x = false := by
      intro x hx
      obtain ⟨cell, hCell, rfl⟩ := List.mem_map.mp hx
      exact hCells cell hCell
    rcases hOpenOrLine with hOpen | ⟨line, c, more, rfl, hNe, hLine, hc⟩
    · exact Or.inr (scanEol_open hBytes (hOf hOpen) _ _)
    · have hScan : scanEol (bytes line ++ c.byte :: (bytes more ++ 0 :: bytes tail)) r.cur =
          some (some (r.cur + (bytes line).length)) := by
        apply scanEol_line _ (hOf hLine) hc
        intro x hx
        apply hBytes x
        simp only [bytes, List.map_append, List.mem_append] at hx ⊢
        exact Or.inl hx
      rw [show (bytes line).length = line.length from List.length_map _] at hScan
      refine Or.inl ⟨line, c, more, rfl, hNe, hLine, hc, ?_⟩
      simpa [bytes] using hScan

/-- A buffer is given up. -/
theorem giveUp_holds (h : r.cells.length = maxAtResponse + 1) :
    ∃ cells, Memory.write r.cells 0 [zeroCell] = some cells ∧
      Holds [] ⟨cells, 0, 0, r.pending⟩ := by
  obtain ⟨c, cells, hCells⟩ : ∃ c cells, r.cells = c :: cells := by
    apply List.exists_cons_of_length_pos
    rw [h]
    exact Nat.succ_pos _
  rw [hCells] at h
  refine ⟨zeroCell :: cells, ?_, ⟨[], cells, rfl, rfl⟩, rfl, h⟩
  rw [hCells]
  exact Memory.write_append [] [c] [zeroCell] cells rfl

/-- A call that finds its buffer used up starts with an empty one. -/
theorem readline_empty {cells : List Cell} (hFirst : (r.cells[r.cur]?).map Cell.byte = some 0)
    (hWrite : Memory.write r.cells 0 [zeroCell] = some cells) (reads : List Nat) :
    r.readline reads = CellReader.readLoop reads ⟨cells, 0, 0, r.pending⟩ := by
  obtain ⟨c, hCell, hByte⟩ := Option.map_eq_some_iff.mp hFirst
  rw [CellReader.readline, hCell]
  simp only [Option.bind_eq_bind, Option.bind_some, if_pos hByte, hWrite]

/-- Making room for a read gives up the text of a full buffer. -/
theorem Holds.makeRoom (h : Holds text r) :
    ∃ r' text', r.makeRoom = some r' ∧ r'.terminator < maxAtResponse ∧ Holds text' r' ∧
      r'.pending = r.pending ∧ (text' = text ∨ (maxAtResponse - r.terminator = 0 ∧ text' = [])) := by
  unfold CellReader.makeRoom
  by_cases hFull : maxAtResponse - r.terminator = 0
  · obtain ⟨cells, hWrite, hFresh⟩ := giveUp_holds h.length_cells
    refine ⟨_, [], ?_, Nat.succ_pos _, hFresh, rfl, .inr ⟨hFull, rfl⟩⟩
    rw [if_pos hFull, hWrite]
    rfl
  · exact ⟨r, text, if_neg hFull, by omega, h, rfl, .inl rfl⟩

/-- What a read delivers goes behind the text. -/
theorem Holds.deliver (h : Holds text r) (count : Nat)
    (hFits : r.terminator + (r.pending.take count).length ≤ maxAtResponse) :
    ∃ cells, Memory.write r.cells r.terminator (r.pending.take count ++ [zeroCell]) = some cells ∧
      Holds (text ++ r.pending.take count)
        ⟨cells, r.cur, r.terminator + (r.pending.take count).length, r.pending.drop count⟩ := by
  obtain ⟨before, tail, hMemory, hCur⟩ := h.memory
  have hTerminator : (before ++ text).length = r.terminator := by
    rw [List.length_append, hCur, h.terminator_eq]
  have hLength := h.length_cells
  rw [hMemory, List.length_append, List.length_cons, hTerminator] at hLength
  have hWrite := @write_chunk _ zeroCell (before ++ text) (r.pending.take count) tail (by omega)
  rw [← hMemory, hTerminator] at hWrite
  refine ⟨_, hWrite, ⟨before, _, by rw [List.append_assoc before], hCur⟩, ?_, ?_⟩
  · rw [List.length_append, h.terminator_eq, Nat.add_assoc]
  · simp only [List.length_append, List.length_cons, List.length_drop] at hTerminator ⊢
    omega

/-- A read puts a chunk behind the text, if that has not been given up, and
skips newlines. -/
theorem Holds.refill (h : Holds text r) (more : Nat) :
    ∃ r' delivered text' chunk run rest, r.refill more = some (r', delivered) ∧
      (text' = text ∨ (maxAtResponse - r.terminator = 0 ∧ text' = [])) ∧
      r.pending = chunk ++ r'.pending ∧ text' ++ chunk = run ++ rest ∧
      (∀ c ∈ run, isNewline c.byte = true) ∧ Holds rest r' ∧
      (delivered = true → (∀ c ∈ rest.head?, isNewline c.byte = false) ∧ OpenOrLine rest) := by
  obtain ⟨room, text', hRoom, hSpace, hHolds, hPending, hText⟩ := h.makeRoom
  rw [CellReader.refill, hRoom]
  simp only [Option.bind_eq_bind, Option.bind_some]
  generalize hCount : min (more + 1) (maxAtResponse - room.terminator) = count
  by_cases hChunk : room.pending.take count = []
  · rw [if_pos hChunk]
    exact ⟨room, false, text', [], [], text', rfl, hText, hPending.symm, List.append_nil _,
      List.forall_mem_nil _, hHolds, fun hFalse => absurd hFalse Bool.false_ne_true⟩
  · rw [if_neg hChunk]
    have hLength := List.length_take_le count room.pending
    obtain ⟨cells, hWrite, hDelivered⟩ := hHolds.deliver count (by omega)
    obtain ⟨run, rest, hSplit, hRun, hSkip, hRest, hHead⟩ := hDelivered.skip
    dsimp only at hSkip
    rw [hWrite, Option.bind_some, hSkip, Option.bind_some]
    refine ⟨_, true, text', room.pending.take count, run, rest, rfl, hText, ?_, hSplit, hRun,
      hRest, fun _ => hHead⟩
    rw [← hPending, List.take_append_drop]

/-- The partial line, with its zero, goes to the start of the buffer. -/
theorem Holds.move (h : Holds text r) :
    ∃ cells, Memory.slice r.cells r.cur (text.length + 1) = some (text ++ [zeroCell]) ∧
      Memory.write r.cells 0 (text ++ [zeroCell]) = some cells ∧
      Holds text ⟨cells, 0, text.length, r.pending⟩ := by
  obtain ⟨before, tail, hMemory, hCur⟩ := h.memory
  obtain ⟨tail', hSlice, hWrite, hLength⟩ := @move_pending _ zeroCell before [] text tail
  rw [List.append_nil, hCur, ← hMemory] at hSlice
  rw [List.append_nil, ← hMemory] at hWrite hLength
  refine ⟨text ++ zeroCell :: tail', hSlice, hWrite, ⟨[], tail', rfl, rfl⟩, ?_, ?_⟩
  · exact (Nat.zero_add _).symm
  · rw [hLength]
    exact h.length_cells

end Holds

/-- From the cursor to the zero behind the bytes read last stands `text`,
and the bytes returned, in the text and not delivered yet are bytes of the
stream, in its order. -/
structure Intact (stream : List UInt8) (returned : List (List Cell)) (text : List Cell)
    (r : CellReader) : Prop where
  memory : ∃ before tail, r.cells = before ++ text ++ zeroCell :: tail ∧ before.length = r.cur
  terminator_eq : r.terminator = r.cur + text.length
  length_cells : r.cells.length = maxAtResponse + 1
  sublist : (returned.flatten ++ text ++ r.pending).Sublist (placed stream)

/-- A call that meets no prompt keeps the invariant, and one that does ends
with the cursor behind the zero. -/
def CallOutcome (stream : List UInt8) (returned : List (List Cell)) (met : Bool)
    (result : Option (List Cell)) (r : CellReader) : Prop :=
  if met = true then r.terminator < r.cur
  else ∃ text, Intact stream (returned ++ result.toList) text r

theorem placed_ne_zero {stream : List UInt8} (hZero : ∀ c ∈ stream, c ≠ 0) :
    ∀ c ∈ placed stream, c.byte ≠ 0 := by
  intro c hc
  obtain ⟨entry, hEntry, rfl⟩ := List.mem_map.mp hc
  exact hZero entry.1 (List.fst_mem_of_mem_zipIdx hEntry)

section Calls

variable {stream : List UInt8} {returned : List (List Cell)} {text : List Cell} {r : CellReader}

/-- What is intact is in the buffer as the reader takes it to be. -/
theorem Intact.holds (h : Intact stream returned text r) : Holds text r :=
  ⟨h.memory, h.terminator_eq, h.length_cells⟩

/-- The text is intact as soon as what was returned, what is buffered and
what is to come are in the order of the stream. -/
theorem Holds.intact (h : Holds text r)
    (hSublist : (returned.flatten ++ text ++ r.pending).Sublist (placed stream)) :
    Intact stream returned text r :=
  ⟨h.memory, h.terminator_eq, h.length_cells, hSublist⟩

/-- The text stems from the stream, and holds no zero if the stream has
none. -/
theorem Intact.ne_zero (h : Intact stream returned text r) (hZero : ∀ c ∈ stream, c ≠ 0) :
    ∀ c ∈ text, c.byte ≠ 0 := by
  intro c hc
  apply placed_ne_zero hZero c
  exact h.sublist.subset (by simp [hc])

/-- Newlines in front of the text are skipped. -/
theorem Intact.skip (h : Intact stream returned text r) :
    ∃ cur rest, skipNewlines (bytes (r.cells.drop r.cur)) r.cur = some cur ∧
      Intact stream returned rest { r with cur := cur } ∧ OpenOrLine rest := by
  obtain ⟨run, rest, rfl, -, hSkip, hRest, -, hSplit⟩ := h.holds.skip
  refine ⟨r.cur + run.length, rest, hSkip, hRest.intact ?_, hSplit⟩
  refine List.Sublist.trans ?_ h.sublist
  simp only [List.append_assoc]
  exact (List.Sublist.refl _).append (List.sublist_append_right run _)

/-- A line that is returned is taken off the front of the text. The rest
stays in the buffer with its origins. -/
theorem Intact.returnLine {line more : List Cell} {c : Cell} (hZero : ∀ c ∈ stream, c ≠ 0)
    (h : Intact stream returned (line ++ c :: more) r) :
    ∃ r', r.returnLine (r.cur + line.length) = some (some line, r') ∧
      Intact stream (returned ++ [line]) more r' := by
  obtain ⟨r', hReturn, hMore, hPending⟩ := h.holds.returnLine fun x hx =>
    h.ne_zero hZero x (List.mem_append_left _ hx)
  refine ⟨r', hReturn, hMore.intact ?_⟩
  refine List.Sublist.trans ?_ h.sublist
  rw [hPending]
  simp only [List.flatten_append, List.flatten_singleton, List.append_assoc, List.cons_append]
  exact (List.Sublist.refl _).append
    ((List.Sublist.refl _).append (List.sublist_cons_self c _))

/-- What a search makes of an intact reader: the prompt, a line, or text
that is left open. -/
theorem Intact.search (hZero : ∀ c ∈ stream, c ≠ 0) (h : Intact stream returned text r)
    (hText : OpenOrLine text) :
    (isPrompt (bytes (r.cells.drop r.cur)) = true ∧
      findNextEOL (bytes (r.cells.drop r.cur)) r.cur = some (some (r.cur + 2)) ∧
        text.length = 2) ∨
    (isPrompt (bytes (r.cells.drop r.cur)) = false ∧
      findNextEOL (bytes (r.cells.drop r.cur)) r.cur =
        scanEol (bytes (r.cells.drop r.cur)) r.cur ∧
      ((∃ line r' more, scanEol (bytes (r.cells.drop r.cur)) r.cur =
          some (some (r.cur + line.length)) ∧
          r.returnLine (r.cur + line.length) = some (some line, r') ∧
          Intact stream (returned ++ [line]) more r') ∨
        scanEol (bytes (r.cells.drop r.cur)) r.cur = some none)) := by
  rcases h.holds.search (h.ne_zero hZero) hText with
    ⟨hPrompt, hBytes, hFind⟩ | ⟨hPrompt, hFind, hLine | hOpen⟩
  · have hLength := congrArg List.length hBytes
    rw [bytes, List.length_map] at hLength
    exact Or.inl ⟨hPrompt, hFind, hLength⟩
  · obtain ⟨line, c, more, rfl, -, -, -, hScan⟩ := hLine
    obtain ⟨r', hReturn, hIntact⟩ := h.returnLine hZero
    exact Or.inr ⟨hPrompt, hFind, .inl ⟨line, r', more, hScan, hReturn, hIntact⟩⟩
  · exact Or.inr ⟨hPrompt, hFind, .inr hOpen⟩

/-- Text that is given up takes nothing else with it. -/
theorem Intact.giveUp (h : Intact stream returned text r) {r' : CellReader} {text' : List Cell}
    (hHolds : Holds text' r') (hPending : r'.pending = r.pending)
    (hText : text' = text ∨ text' = []) : Intact stream returned text' r' := by
  refine hHolds.intact (List.Sublist.trans ?_ h.sublist)
  rw [hPending]
  rcases hText with rfl | rfl
  · exact List.Sublist.refl _
  · rw [List.append_nil]
    exact (List.sublist_append_left _ _).append (List.Sublist.refl _)

/-- A read adds to the text what comes next in the stream. Where it had to
ditch the buffer first, the order is kept although cells are lost. -/
theorem Intact.refill (h : Intact stream returned text r) (more : Nat) :
    ∃ r' delivered text', r.refill more = some (r', delivered) ∧
      Intact stream returned text' r' ∧ (delivered = true → OpenOrLine text') := by
  obtain ⟨r', delivered, kept, chunk, run, rest, hRefill, hKept, hPending, hSplit, -, hRest,
    hOpenOrLine⟩ := h.holds.refill more
  refine ⟨r', delivered, rest, hRefill, hRest.intact ?_, fun hTrue => (hOpenOrLine hTrue).2⟩
  have hSublist := h.sublist
  rw [hPending] at hSublist
  refine List.Sublist.trans ?_ hSublist
  have hBehind : (rest ++ r'.pending).Sublist (kept ++ (chunk ++ r'.pending)) := by
    rw [← List.append_assoc, hSplit, List.append_assoc]
    exact List.sublist_append_right run _
  have hFront : (kept ++ (chunk ++ r'.pending)).Sublist (text ++ (chunk ++ r'.pending)) := by
    rcases hKept with rfl | ⟨-, rfl⟩
    · exact List.Sublist.refl _
    · exact List.sublist_append_right text _
  simp only [List.append_assoc]
  exact (List.Sublist.refl _).append (hBehind.trans hFront)

/-- The loop of a call, from any intact state. -/
theorem Intact.readLoop (hZero : ∀ c ∈ stream, c ≠ 0) (reads : List Nat)
    (h : Intact stream returned text r) :
    ∃ met result r', loopMeetsPrompt reads r.erase r.terminator = some met ∧
      r.readLoop reads = some (result, r') ∧ CallOutcome stream returned met result r' := by
  have hNull {text : List Cell} {r : CellReader} (h : Intact stream returned text r) :
      CallOutcome stream returned false none r := by
    refine ⟨text, ?_⟩
    simpa using h
  induction reads generalizing r text with
  | nil =>
      obtain ⟨room, text', hRoom, -, hHolds, hPending, hText⟩ := h.holds.makeRoom
      have hIntact := h.giveUp hHolds hPending (hText.imp_right And.right)
      refine ⟨false, none, room, rfl, ?_, hNull hIntact⟩
      rw [CellReader.readLoop, hRoom]
      rfl
  | cons more reads ih =>
      obtain ⟨next, delivered, rest, hRefill, hRest, hSplit⟩ := h.refill more
      rw [loopMeetsPrompt, refill_erase, CellReader.readLoop, hRefill]
      simp only [Option.map_some, Option.bind_eq_bind, Option.bind_some]
      cases delivered with
      | false => exact ⟨false, none, next, rfl, rfl, hNull hRest⟩
      | true =>
          simp only [if_true, show next.erase.buffer = bytes next.cells from rfl,
            show next.erase.cur = next.cur from rfl, drop_bytes]
          rcases hRest.search hZero (hSplit rfl) with
            ⟨hPrompt, hFind, hTwo⟩ | ⟨hPrompt, hFind, hLine | hOpen⟩
          · have hReturn := hRest.holds.returnPrompt (hRest.ne_zero hZero) hTwo
            rw [if_pos hPrompt, hFind]
            exact ⟨true, _, _, rfl, hReturn, Nat.lt_succ_self _⟩
          · obtain ⟨line, r', text', hScan, hReturn, hIntact⟩ := hLine
            rw [if_neg (by rw [hPrompt]; decide), hFind, hScan]
            exact ⟨false, some line, r', rfl, hReturn, text', hIntact⟩
          · rw [if_neg (by rw [hPrompt]; decide), hFind, hOpen]
            exact ih hRest

/-- One call, from any intact state. -/
theorem Intact.readline (hZero : ∀ c ∈ stream, c ≠ 0) (reads : List Nat)
    (h : Intact stream returned text r) :
    ∃ met result r', meetsPrompt reads r.erase = some met ∧
      r.readline reads = some (result, r') ∧ CallOutcome stream returned met result r' := by
  obtain ⟨tail, hDrop⟩ := h.holds.drop_cur
  have hFirst : r.cells[r.cur]? = (text ++ zeroCell :: tail)[0]? := by
    rw [← hDrop, List.getElem?_drop, Nat.add_zero]
  have hErased : r.erase.buffer[r.erase.cur]? = (r.cells[r.cur]?).map Cell.byte :=
    List.getElem?_map ..
  rw [meetsPrompt, CellReader.readline, hErased, hFirst]
  cases text with
  | nil =>
      obtain ⟨cells, hWrite, hEmpty⟩ := giveUp_holds h.length_cells
      have hFresh := h.giveUp hEmpty rfl (.inr rfl)
      have hBytes := write_bytes r.cells 0 [zeroCell]
      rw [hWrite] at hBytes
      obtain ⟨met, result, r', hMet, hRun, hOutcome⟩ := hFresh.readLoop hZero reads
      refine ⟨met, result, r', ?_, ?_, hOutcome⟩
      · change ((Memory.write (bytes r.cells) 0 (bytes [zeroCell])).bind _) = _
        rw [hBytes]
        exact hMet
      · change ((Memory.write r.cells 0 [zeroCell]).bind _) = _
        rw [hWrite]
        exact hRun
  | cons c text =>
      have hNonzero : ¬c.byte = 0 := h.ne_zero hZero c List.mem_cons_self
      obtain ⟨cur, rest, hSkip, hRest, hSplit⟩ := h.skip
      simp only [List.cons_append, List.getElem?_cons_zero, Option.map_some, Option.bind_eq_bind,
        Option.bind_some, if_neg hNonzero, show r.erase.buffer = bytes r.cells from rfl,
        show r.erase.cur = r.cur from rfl, drop_bytes, hSkip]
      have hSearch := hRest.search hZero hSplit
      dsimp only at hSearch
      rcases hSearch with ⟨hPrompt, hFind, hTwo⟩ | ⟨hPrompt, hFind, hLine | hOpen⟩
      · have hReturn := hRest.holds.returnPrompt (hRest.ne_zero hZero) hTwo
        rw [if_pos hPrompt, hFind]
        exact ⟨true, _, _, rfl, hReturn, Nat.lt_succ_self _⟩
      · obtain ⟨line, r', text', hScan, hReturn, hIntact⟩ := hLine
        rw [if_neg (by rw [hPrompt]; decide), hFind, hScan]
        exact ⟨false, some line, r', rfl, hReturn, text', hIntact⟩
      · obtain ⟨tail, hDrop⟩ := hRest.holds.drop_cur
        obtain ⟨cells, hSlice, hWrite, hHolds⟩ := hRest.holds.move
        have hMoved := hRest.giveUp hHolds rfl (.inl rfl)
        dsimp only at hDrop hSlice hWrite hMoved
        have hLen : strlen (bytes (r.cells.drop cur)) = some rest.length := by
          rw [hDrop, bytes_text, strlen_text (bytes_ne_zero (hRest.ne_zero hZero))]
          exact congrArg some (List.length_map _)
        obtain ⟨met, result, r', hMet, hRun, hOutcome⟩ := hMoved.readLoop hZero reads
        refine ⟨met, result, r', ?_, ?_, hOutcome⟩
        · rw [if_neg (by rw [hPrompt]; decide), hOpen]
          simp only [Option.bind_some, hLen, slice_bytes, hSlice, Option.map_some, write_bytes,
            hWrite]
          exact hMet
        · rw [hFind, hOpen]
          simp only [Option.bind_some, hLen, hSlice, hWrite]
          exact hRun

end Calls

/-- The reader with the lines that the calls so far have returned. -/
structure CellReading where
  reader : CellReader
  returned : List (List Cell)

def CellReading.init (stream : List UInt8) : CellReading := ⟨CellReader.init stream, []⟩

def cellCall (s : CellReading) (reads : List Nat) : Option CellReading :=
  (s.reader.readline reads).map fun outcome => ⟨outcome.2, s.returned ++ outcome.1.toList⟩

/-- No byte of the stream is in two of the lines, or twice in one, and the
cursor is at or before the zero behind the buffered bytes, inside
`s_ATBuffer`. -/
structure CellReading.Sound (s : CellReading) : Prop where
  once : (s.returned.flatten.filterMap Cell.origin).Nodup
  cursor : s.reader.cur ≤ s.reader.terminator
  inside : s.reader.terminator < s.reader.cells.length
  length_cells : s.reader.cells.length = maxAtResponse + 1

/-- The call does not take the first branch of `findNextEOL`. -/
def NoPrompt (s : CellReading) (reads : List Nat) : Prop :=
  meetsPrompt reads s.reader.erase = some false

/-- The cells of a stream have its positions as their origins, each once and
in order. -/
theorem placed_origins (stream : List UInt8) :
    (placed stream).filterMap Cell.origin = List.range stream.length := by
  have hOrigin : Cell.origin ∘ (fun c : UInt8 × Nat => (⟨c.1, some c.2⟩ : Cell)) =
      some ∘ Prod.snd := rfl
  rw [placed, List.filterMap_map, hOrigin, List.filterMap_eq_map, List.zipIdx_map_snd,
    List.range_eq_range']

/-- Nothing is returned twice, nothing is made up, and the order is that of
the stream. -/
theorem Intact.sound {stream : List UInt8} {text : List Cell} {s : CellReading}
    (h : Intact stream s.returned text s.reader) : s.Sound where
  once := by
    have hLines : s.returned.flatten.Sublist (placed stream) := by
      refine List.Sublist.trans ?_ h.sublist
      rw [List.append_assoc]
      exact List.sublist_append_left _ _
    have hOrigins := hLines.filterMap Cell.origin
    rw [placed_origins] at hOrigins
    exact hOrigins.nodup List.nodup_range
  cursor := by
    rw [h.terminator_eq]
    exact Nat.le_add_right _ _
  inside := h.holds.terminator_lt
  length_cells := h.length_cells

theorem CellReading.init_intact (stream : List UInt8) :
    Intact stream (CellReading.init stream).returned [] (CellReading.init stream).reader :=
  (CellReader.init_holds stream).intact (List.Sublist.refl _)

/-- The calls of `readline` on a stream without zeros return every byte at
most once, with the cursor at or before the zero, exactly as long as none of
them meets the prompt. -/
theorem readline_once_iff (stream : List UInt8) (hZero : ∀ c ∈ stream, c ≠ 0)
    (calls : List (List Nat)) :
    Transition.Safe cellCall CellReading.Sound (CellReading.init stream) calls ↔
      Transition.Meets cellCall NoPrompt (CellReading.init stream) calls := by
  let Inv (s : CellReading) : Prop := ∃ text, Intact stream s.returned text s.reader
  have hCall (s : CellReading) (reads : List Nat) (h : Inv s) :
      ∃ met t, meetsPrompt reads s.reader.erase = some met ∧ cellCall s reads = some t ∧
        (if met = true then t.reader.terminator < t.reader.cur else Inv t) := by
    obtain ⟨text, hIntact⟩ := h
    obtain ⟨met, result, r', hMet, hRun, hOutcome⟩ := hIntact.readline hZero reads
    refine ⟨met, ⟨r', s.returned ++ result.toList⟩, hMet, ?_, hOutcome⟩
    rw [cellCall, hRun]
    rfl
  apply @Transition.safe_iff_meets _ _ cellCall NoPrompt Inv CellReading.Sound
  · intro s hInv
    obtain ⟨text, hIntact⟩ := hInv
    exact hIntact.sound
  · intro s reads hInv
    obtain ⟨met, t, -, hRun, -⟩ := hCall s reads hInv
    exact ⟨t, hRun⟩
  · intro s reads t hInv hGuard hRun
    obtain ⟨met, t', hMet, hRun', hOutcome⟩ := hCall s reads hInv
    obtain rfl : t' = t := Option.some.inj (hRun'.symm.trans hRun)
    obtain rfl : met = false := Option.some.inj (hMet.symm.trans hGuard)
    exact hOutcome
  · intro s reads t hInv hRun hSound
    obtain ⟨met, t', hMet, hRun', hOutcome⟩ := hCall s reads hInv
    obtain rfl : t' = t := Option.some.inj (hRun'.symm.trans hRun)
    cases met with
    | false => exact hMet
    | true => exact absurd hSound.cursor (Nat.not_le.mpr hOutcome)
  · exact ⟨[], CellReading.init_intact stream⟩

/-- The stream of one line, delivered in pieces. -/
theorem readline_once_ok :
    Transition.Safe cellCall CellReading.Sound (CellReading.init okStream) [[2, 0, 5], [0]] ↔
      Transition.Meets cellCall NoPrompt (CellReading.init okStream) [[2, 0, 5], [0]] :=
  readline_once_iff okStream okStream_admissible.noZero [[2, 0, 5], [0]]

/-- `"ABCDEF\r> \r"`. -/
def promptStream : List UInt8 := [0x41, 0x42, 0x43, 0x44, 0x45, 0x46, 0x0d, 0x3e, 0x20, 0x0d]

/-- Calls whose reads deliver the line, the prompt and the newline. -/
def promptCalls : List (List Nat) := [[6], [1], [0]]

/-- Behind the prompt the end of the older line is read again. -/
theorem prompt_returns_twice :
    (∀ c ∈ promptStream, c ≠ 0) ∧
      (Transition.run cellCall (CellReading.init promptStream) promptCalls).map
          (fun s => s.returned.map bytes) =
        some [[0x41, 0x42, 0x43, 0x44, 0x45, 0x46], [0x3e, 0x20], [0x44, 0x45, 0x46]] ∧
      ¬Transition.Safe cellCall CellReading.Sound (CellReading.init promptStream) promptCalls := by
  refine ⟨by simp [promptStream], by decide +kernel, ?_⟩
  intro hSafe
  obtain ⟨s, hRun, hSound⟩ := hSafe.last
  have hOrigins : (Transition.run cellCall (CellReading.init promptStream) promptCalls).map
      (fun s => s.returned.flatten.filterMap Cell.origin) =
        some [0, 1, 2, 3, 4, 5, 7, 8, 3, 4, 5] := by
    decide +kernel
  rw [hRun, Option.map_some] at hOrigins
  have hOnce := hSound.once
  rw [show s.returned.flatten.filterMap Cell.origin = _ from Option.some.inj hOrigins] at hOnce
  exact absurd hOnce (by decide)

end Agps.Atc
