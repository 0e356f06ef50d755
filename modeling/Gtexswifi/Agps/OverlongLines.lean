import Gtexswifi.Agps.LineOrigins

/-! Whole lines and fragments. A full buffer is given up in the middle of a
line, and what is read then looks like the start of one. -/
namespace Agps.Atc

/-- The cells are a line of the stream, from the newline in front of it to
the one behind it. -/
def IsWholeLine (stream : List UInt8) (line : List Cell) : Prop :=
  ∃ front c rest, placed stream = front ++ line ++ c :: rest ∧ AtLineStart (bytes front) ∧
    (∀ x ∈ line, isNewline x.byte = false) ∧ isNewline c.byte = true

/-- The cells are a prompt at the start of a line. -/
def IsPromptLine (stream : List UInt8) (line : List Cell) : Prop :=
  ∃ front rest, placed stream = front ++ line ++ rest ∧ AtLineStart (bytes front) ∧
    bytes line = [0x3e, 0x20]

/-- No fragment has been returned. -/
def ReturnsWhole (stream : List UInt8) (s : CellReading) : Prop :=
  ∀ line ∈ s.returned, IsWholeLine stream line ∨ IsPromptLine stream line

/-- What comes next ends a line, if anything comes. -/
def LineEnds (pending : List Cell) : Prop := ∀ c ∈ pending.head?, isNewline c.byte = true

/-- No line that has begun is given up before its end. -/
def GivesUpWhole (r : CellReader) : Prop :=
  maxAtResponse - r.terminator = 0 → r.cur = r.terminator ∨ LineEnds r.pending

/-- Where a prompt is taken, another zero stands behind its zero, and no
more of the line comes. -/
def EndsWithPrompt (r : CellReader) : Prop :=
  isPrompt (bytes (r.cells.drop r.cur)) = true →
    (r.cells[r.terminator + 1]?).map Cell.byte = some 0 ∧ LineEnds r.pending

instance (pending : List Cell) : Decidable (LineEnds pending) := by
  unfold LineEnds
  infer_instance

instance (r : CellReader) : Decidable (GivesUpWhole r) := by
  unfold GivesUpWhole
  infer_instance

instance (r : CellReader) : Decidable (EndsWithPrompt r) := by
  unfold EndsWithPrompt
  infer_instance

/-- The rounds of the loop of a call keep to whole lines. -/
def loopKeepsLines : List Nat → CellReader → Bool
  | [], r => decide (GivesUpWhole r)
  | more :: reads, r => decide (GivesUpWhole r) &&
      match r.refill more with
      | some (next, true) => decide (EndsWithPrompt next) &&
          match findNextEOL (bytes (next.cells.drop next.cur)) next.cur with
          | some none => loopKeepsLines reads next
          | _ => true
      | _ => true

/-- The reader with which a call comes to its loop, if the buffer has no
line for it. -/
def CellReader.enterLoop (r : CellReader) : Option CellReader := do
  if (← r.cells[r.cur]?).byte = 0 then
    let cells ← Memory.write r.cells 0 [zeroCell]
    return { r with cells := cells, cur := 0, terminator := 0 }
  else
    let cur ← skipNewlines (bytes (r.cells.drop r.cur)) r.cur
    match ← findNextEOL (bytes (r.cells.drop cur)) cur with
    | some _ => none
    | none =>
        let len ← strlen (bytes (r.cells.drop cur))
        let text ← Memory.slice r.cells cur (len + 1)
        let cells ← Memory.write r.cells 0 text
        return { r with cells := cells, cur := 0, terminator := len }

/-- A call gives up no part of a line, and takes no prompt that leaves old
bytes or a part of a line behind it. -/
def keepsLines (reads : List Nat) (r : CellReader) : Bool :=
  (match skipNewlines (bytes (r.cells.drop r.cur)) r.cur with
    | some cur => decide (EndsWithPrompt { r with cur := cur })
    | none => true) &&
  match r.enterLoop with
  | some r => loopKeepsLines reads r
  | none => true

def KeepsLines (s : CellReading) (reads : List Nat) : Prop := keepsLines reads s.reader = true

/-- What is left starts where a line starts or ends. -/
def Remains (stream : List UInt8) (rest : List Cell) : Prop :=
  ∃ front, placed stream = front ++ rest ∧ (AtLineStart (bytes front) ∨ LineEnds rest)

/-- The characters of two runs of cells stand one behind the other. -/
theorem bytes_append (first second : List Cell) :
    bytes (first ++ second) = bytes first ++ bytes second := List.map_append

/-- Behind a newline the next character is the first of a line. -/
theorem atLineStart_newline (front : List Cell) {c : Cell} (h : isNewline c.byte = true) :
    AtLineStart (bytes (front ++ [c])) := by
  intro before d hEnd
  rw [bytes_append] at hEnd
  obtain ⟨-, hLast⟩ := List.append_inj' hEnd rfl
  exact List.singleton_inj.mp hLast ▸ h

section Remains

variable {stream : List UInt8} {run line rest : List Cell} {c : Cell}

/-- At the start the whole stream remains, and its first character begins a
line. -/
theorem remains_init (stream : List UInt8) : Remains stream (placed stream) :=
  ⟨[], rfl, .inl atLineStart_nil⟩

/-- The newlines in front of a line are passed over. What remains begins at
the start of a line still. -/
theorem Remains.skip (h : Remains stream (run ++ rest))
    (hRun : ∀ c ∈ run, isNewline c.byte = true) : Remains stream rest := by
  obtain ⟨front, hStream, hStart⟩ := h
  obtain rfl | ⟨init, c, rfl⟩ := List.eq_nil_or_concat' run
  · exact ⟨front, hStream, hStart⟩
  · refine ⟨front ++ (init ++ [c]), by simp [hStream], .inl ?_⟩
    rw [← List.append_assoc]
    exact atLineStart_newline _ (hRun c (by simp))

/-- Text that does not start with a newline starts a line. -/
theorem Remains.start (h : Remains stream (line ++ rest)) (hNe : line ≠ [])
    (hLine : ∀ x ∈ line, isNewline x.byte = false) :
    ∃ front, placed stream = front ++ line ++ rest ∧ AtLineStart (bytes front) := by
  obtain ⟨front, hStream, hStart⟩ := h
  refine ⟨front, by rw [hStream, List.append_assoc], hStart.resolve_right fun hEnds => ?_⟩
  obtain ⟨x, line, rfl⟩ := List.exists_cons_of_ne_nil hNe
  have hFirst := hLine x List.mem_cons_self
  rw [hEnds x rfl] at hFirst
  cases hFirst

/-- What stands in front of the next newline is a whole line of the stream,
and what remains behind it begins a line again. -/
theorem Remains.closed (h : Remains stream (line ++ c :: rest)) (hNe : line ≠ [])
    (hLine : ∀ x ∈ line, isNewline x.byte = false) (hc : isNewline c.byte = true) :
    IsWholeLine stream line ∧ Remains stream rest := by
  obtain ⟨front, hStream, hStart⟩ := h.start hNe hLine
  refine ⟨⟨front, c, rest, hStream, hStart, hLine, hc⟩, front ++ line ++ [c], ?_, .inl ?_⟩
  · rw [hStream, List.append_assoc (front ++ line), List.singleton_append]
  · exact atLineStart_newline _ hc

/-- What is given up is nothing, or all of a line. -/
theorem Remains.giveUp (h : Remains stream (line ++ rest)) (hWhole : line = [] ∨ LineEnds rest) :
    Remains stream rest := by
  obtain ⟨front, hStream, hStart⟩ := h
  cases hWhole with
  | inl hNil =>
      subst hNil
      exact ⟨front, hStream, hStart⟩
  | inr hEnds => exact ⟨front ++ line, by rw [hStream, List.append_assoc], .inr hEnds⟩

end Remains

/-- The reader between two calls: it holds the start of what is left, or its
text is used up. -/
def Ready (stream : List UInt8) (r : CellReader) : Prop :=
  (∃ text, Holds text r ∧ Remains stream (text ++ r.pending)) ∨
    (r.cells.length = maxAtResponse + 1 ∧ (r.cells[r.cur]?).map Cell.byte = some 0 ∧
      Remains stream r.pending)

/-- A call that keeps to whole lines. -/
structure Served (stream : List UInt8) (result : Option (List Cell)) (r : CellReader) : Prop where
  whole : ∀ line ∈ result, IsWholeLine stream line ∨ IsPromptLine stream line
  ready : Ready stream r

section Served

variable {stream : List UInt8} {text : List Cell} {r : CellReader}

theorem Remains.ne_zero (hZero : ∀ c ∈ stream, c ≠ 0) {rest : List Cell}
    (h : Remains stream (text ++ rest)) : ∀ c ∈ text, c.byte ≠ 0 := by
  obtain ⟨front, hStream, -⟩ := h
  intro c hc
  apply placed_ne_zero hZero c
  rw [hStream]
  simp [hc]

/-- A reader whose text and pending cells remain of the stream is ready for
the next call. -/
theorem Holds.ready (h : Holds text r) (hRemains : Remains stream (text ++ r.pending)) :
    Ready stream r := .inl ⟨text, h, hRemains⟩

/-- The end of a call that has found the end of its text. -/
theorem Holds.served (hZero : ∀ c ∈ stream, c ≠ 0) (h : Holds text r)
    (hRemains : Remains stream (text ++ r.pending)) (hText : OpenOrLine text)
    (hPrompt : EndsWithPrompt r) :
    (∃ pEol result r', findNextEOL (bytes (r.cells.drop r.cur)) r.cur = some (some pEol) ∧
      r.returnLine pEol = some (result, r') ∧ Served stream result r') ∨
    findNextEOL (bytes (r.cells.drop r.cur)) r.cur = some none := by
  have hNe := hRemains.ne_zero hZero
  rcases h.search hNe hText with ⟨hMeets, hBytes, hFind⟩ | ⟨-, hFind, hLine | hOpen⟩
  · have hLength := congrArg List.length hBytes
    rw [bytes, List.length_map] at hLength
    obtain ⟨hBehind, hEnds⟩ := hPrompt hMeets
    have hStart : text ≠ [] := List.ne_nil_of_length_pos (by rw [hLength]; decide)
    have hNoNewline : ∀ x ∈ text, isNewline x.byte = false := by
      have hPair : ∀ x ∈ bytes text, isNewline x = false := by simp [hBytes, isNewline]
      exact fun x hx => hPair x.byte (List.mem_map_of_mem hx)
    obtain ⟨front, hStream, hFront⟩ := hRemains.start hStart hNoNewline
    refine .inl ⟨_, _, _, hFind, h.returnPrompt hNe hLength, ?_, ?_⟩
    · exact fun line hMem => .inr (Option.some.inj hMem ▸ ⟨front, _, hStream, hFront, hBytes⟩)
    · exact .inr ⟨h.length_cells, hBehind, hRemains.giveUp (.inr hEnds)⟩
  · obtain ⟨line, c, more, rfl, hLineNe, hLine, hc, hScan⟩ := hLine
    rw [List.append_assoc, List.cons_append] at hRemains
    obtain ⟨hWhole, hMore⟩ := hRemains.closed hLineNe hLine hc
    obtain ⟨r', hReturn, hHolds, hPending⟩ :=
      h.returnLine fun x hx => hNe x (List.mem_append_left _ hx)
    refine .inl ⟨_, _, _, hFind.trans hScan, hReturn, ?_, ?_⟩
    · exact fun line' hMem => .inl (Option.some.inj hMem ▸ hWhole)
    · exact hHolds.ready (hPending ▸ hMore)
  · exact .inr (hFind.trans hOpen)

/-- The text that is kept when room is made starts what is left. -/
theorem Holds.keeps (h : Holds text r) (hRemains : Remains stream (text ++ r.pending))
    (hGivesUp : GivesUpWhole r) {text' : List Cell}
    (hText : text' = text ∨ (maxAtResponse - r.terminator = 0 ∧ text' = [])) :
    Remains stream (text' ++ r.pending) := by
  rcases hText with rfl | ⟨hFull, rfl⟩
  · exact hRemains
  · refine hRemains.giveUp ((hGivesUp hFull).imp_left fun hCur => ?_)
    have hLength := h.terminator_eq
    exact List.eq_nil_of_length_eq_zero (by omega)

/-- Under reads that never make the reader ditch its buffer in the middle of
a line, the loop returns a whole line of the stream or waits for more. -/
theorem Holds.readLoop (hZero : ∀ c ∈ stream, c ≠ 0) {reads : List Nat} (h : Holds text r)
    (hRemains : Remains stream (text ++ r.pending)) (hKeeps : loopKeepsLines reads r = true) :
    ∃ result r', r.readLoop reads = some (result, r') ∧ Served stream result r' := by
  have hNull {text : List Cell} {r : CellReader} (h : Holds text r)
      (hRemains : Remains stream (text ++ r.pending)) : Served stream none r :=
    ⟨fun _ hMem => (nomatch hMem), h.ready hRemains⟩
  induction reads generalizing r text with
  | nil =>
      obtain ⟨room, text', hRoom, -, hHolds, hPending, hText⟩ := h.makeRoom
      have hKept := h.keeps hRemains (of_decide_eq_true hKeeps) hText
      refine ⟨none, room, ?_, hNull hHolds (hPending ▸ hKept)⟩
      rw [CellReader.readLoop, hRoom]
      rfl
  | cons more reads ih =>
      rw [loopKeepsLines, Bool.and_eq_true, decide_eq_true_iff] at hKeeps
      obtain ⟨hGivesUp, hNext⟩ := hKeeps
      obtain ⟨next, delivered, text', chunk, run, rest, hRefill, hText, hPending, hSplit, hRun,
        hRest, hOpenOrLine⟩ := h.refill more
      have hKept := h.keeps hRemains hGivesUp hText
      rw [hPending, ← List.append_assoc, hSplit, List.append_assoc] at hKept
      have hLeft := hKept.skip hRun
      rw [CellReader.readLoop, hRefill]
      rw [hRefill] at hNext
      simp only [Option.bind_eq_bind, Option.bind_some]
      cases delivered with
      | false => exact ⟨none, next, rfl, hNull hRest hLeft⟩
      | true =>
          dsimp only at hNext
          rw [Bool.and_eq_true, decide_eq_true_iff] at hNext
          obtain ⟨hPrompt, hLoop⟩ := hNext
          rw [if_pos rfl]
          rcases hRest.served hZero hLeft (hOpenOrLine rfl).2 hPrompt with
            ⟨pEol, result, r', hFind, hReturn, hServed⟩ | hOpen
          · rw [hFind]
            exact ⟨result, r', hReturn, hServed⟩
          · rw [hOpen] at hLoop ⊢
            exact ih hRest hLeft hLoop

/-- One call. -/
theorem Ready.readline (hZero : ∀ c ∈ stream, c ≠ 0) {s : CellReading} {reads : List Nat}
    (h : Ready stream s.reader) (hKeeps : KeepsLines s reads) :
    ∃ result r', s.reader.readline reads = some (result, r') ∧ Served stream result r' := by
  obtain ⟨⟨cells, cur, terminator, pending⟩, returned⟩ := s
  rw [KeepsLines, keepsLines, Bool.and_eq_true] at hKeeps
  obtain ⟨hPrompt, hLoop⟩ := hKeeps
  dsimp only at h hPrompt hLoop
  -- a buffer that is used up starts anew, whatever stands behind the zero
  have hFresh (hLength : cells.length = maxAtResponse + 1)
      (hFirst : (cells[cur]?).map Cell.byte = some 0) (hRemains : Remains stream pending) :
      ∃ result r', CellReader.readline reads ⟨cells, cur, terminator, pending⟩ =
        some (result, r') ∧ Served stream result r' := by
    obtain ⟨cells', hWrite, hEmpty⟩ := giveUp_holds (r := ⟨cells, cur, terminator, pending⟩) hLength
    rw [readline_empty hFirst hWrite]
    obtain ⟨c, hCell, hByte⟩ := Option.map_eq_some_iff.mp hFirst
    simp only [CellReader.enterLoop, hCell, Option.bind_eq_bind, Option.bind_some, if_pos hByte,
      hWrite, Option.pure_def] at hLoop
    exact hEmpty.readLoop hZero hRemains hLoop
  rcases h with ⟨text, hHolds, hRemains⟩ | ⟨hLength, hFirst, hRemains⟩
  · obtain ⟨tail, hDrop⟩ := hHolds.drop_cur
    have hFirst : cells[cur]? = (text ++ zeroCell :: tail)[0]? := by
      rw [← hDrop, List.getElem?_drop, Nat.add_zero]
    cases text with
    | nil => exact hFresh hHolds.length_cells (by rw [hFirst]; rfl) hRemains
    | cons c text =>
        have hNonzero : ¬c.byte = 0 := hRemains.ne_zero hZero c List.mem_cons_self
        obtain ⟨run, rest, hSplit, hRun, hSkip, hRest, -, hOpenOrLine⟩ := hHolds.skip
        rw [hSplit, List.append_assoc] at hRemains
        have hLeft := hRemains.skip hRun
        dsimp only at hSkip hRest
        rw [CellReader.readline]
        simp only [CellReader.enterLoop, hFirst, List.cons_append, List.getElem?_cons_zero,
          Option.bind_eq_bind, Option.bind_some, if_neg hNonzero, hSkip] at hLoop ⊢
        rw [hSkip] at hPrompt
        rcases hRest.served hZero hLeft hOpenOrLine (of_decide_eq_true hPrompt) with
          ⟨pEol, result, r', hFind, hReturn, hServed⟩ | hOpen
        · dsimp only at hFind
          rw [hFind]
          exact ⟨result, r', hReturn, hServed⟩
        · obtain ⟨behind, hBehind⟩ := hRest.drop_cur
          obtain ⟨moved, hSlice, hWrite, hMoved⟩ := hRest.move
          dsimp only at hOpen hBehind hSlice hWrite hMoved
          have hLen : strlen (bytes (cells.drop (cur + run.length))) = some rest.length := by
            rw [hBehind, bytes_text, strlen_text (bytes_ne_zero (hLeft.ne_zero hZero))]
            exact congrArg some (List.length_map _)
          simp only [hOpen, hLen, hSlice, hWrite, Option.bind_some, Option.pure_def] at hLoop ⊢
          exact hMoved.readLoop hZero hLeft hLoop
  · exact hFresh hLength hFirst hRemains

end Served

/-- Every call is defined. -/
theorem Ready.defined {stream : List UInt8} (hZero : ∀ c ∈ stream, c ≠ 0) {r : CellReader}
    (h : Ready stream r) (reads : List Nat) : ∃ outcome, r.readline reads = some outcome := by
  rcases h with ⟨text, hHolds, front, hStream, -⟩ | ⟨hLength, hFirst, front, hStream, -⟩
  · have hSublist : (([] : List (List Cell)).flatten ++ text ++ r.pending).Sublist
        (placed stream) := by
      rw [hStream]
      exact List.sublist_append_right front _
    obtain ⟨-, result, r', -, hRun, -⟩ := (hHolds.intact hSublist).readline hZero reads
    exact ⟨_, hRun⟩
  · obtain ⟨cells, hWrite, hEmpty⟩ := giveUp_holds hLength
    have hSublist : (([] : List (List Cell)).flatten ++ [] ++ r.pending).Sublist
        (placed stream) := by
      rw [hStream]
      exact List.sublist_append_right front _
    obtain ⟨-, result, r', -, hRun, -⟩ := (hEmpty.intact hSublist).readLoop hZero reads
    exact ⟨(result, r'), by rw [readline_empty hFirst hWrite, hRun]⟩

/-- In every run of calls that give up no part of a line, and take no prompt
that leaves old bytes or a part of a line behind it, only whole lines and
prompts are returned. -/
theorem readline_whole (stream : List UInt8) (hZero : ∀ c ∈ stream, c ≠ 0)
    (calls : List (List Nat))
    (h : Transition.Meets cellCall KeepsLines (CellReading.init stream) calls) :
    Transition.Safe cellCall (ReturnsWhole stream) (CellReading.init stream) calls := by
  let Inv (s : CellReading) : Prop := ReturnsWhole stream s ∧ Ready stream s.reader
  have hReturns : ∀ s, Inv s → ReturnsWhole stream s := fun s hInv => hInv.1
  apply Transition.safe_of_meets hReturns _ _ _ h
  · intro s reads hInv
    obtain ⟨outcome, hRun⟩ := hInv.2.defined hZero reads
    exact ⟨_, by rw [cellCall, hRun]; rfl⟩
  · intro s reads t hInv hKeeps hCall
    obtain ⟨result, r', hRun, hServed⟩ := hInv.2.readline hZero hKeeps
    rw [cellCall, hRun, Option.map_some, Option.some.injEq] at hCall
    subst hCall
    refine ⟨fun line hMem => ?_, hServed.ready⟩
    rcases List.mem_append.mp hMem with hOld | hNew
    · exact hInv.1 line hOld
    · exact hServed.whole line (Option.mem_toList.mp hNew)
  · refine ⟨fun line hMem => absurd hMem List.not_mem_nil, ?_⟩
    exact (CellReader.init_holds stream).ready (remains_init stream)

/-- A line that fills the buffer with its end. -/
def fullStream : List UInt8 := List.replicate (maxAtResponse - 1) 0x41 ++ [0x0d]

/-- A call that reads it all at once. -/
theorem readline_whole_full :
    Transition.Safe cellCall (ReturnsWhole fullStream) (CellReading.init fullStream)
      [[maxAtResponse - 1]] := by
  have hZero : ∀ c ∈ fullStream, c ≠ 0 := by
    intro c hc
    rcases List.mem_append.mp hc with hLine | hEnd
    · rw [List.eq_of_mem_replicate hLine]
      decide
    · rw [List.mem_singleton.mp hEnd]
      decide
  have hKeeps : KeepsLines (CellReading.init fullStream) [maxAtResponse - 1] := by
    rw [KeepsLines]
    decide +kernel
  exact readline_whole fullStream hZero [[maxAtResponse - 1]] fun _ _ => ⟨hKeeps, trivial⟩

section Overlong

variable {text : List Cell} {r : CellReader}

/-- A read into a buffer with room, of bytes that do not start with a
newline. -/
theorem Holds.refill_open (h : Holds text r) (more : Nat) {chunk pending : List Cell}
    (hPending : r.pending = chunk ++ pending) (hNe : chunk ≠ [])
    (hRoom : r.terminator < maxAtResponse)
    (hCount : min (more + 1) (maxAtResponse - r.terminator) = chunk.length)
    (hHead : ∀ c ∈ (text ++ chunk).head?, isNewline c.byte = false) :
    ∃ next, r.refill more = some (next, true) ∧ Holds (text ++ chunk) next ∧
      next.pending = pending := by
  have hTake : r.pending.take chunk.length = chunk := by rw [hPending, List.take_left]
  have hDrop : r.pending.drop chunk.length = pending := by rw [hPending, List.drop_left]
  obtain ⟨cells, hWrite, hDelivered⟩ := h.deliver chunk.length (by rw [hTake]; omega)
  rw [hTake, hDrop] at hDelivered
  rw [hTake] at hWrite
  obtain ⟨run, rest, hSplit, hRun, hSkip, hRest, -⟩ := hDelivered.skip
  obtain rfl : run = [] := by
    cases run with
    | nil => rfl
    | cons c run =>
        have hFirst := hHead c (by rw [hSplit]; rfl)
        rw [hRun c List.mem_cons_self] at hFirst
        cases hFirst
  rw [List.nil_append] at hSplit
  subst hSplit
  have hMake : r.makeRoom = some r := if_neg (by omega)
  rw [CellReader.refill, hMake]
  simp only [Option.bind_eq_bind, Option.bind_some, hCount, hTake, if_neg hNe, hWrite]
  dsimp only at hSkip
  rw [hSkip, hDrop]
  exact ⟨_, rfl, hRest, rfl⟩

/-- A read into a full buffer is one into an empty buffer. -/
theorem Holds.refill_full (h : Holds text r) (hFull : r.terminator = maxAtResponse) (more : Nat) :
    ∃ room, r.refill more = room.refill more ∧ Holds [] room ∧ room.terminator = 0 ∧
      room.pending = r.pending := by
  obtain ⟨cells, hWrite, hEmpty⟩ := giveUp_holds (r := r) h.length_cells
  have hMake : r.makeRoom = some ⟨cells, 0, 0, r.pending⟩ := by
    rw [CellReader.makeRoom, if_pos (by omega), hWrite]
    rfl
  refine ⟨⟨cells, 0, 0, r.pending⟩, ?_, hEmpty, rfl, rfl⟩
  have hAgain : (⟨cells, 0, 0, r.pending⟩ : CellReader).makeRoom = some ⟨cells, 0, 0, r.pending⟩ :=
    if_neg (show ¬maxAtResponse - 0 = 0 by decide)
  rw [CellReader.refill, CellReader.refill, hMake, hAgain]

end Overlong

theorem bytes_placed (stream : List UInt8) : bytes (placed stream) = stream := by
  have hByte : Cell.byte ∘ (fun c : UInt8 × Nat => (⟨c.1, some c.2⟩ : Cell)) = Prod.fst := rfl
  rw [bytes, placed, List.map_map, hByte, List.zipIdx_map_fst]

theorem placed_origin {stream : List UInt8} {i : Nat} {c : Cell} (h : (placed stream)[i]? = some c) :
    c.origin = some i := by
  rw [placed, List.getElem?_map, List.getElem?_zipIdx] at h
  obtain ⟨entry, hEntry, rfl⟩ := Option.map_eq_some_iff.mp h
  obtain ⟨byte, -, rfl⟩ := Option.map_eq_some_iff.mp hEntry
  simp

/-- Cells stand at one place of the stream only. -/
theorem placed_unique {stream : List UInt8} {front front' line rest rest' : List Cell}
    (h : placed stream = front ++ line ++ rest) (h' : placed stream = front' ++ line ++ rest')
    (hNe : line ≠ []) : front' = front := by
  obtain ⟨c, line, rfl⟩ := List.exists_cons_of_ne_nil hNe
  have hFirst : (placed stream)[front.length]? = some c := by
    rw [h, List.append_assoc, List.getElem?_append_right (Nat.le_refl _), Nat.sub_self]
    rfl
  have hFirst' : (placed stream)[front'.length]? = some c := by
    rw [h', List.append_assoc, List.getElem?_append_right (Nat.le_refl _), Nat.sub_self]
    rfl
  have hLength : front'.length = front.length :=
    Option.some.inj ((placed_origin hFirst').symm.trans (placed_origin hFirst))
  rw [h, List.append_assoc, List.append_assoc] at h'
  exact (List.append_inj h' hLength.symm).1.symm

/-- Text that goes on into a newline is a line. -/
theorem Holds.findNextEOL_line {text : List Cell} {c : Cell} {r : CellReader}
    (h : Holds (text ++ [c]) r) (hText : ∀ x ∈ text, x.byte ≠ 0)
    (hLine : ∀ x ∈ text, isNewline x.byte = false) (hc : isNewline c.byte = true) :
    findNextEOL (bytes (r.cells.drop r.cur)) r.cur = some (some (r.cur + text.length)) := by
  obtain ⟨tail, hDrop⟩ := h.drop_cur
  have hNe : ∀ x ∈ text ++ [c], x.byte ≠ 0 :=
    List.forall_mem_append.mpr ⟨hText, List.forall_mem_singleton.mpr (isNewline_ne_zero hc)⟩
  have hPrompt : ¬isPrompt (bytes (text ++ [c]) ++ 0 :: bytes tail) = true := by
    rw [isPrompt_text (bytes_ne_zero hNe)]
    intro hBytes
    have hLast := congrArg List.getLast? hBytes
    rw [bytes_append, show bytes [c] = [c.byte] from rfl, List.getLast?_concat] at hLast
    rw [Option.some.inj hLast] at hc
    cases hc
  have hOpen : ∀ x ∈ bytes text, isNewline x = false := by
    intro x hx
    obtain ⟨cell, hCell, rfl⟩ := List.mem_map.mp hx
    exact hLine cell hCell
  have hScan := scanEol_line (bytes_ne_zero hText) hOpen hc (0 :: bytes tail) r.cur
  rw [show (bytes text).length = text.length from List.length_map _] at hScan
  rw [hDrop, bytes_text, findNextEOL, if_neg (mt decide_eq_true hPrompt), bytes_append,
    List.append_assoc]
  exact hScan

/-- Text without a newline that is longer than the prompt is left open. -/
theorem Holds.findNextEOL_open {text : List Cell} {r : CellReader} (h : Holds text r)
    (hText : ∀ x ∈ text, x.byte ≠ 0) (hOpen : ∀ x ∈ text, isNewline x.byte = false)
    (hLong : 2 < text.length) :
    findNextEOL (bytes (r.cells.drop r.cur)) r.cur = some none := by
  rcases h.search hText (.inl hOpen) with ⟨-, hBytes, -⟩ | ⟨-, hFind, hLine | hNone⟩
  · have hLength := congrArg List.length hBytes
    rw [bytes, List.length_map] at hLength
    exact absurd hLong (by rw [hLength]; decide)
  · obtain ⟨line, c, more, rfl, -, -, hc, -⟩ := hLine
    rw [hOpen c (by simp)] at hc
    cases hc
  · exact hFind.trans hNone

/-- Of a line whose first bytes fill the buffer, the loop returns the rest. -/
theorem Holds.readLoop_overlong {first line : List Cell} {last : Cell} {r : CellReader}
    (h : Holds [] r) (hEmpty : r.terminator = 0) (hPending : r.pending = first ++ (line ++ [last]))
    (hFull : first.length = maxAtResponse)
    (hFirst : ∀ x ∈ first, x.byte ≠ 0 ∧ isNewline x.byte = false) (hNe : line ≠ [])
    (hLine : ∀ x ∈ line, x.byte ≠ 0 ∧ isNewline x.byte = false)
    (hLast : isNewline last.byte = true) (hFits : line.length < maxAtResponse) :
    ∃ r', r.readLoop [maxAtResponse - 1, line.length] = some (some line, r') := by
  have hMax : maxAtResponse = 8192 := rfl
  have hFirstNe : first ≠ [] := List.ne_nil_of_length_pos (by omega)
  have hHead {cells : List Cell} (more : List Cell) (hNe : cells ≠ [])
      (hInner : ∀ x ∈ cells, x.byte ≠ 0 ∧ isNewline x.byte = false) :
      ∀ c ∈ ([] ++ (cells ++ more)).head?, isNewline c.byte = false := by
    obtain ⟨x, cells, rfl⟩ := List.exists_cons_of_ne_nil hNe
    intro c hc
    exact Option.some.inj hc ▸ (hInner x List.mem_cons_self).2
  obtain ⟨full, hRefill, hFilled, hRest⟩ := h.refill_open (maxAtResponse - 1) hPending
    hFirstNe (by omega) (by omega) (by simpa using hHead [] hFirstNe hFirst)
  have hOpen := hFilled.findNextEOL_open (fun x hx => (hFirst x hx).1)
    (fun x hx => (hFirst x hx).2) (by rw [List.nil_append]; omega)
  have hTerminator : full.terminator = maxAtResponse := by
    have hLow := hFilled.terminator_eq
    have hHigh := hFilled.terminator_lt
    have hLength := hFilled.length_cells
    rw [List.nil_append] at hLow
    omega
  obtain ⟨room, hRoom, hAnew, hZero, hSame⟩ := hFilled.refill_full hTerminator line.length
  have hLeft : room.pending = (line ++ [last]) ++ [] := by rw [hSame, hRest, List.append_nil]
  obtain ⟨next, hAgain, hNext, -⟩ := hAnew.refill_open line.length hLeft (by simp) (by omega)
    (by rw [hZero, List.length_append, List.length_singleton]; omega) (hHead [last] hNe hLine)
  have hFind := hNext.findNextEOL_line (fun x hx => (hLine x hx).1)
    (fun x hx => (hLine x hx).2) hLast
  obtain ⟨r', hReturn, -, -⟩ := hNext.returnLine fun x hx => (hLine x hx).1
  refine ⟨r', ?_⟩
  simp only [CellReader.readLoop, Option.bind_eq_bind, Option.bind_some, hRefill, hOpen, hRoom,
    hAgain, hFind, hReturn, if_true]

/-- Of a line whose first bytes fill the buffer, a call returns the rest as
if it were a line. -/
theorem readline_overlong {front tail : List UInt8} {c : UInt8}
    (hFull : front.length = maxAtResponse) (hFront : ∀ x ∈ front, x ≠ 0 ∧ isNewline x = false)
    (hNe : tail ≠ []) (hTail : ∀ x ∈ tail, x ≠ 0 ∧ isNewline x = false)
    (hc : isNewline c = true) (hFits : tail.length < maxAtResponse) :
    ¬Transition.Safe cellCall (ReturnsWhole (front ++ (tail ++ [c])))
      (CellReading.init (front ++ (tail ++ [c]))) [[maxAtResponse - 1, tail.length]] := by
  obtain ⟨first, rest, hPlaced, hFirst, hRest⟩ :=
    List.map_eq_append_iff.mp (bytes_placed (front ++ (tail ++ [c])))
  obtain ⟨line, ends, rfl, hLine, hEnds⟩ := List.map_eq_append_iff.mp hRest
  obtain ⟨last, rfl, rfl⟩ := List.map_eq_singleton_iff.mp hEnds
  have hInner {cells : List Cell} {text : List UInt8} (hBytes : cells.map Cell.byte = text)
      (hText : ∀ x ∈ text, x ≠ 0 ∧ isNewline x = false) :
      ∀ x ∈ cells, x.byte ≠ 0 ∧ isNewline x.byte = false := by
    intro x hx
    exact hText x.byte (hBytes ▸ List.mem_map_of_mem hx)
  have hFirstLength : first.length = maxAtResponse := by rw [← hFull, ← hFirst, List.length_map]
  have hLineLength : line.length = tail.length := by rw [← hLine, List.length_map]
  have hLineNe : line ≠ [] := by
    rintro rfl
    exact hNe hLine.symm
  let r := CellReader.init (front ++ (tail ++ [last.byte]))
  obtain ⟨cells, hWrite, hEmpty⟩ := giveUp_holds (r := r) (CellReader.init_holds _).length_cells
  obtain ⟨r', hLoop⟩ := hEmpty.readLoop_overlong rfl hPlaced hFirstLength (hInner hFirst hFront)
    hLineNe (hInner hLine hTail) hc (by omega)
  have hCall : r.readline [maxAtResponse - 1, tail.length] = some (some line, r') := by
    rw [readline_empty rfl hWrite, ← hLineLength]
    exact hLoop
  intro hSafe
  obtain ⟨s, hRun, hWhole⟩ := hSafe.last
  rw [Transition.run_cons, cellCall, show (CellReading.init _).reader = r from rfl, hCall] at hRun
  obtain rfl := Option.some.inj hRun
  obtain ⟨front', rest', hStream, hStart⟩ : ∃ front' rest',
      placed (front ++ (tail ++ [last.byte])) = front' ++ line ++ rest' ∧
        AtLineStart (bytes front') := by
    rcases hWhole line (by simp) with ⟨front', c, more, hStream, hStart, -⟩ |
      ⟨front', more, hStream, hStart, -⟩
    · exact ⟨front', _, hStream, hStart⟩
    · exact ⟨front', _, hStream, hStart⟩
  obtain rfl := placed_unique (hPlaced.trans (List.append_assoc ..).symm) hStream hLineNe
  -- the byte in front of what was returned is no newline
  obtain ⟨init, x, rfl⟩ := (List.eq_nil_or_concat' front).resolve_left
    (List.ne_nil_of_length_pos (by rw [hFull]; decide))
  have hNewline := hStart init x hFirst
  rw [(hFront x (by simp)).2] at hNewline
  cases hNewline

/-- A line of 8194 bytes ends with `OK`. -/
theorem overlong_ok :
    ¬∀ stream : List UInt8, (∀ c ∈ stream, c ≠ 0) → ∀ calls : List (List Nat),
      Transition.Safe cellCall (ReturnsWhole stream) (CellReading.init stream) calls := by
  intro hClaim
  have hFront : ∀ x ∈ List.replicate maxAtResponse (0x41 : UInt8), x ≠ 0 ∧ isNewline x = false := by
    intro x hx
    rw [List.eq_of_mem_replicate hx]
    decide
  have hTail : ∀ x ∈ [(0x4f : UInt8), 0x4b], x ≠ 0 ∧ isNewline x = false := by decide +kernel
  refine readline_overlong List.length_replicate hFront (by simp) hTail
    (show isNewline 0x0d = true by decide) (by decide) (hClaim _ ?_ _)
  intro x hx
  rcases List.mem_append.mp hx with hFirst | hRest
  · exact (hFront x hFirst).1
  · rcases List.mem_append.mp hRest with hLine | hLast
    · exact (hTail x hLine).1
    · rw [List.mem_singleton.mp hLast]
      decide

end Agps.Atc
