import Gtexswifi.Agps.LineReader
import Gtexswifi.Library.Lines
import Gtexswifi.Library.Transition

/-! Successive calls of `readline` return the lines of the stream, each once
and unmodified, however the device cuts it. -/
namespace Agps.Atc

/-- Behind these bytes a line starts. -/
def AtLineStart (front : List UInt8) : Prop :=
  ∀ before c, front = before ++ [c] → isNewline c = true

/-- A stream without zeros and prompts, in which a run of newlines and the
line behind it fit into the buffer. -/
structure Admissible (stream : List UInt8) : Prop where
  noZero : ∀ c ∈ stream, c ≠ 0
  noPrompt : ∀ front rest, stream = front ++ 0x3e :: rest → ¬AtLineStart front
  fits : ∀ front run line rest, stream = front ++ run ++ line ++ rest →
    (∀ c ∈ run, isNewline c = true) → (∀ c ∈ line, isNewline c = false) →
      run.length + line.length < maxAtResponse

/-- Nothing has been read, so that the cursor stands at the start of a line. -/
theorem atLineStart_nil : AtLineStart [] := by
  intro before c h
  exact absurd (congrArg List.length h) (by simp)

/-- Further newlines behind the start of a line lead to the start of a line
again. -/
theorem AtLineStart.append {front run : List UInt8} (h : AtLineStart front)
    (hRun : ∀ c ∈ run, isNewline c = true) : AtLineStart (front ++ run) := by
  intro before c hEnd
  cases List.eq_nil_or_concat run with
  | inl hNil =>
      rw [hNil, List.append_nil] at hEnd
      exact h before c hEnd
  | inr hConcat =>
      obtain ⟨run', d, rfl⟩ := hConcat
      rw [List.concat_eq_append, ← List.append_assoc] at hEnd
      obtain ⟨-, hLast⟩ := List.append_inj' hEnd rfl
      rw [← List.singleton_inj.mp hLast]
      exact hRun d (by simp)

/-- The terminator of the buffer is no newline. The scans for one stop at it
only where they ask for it. -/
theorem isNewline_ne_zero {c : UInt8} (h : isNewline c = true) : c ≠ 0 := by
  rintro rfl
  cases h

/-- The leading newlines are passed over up to the first other character,
the terminator included. -/
theorem skipNewlines_run {run cells : List UInt8} (hRun : ∀ c ∈ run, isNewline c = true)
    {c : UInt8} (hc : isNewline c = false) (cur : Nat) :
    skipNewlines (run ++ c :: cells) cur = some (cur + run.length) := by
  induction run generalizing cur with
  | nil =>
      rw [List.nil_append, skipNewlines, if_neg (by rw [hc]; decide)]
      rfl
  | cons d run ih =>
      rw [List.cons_append, skipNewlines, if_pos (hRun d List.mem_cons_self),
        ih fun x hx => hRun x (List.mem_cons_of_mem d hx), List.length_cons, Nat.add_assoc,
        Nat.add_comm 1]

/-- The scan for the end of a line finds the first newline behind it. -/
theorem scanEol_line {line : List UInt8} (hZero : ∀ c ∈ line, c ≠ 0)
    (hLine : ∀ c ∈ line, isNewline c = false) {c : UInt8} (hc : isNewline c = true)
    (cells : List UInt8) (cur : Nat) :
    scanEol (line ++ c :: cells) cur = some (some (cur + line.length)) := by
  induction line generalizing cur with
  | nil =>
      rw [List.nil_append, scanEol, if_neg (isNewline_ne_zero hc), if_pos hc]
      rfl
  | cons d line ih =>
      rw [List.cons_append, scanEol, if_neg (hZero d List.mem_cons_self),
        if_neg (by rw [hLine d List.mem_cons_self]; decide),
        ih (fun x hx => hZero x (List.mem_cons_of_mem d hx))
          (fun x hx => hLine x (List.mem_cons_of_mem d hx)),
        List.length_cons, Nat.add_assoc, Nat.add_comm 1]

/-- A line that is not complete has no end. The scan stops at the terminator
behind it. -/
theorem scanEol_open {text : List UInt8} (hZero : ∀ c ∈ text, c ≠ 0)
    (hOpen : ∀ c ∈ text, isNewline c = false) (cells : List UInt8) (cur : Nat) :
    scanEol (text ++ 0 :: cells) cur = some none := by
  induction text generalizing cur with
  | nil => rfl
  | cons d text ih =>
      rw [List.cons_append, scanEol, if_neg (hZero d List.mem_cons_self),
        if_neg (by rw [hOpen d List.mem_cons_self]; decide)]
      exact ih (fun x hx => hZero x (List.mem_cons_of_mem d hx))
        (fun x hx => hOpen x (List.mem_cons_of_mem d hx)) _

/-- The length of the string in the buffer is what has been read and not yet
returned. -/
theorem strlen_text {text : List UInt8} (hZero : ∀ c ∈ text, c ≠ 0) (cells : List UInt8) :
    strlen (text ++ 0 :: cells) = some text.length := by
  induction text with
  | nil => rfl
  | cons d text ih =>
      rw [List.cons_append, strlen, if_neg (hZero d List.mem_cons_self),
        ih fun x hx => hZero x (List.mem_cons_of_mem d hx)]
      rfl

/-- `findNextEOL` takes a prompt in front of all else. Where the text does
not begin with one it is the scan for a newline. -/
theorem findNextEOL_eq {cells : List UInt8} (h : cells.head? ≠ some 0x3e) (cur : Nat) :
    findNextEOL cells cur = scanEol cells cur := by
  rw [findNextEOL, if_neg]
  intro hPrompt
  cases cells with
  | nil => cases hPrompt
  | cons c cells =>
      rw [List.take_succ_cons] at hPrompt
      exact h (congrArg some (List.cons.inj hPrompt).1)

/-- The string in the buffer ends at the terminator that the last read has
put behind it. -/
theorem takeWhile_text {text : List UInt8} (hZero : ∀ c ∈ text, c ≠ 0) (cells : List UInt8) :
    (text ++ 0 :: cells).takeWhile (· ≠ 0) = text := by
  induction text with
  | nil => rfl
  | cons d text ih =>
      rw [List.cons_append, List.takeWhile_cons_of_pos
        (by simpa using hZero d List.mem_cons_self),
        ih fun x hx => hZero x (List.mem_cons_of_mem d hx)]

/-- The line is returned, and the reader stands behind its newline. -/
theorem returnLine_line (before more : List UInt8) {line : List UInt8}
    (hZero : ∀ c ∈ line, c ≠ 0) (c : UInt8) (pending : List UInt8) :
    returnLine ⟨before ++ line ++ c :: more, before.length, pending⟩
        (before.length + line.length) =
      some (some line, ⟨before ++ line ++ 0 :: more, before.length + line.length + 1,
        pending⟩) := by
  have hWrite := Memory.write_append (before ++ line) [c] [0] more rfl
  rw [List.length_append] at hWrite
  have hShape : before ++ line ++ [c] ++ more = before ++ line ++ c :: more := by simp
  have hShape' : before ++ line ++ [0] ++ more = before ++ line ++ 0 :: more := by simp
  rw [hShape, hShape'] at hWrite
  have hText : cString (before ++ line ++ 0 :: more) before.length = line := by
    rw [cString, List.append_assoc, List.drop_left, takeWhile_text hZero]
  rw [returnLine, hWrite]
  simp only [Option.bind_eq_bind, Option.bind_some, hText, Option.pure_def]

/-- Of the stream, `front` has been used up for the lines `done`, `text`
stands in the buffer from the cursor on, and the rest has not been
delivered. -/
structure Buffered (stream : List UInt8) (done : List (List UInt8)) (front text : List UInt8)
    (r : LineReader) : Prop where
  stream_eq : stream = front ++ text ++ r.pending
  closed : Lines.Closed isNewline front done
  lineStart : AtLineStart front
  memory : ∃ before tail, r.buffer = before ++ text ++ 0 :: tail ∧ before.length = r.cur
  length_buffer : r.buffer.length = maxAtResponse + 1

/-- What the device has delivered of the stream. -/
def delivered (stream : List UInt8) (r : LineReader) : List UInt8 :=
  stream.take (stream.length - r.pending.length)

/-- The outcome of a call: the next line, or `NULL` if no further line is
complete. -/
def Outcome (stream : List UInt8) (done : List (List UInt8)) :
    Option (List UInt8) → LineReader → Prop
  | some line, r => ∃ front text, Buffered stream (done ++ [line]) front text r
  | none, r => (∃ front text, Buffered stream done front text r) ∧
      done = Lines.complete isNewline (delivered stream r)

section Calls

variable {stream : List UInt8} {done : List (List UInt8)} {front text : List UInt8}
  {r : LineReader}

/-- What the reads have delivered is what has been consumed and what stands
in the buffer. -/
theorem Buffered.delivered_eq (h : Buffered stream done front text r) :
    delivered stream r = front ++ text := by
  have hLength : stream.length - r.pending.length = (front ++ text).length := by
    have hStream := congrArg List.length h.stream_eq
    simp only [List.length_append] at hStream ⊢
    omega
  rw [delivered, hLength, h.stream_eq, List.take_left]

/-- A call that finds no newline behind the cursor returns `NULL` for good
reason. -/
theorem Buffered.starved (h : Buffered stream done front text r)
    (hOpen : ∀ c ∈ text, isNewline c = false) : Outcome stream done none r := by
  refine ⟨⟨front, text, h⟩, ?_⟩
  rw [h.delivered_eq, h.closed.complete_eq hOpen]

/-- Whatever part of the stream stands in the buffer, it holds no zero that
would end the string early. -/
theorem Admissible.noZero_text (hStream : Admissible stream) {front text rest : List UInt8}
    (h : stream = front ++ text ++ rest) : ∀ c ∈ text, c ≠ 0 := by
  intro c hc
  apply hStream.noZero c
  rw [h]
  simp [hc]

/-- No line starts with the prompt character. -/
theorem Admissible.head_ne (hStream : Admissible stream) {front text rest : List UInt8}
    (h : stream = front ++ text ++ rest) (hStart : AtLineStart front) (cells : List UInt8) :
    (text ++ 0 :: cells).head? ≠ some 0x3e := by
  cases text with
  | nil => exact fun hHead => absurd (Option.some.inj hHead) (by decide)
  | cons c text =>
      intro hHead
      have hPrompt : c = 0x3e := Option.some.inj hHead
      refine hStream.noPrompt front (text ++ rest) ?_ hStart
      rw [h, hPrompt, List.append_assoc]
      rfl

/-- The cursor behind the newlines, with the text that is left. -/
theorem skipNewlines_text {before run rest tail : List UInt8}
    (hRun : ∀ c ∈ run, isNewline c = true) (hHead : ∀ c ∈ rest.head?, isNewline c = false) :
    skipNewlines ((before ++ (run ++ rest) ++ 0 :: tail).drop before.length) before.length =
      some (before ++ run).length := by
  rw [List.append_assoc, List.drop_left, List.append_assoc, List.length_append]
  cases rest with
  | nil => exact skipNewlines_run hRun (by decide) _
  | cons c rest =>
      rw [List.cons_append]
      exact skipNewlines_run hRun (hHead c rfl) _

/-- The buffer from the cursor on, when the cursor has been moved behind a
run of newlines. -/
theorem drop_text (before run rest tail : List UInt8) :
    (before ++ (run ++ rest) ++ 0 :: tail).drop (before ++ run).length = rest ++ 0 :: tail := by
  have hShape : before ++ (run ++ rest) ++ 0 :: tail = before ++ run ++ (rest ++ 0 :: tail) := by
    simp only [List.append_assoc]
  rw [hShape, List.drop_left]

/-- A complete line behind newlines is returned by the next steps. -/
theorem returnLine_outcome {before run line more tail : List UInt8} {c : UInt8}
    (hZero : ∀ x ∈ line, x ≠ 0) (hRun : ∀ x ∈ run, isNewline x = true)
    (hLine : ∀ x ∈ line, isNewline x = false) (hNe : line ≠ []) (hc : isNewline c = true)
    {pending : List UInt8}
    (h : Buffered stream done front (run ++ (line ++ c :: more))
      ⟨before ++ (run ++ (line ++ c :: more)) ++ 0 :: tail, before.length, pending⟩) :
    ∃ result r', returnLine ⟨before ++ (run ++ (line ++ c :: more)) ++ 0 :: tail,
        (before ++ run).length, pending⟩ ((before ++ run).length + line.length) =
          some (result, r') ∧ Outcome stream done result r' := by
  have hReturn := returnLine_line (before ++ run) (more ++ 0 :: tail) hZero c pending
  have hShape : before ++ run ++ line ++ c :: (more ++ 0 :: tail) =
      before ++ (run ++ (line ++ c :: more)) ++ 0 :: tail := by
    simp
  rw [hShape] at hReturn
  refine ⟨_, _, hReturn, front ++ run ++ line ++ [c], more, ?_, ?_, ?_, ?_, ?_⟩
  · rw [h.stream_eq]
    simp
  · exact (h.closed.skipAll hRun).addLine hLine hNe hc
  · intro before' d hEnd
    obtain ⟨-, hLast⟩ := List.append_inj' hEnd rfl
    rw [← List.singleton_inj.mp hLast]
    exact hc
  · refine ⟨before ++ run ++ line ++ [0], tail, by simp, by simp [Nat.add_assoc]⟩
  · have hLength := h.length_buffer
    simp only [List.length_append, List.length_cons] at hLength ⊢
    omega

/-- The cursor moves over newlines. -/
theorem Buffered.advance {before run rest tail : List UInt8} {pending : List UInt8}
    (h : Buffered stream done front (run ++ rest)
      ⟨before ++ (run ++ rest) ++ 0 :: tail, before.length, pending⟩)
    (hRun : ∀ x ∈ run, isNewline x = true) :
    Buffered stream done (front ++ run) rest
      ⟨before ++ (run ++ rest) ++ 0 :: tail, (before ++ run).length, pending⟩ where
  stream_eq := by
    rw [h.stream_eq]
    simp only [List.append_assoc]
  closed := h.closed.skipAll hRun
  lineStart := h.lineStart.append hRun
  memory := ⟨before ++ run, tail, by simp only [List.append_assoc], rfl⟩
  length_buffer := h.length_buffer

/-- What `read` stores goes behind the text, with a new zero behind it. -/
theorem write_chunk {α : Type} {zero : α} {before chunk tail : List α}
    (h : chunk.length ≤ tail.length) :
    Memory.write (before ++ zero :: tail) before.length (chunk ++ [zero]) =
      some (before ++ chunk ++ zero :: tail.drop chunk.length) := by
  have hWrite := Memory.write_append before (zero :: tail.take chunk.length) (chunk ++ [zero])
    (tail.drop chunk.length) (by simp [Nat.min_eq_left h])
  have hShape : before ++ (zero :: tail.take chunk.length) ++ tail.drop chunk.length =
      before ++ zero :: tail := by
    rw [List.append_assoc, List.cons_append, List.take_append_drop]
  have hShape' : before ++ (chunk ++ [zero]) ++ tail.drop chunk.length =
      before ++ chunk ++ zero :: tail.drop chunk.length := by
    simp
  rw [hShape, hShape'] at hWrite
  exact hWrite

/-- What has been read of a line, with the newlines in front of it, leaves
room. -/
theorem Buffered.fits {run rest : List UInt8} (hStream : Admissible stream)
    (hRun : ∀ x ∈ run, isNewline x = true) (hOpen : ∀ x ∈ rest, isNewline x = false)
    (h : Buffered stream done (front ++ run) rest r) :
    (run ++ rest).length < maxAtResponse := by
  rw [List.length_append]
  exact hStream.fits front run rest r.pending h.stream_eq hRun hOpen

/-- The loop, with the newlines `run` and the start `rest` of a line in the
buffer. -/
theorem readLoop_outcome (hStream : Admissible stream) (reads : List Nat)
    {run rest tail pending : List UInt8} (hRun : ∀ x ∈ run, isNewline x = true)
    (hOpen : ∀ x ∈ rest, isNewline x = false)
    (h : Buffered stream done (front ++ run) rest ⟨run ++ rest ++ 0 :: tail, run.length, pending⟩) :
    ∃ result r', readLoop reads ⟨run ++ rest ++ 0 :: tail, run.length, pending⟩
        (run ++ rest).length = some (result, r') ∧ Outcome stream done result r' := by
  induction reads generalizing run rest tail pending with
  | nil =>
      have hFits := h.fits hStream hRun hOpen
      rw [readLoop, makeRoom, if_neg (by omega)]
      exact ⟨none, _, rfl, h.starved hOpen⟩
  | cons more reads ih =>
      have hFits := h.fits hStream hRun hOpen
      rw [readLoop, makeRoom, if_neg (by omega)]
      simp only [Option.pure_def, Option.bind_eq_bind, Option.bind_some]
      generalize hCount : min (more + 1) (maxAtResponse - (run ++ rest).length) = count
      by_cases hChunk : pending.take count = []
      · rw [if_pos hChunk]
        exact ⟨none, _, rfl, h.starved hOpen⟩
      · rw [if_neg hChunk]
        have hBuffer := h.length_buffer
        simp only [List.length_append, List.length_cons] at hBuffer hFits hCount
        have hInside : (pending.take count).length ≤ tail.length := by
          rw [List.length_take]
          omega
        rw [write_chunk hInside, Option.bind_some]
        generalize hTail : tail.drop (pending.take count).length = tail'
        -- the text from the cursor on is what was left of the line and the new bytes
        obtain ⟨run', rest', hText, hRun', hHead, hSplit⟩ :=
          Lines.exists_split isNewline (rest ++ pending.take count)
        have hStep : Buffered stream done (front ++ run) (run' ++ rest')
            ⟨run ++ (run' ++ rest') ++ 0 :: tail', run.length, pending.drop count⟩ := by
          refine ⟨?_, h.closed, h.lineStart, ⟨run, tail', rfl, rfl⟩, ?_⟩
          · rw [h.stream_eq, ← hText]
            simp only [List.append_assoc, List.take_append_drop]
          · rw [← hText, ← hTail]
            simp only [List.length_append, List.length_cons, List.length_drop]
            omega
        have hShape : run ++ rest ++ pending.take count ++ 0 :: tail' =
            run ++ (run' ++ rest') ++ 0 :: tail' := by
          rw [← hText]
          simp only [List.append_assoc]
        have hNext := hStep.advance hRun'
        have hZero := hStream.noZero_text hNext.stream_eq
        rw [hShape, skipNewlines_text hRun' hHead, Option.bind_some, drop_text,
          findNextEOL_eq (hStream.head_ne hNext.stream_eq hNext.lineStart tail')]
        rcases hSplit with hOpen' | ⟨line, c, behind, rfl, hNe, hLine, hc⟩
        · rw [scanEol_open hZero hOpen', Option.bind_some]
          have hShape' : run ++ (run' ++ rest') ++ 0 :: tail' =
              (run ++ run') ++ rest' ++ 0 :: tail' := by
            simp only [List.append_assoc]
          have hRead : (run ++ rest).length + (pending.take count).length =
              ((run ++ run') ++ rest').length := by
            have hLength := congrArg List.length hText
            simp only [List.length_append] at hLength ⊢
            omega
          rw [hShape', List.append_assoc] at hNext
          rw [hShape', hRead]
          refine ih (fun x hx => ?_) hOpen' hNext
          rcases List.mem_append.mp hx with hOld | hNew
          · exact hRun x hOld
          · exact hRun' x hNew
        · have hZeroLine : ∀ x ∈ line, x ≠ 0 := fun x hx => hZero x (by simp [hx])
          rw [List.append_assoc, List.cons_append, scanEol_line hZeroLine hLine hc,
            Option.bind_some]
          exact returnLine_outcome hZeroLine hRun' hLine hNe hc hStep

/-- The partial line moves to the start of the buffer. -/
theorem move_pending {α : Type} {zero : α} (before text rest tail : List α) :
    ∃ tail', Memory.slice (before ++ text ++ rest ++ zero :: tail) (before ++ text).length
        (rest.length + 1) = some (rest ++ [zero]) ∧
      Memory.write (before ++ text ++ rest ++ zero :: tail) 0 (rest ++ [zero]) =
        some (rest ++ zero :: tail') ∧
      (rest ++ zero :: tail').length = (before ++ text ++ rest ++ zero :: tail).length := by
  have hSlice := Memory.slice_append (before ++ text) (rest ++ [zero]) tail
  have hShape : before ++ text ++ (rest ++ [zero]) ++ tail =
      before ++ text ++ rest ++ zero :: tail := by
    simp
  have hLen : (rest ++ [zero]).length = rest.length + 1 := List.length_append
  rw [hShape, hLen] at hSlice
  obtain ⟨stored, hWrite, hLength, hTake⟩ := Memory.exists_write
    (before ++ text ++ rest ++ zero :: tail) 0 (rest ++ [zero]) (by simp; omega)
  have hStored : stored = rest ++ zero :: stored.drop (rest ++ [zero]).length := by
    have hSplit := List.take_append_drop (rest ++ [zero]).length stored
    rw [Nat.zero_add] at hTake
    rw [hTake, List.take_zero, List.nil_append, List.append_assoc] at hSplit
    exact hSplit.symm
  refine ⟨stored.drop (rest ++ [zero]).length, hSlice, ?_, ?_⟩
  · rw [← hStored]
    exact hWrite
  · rw [← hStored]
    exact hLength

/-- One call, from any state between two calls. -/
theorem readline_outcome (hStream : Admissible stream) (reads : List Nat)
    (h : Buffered stream done front text r) :
    ∃ result r', readline reads r = some (result, r') ∧ Outcome stream done result r' := by
  obtain ⟨before, tail, hMemory, hCur⟩ := h.memory
  obtain ⟨buffer, cur, pending⟩ := r
  simp only at hMemory hCur
  subst hMemory hCur
  have hLength := h.length_buffer
  simp only [List.length_append, List.length_cons] at hLength
  have hAt : (before ++ text ++ 0 :: tail)[before.length]? = (text ++ 0 :: tail)[0]? := by
    rw [List.append_assoc, List.getElem?_append_right (Nat.le_refl _), Nat.sub_self]
  have hNoNewlines : ∀ x ∈ ([] : List UInt8), isNewline x = true :=
    fun x hx => absurd hx List.not_mem_nil
  have hNoText : ∀ x ∈ ([] : List UInt8), isNewline x = false :=
    fun x hx => absurd hx List.not_mem_nil
  rw [readline, hAt]
  cases text with
  | nil =>
      -- the buffer is used up and starts anew
      obtain ⟨c, cells, hCells⟩ : ∃ c cells, before ++ [] ++ 0 :: tail = c :: cells := by
        cases before with
        | nil => exact ⟨0, tail, rfl⟩
        | cons c before => exact ⟨c, before ++ [] ++ 0 :: tail, rfl⟩
      have hWrite := Memory.write_append [] [c] [0] cells rfl
      have hFresh : Buffered stream done (front ++ []) [] ⟨[] ++ [] ++ 0 :: cells, 0, pending⟩ := by
        rw [List.append_nil]
        refine ⟨h.stream_eq, h.closed, h.lineStart, ⟨[], cells, rfl, rfl⟩, ?_⟩
        have hBuffer := h.length_buffer
        simp only [hCells] at hBuffer
        exact hBuffer
      have hLoop := readLoop_outcome hStream reads hNoNewlines hNoText hFresh
      simp only [List.nil_append, List.singleton_append, List.length_nil] at hWrite hLoop
      simp only [List.nil_append, List.getElem?_cons_zero, Option.bind_eq_bind, Option.bind_some,
        if_true, hCells, hWrite]
      exact hLoop
  | cons c text =>
      have hZero := hStream.noZero_text h.stream_eq
      have hFirst : ¬c = 0 := hZero c List.mem_cons_self
      simp only [List.cons_append, List.getElem?_cons_zero, Option.bind_eq_bind, Option.bind_some,
        if_neg hFirst]
      obtain ⟨run, rest, hText, hRun, hHead, hSplit⟩ := Lines.exists_split isNewline (c :: text)
      rw [hText] at h hLength hZero
      have hShape : before ++ c :: text ++ 0 :: tail = before ++ (run ++ rest) ++ 0 :: tail := by
        rw [hText]
      have hNext := h.advance hRun
      rw [hShape, skipNewlines_text hRun hHead, Option.bind_some, drop_text,
        findNextEOL_eq (hStream.head_ne hNext.stream_eq hNext.lineStart tail)]
      rcases hSplit with hOpen | ⟨line, d, behind, rfl, hNe, hLine, hd⟩
      · have hZeroRest : ∀ x ∈ rest, x ≠ 0 := hStream.noZero_text hNext.stream_eq
        rw [scanEol_open hZeroRest hOpen, Option.bind_some]
        obtain ⟨tail', hSlice, hWrite, hMoved⟩ := move_pending before run rest tail
        have hWhole : before ++ (run ++ rest) ++ 0 :: tail =
            before ++ run ++ rest ++ 0 :: tail := by
          simp only [List.append_assoc]
        have hPartial : Buffered stream done ((front ++ run) ++ []) rest
            ⟨[] ++ rest ++ 0 :: tail', 0, pending⟩ := by
          rw [List.append_nil]
          refine ⟨hNext.stream_eq, hNext.closed, hNext.lineStart, ⟨[], tail', rfl, rfl⟩, ?_⟩
          have hBuffer := h.length_buffer
          rw [hWhole, ← hMoved] at hBuffer
          exact hBuffer
        have hLoop := readLoop_outcome hStream reads hNoNewlines hOpen hPartial
        simp only [strlen_text hZeroRest, Option.bind_some, hWhole, hSlice, hWrite]
        exact hLoop
      · have hZeroLine : ∀ x ∈ line, x ≠ 0 := fun x hx => hZero x (by simp [hx])
        rw [List.append_assoc, List.cons_append, scanEol_line hZeroLine hLine hd,
          Option.bind_some]
        exact returnLine_outcome hZeroLine hRun hLine hNe hd h

end Calls

theorem makeRoom_pending {r r' : LineReader} {pRead pRead' : Nat}
    (h : makeRoom r pRead = some (r', pRead')) : r'.pending = r.pending := by
  rw [makeRoom] at h
  split_ifs at h
  · obtain ⟨buffer, -, hRoom⟩ := Option.map_eq_some_iff.mp h
    exact congrArg (fun room => room.1.pending) hRoom.symm
  · exact congrArg (fun room => room.1.pending) (Option.some.inj h).symm

theorem returnLine_pending {r r' : LineReader} {pEol : Nat} {result : Option (List UInt8)}
    (h : returnLine r pEol = some (result, r')) : r'.pending = r.pending := by
  obtain ⟨buffer, -, hReturn⟩ := Option.bind_eq_some_iff.mp h
  exact congrArg (fun outcome => outcome.2.pending) (Option.some.inj hReturn).symm

/-- The reads of a call take from the front of what is pending. -/
theorem readLoop_pending {reads : List Nat} {r r' : LineReader} {pRead : Nat}
    {result : Option (List UInt8)} (h : readLoop reads r pRead = some (result, r')) :
    r'.pending <:+ r.pending := by
  induction reads generalizing r pRead with
  | nil =>
      obtain ⟨⟨room, at'⟩, hRoom, hReturn⟩ := Option.bind_eq_some_iff.mp h
      obtain rfl : room = r' := congrArg Prod.snd (Option.some.inj hReturn)
      exact makeRoom_pending hRoom ▸ List.suffix_rfl
  | cons more reads ih =>
      obtain ⟨⟨room, at'⟩, hRoom, hRest⟩ := Option.bind_eq_some_iff.mp h
      rw [← makeRoom_pending hRoom]
      dsimp only at hRest
      split_ifs at hRest with hChunk
      · obtain rfl : room = r' := congrArg Prod.snd (Option.some.inj hRest)
        exact List.suffix_rfl
      · obtain ⟨buffer, -, hRest⟩ := Option.bind_eq_some_iff.mp hRest
        obtain ⟨cur, -, hRest⟩ := Option.bind_eq_some_iff.mp hRest
        obtain ⟨found, -, hRest⟩ := Option.bind_eq_some_iff.mp hRest
        cases found with
        | none => exact (ih hRest).trans (List.drop_suffix _ _)
        | some pEol =>
            rw [returnLine_pending hRest]
            exact List.drop_suffix _ _

/-- What is still to be read behind a call is a final part of what was to be
read in front of it. Nothing is read twice and nothing is put back. -/
theorem readline_pending {reads : List Nat} {r r' : LineReader} {result : Option (List UInt8)}
    (h : readline reads r = some (result, r')) : r'.pending <:+ r.pending := by
  obtain ⟨c, -, hRest⟩ := Option.bind_eq_some_iff.mp h
  split_ifs at hRest with hEnd
  · obtain ⟨buffer, -, hLoop⟩ := Option.bind_eq_some_iff.mp hRest
    have hTaken := readLoop_pending hLoop
    exact hTaken
  · obtain ⟨cur, -, hRest⟩ := Option.bind_eq_some_iff.mp hRest
    obtain ⟨found, -, hRest⟩ := Option.bind_eq_some_iff.mp hRest
    cases found with
    | some pEol => exact returnLine_pending hRest ▸ List.suffix_rfl
    | none =>
        obtain ⟨len, -, hRest⟩ := Option.bind_eq_some_iff.mp hRest
        obtain ⟨text, -, hRest⟩ := Option.bind_eq_some_iff.mp hRest
        obtain ⟨buffer, -, hLoop⟩ := Option.bind_eq_some_iff.mp hRest
        have hTaken := readLoop_pending hLoop
        exact hTaken

/-- What has been delivered stays in front of what is delivered later. -/
theorem delivered_prefix {r r' : LineReader} (h : r'.pending <:+ r.pending) (stream : List UInt8) :
    delivered stream r <+: delivered stream r' :=
  List.take_prefix_take_left (Nat.sub_le_sub_left h.length_le _)

/-- The reader with the lines that the calls so far have returned, and
whether the last of them has returned `NULL`. -/
structure Reading where
  reader : LineReader
  returned : List (List UInt8)
  starved : Bool

def Reading.init (stream : List UInt8) : Reading := ⟨LineReader.init stream, [], false⟩

/-- A call of `readline`, by how many bytes its reads could return more than
one. -/
def call (s : Reading) (reads : List Nat) : Option Reading :=
  (readline reads s.reader).map fun outcome =>
    match outcome.1 with
    | some line => ⟨outcome.2, s.returned ++ [line], false⟩
    | none => ⟨outcome.2, s.returned, true⟩

/-- Between two calls, the lines returned are the complete ones in front of
the cursor, and after `NULL` all that have been delivered. -/
structure Reading.Exact (stream : List UInt8) (s : Reading) : Prop where
  buffered : ∃ front text, Buffered stream s.returned front text s.reader
  starved : s.starved = true →
    s.returned = Lines.complete isNewline (delivered stream s.reader)

/-- At the start the buffer holds the empty string and no line has been
returned. -/
theorem Reading.init_exact (stream : List UInt8) : (Reading.init stream).Exact stream where
  buffered := ⟨[], [], rfl, Lines.closed_nil, atLineStart_nil,
    ⟨[], List.replicate maxAtResponse 0, rfl, rfl⟩, List.length_replicate⟩
  starved h := absurd h Bool.false_ne_true

/-- A call stays in the buffer, and behind it the lines returned are again
the first complete ones of what has been read. -/
theorem call_exact {stream : List UInt8} (hStream : Admissible stream) {s : Reading}
    (h : s.Exact stream) (reads : List Nat) : ∃ t, call s reads = some t ∧ t.Exact stream := by
  obtain ⟨front, text, hBuffered⟩ := h.buffered
  obtain ⟨result, r, hRun, hOutcome⟩ := readline_outcome hStream reads hBuffered
  cases result with
  | some line =>
      refine ⟨⟨r, s.returned ++ [line], false⟩, ?_, hOutcome, ?_⟩
      · rw [call, hRun]
        rfl
      · exact fun hStarved => absurd hStarved Bool.false_ne_true
  | none =>
      refine ⟨⟨r, s.returned, true⟩, ?_, hOutcome.1, fun _ => hOutcome.2⟩
      rw [call, hRun]
      rfl

/-- By induction over the calls, whatever the reads of each of them deliver. -/
theorem run_exact {stream : List UInt8} (hStream : Admissible stream) {s : Reading}
    (h : s.Exact stream) (calls : List (List Nat)) :
    ∃ t, Transition.run call s calls = some t ∧ t.Exact stream := by
  induction calls generalizing s with
  | nil => exact ⟨s, rfl, h⟩
  | cons reads calls ih =>
      obtain ⟨middle, hCall, hMiddle⟩ := call_exact hStream h reads
      obtain ⟨t, hRun, hExact⟩ := ih hMiddle
      refine ⟨t, ?_, hExact⟩
      rw [Transition.run_cons, hCall]
      exact hRun

/-- A call returns the next line if a further one is complete already,
whatever its reads. -/
theorem call_returns {stream : List UInt8} (hStream : Admissible stream) {s : Reading}
    (h : s.Exact stream)
    (hMore : s.returned ≠ Lines.complete isNewline (delivered stream s.reader))
    (reads : List Nat) : ∃ t line, call s reads = some t ∧ t.returned = s.returned ++ [line] := by
  obtain ⟨front, text, hBuffered⟩ := h.buffered
  obtain ⟨result, r, hRun, hOutcome⟩ := readline_outcome hStream reads hBuffered
  cases result with
  | some line => exact ⟨⟨r, s.returned ++ [line], false⟩, line, by rw [call, hRun]; rfl, rfl⟩
  | none =>
      -- all that is complete now was complete before the call, and is more than was returned
      obtain ⟨later, hLater⟩ := delivered_prefix (readline_pending hRun) stream
      have hComplete : Lines.complete isNewline (delivered stream s.reader) <+:
          Lines.complete isNewline (delivered stream s.reader ++ later) :=
        Lines.complete_prefix _ later
      rw [hLater, ← hOutcome.2, hBuffered.delivered_eq, hBuffered.closed] at hComplete
      have hNone : Lines.complete isNewline text <+: [] := by
        rwa [← List.prefix_append_right_inj s.returned, List.append_nil]
      rw [hBuffered.delivered_eq, hBuffered.closed, List.prefix_nil.mp hNone,
        List.append_nil] at hMore
      exact absurd rfl hMore

/-- For every admissible stream and every way in which the reads of any
number of calls cut it, no call leaves the buffer, the lines returned are
the first complete ones of what has been delivered, and all of them when a
call returns `NULL`; and as long as a line that is complete has not been
returned, the next call returns it, whatever its reads deliver. -/
theorem readline_exact (stream : List UInt8) (hStream : Admissible stream)
    (calls : List (List Nat)) :
    ∃ s, Transition.run call (Reading.init stream) calls = some s ∧
      s.reader.buffer.length = maxAtResponse + 1 ∧ s.reader.cur ≤ maxAtResponse ∧
      s.returned <+: Lines.complete isNewline (delivered stream s.reader) ∧
      (s.starved = true → s.returned = Lines.complete isNewline (delivered stream s.reader)) ∧
      (s.returned ≠ Lines.complete isNewline (delivered stream s.reader) →
        ∀ reads, ∃ t line, call s reads = some t ∧ t.returned = s.returned ++ [line]) := by
  obtain ⟨s, hRun, hExact⟩ := run_exact hStream (Reading.init_exact stream) calls
  obtain ⟨front, text, hBuffered⟩ := hExact.buffered
  obtain ⟨before, tail, hMemory, hCur⟩ := hBuffered.memory
  refine ⟨s, hRun, hBuffered.length_buffer, ?_, ?_, hExact.starved, call_returns hStream hExact⟩
  · have hLength := hBuffered.length_buffer
    rw [hMemory] at hLength
    simp only [List.length_append, List.length_cons] at hLength
    omega
  · rw [hBuffered.delivered_eq, hBuffered.closed]
    exact List.prefix_append _ _

/-- `"OK\r\nAT\r\n"`. -/
def okStream : List UInt8 := [0x4f, 0x4b, 0x0d, 0x0a, 0x41, 0x54, 0x0d, 0x0a]

/-- Two short lines without a zero, a prompt or a character too many. -/
theorem okStream_admissible : Admissible okStream where
  noZero := by simp [okStream]
  noPrompt := by
    intro front rest h
    have hMem : (0x3e : UInt8) ∈ okStream := by
      rw [h]
      simp
    exact absurd hMem (by decide)
  fits := by
    intro front run line rest h _ _
    have hLength : okStream.length = 8 := rfl
    have hMax : maxAtResponse = 8192 := rfl
    rw [h] at hLength
    simp only [List.length_append] at hLength
    omega

/-- A call whose reads cut the stream in the middle of its first line and
deliver all of it. -/
theorem readline_exact_ok :
    ∃ s, Transition.run call (Reading.init okStream) [[0, 6]] = some s ∧
      s.reader.buffer.length = maxAtResponse + 1 ∧ s.reader.cur ≤ maxAtResponse ∧
      s.returned <+: Lines.complete isNewline (delivered okStream s.reader) ∧
      (s.starved = true →
        s.returned = Lines.complete isNewline (delivered okStream s.reader)) ∧
      (s.returned ≠ Lines.complete isNewline (delivered okStream s.reader) →
        ∀ reads, ∃ t line, call s reads = some t ∧ t.returned = s.returned ++ [line]) :=
  readline_exact okStream okStream_admissible [[0, 6]]

end Agps.Atc
