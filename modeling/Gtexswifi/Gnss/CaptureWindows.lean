import Gtexswifi.Gnss.CwDataCapture
import Gtexswifi.Library.Sampling
import Gtexswifi.Library.Transition
import Mathlib.Data.FinEnum

/-! The windows of a capture: the data lines behind a `BEGIN` without every
fifth line, cut into windows of `nDataCount`, against what `FFT` is called
with. -/
namespace Gnss

open Numerals Sampling

/-- The captures of a sequence of lines, each as the lines behind its
`BEGIN`. -/
structure Captures where
  closed : List (List (List UInt8))
  running : Option (List (List UInt8))

def Captures.next (c : Captures) (line : List UInt8) : Captures :=
  let behind := if occurs dataCaptureBegin line = true then some [] else none
  match c.running with
  | none => ⟨c.closed, behind⟩
  | some capture =>
      if occurs dataCaptureEnd line = true then ⟨c.closed ++ [capture], behind⟩
      else ⟨c.closed, some (capture ++ [line])⟩

def Captures.all (c : Captures) : List (List (List UInt8)) := c.closed ++ c.running.toList

def captures (lines : List (List UInt8)) : Captures := lines.foldl Captures.next ⟨[], none⟩

/-- The value of two hexadecimal digits. -/
def hexByte (word : List UInt8) : Option UInt8 :=
  if word.length = 2 ∧ ∀ c ∈ word, digitValue c < 16 then some (UInt8.ofNat (valueOf 16 word))
  else none

/-- `b2:b1` and `b4:b3` of a data line. -/
def dataLine (line : List UInt8) : Option (BitVec 16 × BitVec 16) :=
  match words line with
  | [word1, word2, word3, word4] => do
      let b1 ← hexByte word1
      let b2 ← hexByte word2
      let b3 ← hexByte word3
      let b4 ← hexByte word4
      return (b2.toBitVec ++ b1.toBitVec, b4.toBitVec ++ b3.toBitVec)
  | _ => none

/-- The data lines of a capture that are not skipped. -/
def samples (capture : List (List UInt8)) : List (BitVec 16 × BitVec 16) :=
  (skipEvery 5 capture).filterMap dataLine

/-- `I` and `Q` of a sample. -/
def iq (sample : BitVec 16 × BitVec 16) : Int × Int := (sample.1.toInt, -sample.2.toInt)

/-- The cells of a window, each pair of them with its weight. -/
def windowCells (window : List (Int × Int)) : List Cell :=
  window.zipIdx.flatMap fun x => [.weighted x.1.1 x.2, .weighted x.1.2 x.2]

def captureWindows (capture : List (List UInt8)) : List (List Cell) :=
  (windows nDataCount (samples capture)).map fun window => windowCells (window.map iq)

/-- No index is out of range, and `FFT` is called with the windows of the
captures. -/
def ExactWindows (lines : List (List UInt8)) : Prop :=
  ∃ s, Transition.run cwDataCapture .static lines = some s ∧
    s.windows = (captures lines).all.flatMap captureWindows

/-- What the code reads in the lines that it does not skip. -/
def readSamples (capture : List (List UInt8)) : List (Nat × Nat) :=
  (skipEvery 5 capture).filterMap hexVals

def readIq (sample : Nat × Nat) : Int × Int :=
  (signConversion sample.1, signConversion sample.2 * -1)

def readWindows (capture : List (List UInt8)) : List (List Cell) :=
  (windows nDataCount (readSamples capture)).map fun window => windowCells (window.map readIq)

/-- The lines of a capture can be counted, and those that are not skipped
can be read. -/
def Scanned (capture : List (List UInt8)) : Prop :=
  capture.length < 2 ^ 31 ∧ ∀ line ∈ skipEvery 5 capture, (hexVals line).isSome = true

/-- The state inside a capture, behind the windows of earlier ones. -/
structure Follows (earlier : List (List Cell)) (s : Capture) (capture : List (List UInt8)) :
    Prop where
  flag : s.dataCaptureFlag = true
  lineCount : s.lineCount = capture.length
  dataCount : s.dataCount = (rest nDataCount (readSamples capture)).length
  cells : (s.arrIQData.take (2 * s.dataCount + 1)).tail =
    windowCells ((rest nDataCount (readSamples capture)).map readIq)
  lengthIQ : s.arrIQData.length = 2 * nDataCount + 1
  lengthWin : s.arrWinAdd.length = nDataCount
  windows : s.windows = earlier ++ readWindows capture
  scanned : Scanned capture

/-- The state behind a sequence of lines. -/
def Tracks (s : Capture) (c : Captures) : Prop :=
  (∀ capture ∈ c.closed, Scanned capture) ∧
    match c.running with
    | none => s.dataCaptureFlag = false ∧ s.windows = c.closed.flatMap readWindows
    | some capture => Follows (c.closed.flatMap readWindows) s capture

/-- One more sample fills two more cells, each with its weight. -/
theorem windowCells_append_singleton (window : List (Int × Int)) (x : Int × Int) :
    windowCells (window ++ [x]) =
      windowCells window ++ [.weighted x.1 window.length, .weighted x.2 window.length] := by
  simp [windowCells, List.zipIdx_append]

/-- A line gives a sample unless it is the fifth of its group, which is
skipped. -/
theorem readSamples_append_singleton (capture : List (List UInt8)) (line : List UInt8) :
    readSamples (capture ++ [line]) =
      if (capture.length + 1) % 5 ≠ 0 then readSamples capture ++ (hexVals line).toList
      else readSamples capture := by
  unfold readSamples
  rw [skipEvery_append_singleton]
  split
  · rw [List.filterMap_append]
    cases hVals : hexVals line <;> simp [hVals]
  · rfl

theorem rest_lt (capture : List (List UInt8)) :
    (rest nDataCount (readSamples capture)).length < nDataCount := by
  rw [length_rest]
  exact Nat.mod_lt _ (by decide)

/-- A sample is stored behind the others of its window. -/
theorem saveData_spec {s : Capture} {cells : List Cell} {line : List UInt8} {vals : Nat × Nat}
    (hVals : hexVals line = some vals) (hCount : s.dataCount < nDataCount)
    (hIQ : s.arrIQData.length = 2 * nDataCount + 1) (hWin : s.arrWinAdd.length = nDataCount)
    (hCells : (s.arrIQData.take (2 * s.dataCount + 1)).tail = cells) :
    ∃ arrIQData arrWinAdd, saveData s line =
        some { s with dataCount := s.dataCount + 1, arrIQData, arrWinAdd } ∧
      arrIQData.length = 2 * nDataCount + 1 ∧ arrWinAdd.length = nDataCount ∧
      (arrIQData.take (2 * (s.dataCount + 1) + 1)).tail =
        cells ++
          [.weighted (readIq vals).1 s.dataCount, .weighted (readIq vals).2 s.dataCount] := by
  obtain ⟨arrWinAdd, hWinWrite, hWinLength, -⟩ :=
    Memory.exists_write s.arrWinAdd s.dataCount [some s.dataCount] (by rw [hWin]; exact hCount)
  obtain ⟨first, hFirst, hFirstLength, hFirstTake⟩ :=
    Memory.exists_write s.arrIQData (2 * s.dataCount + 1)
      [.weighted (readIq vals).1 s.dataCount] (by rw [hIQ, List.length_singleton]; omega)
  obtain ⟨second, hSecond, hSecondLength, hSecondTake⟩ :=
    Memory.exists_write first (2 * s.dataCount + 2)
      [.weighted (readIq vals).2 s.dataCount]
      (by rw [hFirstLength, hIQ, List.length_singleton]; omega)
  rw [List.length_singleton] at hFirstTake hSecondTake
  refine ⟨second, arrWinAdd, ?_, by omega, by omega, ?_⟩
  · simp only [readIq] at hFirst hSecond
    simp only [saveData, hVals, hWinWrite, hFirst, hSecond, Option.bind_eq_bind, Option.bind_some,
      Nat.add_sub_cancel, Option.pure_def]
  · have hNonempty : s.arrIQData.take (2 * s.dataCount + 1) ≠ [] := by
      intro hNil
      have hLength := congrArg List.length hNil
      rw [List.length_take, hIQ, List.length_nil] at hLength
      omega
    have hTake : second.take (2 * (s.dataCount + 1) + 1) =
        s.arrIQData.take (2 * s.dataCount + 1) ++
          [.weighted (readIq vals).1 s.dataCount, .weighted (readIq vals).2 s.dataCount] := by
      rw [show 2 * (s.dataCount + 1) + 1 = 2 * s.dataCount + 2 + 1 by omega, hSecondTake,
        hFirstTake, List.append_assoc]
      rfl
    rw [hTake, List.tail_append_of_ne_nil hNonempty, hCells]

/-- A line that the code cannot read has no successor state. -/
theorem saveData_none {s : Capture} {line : List UInt8} (h : hexVals line = none) :
    saveData s line = none := by
  simp [saveData, h]

/-- One more line can be read if it is counted without overflow, and holds
two numbers where it is not skipped. -/
theorem scanned_append_singleton {capture : List (List UInt8)} {line : List UInt8} :
    Scanned (capture ++ [line]) ↔ Scanned capture ∧ capture.length + 1 < 2 ^ 31 ∧
      ((capture.length + 1) % 5 ≠ 0 → (hexVals line).isSome = true) := by
  unfold Scanned
  rw [List.length_append, List.length_singleton, skipEvery_append_singleton]
  constructor
  · intro h
    obtain ⟨hLength, hRead⟩ := h
    split at hRead
    · exact ⟨⟨by omega, fun x hx => hRead x (List.mem_append_left _ hx)⟩, hLength,
        fun _ => hRead line (List.mem_append_right _ List.mem_cons_self)⟩
    · next hSkip => exact ⟨⟨by omega, hRead⟩, hLength, fun hStored => absurd hStored hSkip⟩
  · intro h
    obtain ⟨⟨_, hRead⟩, hLength, hLine⟩ := h
    refine ⟨hLength, ?_⟩
    split
    · next hStored =>
        intro x hx
        cases List.mem_append.mp hx with
        | inl hOld => exact hRead x hOld
        | inr hNew =>
            rw [List.mem_singleton.mp hNew]
            exact hLine hStored
    · exact hRead

theorem transform_of_lt {s : Capture} (h : s.dataCount < nDataCount) : transform s = s :=
  if_neg h.ne

/-- A sample closes its window or leaves it open. -/
theorem readWindows_of_vals {capture : List (List UInt8)} {line : List UInt8} {vals : Nat × Nat}
    (hSkip : (capture.length + 1) % 5 ≠ 0) (hVals : hexVals line = some vals) :
    rest nDataCount (readSamples (capture ++ [line])) =
        (if (rest nDataCount (readSamples capture)).length + 1 = nDataCount then []
          else rest nDataCount (readSamples capture) ++ [vals]) ∧
      readWindows (capture ++ [line]) =
        if (rest nDataCount (readSamples capture)).length + 1 = nDataCount then
          readWindows capture ++
            [windowCells ((rest nDataCount (readSamples capture) ++ [vals]).map readIq)]
        else readWindows capture := by
  have hSamples : readSamples (capture ++ [line]) = readSamples capture ++ [vals] := by
    rw [readSamples_append_singleton, if_pos hSkip, hVals]
    rfl
  rw [readWindows, hSamples, rest_append_singleton (by decide),
    windows_append_singleton (by decide)]
  refine ⟨rfl, ?_⟩
  split
  · rw [List.map_append]
    rfl
  · rfl

/-- A fifth line counts, and is not read. -/
theorem Follows.skipped {earlier : List (List Cell)} {s : Capture} {capture : List (List UInt8)}
    {line : List UInt8} (h : Follows earlier s capture) (hSkip : (capture.length + 1) % 5 = 0)
    (hScanned : Scanned (capture ++ [line])) :
    Follows earlier { s with lineCount := capture.length + 1 } (capture ++ [line]) := by
  have hLength : (capture ++ [line]).length = capture.length + 1 := List.length_append
  have hSame : readSamples (capture ++ [line]) = readSamples capture := by
    rw [readSamples_append_singleton, if_neg (not_not.mpr hSkip)]
  have hWindows : readWindows (capture ++ [line]) = readWindows capture := by
    rw [readWindows, hSame]
    rfl
  exact ⟨h.flag, hLength.symm, hSame ▸ h.dataCount, hSame ▸ h.cells, h.lengthIQ,
    h.lengthWin, hWindows ▸ h.windows, hScanned⟩

/-- The sample behind those of the open window closes it, or leaves it open. -/
theorem Follows.stored {earlier : List (List Cell)} {s : Capture} {capture : List (List UInt8)}
    {line : List UInt8} {vals : Nat × Nat} {arrIQData : List Cell} {arrWinAdd : List (Option Nat)}
    (h : Follows earlier s capture) (hSkip : (capture.length + 1) % 5 ≠ 0)
    (hVals : hexVals line = some vals) (hScanned : Scanned (capture ++ [line]))
    (hIQ : arrIQData.length = 2 * nDataCount + 1) (hWin : arrWinAdd.length = nDataCount)
    (hCells : (arrIQData.take (2 * (s.dataCount + 1) + 1)).tail =
      windowCells ((rest nDataCount (readSamples capture) ++ [vals]).map readIq)) :
    Follows earlier (transform { s with
      lineCount := capture.length + 1
      dataCount := s.dataCount + 1
      arrIQData
      arrWinAdd }) (capture ++ [line]) := by
  have hLength : (capture ++ [line]).length = capture.length + 1 := List.length_append
  obtain ⟨hRest, hWindows⟩ := readWindows_of_vals hSkip hVals
  rw [← h.dataCount] at hRest hWindows
  by_cases hLast : s.dataCount + 1 = nDataCount
  · rw [if_pos hLast] at hRest hWindows
    have hFirst : (arrIQData.take 1).length = 1 := by
      rw [List.length_take, hIQ]
      omega
    have hWhole : arrIQData.tail =
        windowCells ((rest nDataCount (readSamples capture) ++ [vals]).map readIq) := by
      rw [← hCells, hLast, ← hIQ, List.take_length]
    rw [transform, if_pos hLast]
    refine ⟨h.flag, hLength.symm, by rw [hRest]; rfl, ?_, ?_, hWin, ?_, hScanned⟩
    · have hTake : (arrIQData.take 1 ++
          List.replicate (2 * nDataCount) Cell.transformed).take 1 = arrIQData.take 1 :=
        List.take_left' hFirst
      have hNone : (arrIQData.take 1).tail = [] :=
        List.eq_nil_of_length_eq_zero (by rw [List.length_tail, hFirst])
      rw [hRest]
      exact (congrArg List.tail hTake).trans hNone
    · rw [List.length_append, hFirst, List.length_replicate, Nat.add_comm]
    · rw [hWindows, h.windows, hWhole, List.append_assoc]
  · rw [if_neg hLast] at hRest hWindows
    rw [transform, if_neg hLast]
    refine ⟨h.flag, hLength.symm, ?_, hRest ▸ hCells, hIQ, hWin, hWindows ▸ h.windows, hScanned⟩
    rw [hRest, List.length_append, ← h.dataCount]
    rfl

/-- One more line of a capture is stored, unless it cannot be counted or
read. -/
theorem saveLine_spec {earlier : List (List Cell)} {s : Capture} {capture : List (List UInt8)}
    (h : Follows earlier s capture) (line : List UInt8) :
    (∃ t, saveLine s line = some t ∧ Follows earlier t (capture ++ [line])) ∨
      saveLine s line = none ∧ ¬Scanned (capture ++ [line]) := by
  have hCounted := h.scanned.1
  have hRoom : s.dataCount < nDataCount := h.dataCount.trans_lt (rest_lt capture)
  unfold saveLine
  rw [h.lineCount, scanned_append_singleton]
  by_cases hFull : capture.length + 1 = 2 ^ 31
  · rw [if_pos hFull]
    exact Or.inr ⟨rfl, fun hScanned => hScanned.2.1.ne hFull⟩
  have hShort : capture.length + 1 < 2 ^ 31 := by omega
  rw [if_neg hFull]
  by_cases hSkip : (capture.length + 1) % 5 = 0
  · have hScanned : Scanned (capture ++ [line]) :=
      scanned_append_singleton.mpr ⟨h.scanned, hShort, fun hStored => absurd hSkip hStored⟩
    refine Or.inl ⟨_, ?_, h.skipped hSkip hScanned⟩
    simp [hSkip, transform_of_lt, hRoom]
  cases hVals : hexVals line with
  | none =>
      refine Or.inr ⟨by simp [hSkip, saveData_none hVals], fun hScanned => ?_⟩
      exact nomatch hScanned.2.2 hSkip
  | some vals =>
      have hScanned : Scanned (capture ++ [line]) :=
        scanned_append_singleton.mpr ⟨h.scanned, hShort, fun _ => by rw [hVals]; rfl⟩
      obtain ⟨arrIQData, arrWinAdd, hSave, hIQ, hWin, hCells⟩ :=
        saveData_spec (s := { s with lineCount := capture.length + 1 }) hVals hRoom h.lengthIQ
          h.lengthWin h.cells
      have hFilled : (arrIQData.take (2 * (s.dataCount + 1) + 1)).tail =
          windowCells ((rest nDataCount (readSamples capture) ++ [vals]).map readIq) := by
        rw [hCells, List.map_append, List.map_singleton, windowCells_append_singleton,
          List.length_map, ← h.dataCount]
      refine Or.inl ⟨_, ?_, h.stored hSkip hVals hScanned hIQ hWin hFilled⟩
      simp [hSkip, hSave]

/-- The line that begins a capture clears what is counted and keeps the
windows of earlier captures. -/
theorem Follows.start {earlier : List (List Cell)} {s : Capture} {line : List UInt8}
    (hFlag : s.dataCaptureFlag = false) (hWindows : s.windows = earlier)
    (hBegin : occurs dataCaptureBegin line = true) :
    Follows earlier (beginCapture s line) [] := by
  rw [beginCapture, if_pos ⟨hFlag, hBegin⟩]
  have hNone : readWindows [] = [] := by simp [readWindows, readSamples]
  refine ⟨rfl, rfl, rfl, rfl, List.length_replicate, List.length_replicate, ?_, by decide, ?_⟩
  · rw [hNone, List.append_nil]
    exact hWindows
  · intro line hLine
    cases hLine

/-- Outside a capture a line can only start one. -/
theorem Tracks.behind {s : Capture} {closed : List (List (List UInt8))} (line : List UInt8)
    (hClosed : ∀ capture ∈ closed, Scanned capture) (hFlag : s.dataCaptureFlag = false)
    (hWindows : s.windows = closed.flatMap readWindows) :
    Tracks (beginCapture s line)
      ⟨closed, if occurs dataCaptureBegin line = true then some [] else none⟩ := by
  refine ⟨hClosed, ?_⟩
  by_cases hBegin : occurs dataCaptureBegin line = true
  · rw [if_pos hBegin]
    exact Follows.start hFlag hWindows hBegin
  · rw [if_neg hBegin, beginCapture, if_neg fun h => hBegin h.2]
    exact ⟨hFlag, hWindows⟩

/-- The step lemma: the code follows the captures, as long as it can count
and read their lines. -/
theorem cwDataCapture_spec {s : Capture} {c : Captures} (h : Tracks s c) (line : List UInt8) :
    (∃ t, cwDataCapture s line = some t ∧ Tracks t (c.next line)) ∨
      cwDataCapture s line = none ∧ ¬∀ capture ∈ (c.next line).all, Scanned capture := by
  obtain ⟨closed, running⟩ := c
  obtain ⟨hClosed, hRunning⟩ := h
  unfold cwDataCapture
  cases running with
  | none =>
      obtain ⟨hFlag, hWindows⟩ := hRunning
      have hEnd : endCapture s line = s := if_neg fun h => by simp [hFlag] at h
      left
      refine ⟨beginCapture s line, by simp [hEnd, hFlag], ?_⟩
      exact Tracks.behind line hClosed hFlag hWindows
  | some capture =>
      have hFollows : Follows (closed.flatMap readWindows) s capture := hRunning
      by_cases hEnd : occurs dataCaptureEnd line = true
      · have hStop : endCapture s line =
            { s with dataCaptureFlag := false, dataCount := 0, lineCount := 0 } :=
          if_pos ⟨hFollows.flag, hEnd⟩
        have hNext : Captures.next ⟨closed, some capture⟩ line =
            ⟨closed ++ [capture], if occurs dataCaptureBegin line = true then some [] else none⟩ :=
          if_pos hEnd
        refine Or.inl ⟨beginCapture (endCapture s line) line, by simp [hStop], ?_⟩
        rw [hNext, hStop]
        apply Tracks.behind line
        · intro x hx
          rcases List.mem_append.mp hx with hOld | hNew
          · exact hClosed x hOld
          · exact List.mem_singleton.mp hNew ▸ hFollows.scanned
        · rfl
        · simpa using hFollows.windows
      · have hSame : endCapture s line = s := if_neg fun h => hEnd h.2
        have hNext : Captures.next ⟨closed, some capture⟩ line =
            ⟨closed, some (capture ++ [line])⟩ := if_neg hEnd
        rw [hNext, hSame, if_pos hFollows.flag]
        rcases saveLine_spec hFollows line with ⟨t, hSave, hTarget⟩ | ⟨hNone, hScanned⟩
        · have hBegin : beginCapture t line = t := if_neg fun h => by simp [hTarget.flag] at h
          exact Or.inl ⟨t, by simp [hSave, hBegin], hClosed, hTarget⟩
        · refine Or.inr ⟨by simp [hNone], fun hAll => hScanned (hAll _ ?_)⟩
          simp [Captures.all]

/-- A line only adds to the captures. -/
theorem scanned_of_next {c : Captures} {line : List UInt8}
    (h : ∀ capture ∈ (c.next line).all, Scanned capture) : ∀ capture ∈ c.all, Scanned capture := by
  obtain ⟨closed, running⟩ := c
  unfold Captures.next at h
  cases running with
  | none =>
      intro capture hCapture
      exact h capture (List.mem_append_left _ (by simpa [Captures.all] using hCapture))
  | some last =>
      dsimp only at h
      split at h
      · intro capture hCapture
        exact h capture (List.mem_append_left _ hCapture)
      · intro capture hCapture
        rcases List.mem_append.mp hCapture with hOld | hLast
        · exact h capture (List.mem_append_left _ hOld)
        · obtain rfl := List.mem_singleton.mp hLast
          exact (scanned_append_singleton.mp (h (capture ++ [line]) (by simp [Captures.all]))).1

theorem captures_append_singleton (lines : List (List UInt8)) (line : List UInt8) :
    captures (lines ++ [line]) = (captures lines).next line := by
  simp [captures]

theorem Tracks.scanned {s : Capture} {c : Captures} (h : Tracks s c) :
    ∀ capture ∈ c.all, Scanned capture := by
  obtain ⟨closed, running⟩ := c
  obtain ⟨hClosed, hRunning⟩ := h
  intro capture hCapture
  rcases List.mem_append.mp hCapture with hOld | hLast
  · exact hClosed capture hOld
  · obtain rfl : running = some capture := by simpa using hLast
    exact hRunning.scanned

/-- The windows that have been transformed are those of the captures, in
their order. -/
theorem Tracks.windows {s : Capture} {c : Captures} (h : Tracks s c) :
    s.windows = c.all.flatMap readWindows := by
  obtain ⟨closed, running⟩ := c
  cases running with
  | none => simpa [Captures.all] using h.2.2
  | some capture => simpa [Captures.all] using Follows.windows h.2

/-- The run lemma: a run is defined where every line can be counted and
read, and then `FFT` is called with the windows that are read. -/
theorem run_cwDataCapture (lines : List (List UInt8)) :
    (∃ s, Transition.run cwDataCapture .static lines = some s ∧ Tracks s (captures lines)) ∨
      Transition.run cwDataCapture .static lines = none ∧
        ¬∀ capture ∈ (captures lines).all, Scanned capture := by
  induction lines using List.reverseRecOn with
  | nil => exact Or.inl ⟨.static, rfl, by simp [captures], rfl, rfl⟩
  | append_singleton lines line ih =>
      rw [Transition.run_append, captures_append_singleton]
      rcases ih with ⟨s, hRun, hTracks⟩ | ⟨hNone, hScanned⟩
      · rw [hRun, Option.bind_some]
        rcases cwDataCapture_spec hTracks line with ⟨t, hStep, hNext⟩ | ⟨hNone, hScanned⟩
        · exact Or.inl ⟨t, by rw [Transition.run_cons, hStep]; rfl, hNext⟩
        · exact Or.inr ⟨by rw [Transition.run_cons, hNone]; rfl, hScanned⟩
      · exact Or.inr ⟨by rw [hNone]; rfl, fun h => hScanned (scanned_of_next h)⟩

end Gnss
