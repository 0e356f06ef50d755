import Gtexswifi.Gnss.CaptureWindows

/-! Where the windows of the captures are exact: the numbers of a data line
are read as they are, and converted rightly where they have no sign bit. -/
namespace Gnss

open Numerals Sampling

/-- Two digits are neither a blank nor a sign nor the mark of hexadecimal
digits. -/
theorem strtol16_digits {c d : UInt8} (hc : digitValue c < 16) (hd : digitValue d < 16) :
    strtol16 [c, d] = valueOf 16 [c, d] := by
  have hDrop : [c, d].dropWhile isSpace = [c, d] := by
    rw [List.dropWhile_cons_of_neg (by simp [isSpace_eq_false (hc.trans (by decide))])]
  have hDigits : ∀ x ∈ [c, d], digitValue x < 16 := by simp [hc, hd]
  unfold strtol16
  rw [hDrop]
  split
  · next hMinus =>
      obtain ⟨rfl, -⟩ := List.cons.inj hMinus
      exact absurd hc (by decide)
  · next hPlus =>
      obtain ⟨rfl, -⟩ := List.cons.inj hPlus
      exact absurd hc (by decide)
  · rw [scan_hexDigits hDigits]

theorem ofInt_natCast (n : Nat) : UInt8.ofInt (n : Int) = UInt8.ofNat n := by
  apply UInt8.toNat.inj
  simp [UInt8.ofInt]
  omega

/-- A word of two hexadecimal digits is converted to its byte. -/
theorem strtol16_hexByte {word : List UInt8} {b : UInt8} (h : hexByte word = some b) :
    word.length < 3 ∧ UInt8.ofInt (strtol16 word) = b := by
  unfold hexByte at h
  split at h
  · next hWord =>
      obtain ⟨hLength, hDigits⟩ := hWord
      obtain ⟨c, d, rfl⟩ := List.length_eq_two.mp hLength
      rw [strtol16_digits (hDigits c (by simp)) (hDigits d (by simp))]
      exact ⟨by simp, (ofInt_natCast _).trans (Option.some.inj h)⟩
  · cases h

theorem toNat_append (high low : UInt8) :
    (high.toBitVec ++ low.toBitVec).toNat = high.toNat <<< 8 + low.toNat := by
  rw [BitVec.toNat_append, Nat.shiftLeft_add_eq_or_of_lt low.toNat_lt]
  rfl

/-- A data line is read as its two numbers. -/
theorem hexVals_of_dataLine {line : List UInt8} {sample : BitVec 16 × BitVec 16}
    (h : dataLine line = some sample) :
    hexVals line = some (sample.1.toNat, sample.2.toNat) := by
  unfold dataLine at h
  split at h
  · next word1 word2 word3 word4 hWords =>
      simp only [Option.bind_eq_bind, Option.bind_eq_some_iff, Option.pure_def,
        Option.some.injEq] at h
      obtain ⟨b1, h1, b2, h2, b3, h3, b4, h4, rfl⟩ := h
      obtain ⟨hShort1, hValue1⟩ := strtol16_hexByte h1
      obtain ⟨hShort2, hValue2⟩ := strtol16_hexByte h2
      obtain ⟨hShort3, hValue3⟩ := strtol16_hexByte h3
      obtain ⟨hShort4, hValue4⟩ := strtol16_hexByte h4
      simp [hexVals, scanWord, hWords, hShort1, hShort2, hShort3, hShort4, hValue1, hValue2,
        hValue3, hValue4, toNat_append]
  · cases h

/-- The conversion is right below the sign bit, and nowhere else. -/
theorem signConversion_eq_iff (x : BitVec 16) :
    signConversion x.toNat = x.toInt ↔ x.toNat < 2 ^ 15 := by
  have hLt := x.isLt
  rw [BitVec.toInt_eq_toNat_cond]
  unfold signConversion
  split <;> split <;> omega

/-- A word of more than two characters does not fit its array. -/
theorem hexVals_of_longWord {line word : List UInt8} (h : word ∈ (words line).take 4)
    (hLong : 2 < word.length) : hexVals line = none := by
  obtain ⟨n, hn, hWord⟩ := List.mem_take_iff_getElem.mp h
  have hNone : scanWord line n = none := by
    have hGet : (words line).getD n [] = word := by
      rw [List.getD_eq_getElem?_getD, List.getElem?_eq_getElem (by omega), hWord]
      rfl
    rw [scanWord, hGet, if_neg (by omega)]
  have hIndex : n = 0 ∨ n = 1 ∨ n = 2 ∨ n = 3 := by omega
  unfold hexVals
  rcases hIndex with rfl | rfl | rfl | rfl <;> simp [hNone]

/-- The cells of a window determine its values one by one. By induction on
the window, with the index of the first one. -/
theorem zipIdx_cells_injective (k : Nat) {first second : List (Int × Int)}
    (h : (first.zipIdx k).flatMap (fun x => [Cell.weighted x.1.1 x.2, Cell.weighted x.1.2 x.2]) =
      (second.zipIdx k).flatMap fun x => [Cell.weighted x.1.1 x.2, Cell.weighted x.1.2 x.2]) :
    first = second := by
  induction first generalizing second k with
  | nil =>
      cases second with
      | nil => rfl
      | cons y second => simp at h
  | cons x first ih =>
      cases second with
      | nil => simp at h
      | cons y second =>
          simp only [List.zipIdx_cons, List.flatMap_cons, List.cons_append, List.nil_append,
            List.cons.injEq, Cell.weighted.injEq, and_true] at h
          rw [Prod.ext h.1 h.2.1, ih (k + 1) h.2.2]

theorem windowCells_inj {first second : List (Int × Int)} :
    windowCells first = windowCells second ↔ first = second :=
  ⟨zipIdx_cells_injective 0, congrArg windowCells⟩

/-- The numbers of a sample as the code reads them. -/
def unsigned (sample : BitVec 16 × BitVec 16) : Nat × Nat := (sample.1.toNat, sample.2.toNat)

/-- Both numbers of a sample have no sign bit. -/
def BelowSign (sample : BitVec 16 × BitVec 16) : Prop :=
  sample.1.toNat < 2 ^ 15 ∧ sample.2.toNat < 2 ^ 15

/-- The two numbers are read as they were written exactly if neither has its
sign bit set. -/
theorem readIq_eq_iff (sample : BitVec 16 × BitVec 16) :
    readIq (unsigned sample) = iq sample ↔ BelowSign sample := by
  have hI := signConversion_eq_iff sample.1
  have hQ := signConversion_eq_iff sample.2
  simp only [readIq, unsigned, iq, BelowSign, Prod.mk.injEq, hI, ← hQ]
  omega

/-- The lines of a capture that are not skipped are data lines. -/
def DataLines (capture : List (List UInt8)) : Prop :=
  ∀ line ∈ skipEvery 5 capture, (dataLine line).isSome = true

/-- Of a capture that holds only data lines the samples are read, as
unsigned numbers. -/
theorem readSamples_of_data {capture : List (List UInt8)} (h : DataLines capture) :
    readSamples capture = (samples capture).map unsigned := by
  unfold DataLines at h
  unfold readSamples samples
  rw [List.map_filterMap]
  apply List.filterMap_congr
  intro line hLine
  obtain ⟨sample, hSample⟩ := Option.isSome_iff_exists.mp (h line hLine)
  rw [hexVals_of_dataLine hSample, hSample]
  rfl

theorem Scanned.of_data {capture : List (List UInt8)} (hLength : capture.length < 2 ^ 31)
    (hData : DataLines capture) : Scanned capture := by
  refine ⟨hLength, fun line hLine => ?_⟩
  obtain ⟨sample, hSample⟩ := Option.isSome_iff_exists.mp (hData line hLine)
  rw [hexVals_of_dataLine hSample]
  rfl

/-- The windows that are read are those of the captures where no sample in
them has a sign bit. -/
theorem readWindows_eq_iff {all : List (List (List UInt8))}
    (hData : ∀ capture ∈ all, DataLines capture) :
    all.flatMap readWindows = all.flatMap captureWindows ↔
      ∀ capture ∈ all, ∀ window ∈ windows nDataCount (samples capture),
        ∀ sample ∈ window, BelowSign sample := by
  have hRead : all.flatMap readWindows =
      (all.flatMap fun capture => windows nDataCount (samples capture)).map
        fun window => windowCells (window.map (readIq ∘ unsigned)) := by
    rw [List.map_flatMap]
    refine List.flatMap_congr fun capture hCapture => ?_
    rw [readWindows, readSamples_of_data (hData capture hCapture), windows_map, List.map_map]
    simp [Function.comp_def]
  have hWindows : all.flatMap captureWindows =
      (all.flatMap fun capture => windows nDataCount (samples capture)).map
        fun window => windowCells (window.map iq) := by
    rw [List.map_flatMap]
    rfl
  rw [hRead, hWindows, List.map_inj_left]
  simp only [windowCells_inj, List.map_inj_left, Function.comp_apply, readIq_eq_iff,
    List.mem_flatMap]
  constructor
  · intro h capture hCapture window hWindow
    exact h window ⟨capture, hCapture, hWindow⟩
  · intro h window hSome
    obtain ⟨capture, hCapture, hWindow⟩ := hSome
    exact h capture hCapture window hWindow

/-- The lines that are not skipped are data lines or, as markers do, have a
long word among their first four. -/
def Admissible (lines : List (List UInt8)) : Prop :=
  ∀ capture ∈ (captures lines).all, ∀ line ∈ skipEvery 5 capture,
    (dataLine line).isSome = true ∨ ∃ word ∈ (words line).take 4, 2 < word.length

/-- What makes the windows of a capture exact. -/
structure Readable (capture : List (List UInt8)) : Prop where
  counted : capture.length < 2 ^ 31
  data : DataLines capture
  belowSign : ∀ window ∈ windows nDataCount (samples capture), ∀ sample ∈ window, BelowSign sample

/-- `FFT` is called with the windows of the captures exactly where each
capture has fewer than `2 ^ 31` lines, only data lines that are not skipped,
and no sign bit in a full window. -/
theorem exactWindows_iff {lines : List (List UInt8)} (h : Admissible lines) :
    ExactWindows lines ↔ ∀ capture ∈ (captures lines).all, Readable capture := by
  rcases run_cwDataCapture lines with ⟨s, hRun, hTracks⟩ | ⟨hNone, hNot⟩
  · have hScanned := hTracks.scanned
    have hData : ∀ capture ∈ (captures lines).all, DataLines capture := by
      intro capture hCapture line hLine
      rcases h capture hCapture line hLine with hSome | ⟨word, hWord, hLong⟩
      · exact hSome
      · have hRead := (hScanned capture hCapture).2 line hLine
        rw [hexVals_of_longWord hWord hLong] at hRead
        cases hRead
    have hExact : ExactWindows lines ↔ s.windows = (captures lines).all.flatMap captureWindows := by
      unfold ExactWindows
      simp [hRun]
    rw [hExact, hTracks.windows, readWindows_eq_iff hData]
    exact ⟨fun hSmall capture hCapture =>
      ⟨(hScanned capture hCapture).1, hData capture hCapture, hSmall capture hCapture⟩,
      fun hReadable capture hCapture => (hReadable capture hCapture).belowSign⟩
  · constructor
    · rintro ⟨s, hRun, -⟩
      rw [hNone] at hRun
      cases hRun
    · intro hReadable
      exact absurd (fun capture hCapture => Scanned.of_data (hReadable capture hCapture).counted
        (hReadable capture hCapture).data) hNot

/-- Lines without an end stay in the capture that runs. -/
theorem captures_replicate {line : List UInt8} (h : occurs dataCaptureEnd line = false) (n : Nat) :
    captures (dataCaptureBegin :: List.replicate n line) = ⟨[], some (List.replicate n line)⟩ := by
  induction n with
  | zero => rfl
  | succ n ih =>
      rw [List.replicate_succ', ← List.cons_append, captures_append_singleton, ih]
      simp [Captures.next, h]

/-- A window full of lines gives as many samples. -/
theorem samples_replicate {line : List UInt8} {sample : BitVec 16 × BitVec 16}
    (hLine : dataLine line = some sample) :
    samples (List.replicate 20480 line) = List.replicate nDataCount sample := by
  rw [samples, skipEvery_replicate, List.filterMap_replicate_of_some hLine]
  rfl

/-- As many lines as a window takes, all of them with the numbers 1 and
0x7f02. -/
theorem exactWindows_iff_full :
    ExactWindows (dataCaptureBegin :: List.replicate 20480 (ascii "01 00 02 7f")) := by
  have hLine : dataLine (ascii "01 00 02 7f") = some (0x0001, 0x7f02) := by decide +kernel
  have hAll : (captures (dataCaptureBegin :: List.replicate 20480 (ascii "01 00 02 7f"))).all =
      [List.replicate 20480 (ascii "01 00 02 7f")] := by
    rw [captures_replicate (by decide)]
    rfl
  have hData : DataLines (List.replicate 20480 (ascii "01 00 02 7f")) := by
    intro line hMem
    rw [skipEvery_replicate] at hMem
    rw [List.eq_of_mem_replicate hMem, hLine]
    rfl
  have hAdmissible :
      Admissible (dataCaptureBegin :: List.replicate 20480 (ascii "01 00 02 7f")) := by
    intro capture hCapture line hMem
    rw [hAll, List.mem_singleton] at hCapture
    exact Or.inl (hData line (hCapture ▸ hMem))
  refine (exactWindows_iff hAdmissible).mpr fun capture hCapture => ?_
  rw [hAll, List.mem_singleton] at hCapture
  subst hCapture
  refine ⟨by rw [List.length_replicate]; decide, hData, fun window hWindow sample hSample => ?_⟩
  rw [samples_replicate hLine, windows_replicate (by decide), List.mem_singleton] at hWindow
  rw [hWindow] at hSample
  rw [List.eq_of_mem_replicate hSample]
  unfold BelowSign
  decide

/-- As many lines as a window takes, with a number that has its sign bit. -/
theorem not_exactWindows {line : List UInt8} {sample : BitVec 16 × BitVec 16}
    (hLine : dataLine line = some sample) (hEnd : occurs dataCaptureEnd line = false)
    (hSign : ¬BelowSign sample) :
    ¬ExactWindows (dataCaptureBegin :: List.replicate 20480 line) := by
  rintro ⟨s, hRun, hWindows⟩
  have hAll : (captures (dataCaptureBegin :: List.replicate 20480 line)).all =
      [List.replicate 20480 line] := by
    rw [captures_replicate hEnd]
    rfl
  have hSkip := skipEvery_replicate 5 20480 line
  have hData : ∀ capture ∈ [List.replicate 20480 line], DataLines capture := by
    intro capture hCapture x hx
    rw [List.mem_singleton.mp hCapture, hSkip] at hx
    rw [List.eq_of_mem_replicate hx, hLine]
    rfl
  rcases run_cwDataCapture (dataCaptureBegin :: List.replicate 20480 line) with
    ⟨t, hDefined, hTracks⟩ | ⟨hNone, -⟩
  · obtain rfl : s = t := Option.some.inj (hRun.symm.trans hDefined)
    have hRead := hTracks.windows
    rw [hWindows, hAll] at hRead
    have hBelow := (readWindows_eq_iff hData).mp hRead.symm _ (List.mem_singleton.mpr rfl)
    rw [samples_replicate hLine, windows_replicate (by decide)] at hBelow
    exact hSign (hBelow _ (List.mem_singleton.mpr rfl) sample
      (List.mem_replicate.mpr ⟨by decide, rfl⟩))
  · rw [hNone] at hRun
    cases hRun

/-- All numbers are -1, and are read as 0. A second `BEGIN` is longer than
the array that it is read into. -/
theorem negativeNumbers_misread :
    ¬ExactWindows (dataCaptureBegin :: List.replicate 20480 (ascii "ff ff ff ff")) ∧
      Transition.run cwDataCapture .static [dataCaptureBegin, dataCaptureBegin] = none := by
  have hLine : dataLine (ascii "ff ff ff ff") = some (0xffff, 0xffff) := by decide +kernel
  refine ⟨not_exactWindows hLine (by decide) ?_, rfl⟩
  unfold BelowSign
  decide

end Gnss
