import Gtexswifi.Gnss.GpsPcMode

/-! The fields of an NMEA sentence. Pointers into the sentence are positions
in it. -/
namespace Gnss

/-- `MAX_NMEA_TOKENS`. -/
def maxNmeaTokens : Nat := 32

/-- Two pointers into the sentence. -/
structure Token where
  p : Nat
  stop : Nat
  deriving DecidableEq

/-- Tokens from `count` on are whatever the array held before. -/
structure NmeaTokenizer where
  count : Nat
  tokens : Vector Token maxNmeaTokens

def dollar : UInt8 := 0x24
def star : UInt8 := 0x2a
def lineFeed : UInt8 := 0x0a
def carriageReturn : UInt8 := 0x0d

variable (sentence : List UInt8)

/-- The characters between two pointers. -/
def between (p stop : Nat) : List UInt8 := (sentence.take stop).drop p

def skipDollar (p stop : Nat) : Nat := if p < stop ∧ sentence[p]? = some dollar then p + 1 else p

/-- `end` behind the step that removes a newline, with a carriage return in
front of it. -/
def trimNewline (p stop : Nat) : Nat :=
  if stop > p ∧ sentence[stop - 1]? = some lineFeed then
    if stop - 1 > p ∧ sentence[stop - 2]? = some carriageReturn then stop - 2 else stop - 1
  else stop

def trimChecksum (p stop : Nat) : Nat :=
  if stop ≥ p + 3 ∧ sentence[stop - 3]? = some star then stop - 3 else stop

/-- `memchr(p, c, end - p)` -/
def memchr (c : UInt8) (p stop : Nat) : Option Nat :=
  if c ∈ between sentence p stop then some (p + (between sentence p stop).idxOf c) else none

/-- `q` in a turn of the loop. -/
def fieldEnd (p stop : Nat) : Nat := (memchr sentence comma p stop).getD stop

theorem le_fieldEnd {p stop : Nat} (h : p ≤ stop) : p ≤ fieldEnd sentence p stop := by
  unfold fieldEnd memchr
  split
  · exact Nat.le_add_right p _
  · exact h

def NmeaTokenizer.add (t : NmeaTokenizer) (token : Token) : NmeaTokenizer :=
  if h : t.count < maxNmeaTokens then ⟨t.count + 1, t.tokens.set t.count token h⟩ else t

/-- The loop over the commas. -/
def splitTokens (stop p : Nat) (t : NmeaTokenizer) : NmeaTokenizer :=
  if p < stop then
    let q := fieldEnd sentence p stop
    let t := if q ≥ p then t.add ⟨p, q⟩ else t
    if q < stop then splitTokens stop (q + 1) t else splitTokens stop q t
  else t
  termination_by stop - p
  decreasing_by
    all_goals have hLe := le_fieldEnd sentence (Nat.le_of_lt ‹p < stop›)
    all_goals omega

/-- `count` starts at 0, and the array is overwritten from its start on. -/
def nmeaTokenizerInit (t : NmeaTokenizer) : NmeaTokenizer :=
  let p := skipDollar sentence 0 sentence.length
  let stop := trimNewline sentence p sentence.length
  let stop := trimChecksum sentence p stop
  splitTokens sentence stop p ⟨0, t.tokens⟩

/-- `none` is the token of the empty string `dummy`. -/
def nmeaTokenizerGet (t : NmeaTokenizer) (index : Int) : Option Token :=
  if index < 0 ∨ index ≥ t.count then none else t.tokens[index.toNat]?

/-- A sentence without the dollar sign in front. -/
def dropDollar : List UInt8 → List UInt8
  | [] => []
  | c :: text => if c = dollar then text else c :: text

/-- A text, read from its end, without a newline. -/
def dropNewline : List UInt8 → List UInt8
  | [] => []
  | [c] => if c = lineFeed then [] else [c]
  | c :: d :: text =>
      if c = lineFeed then if d = carriageReturn then text else d :: text else c :: d :: text

/-- A text, read from its end, without a star and two characters. -/
def dropChecksum : List UInt8 → List UInt8
  | b :: c :: d :: text => if d = star then text else b :: c :: d :: text
  | text => text

def body : List UInt8 :=
  (dropChecksum (dropNewline (dropDollar sentence).reverse)).reverse

/-- The pieces between the commas. -/
def fields (text : List UInt8) : List (List UInt8) := text.splitOnP (· = comma)

/-- The characters of a token. -/
def tokenText : Option Token → List UInt8
  | none => []
  | some token => between sentence token.p token.stop

example : body (Numerals.ascii "$GPGSV,1*70\r\n") = Numerals.ascii "GPGSV,1" := by decide

variable {sentence} {p stop : Nat}

theorem between_self (p : Nat) : between sentence p p = [] := by
  simp [between]

/-- The last character of a range comes first in the reverse one. -/
theorem reverse_between {n : Nat} (hLow : p ≤ n) (hHigh : n < sentence.length) :
    (between sentence p (n + 1)).reverse = sentence[n] :: (between sentence p n).reverse := by
  have hDrop : p ≤ (sentence.take n).length := by
    rw [List.length_take]
    omega
  rw [between, List.take_succ_eq_append_getElem hHigh, List.drop_append_of_le_length hDrop,
    List.reverse_append]
  rfl

theorem between_skipDollar :
    between sentence (skipDollar sentence 0 sentence.length) sentence.length =
      dropDollar sentence := by
  cases sentence with
  | nil => rfl
  | cons c sentence =>
      by_cases hc : c = dollar <;> simp [skipDollar, between, dropDollar, hc]

theorem skipDollar_le : skipDollar sentence 0 sentence.length ≤ sentence.length := by
  unfold skipDollar
  split <;> omega

/-- A newline is removed from the end of the text, and nothing in front of
its start. -/
theorem trimNewline_spec (hLow : p ≤ stop) (hHigh : stop ≤ sentence.length) :
    p ≤ trimNewline sentence p stop ∧ trimNewline sentence p stop ≤ stop ∧
      (between sentence p (trimNewline sentence p stop)).reverse =
        dropNewline (between sentence p stop).reverse := by
  unfold trimNewline
  obtain rfl | rfl | ⟨n, hn, rfl⟩ : stop = p ∨ stop = p + 1 ∨ ∃ n, p ≤ n ∧ stop = n + 2 := by
    by_cases hTwo : p + 2 ≤ stop
    · exact Or.inr (Or.inr ⟨stop - 2, by omega, by omega⟩)
    · omega
  · simp [between_self, dropNewline]
  · have hLast := reverse_between le_rfl hHigh
    rw [between_self, List.reverse_nil] at hLast
    rw [hLast, Nat.add_sub_cancel, List.getElem?_eq_getElem hHigh]
    simp only [dropNewline, Option.some.injEq, gt_iff_lt, lt_add_one, lt_irrefl, true_and,
      false_and]
    split
    · simp [between_self]
    · simp [hLast]
  · have hOne : n + 1 < sentence.length := by omega
    have hTwo : n < sentence.length := by omega
    have hLast := reverse_between (Nat.le_succ_of_le hn) hOne
    have hSecond := reverse_between hn hTwo
    rw [hLast, hSecond, show n + 2 - 1 = n + 1 from rfl, Nat.add_sub_cancel,
      List.getElem?_eq_getElem hOne, List.getElem?_eq_getElem hTwo]
    simp only [dropNewline, Option.some.injEq, gt_iff_lt, show p < n + 2 by omega,
      show p < n + 1 by omega, true_and]
    split
    · split
      · exact ⟨hn, by omega, rfl⟩
      · exact ⟨by omega, by omega, hSecond⟩
    · exact ⟨by omega, le_rfl, by rw [hLast, hSecond]⟩

/-- Likewise for a checksum. -/
theorem trimChecksum_spec (hLow : p ≤ stop) (hHigh : stop ≤ sentence.length) :
    p ≤ trimChecksum sentence p stop ∧ trimChecksum sentence p stop ≤ stop ∧
      (between sentence p (trimChecksum sentence p stop)).reverse =
        dropChecksum (between sentence p stop).reverse := by
  unfold trimChecksum
  by_cases hRoom : p + 3 ≤ stop
  · obtain ⟨n, hn, rfl⟩ : ∃ n, p ≤ n ∧ stop = n + 3 := ⟨stop - 3, by omega, by omega⟩
    have hOne : n + 1 < sentence.length := by omega
    have hTwo : n < sentence.length := by omega
    have hText := reverse_between (show p ≤ n + 2 by omega) hHigh
    rw [reverse_between (Nat.le_succ_of_le hn) hOne, reverse_between hn hTwo] at hText
    rw [hText, Nat.add_sub_cancel, List.getElem?_eq_getElem hTwo]
    simp only [dropChecksum, Option.some.injEq, hRoom, true_and]
    split
    · exact ⟨hn, by omega, rfl⟩
    · exact ⟨hLow, le_rfl, hText⟩
  · have hShort : (between sentence p stop).length < 3 := by
      simp only [between, List.length_drop, List.length_take]
      omega
    rw [if_neg fun h => hRoom h.1]
    refine ⟨hLow, le_rfl, ?_⟩
    unfold dropChecksum
    split
    · next hText =>
        have hLength := congrArg List.length hText
        simp only [List.length_reverse, List.length_cons] at hLength
        omega
    · rfl

/-- A token is looked up by its number, and none is found behind the last. -/
theorem get_natCast (t : NmeaTokenizer) (i : Nat) :
    nmeaTokenizerGet t i = if i < t.count then t.tokens[i]? else none := by
  unfold nmeaTokenizerGet
  by_cases hi : i < t.count <;> simp [hi]

theorem count_add {t : NmeaTokenizer} (h : t.count ≤ maxNmeaTokens) (token : Token) :
    (t.add token).count = min (t.count + 1) maxNmeaTokens := by
  unfold NmeaTokenizer.add
  split
  · exact (Nat.min_eq_left ‹_›).symm
  · omega

/-- A token is added behind the others, if there is room. -/
theorem get_add {t : NmeaTokenizer} (h : t.count ≤ maxNmeaTokens) (token : Token) (i : Nat) :
    nmeaTokenizerGet (t.add token) i =
      if i = t.count ∧ i < maxNmeaTokens then some token else nmeaTokenizerGet t i := by
  rw [get_natCast, get_natCast, count_add h]
  unfold NmeaTokenizer.add
  by_cases hRoom : t.count < maxNmeaTokens
  · rw [dif_pos hRoom]
    rcases lt_trichotomy i t.count with hLess | rfl | hMore
    · have hOther : t.count ≠ i := by omega
      simp [hLess, hLess.ne, hOther, Nat.lt_succ_of_lt hLess, hLess.trans hRoom]
    · simp [hRoom]
    · simp [hMore.ne', Nat.not_lt.mpr hMore.le, Nat.not_lt.mpr (Nat.succ_le_of_lt hMore)]
  · rw [dif_neg hRoom]
    have hFull : t.count = maxNmeaTokens := by omega
    have hNone : ¬(i = maxNmeaTokens ∧ i < maxNmeaTokens) := by omega
    simp [hFull, hNone]

theorem fields_nil : fields [] = [[]] := rfl

theorem fields_of_notMem {text : List UInt8} (h : comma ∉ text) : fields text = [text] :=
  List.splitOnP_eq_singleton fun c hc => by
    simpa using fun hComma : c = comma => h (hComma ▸ hc)

/-- The first field ends at the first comma. -/
theorem fields_append {field : List UInt8} (h : comma ∉ field) (rest : List UInt8) :
    fields (field ++ comma :: rest) = field :: fields rest := by
  have hSplit : fields (field ++ comma :: rest) = fields field ++ fields rest :=
    List.splitOnP_append_cons field rest (by decide)
  rw [hSplit, fields_of_notMem h]
  rfl

/-- What a turn of the loop finds: a field in front of a comma, or the last
one. -/
theorem fieldEnd_of_notMem (h : comma ∉ between sentence p stop) :
    fieldEnd sentence p stop = stop := by
  rw [fieldEnd, memchr, if_neg h]
  rfl

theorem fieldEnd_append {field rest : List UInt8} (hField : comma ∉ field)
    (h : between sentence p stop = field ++ comma :: rest) :
    fieldEnd sentence p stop = p + field.length := by
  have hMem : comma ∈ between sentence p stop := by simp [h]
  have hIndex : (field ++ comma :: rest).idxOf comma = field.length := by
    simp [List.idxOf_append, hField]
  rw [fieldEnd, memchr, if_pos hMem, h, hIndex]
  rfl

/-- A range in the sentence has as many characters as its ends are apart. -/
theorem length_between (hHigh : stop ≤ sentence.length) :
    (between sentence p stop).length = stop - p := by
  simp [between, hHigh]

/-- A range that begins with a field is split at the comma behind it. -/
theorem between_append {field rest : List UInt8} (hHigh : stop ≤ sentence.length)
    (h : between sentence p stop = field ++ comma :: rest) :
    between sentence p (p + field.length) = field ∧
      between sentence (p + field.length + 1) stop = rest := by
  have hLength := length_between (p := p) hHigh
  rw [h, List.length_append, List.length_cons] at hLength
  unfold between at h ⊢
  constructor
  · have hTake : sentence.take (p + field.length) =
        (sentence.take stop).take (p + field.length) := by
      rw [List.take_take, Nat.min_eq_left (by omega)]
    rw [hTake, List.drop_take, h]
    simp
  · rw [Nat.add_assoc, ← List.drop_drop, h]
    simp

/-- The tokens of `t'` are those of `t`, and behind them texts up to the
limit. -/
structure Extends (sentence : List UInt8) (t t' : NmeaTokenizer) (texts : List (List UInt8)) :
    Prop where
  count_le : t'.count ≤ maxNmeaTokens
  text_get : ∀ i : Nat, tokenText sentence (nmeaTokenizerGet t' i) =
    if i < t.count then tokenText sentence (nmeaTokenizerGet t i)
    else if i < maxNmeaTokens then texts.getD (i - t.count) [] else []

/-- Empty fields at the end need no token. -/
theorem Extends.refl {t : NmeaTokenizer} {texts : List (List UInt8)}
    (hCount : t.count ≤ maxNmeaTokens) (h : ∀ text ∈ texts, text = []) :
    Extends sentence t t texts := by
  refine ⟨hCount, fun i => ?_⟩
  have hEmpty : texts.getD (i - t.count) [] = [] := by
    rw [List.getD_eq_getElem?_getD]
    cases hText : texts[i - t.count]? with
    | none => rfl
    | some text => exact h text (List.mem_of_getElem? hText)
  by_cases hi : i < t.count
  · rw [if_pos hi]
  · rw [if_neg hi, get_natCast, if_neg hi, hEmpty, ite_self]
    rfl

/-- One more token in front of those that follow. Those that do not fit are
dropped. -/
theorem Extends.cons {t t' : NmeaTokenizer} {texts : List (List UInt8)} {token : Token}
    (hCount : t.count ≤ maxNmeaTokens) (h : Extends sentence (t.add token) t' texts) :
    Extends sentence t t' (tokenText sentence (some token) :: texts) := by
  refine ⟨h.count_le, fun i => ?_⟩
  rw [h.text_get, count_add hCount, get_add hCount]
  rcases lt_trichotomy i t.count with hLess | rfl | hMore
  · simp [hLess, hLess.ne, hLess.trans_le hCount, Nat.lt_succ_of_lt hLess]
  · by_cases hRoom : t.count < maxNmeaTokens <;> simp [hRoom]
  · have hNot : ¬i < t.count := hMore.not_gt
    obtain ⟨n, rfl⟩ := Nat.exists_eq_add_of_lt hMore
    by_cases hRoom : t.count + n + 1 < maxNmeaTokens
    · have hMin : min (t.count + 1) maxNmeaTokens = t.count + 1 := by omega
      have hIndex : t.count + n + 1 - (t.count + 1) = n := by omega
      have hNext : t.count + n + 1 - t.count = n + 1 := by omega
      simp [hRoom, hMin, hIndex, hNext]
      omega
    · simp [hRoom]
      omega

/-- The loop adds the fields from `p` on behind the tokens that there are. -/
theorem splitTokens_spec (hLow : p ≤ stop) (hHigh : stop ≤ sentence.length) {t : NmeaTokenizer}
    (hCount : t.count ≤ maxNmeaTokens) :
    Extends sentence t (splitTokens sentence stop p t) (fields (between sentence p stop)) := by
  have hAdd {t : NmeaTokenizer} (hCount : t.count ≤ maxNmeaTokens) (token : Token) :
      (t.add token).count ≤ maxNmeaTokens :=
    (count_add hCount token).trans_le (Nat.min_le_right _ _)
  fun_induction splitTokens sentence stop p t with
  | case1 p t hp q t' hq ih =>
      have hAdded : t' = t.add ⟨p, q⟩ := if_pos (le_fieldEnd sentence hLow)
      have hComma : comma ∈ between sentence p stop := by
        by_contra hNone
        exact hq.ne (fieldEnd_of_notMem hNone)
      obtain ⟨field, rest, hText, hField⟩ := List.eq_append_cons_of_mem hComma
      have hEnd : q = p + field.length := fieldEnd_append hField hText
      obtain ⟨hFirst, hRest⟩ := between_append hHigh hText
      rw [← hEnd] at hFirst hRest
      have hTail := ih hq (hAdded ▸ hAdd hCount _)
      rw [hAdded, hRest] at hTail
      rw [hText, fields_append hField, hAdded, ← hFirst]
      exact hTail.cons hCount
  | case2 p t hp q t' hq ih =>
      have hAdded : t' = t.add ⟨p, q⟩ := if_pos (le_fieldEnd sentence hLow)
      have hComma : comma ∉ between sentence p stop := by
        intro hComma
        obtain ⟨field, rest, hText, hField⟩ := List.eq_append_cons_of_mem hComma
        have hLength := length_between (p := p) hHigh
        rw [hText, List.length_append, List.length_cons] at hLength
        exact hq ((fieldEnd_append hField hText).trans_lt (by omega))
      have hEnd : q = stop := fieldEnd_of_notMem hComma
      rw [fields_of_notMem hComma, splitTokens, if_neg hq, hAdded, hEnd]
      exact (Extends.refl (hAdd hCount _) (by simp)).cons hCount
  | case3 p t hp =>
      obtain rfl : p = stop := by omega
      rw [between_self]
      exact Extends.refl hCount (by simp [fields_nil])

/-- The fields of a sentence are read from its tokens, up to the limit. -/
theorem nmeaTokenizerGet_init (sentence : List UInt8) (t : NmeaTokenizer) :
    (nmeaTokenizerInit sentence t).count ≤ maxNmeaTokens ∧
      ∀ index : Int, tokenText sentence (nmeaTokenizerGet (nmeaTokenizerInit sentence t) index) =
        if 0 ≤ index ∧ index < maxNmeaTokens then (fields (body sentence)).getD index.toNat []
        else [] := by
  have hDollar : skipDollar sentence 0 sentence.length ≤ sentence.length := skipDollar_le
  obtain ⟨hLowLine, hHighLine, hLine⟩ := trimNewline_spec hDollar le_rfl
  obtain ⟨hLow, hHigh, hChecksum⟩ := trimChecksum_spec hLowLine hHighLine
  rw [hLine, between_skipDollar] at hChecksum
  have hSplit : Extends sentence ⟨0, t.tokens⟩ (nmeaTokenizerInit sentence t)
      (fields (body sentence)) := by
    rw [body, ← List.reverse_eq_iff.mp hChecksum]
    exact splitTokens_spec hLow (hHigh.trans hHighLine) (Nat.zero_le _)
  refine ⟨hSplit.count_le, fun index => ?_⟩
  by_cases hIndex : 0 ≤ index
  · obtain ⟨i, rfl⟩ := Int.eq_ofNat_of_zero_le hIndex
    have hText := hSplit.text_get i
    simpa [hIndex] using hText
  · have hNegative : index < 0 := by omega
    simp [nmeaTokenizerGet, tokenText, hNegative, hIndex]

end Gnss
