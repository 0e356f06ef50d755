import Gtexswifi.Gnss.Callbacks

/-! What a sentence reports, told by its fields. The code compares the text
behind the start of a token, up to the end of the sentence, and its tokens
lie in an array that nobody clears. -/
namespace Gnss

open Numerals

/-- A value that a sentence gives for one of the variables. -/
inductive Report (Double : Type)
  | cwcn (value : Int32)
  | tsx (value : Double)
  | tcxo (value : Double)

variable {Double : Type} (arithmetic : Arithmetic Double)

/-- The number that the digits make, as far as 32 bits tell it. -/
def number (text : List UInt8) : Int32 :=
  if ∀ c ∈ text, digitValue c < 10 then Int32.ofNat (valueOf 10 text) else -1

/-- The report of three fields: the first two begin with the words for it,
and the third one is the value. -/
def reportOf (id name value : List UInt8) : Option (Report Double) :=
  if (ascii "PCGDS").isPrefixOf id = true ∧ value ≠ [] then
    if (ascii "CWCN0").isPrefixOf name = true then some (.cwcn (number value))
    else if (ascii "TSXTEMP").isPrefixOf name = true then some (.tsx (str2float arithmetic value))
    else if (ascii "TCXO").isPrefixOf name = true then some (.tcxo (str2float arithmetic value))
    else none
  else none

/-- The report of a sentence is that of its first fields. -/
def report (sentence : List UInt8) : Option (Report Double) :=
  let field (n : Nat) := (fields (body sentence)).getD n []
  reportOf arithmetic (field 0) (field 1) (field 2)

def Values.note (values : Values Double) : Report Double → Values Double
  | .cwcn value => { values with cwcnValue := value }
  | .tsx value => { values with tsxValue := value }
  | .tcxo value => { values with tcxoValue := value }

/-- Digits are converted from the first to the last. By induction on the
text, with what has been converted. -/
theorem str2int_digits {text : List UInt8} (h : ∀ c ∈ text, digitValue c < 10) (acc : Nat) :
    str2int (Int32.ofNat acc) text = Int32.ofNat (scan 10 acc text) := by
  induction text generalizing acc with
  | nil => rfl
  | cons c text ih =>
      have hc := h c List.mem_cons_self
      have hNext : Int32.ofNat acc * 10 + Int32.ofNat (digitValue c) =
          Int32.ofNat (acc * 10 + digitValue c) := by
        rw [Int32.ofNat_add, Int32.ofNat_mul]
        rfl
      rw [str2int, scan, if_pos hc, if_pos hc, hNext,
        ih fun x hx => h x (List.mem_cons_of_mem c hx)]

theorem str2int_other {text : List UInt8} (h : ¬∀ c ∈ text, digitValue c < 10) (acc : Int32) :
    str2int acc text = -1 := by
  induction text generalizing acc with
  | nil => exact absurd (List.forall_mem_nil _) h
  | cons c text ih =>
      rw [str2int]
      by_cases hc : digitValue c < 10
      · rw [if_pos hc]
        exact ih (fun hText => h (List.forall_mem_cons.mpr ⟨hc, hText⟩)) _
      · rw [if_neg hc]

/-- The conversion of the code is the number of the specification. -/
theorem str2int_eq (text : List UInt8) : str2int 0 text = number text := by
  unfold number
  split
  · next hDigits =>
      have hScan := str2int_digits hDigits 0
      rw [scan_digits hDigits, Nat.zero_mul, Nat.zero_add] at hScan
      exact hScan
  · next hOther => exact str2int_other hOther 0

/-- A word is found in front of a character that it does not have, or not at
all. -/
theorem isPrefixOf_append_cons {word : List UInt8} {c : UInt8} (h : c ∉ word)
    (text rest : List UInt8) :
    word.isPrefixOf (text ++ c :: rest) = word.isPrefixOf text := by
  induction text generalizing word with
  | nil =>
      cases word with
      | nil => rfl
      | cons d word =>
          have hNe : d ≠ c := fun hEq => h (hEq ▸ List.mem_cons_self)
          simp [List.isPrefixOf, hNe]
  | cons x text ih =>
      cases word with
      | nil => rfl
      | cons d word =>
          rw [List.cons_append, List.isPrefixOf, List.isPrefixOf,
            ih fun hMem => h (List.mem_cons_of_mem d hMem)]

/-- What stands behind a text that is long enough does not matter to the
comparison. -/
theorem isPrefixOf_append {word text : List UInt8} (h : word.length ≤ text.length)
    (rest : List UInt8) : word.isPrefixOf (text ++ rest) = word.isPrefixOf text := by
  rw [Bool.eq_iff_iff, List.isPrefixOf_iff_prefix, List.isPrefixOf_iff_prefix]
  exact ⟨fun hPrefix => List.prefix_of_prefix_length_le hPrefix (List.prefix_append text rest) h,
    fun hPrefix => hPrefix.trans (List.prefix_append text rest)⟩

/-- A token is a part of the sentence. -/
structure Token.Inside (tok : Token) (sentence : List UInt8) : Prop where
  ordered : tok.p ≤ tok.stop
  inside : tok.stop ≤ sentence.length

/-- From the start of a token on the sentence is the token and the rest. -/
theorem drop_eq_append {sentence : List UInt8} {tok : Token} (h : tok.Inside sentence) :
    sentence.drop tok.p = tokenText sentence (some tok) ++ sentence.drop tok.stop := by
  have hTake : (sentence.take tok.stop ++ sentence.drop tok.stop).drop tok.p =
      (sentence.take tok.stop).drop tok.p ++ sentence.drop tok.stop :=
    List.drop_append_of_le_length (by simp [h.ordered, h.ordered.trans h.inside])
  rwa [List.take_append_drop] at hTake

/-- A token in the sentence has as many characters as its ends are apart. -/
theorem length_tokenText {sentence : List UInt8} {tok : Token} (h : tok.Inside sentence) :
    (tokenText sentence (some tok)).length = tok.stop - tok.p := by
  have hOrdered := h.ordered
  have hInside := h.inside
  simp only [tokenText, between, List.length_drop, List.length_take]
  omega

/-- Where a field ends before the sentence does, there is a comma. -/
theorem getElem?_fieldEnd {sentence : List UInt8} {p stop : Nat}
    (hEnd : fieldEnd sentence p stop < stop) :
    sentence[fieldEnd sentence p stop]? = some comma := by
  have hComma : comma ∈ between sentence p stop := by
    by_contra hNone
    exact hEnd.ne (fieldEnd_of_notMem hNone)
  obtain ⟨field, rest, hText, hField⟩ := List.eq_append_cons_of_mem hComma
  rw [fieldEnd_append hField hText] at hEnd ⊢
  have hGet : (between sentence p stop)[field.length]? = some comma := by
    rw [hText, List.getElem?_append_right (Nat.le_refl _), Nat.sub_self, List.getElem?_cons_zero]
  rwa [between, List.getElem?_drop, List.getElem?_take_of_lt hEnd] at hGet

theorem fieldEnd_le {sentence : List UInt8} {p stop : Nat} (hHigh : stop ≤ sentence.length) :
    fieldEnd sentence p stop ≤ stop := by
  by_cases hComma : comma ∈ between sentence p stop
  · obtain ⟨field, rest, hText, hField⟩ := List.eq_append_cons_of_mem hComma
    have hLength := length_between (p := p) hHigh
    rw [hText, List.length_append, List.length_cons] at hLength
    rw [fieldEnd_append hField hText]
    omega
  · exact (fieldEnd_of_notMem hComma).le

/-- Behind every token but the last one there is a comma. -/
theorem splitTokens_placed {sentence : List UInt8} {p stop : Nat} {t : NmeaTokenizer}
    (hLow : p ≤ stop) (hHigh : stop ≤ sentence.length) (hCount : t.count ≤ maxNmeaTokens)
    (hCommas : ∀ (i : Nat) tok, nmeaTokenizerGet t i = some tok →
      tok.Inside sentence ∧ sentence[tok.stop]? = some comma) :
    ∀ (i : Nat) tok, nmeaTokenizerGet (splitTokens sentence stop p t) i = some tok →
      tok.Inside sentence ∧ (i + 1 < (splitTokens sentence stop p t).count →
        sentence[tok.stop]? = some comma) := by
  fun_induction splitTokens sentence stop p t with
  | case1 p t hp q t' hq ih =>
      have hAdded : t' = t.add ⟨p, q⟩ := if_pos (le_fieldEnd sentence hLow)
      apply ih hq
      · rw [hAdded, count_add hCount]
        exact Nat.min_le_right _ _
      · intro i tok hGet
        rw [hAdded, get_add hCount] at hGet
        split at hGet
        · obtain rfl := Option.some.inj hGet
          exact ⟨⟨le_fieldEnd sentence hLow, hq.le.trans hHigh⟩,
            getElem?_fieldEnd hq⟩
        · exact hCommas i tok hGet
  | case2 p t hp q t' hq ih =>
      have hAdded : t' = t.add ⟨p, q⟩ := if_pos (le_fieldEnd sentence hLow)
      have hEnd : q = stop := (fieldEnd_le hHigh).antisymm (not_lt.mp hq)
      rw [splitTokens, if_neg hq, hAdded, hEnd]
      intro i tok hGet
      rw [get_add hCount] at hGet
      split at hGet
      · next hLast =>
          obtain rfl := Option.some.inj hGet
          refine ⟨⟨hLow, hHigh⟩, fun hMore => ?_⟩
          rw [count_add hCount] at hMore
          omega
      · exact ⟨(hCommas i tok hGet).1, fun _ => (hCommas i tok hGet).2⟩
  | case3 p t hp =>
      intro i tok hGet
      exact ⟨(hCommas i tok hGet).1, fun _ => (hCommas i tok hGet).2⟩

/-- Likewise for the tokens of a sentence. -/
theorem nmeaTokenizerInit_placed (sentence : List UInt8) (tzer : NmeaTokenizer) (i : Nat)
    {tok : Token} (h : nmeaTokenizerGet (nmeaTokenizerInit sentence tzer) i = some tok) :
    tok.Inside sentence ∧ (i + 1 < (nmeaTokenizerInit sentence tzer).count →
      sentence[tok.stop]? = some comma) := by
  have hDollar : skipDollar sentence 0 sentence.length ≤ sentence.length := skipDollar_le
  obtain ⟨hLowLine, hHighLine, -⟩ := trimNewline_spec hDollar le_rfl
  obtain ⟨hLow, hHigh, -⟩ := trimChecksum_spec hLowLine hHighLine
  exact splitTokens_placed hLow (hHigh.trans hHighLine) (Nat.zero_le _)
    (fun i tok hGet => by simp [nmeaTokenizerGet] at hGet) i tok h

/-- A word without commas is found where a field begins with it, if there is
another field. -/
theorem pointsTo_of_comma {sentence word : List UInt8} {tok : Token} (hWord : comma ∉ word)
    (hInside : tok.Inside sentence) (hComma : sentence[tok.stop]? = some comma) :
    pointsTo sentence word (some tok) = word.isPrefixOf (tokenText sentence (some tok)) := by
  obtain ⟨hStop, hGet⟩ := List.getElem?_eq_some_iff.mp hComma
  rw [pointsTo, pointee, drop_eq_append hInside, List.drop_eq_getElem_cons hStop, hGet,
    List.append_assoc, List.cons_append, isPrefixOf_append_cons hWord]

/-- A word that is not longer than the token is compared with the token
alone. -/
theorem pointsTo_of_length {sentence word : List UInt8} {tok : Token}
    (hInside : tok.Inside sentence) (hLength : word.length ≤ tok.stop - tok.p) :
    pointsTo sentence word (some tok) = word.isPrefixOf (tokenText sentence (some tok)) := by
  rw [pointsTo, pointee, drop_eq_append hInside, List.append_assoc,
    isPrefixOf_append (by rwa [length_tokenText hInside])]

theorem nmeaUpdate_eq {values : Values Double} {sentence : List UInt8}
    {store : List UInt8 → Values Double} {tok : Option Token}
    (hInside : ∀ t, tok = some t → t.Inside sentence) :
    nmeaUpdate values sentence store tok =
      if tokenText sentence tok = [] then values else store (tokenText sentence tok) := by
  cases tok with
  | none => rfl
  | some t =>
      have hEmpty : tokenText sentence (some t) = [] ↔ t.p ≥ t.stop := by
        rw [← List.length_eq_zero_iff, length_tokenText (hInside t rfl)]
        omega
      simp only [nmeaUpdate, hEmpty]
      rfl

/-- The first word is looked for in tokens that can have it. -/
theorem firstWord_iff {sentence word : List UInt8} {tok : Option Token} (hWord : word.length = 5)
    (hInside : ∀ t, tok = some t → t.Inside sentence) :
    (tooShort tok = false ∧ pointsTo sentence word tok = true) ↔
      word.isPrefixOf (tokenText sentence tok) = true := by
  cases tok with
  | none =>
      have hShort : ¬word <+: [] := fun hPrefix => by simpa [hWord] using hPrefix.length_le
      simpa [tooShort, tokenText] using hShort
  | some t =>
      have hLength := length_tokenText (hInside t rfl)
      have hOrdered := (hInside t rfl).ordered
      by_cases hShort : t.p + 5 > t.stop
      · have hNot : ¬word <+: tokenText sentence (some t) := fun hPrefix => by
          have hLe := hPrefix.length_le
          omega
        simpa [tooShort, hShort] using hNot
      · rw [pointsTo_of_length (hInside t rfl) (by omega)]
        simp [tooShort, hShort]

/-- The code takes a sentence for what it reports, whatever the array of the
tokens held before. -/
theorem parseFields_eq (values : Values Double) (sentence : List UInt8) (tzer : NmeaTokenizer) :
    parseFields arithmetic values sentence tzer =
      (report arithmetic sentence).elim values values.note := by
  obtain ⟨hCount, hTexts⟩ := nmeaTokenizerGet_init sentence tzer
  have hPlaced := nmeaTokenizerInit_placed sentence tzer
  unfold parseFields report
  dsimp only
  generalize nmeaTokenizerInit sentence tzer = tz at hCount hTexts hPlaced ⊢
  have hField (n : Nat) (hn : n < maxNmeaTokens) :
      tokenText sentence (nmeaTokenizerGet tz n) = (fields (body sentence)).getD n [] := by
    rw [hTexts, if_pos ⟨Int.natCast_nonneg n, Int.ofNat_lt.mpr hn⟩]
    rfl
  have hFirst : tokenText sentence (nmeaTokenizerGet tz 0) = _ := hField 0 (by decide)
  have hSecond : tokenText sentence (nmeaTokenizerGet tz 1) = _ := hField 1 (by decide)
  have hThird : tokenText sentence (nmeaTokenizerGet tz 2) = _ := hField 2 (by decide)
  generalize (fields (body sentence)).getD 0 [] = first at hFirst ⊢
  generalize (fields (body sentence)).getD 1 [] = second at hSecond ⊢
  generalize (fields (body sentence)).getD 2 [] = third at hThird ⊢
  have hId : (tooShort (nmeaTokenizerGet tz 0) = false ∧
      pointsTo sentence (ascii "PCGDS") (nmeaTokenizerGet tz 0) = true) ↔
        (ascii "PCGDS").isPrefixOf first = true := by
    rw [← hFirst]
    exact firstWord_iff rfl fun t ht => (hPlaced 0 ht).1
  have hUpdate (store : List UInt8 → Values Double) :
      nmeaUpdate values sentence store (nmeaTokenizerGet tz 2) =
        if third = [] then values else store third := by
    rw [← hThird]
    exact nmeaUpdate_eq fun t ht => (hPlaced 2 ht).1
  simp only [nmeaUpdateCwcn, nmeaUpdateTsx, nmeaUpdateTcxo, hUpdate, str2int_eq, reportOf]
  by_cases hValue : third = []
  · simp [hValue]
  · have hMore : 2 < tz.count := by
      by_contra hFew
      have hNone : nmeaTokenizerGet tz (2 : Nat) = none := by rw [get_natCast, if_neg hFew]
      exact hValue (hThird.symm.trans (congrArg (tokenText sentence) hNone))
    have hWords {word : List UInt8} (hWord : comma ∉ word) :
        pointsTo sentence word (nmeaTokenizerGet tz 1) = word.isPrefixOf second := by
      obtain ⟨tok, hTok⟩ : ∃ tok, nmeaTokenizerGet tz (1 : Nat) = some tok :=
        ⟨tz.tokens[1], by rw [get_natCast, if_pos (by omega)]; rfl⟩
      obtain ⟨hInside, hComma⟩ := hPlaced 1 hTok
      rw [← hSecond]
      change pointsTo sentence word (nmeaTokenizerGet tz (1 : Nat)) =
        word.isPrefixOf (tokenText sentence (nmeaTokenizerGet tz (1 : Nat)))
      rw [hTok]
      exact pointsTo_of_comma hWord hInside (hComma hMore)
    rw [hWords (by decide), hWords (by decide), hWords (by decide)]
    by_cases hPcgds : (ascii "PCGDS").isPrefixOf first = true
    · obtain ⟨hLong, hPoints⟩ := hId.mpr hPcgds
      simp only [hLong, hPoints, hPcgds, hValue, ne_eq, not_false_eq_true, and_self, if_true,
        if_false, Bool.false_eq_true]
      split_ifs
      · rfl
      · rfl
      · rfl
      · rfl
    · have hNot : ¬(tooShort (nmeaTokenizerGet tz 0) = false ∧
          pointsTo sentence (ascii "PCGDS") (nmeaTokenizerGet tz 0) = true) :=
        hId.not.mpr hPcgds
      cases hShort : tooShort (nmeaTokenizerGet tz 0) with
      | true => simp [hPcgds]
      | false =>
          have hPoints : pointsTo sentence (ascii "PCGDS") (nmeaTokenizerGet tz 0) = false :=
            Bool.eq_false_iff.mpr fun hPoints => hNot ⟨hShort, hPoints⟩
          simp only [hPcgds, hPoints, if_false, false_and, Bool.false_eq_true, Option.elim_none]

/-- The fields and the commas between them are all of the text. -/
theorem length_fields (text : List UInt8) :
    ((fields text).map List.length).sum + (fields text).length = text.length + 1 := by
  by_cases hComma : comma ∈ text
  · obtain ⟨field, rest, rfl, hField⟩ := List.eq_append_cons_of_mem hComma
    have hRest := length_fields rest
    rw [fields_append hField]
    simp only [List.map_cons, List.sum_cons, List.length_cons, List.length_append]
    omega
  · rw [fields_of_notMem hComma]
    simp
  termination_by text.length

theorem length_body_le (sentence : List UInt8) : (body sentence).length ≤ sentence.length := by
  have hDollar (text : List UInt8) : (dropDollar text).length ≤ text.length := by
    unfold dropDollar
    split
    · exact Nat.le_refl _
    · split <;> simp
  have hNewline (text : List UInt8) : (dropNewline text).length ≤ text.length := by
    unfold dropNewline
    split
    · exact Nat.le_refl _
    · split <;> simp
    · split_ifs <;> simp only [List.length_cons] <;> omega
  have hChecksum (text : List UInt8) : (dropChecksum text).length ≤ text.length := by
    unfold dropChecksum
    split
    · split <;> simp only [List.length_cons] <;> omega
    · exact Nat.le_refl _
  rw [body, List.length_reverse]
  calc (dropChecksum (dropNewline (dropDollar sentence).reverse)).length
      ≤ (dropNewline (dropDollar sentence).reverse).length := hChecksum _
    _ ≤ (dropDollar sentence).reverse.length := hNewline _
    _ = (dropDollar sentence).length := List.length_reverse
    _ ≤ sentence.length := hDollar sentence

/-- A report has five characters in its first field, and four in its second
one. -/
theorem length_of_reportOf {id name value : List UInt8} {r : Report Double}
    (h : reportOf arithmetic id name value = some r) :
    5 ≤ id.length ∧ 4 ≤ name.length ∧ value ≠ [] := by
  have hLength {word text : List UInt8} (hWord : word.isPrefixOf text = true) :
      word.length ≤ text.length := (List.isPrefixOf_iff_prefix.mp hWord).length_le
  unfold reportOf at h
  split_ifs at h with hId hCwcn hTsx hTcxo
  · exact ⟨hLength hId.1, Nat.le_of_succ_le (hLength hCwcn), hId.2⟩
  · exact ⟨hLength hId.1, (by decide : 4 ≤ 7).trans (hLength hTsx), hId.2⟩
  · exact ⟨hLength hId.1, hLength hTcxo, hId.2⟩

/-- A sentence that is too short for the code has no room for a report. -/
theorem report_of_short {sentence : List UInt8} (h : sentence.length < 9) :
    report arithmetic sentence = none := by
  rw [Option.eq_none_iff_forall_not_mem]
  intro r hReport
  obtain ⟨hId, hName, hValue⟩ := length_of_reportOf arithmetic hReport
  have hBody := (length_body_le sentence).trans_lt h
  have hFields := length_fields (body sentence)
  match hList : fields (body sentence) with
  | [] => simp [hList] at hValue
  | [_] => simp [hList] at hValue
  | [_, _] => simp [hList] at hValue
  | id :: name :: value :: rest =>
      simp only [hList, List.getD_cons_zero, List.getD_cons_succ, List.map_cons, List.sum_cons,
        List.length_cons] at hFields hId hName
      omega

end Gnss
