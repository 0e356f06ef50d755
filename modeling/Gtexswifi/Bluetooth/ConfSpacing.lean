import Gtexswifi.Bluetooth.Assignments
import Gtexswifi.Bluetooth.ConfToWire

/-! Blanks and tabs in a line `name = v1 , v2 , ...`, and how many of its
values are read in spite of them. A blank is no delimiter of the text of the
values, and a tab ends it. -/
namespace Bluetooth.Conf

def blank : UInt8 := 0x20

def tabulator : UInt8 := 0x09

/-- The text of one value. -/
structure ValueText where
  text : List UInt8
  ne_nil : text ≠ []
  plain : ∀ c ∈ text, c ∉ confValuesPartition ∧ c ≠ 0

/-- Where white space stands in a line with `count` values: before and
behind the equals sign, before and behind each comma, and at the end. -/
structure Spacing (count : Nat) where
  before : List UInt8
  behind : List UInt8
  gaps : List (List UInt8 × List UInt8)
  trailing : List UInt8
  length_gaps : gaps.length = count - 1
  before_blank : ∀ c ∈ before, c = blank ∨ c = tabulator
  behind_blank : ∀ c ∈ behind, c = blank ∨ c = tabulator
  gaps_blank : ∀ gap ∈ gaps, ∀ c ∈ gap.1 ++ gap.2, c = blank ∨ c = tabulator
  trailing_blank : ∀ c ∈ trailing, c = blank ∨ c = tabulator

/-- The values behind the first one, each with its comma. -/
def laterValues : List ValueText → List (List UInt8 × List UInt8) → List UInt8
  | value :: values, gap :: gaps =>
      gap.1 ++ 0x2c :: (gap.2 ++ (value.text ++ laterValues values gaps))
  | _, _ => []

def spacedValues : List ValueText → List (List UInt8 × List UInt8) → List UInt8
  | [], _ => []
  | value :: values, gaps => value.text ++ laterValues values gaps

/-- A line, without its newline. -/
def spacedLine (name : List UInt8) (values : List ValueText) (spacing : Spacing values.length) :
    List UInt8 :=
  name ++ (spacing.before ++
    0x3d :: (spacing.behind ++ (spacedValues values spacing.gaps ++ spacing.trailing)))

/-- How many values are read: none with a blank before the equals sign,
except right behind the name, or with a tab behind a blank after it, and
otherwise those in front of the first tab. -/
def readCount (values : List ValueText) (spacing : Spacing values.length) : Nat :=
  if blank ∈ spacing.before.tail ∨
      tabulator ∈ spacing.behind.dropWhile (· = tabulator) then 0
  else
    min values.length
      (1 + (spacing.gaps.takeWhile fun gap => tabulator ∉ gap.1 ++ gap.2).length)

/-- The text in front of the first delimiter of `CONF_VALUES_DELIMITERS`. -/
def valueToken (text : List UInt8) : List UInt8 := text.takeWhile (· ∉ confValuesDelimiters)

/-- The values in that text. -/
def subValues (text : List UInt8) : List (List UInt8) :=
  Tokens.tokens confValuesPartition (valueToken text)

/-- A character that ends the value text separates the values as well. -/
theorem confValuesDelimiters_subset {c : UInt8} (h : c ∈ confValuesDelimiters) :
    c ∈ confValuesPartition := by
  revert h
  simp only [confValuesDelimiters, confValuesPartition, List.mem_cons]
  tauto

theorem tabulator_mem : tabulator ∈ confValuesDelimiters := by decide

/-- A blank does not end the value text. The delimiters are the equals sign,
the tabulator, the mark of a comment and the ends of a line. -/
theorem blank_not_mem : blank ∉ confValuesDelimiters := by decide

theorem white_mem {c : UInt8} (h : c = blank ∨ c = tabulator) : c ∈ confValuesPartition := by
  rcases h with rfl | rfl <;> decide

/-- The value text is a part of the text behind the equals sign. -/
theorem mem_of_mem_valueToken {text : List UInt8} {c : UInt8} (h : c ∈ valueToken text) :
    c ∈ text := (List.takeWhile_prefix _).subset h

theorem valueToken_append {front : List UInt8} (h : ∀ c ∈ front, c ∉ confValuesDelimiters)
    (text : List UInt8) : valueToken (front ++ text) = front ++ valueToken text :=
  List.takeWhile_append_of_pos fun c hc => decide_eq_true (h c hc)

/-- Where all is delimiters, there are no values. -/
theorem subValues_eq_nil {text : List UInt8}
    (h : ∀ c ∈ valueToken text, c ∈ confValuesPartition) : subValues text = [] := by
  rw [subValues, ← List.append_nil (valueToken text), Tokens.tokens_gap h, Tokens.tokens_nil]

variable {white text : List UInt8}

/-- White space in front of a delimiter holds no value. -/
theorem subValues_white (hWhite : ∀ c ∈ white, c = blank ∨ c = tabulator) {d : UInt8}
    (hd : d ∈ confValuesDelimiters) (text : List UInt8) : subValues (white ++ d :: text) = [] := by
  apply subValues_eq_nil
  intro c hc
  apply white_mem
  rw [valueToken, List.takeWhile_append] at hc
  split at hc
  · rw [List.takeWhile_cons_of_neg (by simpa using hd), List.append_nil] at hc
    exact hWhite c hc
  · exact hWhite c ((List.takeWhile_prefix _).subset hc)

/-- With a tabulator in front of the first value nothing is left of the
value text. -/
theorem subValues_tab (hWhite : ∀ c ∈ white, c = blank ∨ c = tabulator)
    (hTab : tabulator ∈ white) (text : List UInt8) : subValues (white ++ text) = [] := by
  obtain ⟨front, back, rfl⟩ := List.append_of_mem hTab
  rw [List.append_assoc, List.cons_append]
  exact subValues_white (fun c hc => hWhite c (List.mem_append_left _ hc)) tabulator_mem _

/-- Blanks are skipped. -/
theorem subValues_blanks (hWhite : ∀ c ∈ white, c = blank ∨ c = tabulator)
    (hTab : tabulator ∉ white) (text : List UInt8) : subValues (white ++ text) = subValues text := by
  have hPlain : ∀ c ∈ white, c ∉ confValuesDelimiters := by
    intro c hc
    rcases hWhite c hc with rfl | rfl
    · exact blank_not_mem
    · exact absurd hc hTab
  rw [subValues, valueToken_append hPlain,
    Tokens.tokens_gap fun c hc => white_mem (hWhite c hc), subValues]

theorem subValues_comma (text : List UInt8) : subValues (0x2c :: text) = subValues text := by
  have hComma : ∀ c ∈ [(0x2c : UInt8)], c ∉ confValuesDelimiters :=
    List.forall_mem_singleton.mpr (by decide)
  have hOne : ∀ c ∈ [(0x2c : UInt8)], c ∈ confValuesPartition :=
    List.forall_mem_singleton.mpr (by decide)
  rw [← List.singleton_append, subValues, valueToken_append hComma, Tokens.tokens_gap hOne,
    subValues]

/-- A value and what is read behind it. -/
theorem subValues_value (value : ValueText)
    (hText : ∀ c ∈ text.head?, c ∈ confValuesPartition) :
    subValues (value.text ++ text) = value.text :: subValues text := by
  have hPlain : ∀ c ∈ value.text, c ∉ confValuesDelimiters :=
    fun c hc hMem => (value.plain c hc).1 (confValuesDelimiters_subset hMem)
  rw [subValues, valueToken_append hPlain]
  apply Tokens.tokens_word value.ne_nil fun c hc => (value.plain c hc).1
  intro c hc
  apply hText
  cases text with
  | nil => cases hc
  | cons d text =>
      rw [valueToken, List.takeWhile_cons] at hc
      split at hc
      · exact hc
      · cases hc

/-- What can stand behind the last value. -/
def Ending (tail : List UInt8) : Prop := ∀ c ∈ tail, c = blank ∨ c = tabulator ∨ c = newline

theorem Ending.mem {tail : List UInt8} (h : Ending tail) {c : UInt8} (hc : c ∈ tail) :
    c ∈ confValuesPartition := by
  rcases h c hc with rfl | rfl | rfl <;> decide

theorem Ending.subValues {tail : List UInt8} (h : Ending tail) : subValues tail = [] :=
  subValues_eq_nil fun _ hc => h.mem (mem_of_mem_valueToken hc)

variable {values : List ValueText} {gaps : List (List UInt8 × List UInt8)} {tail : List UInt8}

/-- What follows the first value begins with a delimiter, or with nothing. -/
theorem head_laterValues
    (hGaps : ∀ gap ∈ gaps, ∀ c ∈ gap.1 ++ gap.2, c = blank ∨ c = tabulator)
    (hTail : Ending tail) :
    ∀ c ∈ (laterValues values gaps ++ tail).head?, c ∈ confValuesPartition := by
  intro c hc
  cases values with
  | nil => exact hTail.mem (List.mem_of_mem_head? hc)
  | cons value values =>
      cases gaps with
      | nil => exact hTail.mem (List.mem_of_mem_head? hc)
      | cons gap gaps =>
          obtain ⟨hFirst, -⟩ := List.forall_mem_cons.mp hGaps
          rw [laterValues] at hc
          cases hGap : gap.1 with
          | nil =>
              rw [hGap] at hc
              obtain rfl := Option.some.inj hc
              decide
          | cons d white =>
              rw [hGap] at hc
              obtain rfl := Option.some.inj hc
              exact white_mem (hFirst d (List.mem_append_left _ (hGap ▸ List.mem_cons_self)))

/-- Behind the first value, the values in front of the first tab are read. -/
theorem subValues_laterValues
    (hGaps : ∀ gap ∈ gaps, ∀ c ∈ gap.1 ++ gap.2, c = blank ∨ c = tabulator)
    (hTail : Ending tail) :
    subValues (laterValues values gaps ++ tail) =
      (values.take (gaps.takeWhile fun gap => tabulator ∉ gap.1 ++ gap.2).length).map
        ValueText.text := by
  induction values generalizing gaps with
  | nil =>
      have hNone : laterValues [] gaps ++ tail = tail := by simp [laterValues]
      rw [hNone, hTail.subValues, List.take_nil, List.map_nil]
  | cons value values ih =>
      cases gaps with
      | nil => exact hTail.subValues
      | cons gap gaps =>
          obtain ⟨hGap, hGaps⟩ := List.forall_mem_cons.mp hGaps
          have hFirst : ∀ c ∈ gap.1, c = blank ∨ c = tabulator :=
            fun c hc => hGap c (List.mem_append_left _ hc)
          have hSecond : ∀ c ∈ gap.2, c = blank ∨ c = tabulator :=
            fun c hc => hGap c (List.mem_append_right _ hc)
          rw [laterValues, List.append_assoc, List.cons_append, List.append_assoc,
            List.append_assoc]
          by_cases hTabFirst : tabulator ∈ gap.1
          · rw [subValues_tab hFirst hTabFirst, List.takeWhile_cons_of_neg (by simp [hTabFirst])]
            rfl
          · rw [subValues_blanks hFirst hTabFirst, subValues_comma]
            by_cases hTabSecond : tabulator ∈ gap.2
            · rw [subValues_tab hSecond hTabSecond,
                List.takeWhile_cons_of_neg (by simp [hTabSecond])]
              rfl
            · rw [subValues_blanks hSecond hTabSecond,
                subValues_value value (head_laterValues hGaps hTail), ih hGaps,
                List.takeWhile_cons_of_pos (by simp [hTabFirst, hTabSecond])]
              rfl

/-- The values up to the first gap with a tabulator are read, and those
behind it are lost. By induction on the gaps. -/
theorem subValues_spacedValues
    (hGaps : ∀ gap ∈ gaps, ∀ c ∈ gap.1 ++ gap.2, c = blank ∨ c = tabulator)
    (hTail : Ending tail) :
    subValues (spacedValues values gaps ++ tail) =
      (values.take (1 + (gaps.takeWhile fun gap => tabulator ∉ gap.1 ++ gap.2).length)).map
        ValueText.text := by
  cases values with
  | nil =>
      rw [List.take_nil, List.map_nil]
      exact hTail.subValues
  | cons value values =>
      rw [spacedValues, List.append_assoc, subValues_value value (head_laterValues hGaps hTail),
        subValues_laterValues hGaps hTail, Nat.add_comm 1]
      rfl

/-- What is read behind the name. -/
def valuesBehind (text : List UInt8) : List (List UInt8) :=
  subValues (text.dropWhile (· ∈ confValuesDelimiters))

/-- The values behind the equals sign are the tokens of the value text,
which is one token of the line itself. -/
theorem valuesBehind_eq (text : List UInt8) :
    valuesBehind text =
      match Tokens.strtokR confValuesDelimiters text with
      | none => []
      | some value => Tokens.tokens confValuesPartition value.1 := by
  unfold valuesBehind Tokens.strtokR
  cases text.dropWhile (· ∈ confValuesDelimiters) with
  | nil => rfl
  | cons c text => rfl

theorem valuesBehind_skip {front : List UInt8} (h : ∀ c ∈ front, c ∈ confValuesDelimiters)
    (text : List UInt8) : valuesBehind (front ++ text) = valuesBehind text := by
  rw [valuesBehind, List.dropWhile_append_of_pos fun c hc => decide_eq_true (h c hc), valuesBehind]

/-- A text that begins with no delimiter begins with its value text. -/
theorem valuesBehind_cons {c : UInt8} (h : c ∉ confValuesDelimiters) (text : List UInt8) :
    valuesBehind (c :: text) = subValues (c :: text) := by
  rw [valuesBehind, List.dropWhile_cons_of_neg (by simpa using h)]

/-- White space starts with tabs, and with a blank behind them if it has
one. -/
theorem exists_tabs (hWhite : ∀ c ∈ white, c = blank ∨ c = tabulator) :
    ∃ tabs, (∀ c ∈ tabs, c = tabulator) ∧ white = tabs ++ white.dropWhile (· = tabulator) ∧
      (white.dropWhile (· = tabulator) = [] ∨
        ∃ more, white.dropWhile (· = tabulator) = blank :: more) := by
  refine ⟨white.takeWhile (· = tabulator), ?_, List.takeWhile_append_dropWhile.symm, ?_⟩
  · intro c hc
    simpa using List.mem_takeWhile_imp hc
  · cases hRest : white.dropWhile (· = tabulator) with
    | nil => exact Or.inl rfl
    | cons c more =>
        have hHead := List.head?_dropWhile_not (fun c => decide (c = tabulator)) white
        rw [hRest] at hHead
        have hMem : c ∈ white :=
          (List.dropWhile_suffix _).subset (hRest ▸ List.mem_cons_self)
        have hBlank := (hWhite c hMem).resolve_right (by simpa using hHead)
        exact Or.inr ⟨more, by rw [hBlank]⟩

/-- Behind the equals sign. -/
theorem valuesBehind_spaced (hWhite : ∀ c ∈ white, c = blank ∨ c = tabulator)
    (hGaps : ∀ gap ∈ gaps, ∀ c ∈ gap.1 ++ gap.2, c = blank ∨ c = tabulator)
    (hTail : Ending tail) :
    valuesBehind (white ++ (spacedValues values gaps ++ tail)) =
      if tabulator ∈ white.dropWhile (· = tabulator) then []
      else (values.take
        (1 + (gaps.takeWhile fun gap => tabulator ∉ gap.1 ++ gap.2).length)).map
          ValueText.text := by
  obtain ⟨tabs, hTabs, hParts, hRest⟩ := exists_tabs hWhite
  have hSkip : ∀ c ∈ tabs, c ∈ confValuesDelimiters := fun c hc => hTabs c hc ▸ tabulator_mem
  have hBlanks : ∀ c ∈ white.dropWhile (· = tabulator), c = blank ∨ c = tabulator :=
    fun c hc => hWhite c ((List.dropWhile_suffix _).subset hc)
  have hLine : valuesBehind (white ++ (spacedValues values gaps ++ tail)) =
      subValues (white.dropWhile (· = tabulator) ++ (spacedValues values gaps ++ tail)) := by
    conv_lhs => rw [hParts, List.append_assoc, valuesBehind_skip hSkip]
    rcases hRest with hNone | ⟨more, hMore⟩
    · rw [hNone, List.nil_append]
      cases values with
      | nil =>
          have hEnd : Ending (tail.dropWhile (· ∈ confValuesDelimiters)) :=
            fun c hc => hTail c ((List.dropWhile_suffix _).subset hc)
          exact hEnd.subValues.trans hTail.subValues.symm
      | cons value values =>
          obtain ⟨c, text, hText⟩ := List.exists_cons_of_ne_nil value.ne_nil
          have hPlain : c ∉ confValuesDelimiters := fun hMem =>
            (value.plain c (hText ▸ List.mem_cons_self)).1 (confValuesDelimiters_subset hMem)
          rw [spacedValues, hText, List.append_assoc, List.cons_append]
          exact valuesBehind_cons hPlain _
    · rw [hMore, List.cons_append]
      exact valuesBehind_cons blank_not_mem _
  rw [hLine]
  split
  · next hTab => exact subValues_tab hBlanks hTab _
  · next hTab => rw [subValues_blanks hBlanks hTab, subValues_spacedValues hGaps hTail]

/-- What follows the name and the delimiter behind it. -/
theorem valuesBehind_name (spacing : Spacing values.length) (hTail : Ending tail) :
    valuesBehind ((spacing.before ++ 0x3d :: (spacing.behind ++
      (spacedValues values spacing.gaps ++ tail))).tail) =
      (values.take (readCount values spacing)).map ValueText.text := by
  have hSign : (0x3d : UInt8) ∈ confValuesDelimiters := by decide
  have hBehind : valuesBehind (spacing.behind ++ (spacedValues values spacing.gaps ++ tail)) = _ :=
    valuesBehind_spaced spacing.behind_blank spacing.gaps_blank hTail
  have hTake (n : Nat) : values.take (min values.length n) = values.take n := by
    rw [Nat.min_comm, ← List.take_take, List.take_length]
  have hTailBlank : ∀ c ∈ spacing.before.tail, c = blank ∨ c = tabulator :=
    fun c hc => spacing.before_blank c (List.mem_of_mem_tail hc)
  have hShape : (spacing.before ++ 0x3d :: (spacing.behind ++
      (spacedValues values spacing.gaps ++ tail))).tail =
        spacing.before.tail ++ ((if spacing.before = [] then [] else [0x3d]) ++
          (spacing.behind ++ (spacedValues values spacing.gaps ++ tail))) := by
    cases spacing.before with
    | nil => rfl
    | cons c white => rfl
  rw [hShape, readCount]
  by_cases hBlank : blank ∈ spacing.before.tail
  · have hBefore : spacing.before ≠ [] := by
      intro hNone
      rw [hNone] at hBlank
      cases hBlank
    obtain ⟨tabs, hTabs, hParts, hRest⟩ := exists_tabs hTailBlank
    have hSkip : ∀ c ∈ tabs, c ∈ confValuesDelimiters := fun c hc => hTabs c hc ▸ tabulator_mem
    obtain ⟨more, hMore⟩ := hRest.resolve_left (by
      intro hNone
      rw [hNone, List.append_nil] at hParts
      rw [hParts] at hBlank
      exact absurd (hTabs blank hBlank) (by decide))
    have hWhite : ∀ c ∈ blank :: more, c = blank ∨ c = tabulator :=
      fun c hc => hTailBlank c ((List.dropWhile_suffix _).subset (hMore ▸ hc))
    rw [if_neg hBefore, if_pos (Or.inl hBlank), hParts, hMore, List.append_assoc,
      valuesBehind_skip hSkip, List.cons_append, valuesBehind_cons blank_not_mem,
      ← List.cons_append, List.singleton_append, subValues_white hWhite hSign]
    rfl
  · have hTabs : ∀ c ∈ spacing.before.tail, c ∈ confValuesDelimiters := by
      intro c hc
      rcases hTailBlank c hc with rfl | rfl
      · exact absurd hc hBlank
      · exact tabulator_mem
    have hSigns : ∀ c ∈ (if spacing.before = [] then [] else [0x3d] : List UInt8),
        c ∈ confValuesDelimiters := by
      split <;> simp [hSign]
    rw [valuesBehind_skip hTabs, valuesBehind_skip hSigns, hBehind]
    by_cases hTab : tabulator ∈ spacing.behind.dropWhile (· = tabulator)
    · rw [if_pos hTab, if_pos (Or.inr hTab)]
      rfl
    · rw [if_neg hTab, if_neg (not_or.mpr ⟨hBlank, hTab⟩), hTake]

/-- What is loaded of a line: the line, and its newline unless the file ends
with it. -/
def loaded (name : List UInt8) (values : List ValueText) (spacing : Spacing values.length)
    (ended : Bool) : List UInt8 :=
  spacedLine name values spacing ++ if ended = true then [newline] else []

/-- Element `j` of a row. -/
def ConfEntry.element (entry : ConfEntry) (mem : Nat → UInt8) (j : Nat) : List UInt8 :=
  Bytes.fetch mem (entry.buf + j * entry.size) entry.size

/-- The elements of a row are the same behind both lines, whatever they
were. -/
def SameElements (longBits : Nat) (tab : List ConfEntry) (entry : ConfEntry)
    (line line' : List UInt8) : Prop :=
  ∀ mem, ∃ next next', loadLines longBits tab line.length line mem = some next ∧
    loadLines longBits tab line'.length line' mem = some next' ∧
    ∀ j < entry.len.toNat, entry.element next j = entry.element next' j

/-- How many elements a row has. -/
def ConfEntry.room (entry : ConfEntry) : Nat := if entry.size = 0 then 0 else entry.len.toNat

section Line

variable {name : List UInt8} {values : List ValueText}

/-- The gaps and the values hold no character that would end the string or
the line. -/
theorem mem_laterValues {gaps : List (List UInt8 × List UInt8)}
    (hGaps : ∀ gap ∈ gaps, ∀ c ∈ gap.1 ++ gap.2, c = blank ∨ c = tabulator) {c : UInt8}
    (h : c ∈ laterValues values gaps) : c ≠ 0 ∧ c ≠ newline := by
  have hWhite {c : UInt8} (hc : c = blank ∨ c = tabulator) : c ≠ 0 ∧ c ≠ newline := by
    rcases hc with rfl | rfl <;> decide
  induction values generalizing gaps with
  | nil => simp [laterValues] at h
  | cons value values ih =>
      cases gaps with
      | nil => simp [laterValues] at h
      | cons gap gaps =>
          obtain ⟨hGap, hGaps⟩ := List.forall_mem_cons.mp hGaps
          rw [laterValues] at h
          simp only [List.mem_append, List.mem_cons] at h
          rcases h with hFirst | rfl | hSecond | hText | hLater
          · exact hWhite (hGap c (List.mem_append_left _ hFirst))
          · decide
          · exact hWhite (hGap c (List.mem_append_right _ hSecond))
          · refine ⟨(value.plain c hText).2, ?_⟩
            rintro rfl
            exact (value.plain _ hText).1 (by decide)
          · exact ih hGaps hLater

/-- The whole line holds no character that would end the string or the line,
so that `fgets` reads it as one piece. -/
theorem mem_spacedLine (hName : PlainName name) (spacing : Spacing values.length) {c : UInt8}
    (h : c ∈ spacedLine name values spacing) : c ≠ 0 ∧ c ≠ newline := by
  have hWhite {c : UInt8} (hc : c = blank ∨ c = tabulator) : c ≠ 0 ∧ c ≠ newline := by
    rcases hc with rfl | rfl <;> decide
  simp only [spacedLine, List.mem_append, List.mem_cons] at h
  rcases h with hMem | hMem | rfl | hMem | hMem | hMem
  · refine ⟨(hName.2.2 c hMem).2, ?_⟩
    rintro rfl
    exact (hName.2.2 _ hMem).1 (by decide)
  · exact hWhite (spacing.before_blank c hMem)
  · decide
  · exact hWhite (spacing.behind_blank c hMem)
  · cases values with
    | nil => cases hMem
    | cons value values =>
        rcases List.mem_append.mp hMem with hText | hLater
        · refine ⟨(value.plain c hText).2, ?_⟩
          rintro rfl
          exact (value.plain _ hText).1 (by decide)
        · exact mem_laterValues spacing.gaps_blank hLater
  · exact hWhite (spacing.trailing_blank c hMem)

/-- A line of at most 254 characters comes in one piece. -/
theorem pieces_loaded (hName : PlainName name) (spacing : Spacing values.length) (ended : Bool)
    (hFits : (spacedLine name values spacing).length ≤ 254) :
    pieces (loaded name values spacing ended) = [loaded name values spacing ended] := by
  have hPlain : ∀ c ∈ spacedLine name values spacing, c ≠ newline :=
    fun c hc => (mem_spacedLine hName spacing hc).2
  have hNe : loaded name values spacing ended ≠ [] :=
    List.append_ne_nil_of_left_ne_nil (List.append_ne_nil_of_left_ne_nil hName.1 _) _
  have hRoom : (spacedLine name values spacing).length < confMaxLineLen := Nat.lt_succ_of_le hFits
  apply Tokens.pieces_of_readLine (by decide) hNe
  rw [Nat.add_sub_cancel, loaded]
  split
  · exact Tokens.readLine_append hPlain hRoom []
  · rw [List.append_nil]
    exact Tokens.readLine_last hPlain hRoom.le

variable {m : AdapterModule} {entry : ConfEntry}

/-- A line whose name is found stores what is read behind the name. -/
theorem loadLine_valuesBehind (longBits : Nat) {piece rest : List UInt8}
    (hHead : piece.head? ≠ some confComment)
    (hToken : Tokens.strtokR confDelimiters (cString piece) = some (name, rest))
    (hLookup : lookup name m.adapter.tab = .found entry) (mem : Nat → UInt8) :
    loadLine longBits m.adapter.tab piece mem =
      some (Bytes.store mem entry.buf (((valuesBehind rest).take entry.len.toNat).map fun subValue =>
        Radix.encode entry.size (parseValue longBits subValue)).flatten) := by
  rw [loadLine, if_neg hHead, hToken, valuesBehind_eq]
  dsimp only
  cases Tokens.strtokR confValuesDelimiters rest with
  | none =>
      rw [List.take_nil, List.map_nil, List.flatten_nil, Bytes.store_nil]
  | some value =>
      dsimp only
      rw [hLookup]
      exact congrArg some
        (parseNumber_eq (m.takesValues entry (lookup_found hLookup).1) longBits value.1 mem)

/-- The values that a row takes of a line. -/
def taken (longBits : Nat) (entry : ConfEntry) (values : List ValueText)
    (spacing : Spacing values.length) : List (List UInt8) :=
  (values.take (min entry.len.toNat (readCount values spacing))).map fun value =>
    Radix.encode entry.size (parseValue longBits value.text)

/-- The values that are read are stored from the first element on. -/
theorem loadLines_loaded (longBits : Nat) (hName : PlainName name)
    (hLookup : lookup name m.adapter.tab = .found entry) (spacing : Spacing values.length)
    (ended : Bool) (hFits : (spacedLine name values spacing).length ≤ 254) (mem : Nat → UInt8) :
    loadLines longBits m.adapter.tab (loaded name values spacing ended).length
        (loaded name values spacing ended) mem =
      some (Bytes.store mem entry.buf (taken longBits entry values spacing).flatten) := by
  have hString : cString (loaded name values spacing ended) = loaded name values spacing ended := by
    apply List.takeWhile_eq_self_iff.mpr
    intro c hc
    apply decide_eq_true
    rcases List.mem_append.mp hc with hLine | hEnd
    · exact (mem_spacedLine hName spacing hLine).1
    · split at hEnd
      · rw [List.mem_singleton.mp hEnd]
        decide
      · cases hEnd
  have hHead : (loaded name values spacing ended).head? ≠ some confComment := by
    rw [loaded, spacedLine, List.append_assoc, List.head?_append_of_ne_nil _ hName.1]
    exact hName.2.1
  have hTail : Ending (spacing.trailing ++ if ended = true then [newline] else []) := by
    intro c hc
    rcases List.mem_append.mp hc with hWhite | hEnd
    · rcases spacing.trailing_blank c hWhite with h | h
      · exact Or.inl h
      · exact Or.inr (Or.inl h)
    · split at hEnd
      · exact Or.inr (Or.inr (List.mem_singleton.mp hEnd))
      · cases hEnd
  have hLine : loaded name values spacing ended = name ++ (spacing.before ++ 0x3d ::
      (spacing.behind ++ (spacedValues values spacing.gaps ++
        (spacing.trailing ++ if ended = true then [newline] else [])))) := by
    simp [loaded, spacedLine]
  have hDelimiter : ∀ c ∈ (spacing.before ++ 0x3d :: (spacing.behind ++
      (spacedValues values spacing.gaps ++ (spacing.trailing ++
        if ended = true then [newline] else [])))).head?, c ∈ confDelimiters := by
    intro c hc
    cases hBefore : spacing.before with
    | nil =>
        rw [hBefore] at hc
        obtain rfl := Option.some.inj hc
        decide
    | cons d white =>
        rw [hBefore] at hc
        obtain rfl := Option.some.inj hc
        rcases spacing.before_blank d (hBefore ▸ List.mem_cons_self) with rfl | rfl <;> decide
  have hToken := Tokens.strtokR_word hName.1 (fun c hc => (hName.2.2 c hc).1) hDelimiter
  rw [← hLine, ← hString] at hToken
  have hLoad := loadLine_valuesBehind longBits hHead hToken hLookup mem
  rw [valuesBehind_name spacing hTail, ← List.map_take, List.take_take, List.map_map] at hLoad
  rw [loadLines_eq, pieces_loaded hName spacing ended hFits, loadPieces, List.foldlM_cons, hLoad]
  rfl

theorem readCount_le (values : List ValueText) (spacing : Spacing values.length) :
    readCount values spacing ≤ values.length := by
  rw [readCount]
  split
  · exact Nat.zero_le _
  · exact Nat.min_le_left _ _

/-- Every row of the tables for marlin and marlin2 is found under its own
name, and the name is plain. -/
theorem chip_rows_found (chip : Marlin.Chip) : ∀ entry ∈ chip.adapter.tab,
    ∀ name ∈ entry.confEntry, PlainName name ∧ lookup name chip.adapter.tab = .found entry := by
  intro entry hEntry name hName
  have hRow : entry ∈ Marlin.pskeyCmdRow :: Marlin.rows := by
    obtain ⟨ending, hTab, hEnding⟩ := chip.tab_eq
    rw [hTab] at hEntry
    refine (List.mem_append.mp hEntry).resolve_right fun hEnd => ?_
    rw [hEnding entry hEnd] at hName
    cases hName
  obtain ⟨other, hOther, hOtherName, hLookup⟩ :=
    Marlin.exists_row (List.mem_map.mpr ⟨entry, hEntry, Option.mem_def.mp hName⟩)
  obtain rfl := Marlin.rows_eq_of_name hRow hOther (hName.trans hOtherName.symm)
  exact ⟨Marlin.rows_plain entry hRow name hName, hLookup⟩

/-- Every row of the table for sr2351 is found under its own name, and the
name is plain. -/
theorem sr2351_rows_found : ∀ entry ∈ Sr2351.sr2351Table, ∀ name ∈ entry.confEntry,
    PlainName name ∧ lookup name Sr2351.sr2351Table = .found entry := by decide +kernel

/-- A row is found under its name, which can stand in a line. -/
theorem rows_found (m : AdapterModule) : ∀ entry ∈ m.adapter.tab,
    ∀ name ∈ entry.confEntry, PlainName name ∧ lookup name m.adapter.tab = .found entry := by
  cases m with
  | marlin => exact chip_rows_found .marlin
  | marlin2 => exact chip_rows_found .marlin2
  | sr2351 => exact sr2351_rows_found

/-- The elements that are taken are the values, and the others stay. -/
theorem element_taken (longBits : Nat) (entry : ConfEntry) (values : List ValueText)
    (spacing : Spacing values.length) (mem : Nat → UInt8) (j : Nat) :
    entry.element (Bytes.store mem entry.buf (taken longBits entry values spacing).flatten) j =
      (taken longBits entry values spacing).getD j (entry.element mem j) := by
  apply Bytes.fetch_store_array
  intro element hElement
  obtain ⟨value, -, rfl⟩ := List.mem_map.mp hElement
  exact Radix.length_encode _ _

/-- As many values are taken as the row has room for and the spacing lets
through. -/
theorem length_taken (longBits : Nat) (entry : ConfEntry) (values : List ValueText)
    (spacing : Spacing values.length) :
    (taken longBits entry values spacing).length =
      min entry.len.toNat (readCount values spacing) := by
  have hCount := readCount_le values spacing
  rw [taken, List.length_map, List.length_take]
  omega

/-- An element that only the second of two lines assigns shows the
difference. -/
theorem exists_differs (longBits : Nat) {spacing spacing' : Spacing values.length}
    (hLess : min entry.room (readCount values spacing) <
      min entry.room (readCount values spacing')) :
    ∃ mem, ∃ j < entry.len.toNat,
      entry.element (Bytes.store mem entry.buf (taken longBits entry values spacing).flatten) j ≠
        entry.element (Bytes.store mem entry.buf (taken longBits entry values spacing').flatten)
          j := by
  have hSize : entry.size ≠ 0 := by
    intro hZero
    rw [ConfEntry.room, if_pos hZero] at hLess
    omega
  rw [ConfEntry.room, if_neg hSize] at hLess
  have hCount := length_taken longBits entry values spacing
  have hCount' := length_taken longBits entry values spacing'
  have hInside : min entry.len.toNat (readCount values spacing) <
      (taken longBits entry values spacing').length := by omega
  have hElement : ((taken longBits entry values spacing')[min entry.len.toNat
      (readCount values spacing)]).length = entry.size := by
    simp only [taken, List.getElem_map, Radix.length_encode]
  obtain ⟨byte, bytes, hBytes⟩ := List.exists_cons_of_length_pos
    (hElement.symm ▸ Nat.pos_of_ne_zero hSize)
  refine ⟨fun _ => byte + 1, min entry.len.toNat (readCount values spacing), by omega, ?_⟩
  rw [element_taken, element_taken, List.getD_eq_default _ _ hCount.le,
    List.getD_eq_getElem _ _ hInside, hBytes]
  obtain ⟨size, hSucc⟩ := Nat.exists_eq_succ_of_ne_zero hSize
  rw [ConfEntry.element, Bytes.fetch, hSucc, List.range_succ_eq_map]
  simp

/-- Lines that leave the same elements are read to the same number of
values. -/
theorem min_eq_of_sameElements (longBits : Nat) (hEntry : entry ∈ m.adapter.tab)
    (hName : entry.confEntry = some name) {spacing spacing' : Spacing values.length} {ended : Bool}
    (hFits : (spacedLine name values spacing).length ≤ 254)
    (hFits' : (spacedLine name values spacing').length ≤ 254)
    (hSame : SameElements longBits m.adapter.tab entry (loaded name values spacing ended)
      (loaded name values spacing' ended)) :
    min entry.room (readCount values spacing) = min entry.room (readCount values spacing') := by
  obtain ⟨hPlain, hLookup⟩ := rows_found m entry hEntry name hName
  have hElements (mem : Nat → UInt8) (j : Nat) (hj : j < entry.len.toNat) :
      entry.element (Bytes.store mem entry.buf (taken longBits entry values spacing).flatten) j =
        entry.element (Bytes.store mem entry.buf (taken longBits entry values spacing').flatten)
          j := by
    obtain ⟨next, next', hNext, hNext', hAll⟩ := hSame mem
    have hLoad := loadLines_loaded longBits hPlain hLookup spacing ended hFits mem
    have hLoad' := loadLines_loaded longBits hPlain hLookup spacing' ended hFits' mem
    obtain rfl := Option.some.inj (hLoad.symm.trans hNext)
    obtain rfl := Option.some.inj (hLoad'.symm.trans hNext')
    exact hAll j hj
  rcases Nat.lt_trichotomy (min entry.room (readCount values spacing))
    (min entry.room (readCount values spacing')) with hLess | hEqual | hMore
  · obtain ⟨mem, j, hj, hDiffers⟩ := exists_differs longBits hLess
    exact absurd (hElements mem j hj) hDiffers
  · exact hEqual
  · obtain ⟨mem, j, hj, hDiffers⟩ := exists_differs longBits hMore
    exact absurd (hElements mem j hj).symm hDiffers

/-- Two lines that differ only in white space leave the same elements
exactly if the code reads the same number of their values, as far as the row
has room for them. -/
theorem sameElements_iff (longBits : Nat) (m : AdapterModule) {entry : ConfEntry}
    (hEntry : entry ∈ m.adapter.tab) {name : List UInt8} (hName : entry.confEntry = some name)
    (values : List ValueText) (spacing spacing' : Spacing values.length) (ended : Bool)
    (hFits : (spacedLine name values spacing).length ≤ 254)
    (hFits' : (spacedLine name values spacing').length ≤ 254) :
    SameElements longBits m.adapter.tab entry (loaded name values spacing ended)
        (loaded name values spacing' ended) ↔
      min entry.room (readCount values spacing) = min entry.room (readCount values spacing') := by
  refine ⟨min_eq_of_sameElements longBits hEntry hName hFits hFits', ?_⟩
  intro hEqual mem
  obtain ⟨hPlain, hLookup⟩ := rows_found m entry hEntry name hName
  refine ⟨_, _, loadLines_loaded longBits hPlain hLookup spacing ended hFits mem,
    loadLines_loaded longBits hPlain hLookup spacing' ended hFits' mem, ?_⟩
  intro j _
  by_cases hSize : entry.size = 0
  · rw [ConfEntry.element, ConfEntry.element, hSize]
    rfl
  · rw [ConfEntry.room, if_neg hSize] at hEqual
    rw [taken, taken, hEqual]

end Line

def deviceClassRow : ConfEntry := Marlin.confItemTable .deviceClass 1

def deviceClassName : List UInt8 := Numerals.ascii "device_class"

/-- The value 1. -/
def one : ValueText := ⟨[0x31], by decide, List.forall_mem_singleton.mpr (by decide)⟩

/-- `device_class=1` with blanks around the equals sign. -/
def blanks (before behind : Nat) : Spacing [one].length where
  before := List.replicate before blank
  behind := List.replicate behind blank
  gaps := []
  trailing := []
  length_gaps := rfl
  before_blank := fun _ hc => Or.inl (List.eq_of_mem_replicate hc)
  behind_blank := fun _ hc => Or.inl (List.eq_of_mem_replicate hc)
  gaps_blank := fun _ hGap => absurd hGap List.not_mem_nil
  trailing_blank := fun _ hc => absurd hc List.not_mem_nil

/-- With blanks around the equals sign and without them the same values are
read. -/
theorem sameElements_iff_blanks :
    SameElements 32 AdapterModule.marlin2.adapter.tab deviceClassRow
        (loaded deviceClassName [one] (blanks 0 0) true)
        (loaded deviceClassName [one] (blanks 1 1) true) ↔
      min deviceClassRow.room (readCount [one] (blanks 0 0)) =
        min deviceClassRow.room (readCount [one] (blanks 1 1)) :=
  sameElements_iff 32 .marlin2 (by decide +kernel) (by decide +kernel) [one] (blanks 0 0)
    (blanks 1 1) true (by decide +kernel) (by decide +kernel)

/-- With two blanks in front of the equals sign the value is not read. -/
theorem two_blanks_differ :
    ¬SameElements 32 AdapterModule.marlin2.adapter.tab deviceClassRow
      (loaded deviceClassName [one] (blanks 0 0) true)
      (loaded deviceClassName [one] (blanks 2 0) true) := by
  intro hSame
  have hEqual := min_eq_of_sameElements 32 (m := .marlin2) (by decide +kernel) (by decide +kernel)
    (by decide +kernel) (by decide +kernel) hSame
  exact absurd hEqual (by decide +kernel)

end Bluetooth.Conf
