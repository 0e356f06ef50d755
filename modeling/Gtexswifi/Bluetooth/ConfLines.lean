import Gtexswifi.Bluetooth.Conf
import Mathlib.Data.Bool.AllAny

/-! The lines of a configuration file, `name=v1,v2,...`, and what one of
them assigns. -/
namespace Bluetooth.Conf

open Numerals

/-- Decimal digits, or hexadecimal ones behind `0x` or `0X`, for a number of
32 bits. -/
structure Numeral where
  mark : List UInt8
  base : Nat
  digits : List UInt8
  marked : (mark = [] ∧ base = 10) ∨ ((mark = [0x30, 0x78] ∨ mark = [0x30, 0x58]) ∧ base = 16)
  ne_nil : digits ≠ []
  below : ∀ c ∈ digits, digitValue c < base
  bounded : valueOf base digits < 2 ^ 32

def Numeral.text (n : Numeral) : List UInt8 := n.mark ++ n.digits

def Numeral.value (n : Numeral) : Nat := valueOf n.base n.digits

theorem Numeral.text_ne_nil (n : Numeral) : n.text ≠ [] :=
  List.append_ne_nil_of_right_ne_nil _ n.ne_nil

/-- The digits of a number are digits of the largest base of `strtoul`. -/
theorem Numeral.below_36 (n : Numeral) {c : UInt8} (h : c ∈ n.digits) : digitValue c < 36 := by
  have hc := n.below c h
  rcases n.marked with ⟨_, hBase⟩ | ⟨_, hBase⟩
  · omega
  · omega

/-- Sign, base mark and digits are all letters and digits, so that no
delimiter of the file is among them. -/
theorem Numeral.plain (n : Numeral) {c : UInt8} (h : c ∈ n.text) : digitValue c < 36 := by
  have hMarks : ∀ d ∈ [0x30, 0x78, 0x30, 0x58], digitValue d < 36 :=
    List.all_iff_forall_prop.mp (by decide)
  rcases List.mem_append.mp h with hMark | hDigit
  · apply hMarks c
    rcases n.marked with ⟨hNone, _⟩ | ⟨hLower | hUpper, _⟩
    · rw [hNone] at hMark
      cases hMark
    · rw [hLower] at hMark
      exact List.mem_append_left [0x30, 0x58] hMark
    · rw [hUpper] at hMark
      exact List.mem_append_right [0x30, 0x78] hMark
  · exact n.below_36 hDigit

/-- Letters that are digits of no base up to 16 do not follow a zero in a
decimal number. -/
theorem parseValue_decimal {longBits : Nat} {text : List UInt8}
    (h : ∀ c ∈ text, digitValue c < 10) :
    parseValue longBits text = strtoul longBits 10 text % 2 ^ 32 := by
  unfold parseValue
  split
  · next x rest =>
      have hx : ¬(x = 0x78 ∨ x = 0x58) := by
        have hDigit := h x (by simp)
        rintro (rfl | rfl)
        · exact absurd hDigit (by decide)
        · exact absurd hDigit (by decide)
      rw [if_neg hx]
  · rfl

/-- A number in the file is converted to its value, whatever its base is,
where it fits 32 bits. -/
theorem parseValue_text {longBits : Nat} (hLong : 32 ≤ longBits) (n : Numeral) :
    parseValue longBits n.text = n.value := by
  have hPower : 2 ^ 32 ≤ 2 ^ longBits := Nat.pow_le_pow_right Nat.two_pos hLong
  have hBounded := n.bounded
  have hScan : scan n.base 0 n.digits = n.value := by
    rw [scan_digits n.below, Nat.zero_mul, Nat.zero_add]
    rfl
  have hValue : n.value < 2 ^ 32 := hBounded
  obtain ⟨c, digits, hDigits⟩ := List.exists_cons_of_ne_nil n.ne_nil
  rcases n.marked with ⟨hMark, hBase⟩ | ⟨hMark, hBase⟩
  · rw [Numeral.text, hMark, List.nil_append, parseValue_decimal fun c hc => hBase ▸ n.below c hc]
    rw [hBase] at hScan
    have hIf : (if (10 : Nat) = 16 then dropHexMark n.digits else n.digits) = n.digits := rfl
    have hRead : strtoul longBits 10 n.digits = n.value := by
      rw [hDigits] at hScan hIf ⊢
      rw [strtoul_of_digit (n.below_36 (hDigits ▸ List.mem_cons_self)) digits
        (by rw [hIf, hScan]; omega), hIf, hScan]
    rw [hRead, Nat.mod_eq_of_lt hValue]
  · rw [hBase] at hScan
    have hRead {x : UInt8} (hx : x = 0x78 ∨ x = 0x58) :
        parseValue longBits (0x30 :: x :: n.digits) = n.value := by
      have hDrop : (if (16 : Nat) = 16 then dropHexMark (0x30 :: x :: n.digits)
          else 0x30 :: x :: n.digits) = n.digits := by
        rw [if_pos rfl, dropHexMark, if_pos hx]
      rw [parseValue, if_pos hx, strtoul_of_digit (by decide) _ (by rw [hDrop, hScan]; omega),
        hDrop, hScan, Nat.mod_eq_of_lt hValue]
    rcases hMark with hLower | hUpper
    · rw [Numeral.text, hLower]
      exact hRead (Or.inl rfl)
    · rw [Numeral.text, hUpper]
      exact hRead (Or.inr rfl)

/-- The text behind the equals sign. -/
def valuesText (values : List Numeral) : List UInt8 := [0x2c].intercalate (values.map Numeral.text)

/-- A line for a table, with its newline unless the file ends with it, that
fits the buffer. -/
structure ConfLine (tab : List ConfEntry) where
  name : List UInt8
  values : List Numeral
  ended : Bool
  known : some name ∈ tab.map (·.confEntry)
  ne_nil : values ≠ []
  fits : name.length + 1 + (valuesText values).length + (if ended = true then 1 else 0) ≤
    confMaxLineLen

variable {tab : List ConfEntry}

def ConfLine.body (line : ConfLine tab) : List UInt8 := line.name ++ 0x3d :: valuesText line.values

def ConfLine.text (line : ConfLine tab) : List UInt8 :=
  line.body ++ if line.ended = true then [newline] else []

/-- Lines of which all but the last one end with a newline. -/
structure ConfFile (tab : List ConfEntry) where
  lines : List (ConfLine tab)
  ended : ∀ line ∈ lines.dropLast, line.ended = true

def ConfFile.text (file : ConfFile tab) : List UInt8 := file.lines.flatMap ConfLine.text

/-- Element `j` of an entry: the value of the last line for it with more
than `j` values. -/
def assigned (lines : List (ConfLine tab)) (name : List UInt8) (j : Nat) : Nat :=
  ((lines.filter fun line => line.name = name ∧ j < line.values.length).getLast?.bind fun line =>
    line.values[j]?.map Numeral.value).getD 0

/-- The last line with a name decides on the elements it gives, and the
earlier ones on the others. -/
theorem assigned_append (lines : List (ConfLine tab)) (line : ConfLine tab) (name : List UInt8)
    (j : Nat) :
    assigned (lines ++ [line]) name j =
      if line.name = name then (line.values.map Numeral.value).getD j (assigned lines name j)
      else assigned lines name j := by
  unfold assigned
  rw [List.filter_append]
  by_cases hName : line.name = name
  · by_cases hj : j < line.values.length
    · simp [hName, hj]
    · simp [hName, hj]
  · simp [hName]

/-- A list of values holds nothing but plain characters and commas. -/
theorem not_mem_valuesText {values : List Numeral} {c : UInt8} (hc : 36 ≤ digitValue c)
    (hComma : c ≠ 0x2c) : c ∉ valuesText values := by
  intro hMem
  unfold valuesText at hMem
  induction values with
  | nil => cases hMem
  | cons n values ih =>
      cases values with
      | nil =>
          rw [List.map_singleton, List.intercalate_singleton] at hMem
          have hPlain := n.plain hMem
          omega
      | cons next values =>
          rw [List.map_cons, List.map_cons, List.intercalate_cons_cons] at hMem
          rcases List.mem_append.mp hMem with hFirst | hRest
          · rcases List.mem_append.mp hFirst with hText | hSeparator
            · have hPlain := n.plain hText
              omega
            · exact hComma (List.mem_singleton.mp hSeparator)
          · exact ih hRest

theorem valuesText_ne_nil {values : List Numeral} (h : values ≠ []) : valuesText values ≠ [] := by
  have hLength := Tokens.length_le_intercalate (0x2c : UInt8)
    (fun (word : List UInt8) (hWord : word ∈ values.map Numeral.text) => by
      obtain ⟨n, _, rfl⟩ := List.mem_map.mp hWord
      exact n.text_ne_nil)
  rw [List.length_map] at hLength
  exact List.length_pos_iff.mp (Nat.lt_of_lt_of_le (List.length_pos_iff.mpr h) hLength)

/-- The values are read one after the other. -/
theorem parseNumber_valuesText {longBits : Nat} (hLong : 32 ≤ longBits) (values : List Numeral)
    (buf : Nat) {size : Nat} (hSize : size = 1 ∨ size = 2 ∨ size = 4) {room : Nat}
    (hRoom : 0 < room) (mem : Nat → UInt8) :
    parseNumber longBits (valuesText values) buf room size mem =
      Bytes.store mem buf ((values.take room).map fun n => Radix.encode size n.value).flatten := by
  have hTokens : Tokens.tokens confValuesPartition (valuesText values) =
      values.map Numeral.text := by
    apply Tokens.tokens_intercalate (by decide)
    · intro word hWord
      obtain ⟨n, _, rfl⟩ := List.mem_map.mp hWord
      exact n.text_ne_nil
    · intro word hWord c hc hDelimiter
      obtain ⟨n, _, rfl⟩ := List.mem_map.mp hWord
      have hAll : ∀ d ∈ confValuesPartition, 36 ≤ digitValue d :=
        List.all_iff_forall_prop.mp (by decide)
      have hPlain := n.plain hc
      have hHigh := hAll c hDelimiter
      omega
  rw [parseNumber, hTokens, parseValues_eq longBits hSize _ rfl hRoom, ← List.map_take,
    List.map_map]
  congr 3
  funext n
  rw [Function.comp_apply, parseValue_text hLong]

/-- A name of a table that can stand in front of an equals sign. -/
def PlainName (name : List UInt8) : Prop :=
  name ≠ [] ∧ name.head? ≠ some confComment ∧ ∀ c ∈ name, c ∉ confDelimiters ∧ c ≠ 0

instance (name : List UInt8) : Decidable (PlainName name) :=
  decidable_of_iff (name ≠ [] ∧ name.head? ≠ some confComment ∧
    name.all (fun c => !confDelimiters.contains c && c != 0) = true) (by
      unfold PlainName
      simp)

/-- A line written as `name = values` is looked up under its name and stores
its values. -/
theorem loadLine_text (longBits : Nat) (line : ConfLine tab) (hName : PlainName line.name)
    (mem : Nat → UInt8) :
    loadLine longBits tab line.text mem =
      match lookup line.name tab with
      | .found entry =>
          some (parseNumber longBits (valuesText line.values) entry.buf entry.len entry.size mem)
      | .absent => some mem
      | .overrun => none := by
  obtain ⟨hNe, hHead, hChars⟩ := hName
  have hText : line.text = line.name ++ 0x3d :: (valuesText line.values ++
      if line.ended = true then [newline] else []) := by
    rw [ConfLine.text, ConfLine.body, List.append_assoc]
    rfl
  have hFirst : line.text.head? ≠ some confComment := by
    rw [hText, List.head?_append_of_ne_nil _ hNe]
    exact hHead
  have hZero : cString line.text = line.text := by
    apply List.takeWhile_eq_self_iff.mpr
    intro c hc
    apply decide_eq_true
    rintro rfl
    rw [hText] at hc
    rcases List.mem_append.mp hc with hMem | hMem
    · exact (hChars 0 hMem).2 rfl
    · rcases List.mem_cons.mp hMem with hSign | hMem
      · exact absurd hSign (by decide)
      · rcases List.mem_append.mp hMem with hMem | hMem
        · exact not_mem_valuesText (by decide) (by decide) hMem
        · split at hMem
          · exact absurd (List.mem_singleton.mp hMem) (by decide)
          · cases hMem
  have hValues : ∀ c ∈ valuesText line.values, c ∉ confValuesDelimiters := by
    intro c hc hDelimiter
    have hAll : ∀ d ∈ confValuesDelimiters, 36 ≤ digitValue d ∧ d ≠ 0x2c :=
      List.all_iff_forall_prop.mp (by decide)
    obtain ⟨hHigh, hComma⟩ := hAll c hDelimiter
    exact not_mem_valuesText hHigh hComma hc
  have hValue : ∃ rest, Tokens.strtokR confValuesDelimiters (valuesText line.values ++
      if line.ended = true then [newline] else []) = some (valuesText line.values, rest) := by
    have hNotNil := valuesText_ne_nil line.ne_nil
    split
    · exact ⟨[], Tokens.strtokR_append hNotNil hValues (by decide) []⟩
    · rw [List.append_nil]
      exact ⟨[], Tokens.strtokR_last hNotNil hValues⟩
  obtain ⟨rest, hRest⟩ := hValue
  rw [loadLine, if_neg hFirst, hZero, hText,
    Tokens.strtokR_append hNe (fun c hc => (hChars c hc).1) (by decide)]
  dsimp only
  cases lookup line.name tab <;> simp only [hRest]

theorem ConfLine.body_ne_newline (line : ConfLine tab) (hName : PlainName line.name) :
    ∀ c ∈ line.body, c ≠ newline := by
  intro c hc
  rintro rfl
  rcases List.mem_append.mp hc with hMem | hMem
  · exact (hName.2.2 _ hMem).1 (by decide)
  · rcases List.mem_cons.mp hMem with hSign | hMem
    · exact absurd hSign (by decide)
    · exact not_mem_valuesText (by decide) (by decide) hMem

/-- The line fits the buffer of `fgets`, so that it is read as one piece. -/
theorem ConfLine.length_text (line : ConfLine tab) : line.text.length ≤ confMaxLineLen := by
  have hFits := line.fits
  rw [ConfLine.text, ConfLine.body, List.length_append, List.length_append, List.length_cons]
  split
  · next hEnded =>
      rw [if_pos hEnded] at hFits
      simp only [List.length_singleton]
      omega
  · simp only [List.length_nil]
    omega

/-- `fgets` reads a line that ends, or the last one. -/
theorem fgets_text (line : ConfLine tab) (hName : PlainName line.name) {rest : List UInt8}
    (hRest : line.ended = true ∨ rest = []) :
    Tokens.fgets newline (confMaxLineLen + 1) (line.text ++ rest) = some (line.text, rest) := by
  have hPlain := line.body_ne_newline hName
  have hLength := line.length_text
  have hNe : line.text ++ rest ≠ [] := by
    rw [ConfLine.text, ConfLine.body]
    simp
  rw [Tokens.fgets, if_neg hNe, Nat.add_sub_cancel]
  unfold ConfLine.text at hLength ⊢
  by_cases hEnded : line.ended = true
  · rw [if_pos hEnded] at hLength ⊢
    rw [List.append_assoc, List.singleton_append, Tokens.readLine_append hPlain]
    simpa using hLength
  · obtain rfl := hRest.resolve_left hEnded
    rw [if_neg hEnded] at hLength ⊢
    simp only [List.append_nil] at hLength ⊢
    rw [Tokens.readLine_last hPlain hLength]

/-- What every line keeps, with the lines so far, holds of all lines at the
end of the file. -/
theorem loadLines_text (longBits : Nat) {Holds : List (ConfLine tab) → (Nat → UInt8) → Prop}
    (hName : ∀ line : ConfLine tab, PlainName line.name)
    (hStep : ∀ (before : List (ConfLine tab)) (line : ConfLine tab) (mem : Nat → UInt8),
      Holds before mem → ∃ next, loadLine longBits tab line.text mem = some next ∧
        Holds (before ++ [line]) next)
    {lines before : List (ConfLine tab)} {mem : Nat → UInt8} (hHolds : Holds before mem)
    (hEnded : ∀ line ∈ lines.dropLast, line.ended = true) {n : Nat} (hn : lines.length ≤ n) :
    ∃ last, loadLines longBits tab n (lines.flatMap ConfLine.text) mem = some last ∧
      Holds (before ++ lines) last := by
  induction lines generalizing before mem n with
  | nil =>
      refine ⟨mem, ?_, by rwa [List.append_nil]⟩
      cases n with
      | zero => rfl
      | succ n => rfl
  | cons line lines ih =>
      obtain ⟨n, rfl⟩ : ∃ m, n = m + 1 := ⟨n - 1, by simp at hn; omega⟩
      obtain ⟨next, hLoad, hNext⟩ := hStep before line mem hHolds
      have hRest : line.ended = true ∨ lines.flatMap ConfLine.text = [] := by
        cases lines with
        | nil => exact Or.inr rfl
        | cons second lines =>
            exact Or.inl (hEnded line (by rw [List.dropLast_cons_cons]; exact List.mem_cons_self))
      have hLater : ∀ other ∈ lines.dropLast, other.ended = true := by
        intro other hOther
        cases lines with
        | nil => cases hOther
        | cons second lines =>
            apply hEnded
            rw [List.dropLast_cons_cons]
            exact List.mem_cons_of_mem line hOther
      obtain ⟨last, hLast, hAll⟩ := ih hNext hLater (by simpa using hn)
      refine ⟨last, ?_, by rwa [List.append_cons]⟩
      rw [List.flatMap_cons, loadLines, fgets_text line (hName line) hRest]
      dsimp only
      rw [hLoad, Option.bind_some, hLast]

end Bluetooth.Conf
