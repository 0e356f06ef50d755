import Gtexswifi.Agps.NetworkMessages
import Mathlib.Data.List.TakeWhile

/-! What a handler leaves of the line it has read. `strsep` puts a NUL over
the delimiter behind each token, in the buffer that the next callback gets
as well, so that for it the line ends behind its first field. -/
namespace Agps

open Numerals (isSpace)

/-- The token at the start of a string, with its opening quote if it has
one. It ends at the closing quote or at the first comma. -/
def tokenLeft (text : List UInt8) : List UInt8 :=
  if strStartsWith text [0x22] = true then 0x22 :: (text.drop 1).takeWhile (· ≠ 0x22)
  else text.takeWhile (· ≠ 0x2c)

/-- The string that `getCurrentTok` leaves at its cursor: spaces and a
token. No token starts with a newline, which is skipped as a space. -/
def currentTokLeft (text : List UInt8) : List UInt8 :=
  text.takeWhile isSpace ++ tokenLeft (text.dropWhile isSpace)

/-- What a handler that reads fields leaves of its line: the first token is
cut off from those behind it, which lie behind the cut already. -/
def fieldsLeft (line : List UInt8) : List UInt8 :=
  match findString line [0x3a] with
  | none => line
  | some ret => line.take (ret + 1) ++ currentTokLeft (line.drop (ret + 1))

/-- A token holds no delimiter, so that cutting it at the delimiter once
more takes nothing away. -/
theorem takeWhile_takeWhile_ne (text : List UInt8) (delim : UInt8) :
    (text.takeWhile (· ≠ delim)).takeWhile (· ≠ delim) = text.takeWhile (· ≠ delim) :=
  List.takeWhile_eq_self_iff.mpr fun _ => List.mem_takeWhile_imp

/-- `strsep` finds no delimiter in a token that has been cut off. -/
theorem strsep_takeWhile (text : List UInt8) (delim : UInt8) :
    strsep (some (text.takeWhile (· ≠ delim))) delim =
      (some (text.takeWhile (· ≠ delim)), none) := by
  have hNone : delim ∉ text.takeWhile (· ≠ delim) := fun hMem => by
    simpa using List.mem_takeWhile_imp hMem
  rw [strsep, if_neg hNone, takeWhile_takeWhile_ne]

/-- A prefix of one character is compared with the first character of the
text alone. -/
theorem strStartsWith_one {text : List UInt8} {d : UInt8} :
    strStartsWith text [d] = true ↔ text.head? = some d := by
  cases text with
  | nil => simp [strStartsWith]
  | cons c text => simp [strStartsWith]

/-- A token starts behind the spaces, which it is told from by its first
character. -/
structure BehindSpaces (spaces rest : List UInt8) : Prop where
  spaces : ∀ c ∈ spaces, isSpace c = true
  first : ∀ c, rest.head? = some c → isSpace c = false

/-- Every text is its leading spaces and what stands behind them. -/
theorem behindSpaces (text : List UInt8) :
    BehindSpaces (text.takeWhile isSpace) (text.dropWhile isSpace) where
  spaces c hc := List.mem_takeWhile_imp hc
  first c hc := by
    have hHead := List.head?_dropWhile_not isSpace text
    rw [hc] at hHead
    simpa using hHead

/-- Skipping the spaces leads to the first character behind them and not
further. -/
theorem BehindSpaces.dropWhile {spaces rest : List UInt8} (h : BehindSpaces spaces rest) :
    (spaces ++ rest).dropWhile isSpace = rest := by
  rw [List.dropWhile_append_of_pos h.spaces]
  cases rest with
  | nil => rfl
  | cons c rest => exact List.dropWhile_cons_of_neg (by simp [h.first c rfl])

/-- The spaces that are skipped are the ones in front, all of them. -/
theorem BehindSpaces.takeWhile {spaces rest : List UInt8} (h : BehindSpaces spaces rest) :
    (spaces ++ rest).takeWhile isSpace = spaces := by
  rw [List.takeWhile_append_of_pos h.spaces]
  cases rest with
  | nil => exact List.append_nil spaces
  | cons c rest => simp [h.first c rfl]

/-- A quoted token, and any other one. -/
theorem BehindSpaces.getCurrentTok {spaces rest : List UInt8} (h : BehindSpaces spaces rest) :
    getCurrentTok (some (spaces ++ rest)) =
      if strStartsWith rest [0x22] = true then
        ((strsep (some (rest.drop 1)) 0x22).1, (strsep (strsep (some (rest.drop 1)) 0x22).2 0x2c).2)
      else strsep (some rest) 0x2c := by
  unfold Agps.getCurrentTok
  rw [Option.map_some, h.dropWhile]
  by_cases hNewline : strStartsWith rest [0x0a] = true
  · cases rest with
    | nil => cases hNewline
    | cons c rest =>
        have hSpace := h.first c rfl
        rw [Option.some.inj (strStartsWith_one.mp hNewline)] at hSpace
        cases hSpace
  · simp only [if_neg hNewline]

/-- A text that is cut begins as it did before, unless nothing is left of
it. -/
theorem head?_of_takeWhile {p : UInt8 → Bool} {text : List UInt8} {c : UInt8}
    (h : (text.takeWhile p).head? = some c) : text.head? = some c := by
  rw [List.head?_takeWhile] at h
  exact (Option.filter_eq_some_iff.mp h).1

/-- What `strsep` leaves of a token begins as the token did, with its quote
if it has one. -/
theorem head?_of_tokenLeft {text : List UInt8} {c : UInt8} (h : (tokenLeft text).head? = some c) :
    text.head? = some c := by
  rw [tokenLeft] at h
  split_ifs at h with hQuote
  · rw [strStartsWith_one.mp hQuote, ← h, List.head?_cons]
  · exact head?_of_takeWhile h

/-- A token is quoted in what is left of it if it was quoted before. -/
theorem quoted_tokenLeft {text : List UInt8} :
    strStartsWith (tokenLeft text) [0x22] = true ↔ strStartsWith text [0x22] = true := by
  refine ⟨fun hLeft => ?_, fun hQuote => ?_⟩
  · exact strStartsWith_one.mpr (head?_of_tokenLeft (strStartsWith_one.mp hLeft))
  · rw [tokenLeft, if_pos hQuote]
    exact strStartsWith_one.mpr rfl

/-- The cut puts a terminator into the text and moves nothing, so that a
prefix is left. -/
theorem prefix_tokenLeft (text : List UInt8) : tokenLeft text <+: text := by
  rw [tokenLeft]
  split_ifs with hQuote
  · cases text with
    | nil => cases hQuote
    | cons c text =>
        rw [Option.some.inj (strStartsWith_one.mp hQuote)]
        exact (List.prefix_cons_inj _).mpr (List.takeWhile_prefix _)
  · exact List.takeWhile_prefix _

/-- A second handler that tokenizes what the first has left cuts at the same
place. Nothing is lost by the second pass. -/
theorem tokenLeft_tokenLeft (text : List UInt8) : tokenLeft (tokenLeft text) = tokenLeft text := by
  have hSame : strStartsWith (tokenLeft text) [0x22] = true ↔ strStartsWith text [0x22] = true :=
    quoted_tokenLeft
  generalize hLeft : tokenLeft text = left at hSame ⊢
  rw [tokenLeft] at hLeft
  by_cases hQuote : strStartsWith text [0x22] = true
  · rw [tokenLeft, if_pos (hSame.mpr hQuote)]
    rw [if_pos hQuote] at hLeft
    rw [← hLeft, List.drop_succ_cons, List.drop_zero, takeWhile_takeWhile_ne]
  · rw [tokenLeft, if_neg (mt hSame.mp hQuote)]
    rw [if_neg hQuote] at hLeft
    rw [← hLeft, takeWhile_takeWhile_ne]

/-- The cut behind the spaces leaves them in front, and no new space comes
to stand behind them. -/
theorem BehindSpaces.left {spaces rest : List UInt8} (h : BehindSpaces spaces rest) :
    BehindSpaces spaces (tokenLeft rest) :=
  ⟨h.spaces, fun c hc => h.first c (head?_of_tokenLeft hc)⟩

/-- The spaces in front of a token are skipped but not overwritten. They
stay in the string that the next handler is given. -/
theorem BehindSpaces.currentTokLeft {spaces rest : List UInt8} (h : BehindSpaces spaces rest) :
    currentTokLeft (spaces ++ rest) = spaces ++ tokenLeft rest := by
  rw [Agps.currentTokLeft, h.dropWhile, h.takeWhile]

/-- `get_current_tok` leaves a prefix of the string that it is given. -/
theorem prefix_currentTokLeft (text : List UInt8) : currentTokLeft text <+: text := by
  conv_rhs => rw [← List.takeWhile_append_dropWhile (p := isSpace) (l := text)]
  exact (List.prefix_append_right_inj _).mpr (prefix_tokenLeft _)

/-- Reading a string once more cuts nothing off. -/
theorem currentTokLeft_currentTokLeft (text : List UInt8) :
    currentTokLeft (currentTokLeft text) = currentTokLeft text := by
  conv_lhs => rw [currentTokLeft.eq_def text, (behindSpaces text).left.currentTokLeft]
  rw [tokenLeft_tokenLeft]
  rfl

/-- It gives the token once more, and `NULL` behind it. -/
theorem getCurrentTok_left (text : List UInt8) :
    getCurrentTok (some (currentTokLeft text)) = ((getCurrentTok (some text)).1, none) := by
  have hText := behindSpaces text
  have hWhole := hText.getCurrentTok
  rw [List.takeWhile_append_dropWhile] at hWhole
  rw [hWhole, currentTokLeft, hText.left.getCurrentTok]
  by_cases hQuote : strStartsWith (text.dropWhile isSpace) [0x22] = true
  · rw [if_pos hQuote, if_pos (quoted_tokenLeft.mpr hQuote), tokenLeft, if_pos hQuote,
      List.drop_succ_cons, List.drop_zero, strsep_takeWhile]
    rfl
  · rw [if_neg hQuote, if_neg (mt quoted_tokenLeft.mp hQuote), tokenLeft, if_neg hQuote,
      strsep_takeWhile]
    rfl

/-- A handler that reads the fields of a line leaves a prefix of the line. -/
theorem prefix_fieldsLeft (line : List UInt8) : fieldsLeft line <+: line := by
  rw [fieldsLeft]
  cases findString line [0x3a] with
  | none => exact List.prefix_rfl
  | some ret =>
      conv_rhs => rw [← List.take_append_drop (ret + 1) line]
      exact (List.prefix_append_right_inj _).mpr (prefix_currentTokLeft _)

section Messages

variable {start rest : List UInt8}

/-- The colon of a message ends its name. -/
theorem findString_colon (h : 0x3a ∉ start) (rest : List UInt8) :
    findString (start ++ 0x3a :: rest) [0x3a] = some start.length := by
  induction start with
  | nil => rfl
  | cons c start ih =>
      rw [List.mem_cons, not_or] at h
      have hOther : ¬(c :: (start ++ 0x3a :: rest)).take 1 = [0x3a] := by simpa using Ne.symm h.1
      rw [List.cons_append, findString, List.length_singleton, if_neg hOther, ih h.2]
      rfl

/-- The fields of a message start behind its colon. -/
theorem tokStart_colon (h : 0x3a ∉ start) (rest : List UInt8) :
    tokStart (start ++ 0x3a :: rest) = .ok (some rest) := by
  have hLength : (start ++ [0x3a]).length = start.length + 1 := List.length_append
  rw [tokStart, atTokStart, findString_colon h, Option.map_some, List.append_cons,
    List.drop_left' hLength]

/-- The fields begin behind the first colon. What stands in front of it, and
the colon, is not touched. -/
theorem fieldsLeft_colon (h : 0x3a ∉ start) (rest : List UInt8) :
    fieldsLeft (start ++ 0x3a :: rest) = start ++ 0x3a :: currentTokLeft rest := by
  have hLength : (start ++ [0x3a]).length = start.length + 1 := List.length_append
  rw [fieldsLeft, findString_colon h, List.append_cons]
  dsimp only
  rw [List.take_left' hLength, List.drop_left' hLength, ← List.append_cons]

/-- The first field of a line that is left is that of the line itself, and
there is no other. -/
theorem nextint_left (longBits : Nat) (text : List UInt8) :
    ∃ field cur, nextint longBits (some text) = .ok (field, cur) ∧
      nextint longBits (some (currentTokLeft text)) = .ok (field, none) := by
  obtain ⟨tok, cur, hTok⟩ := getCurrentTok_some text
  have hLeft := getCurrentTok_left text
  rw [hTok] at hLeft
  exact ⟨_, cur, nextint_some longBits hTok, nextint_some longBits hLeft⟩

end Messages

end Agps
