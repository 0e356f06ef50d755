import Mathlib.Data.List.TakeWhile

/-! Pieces of text, the way C cuts them out: lines that fit a buffer, and
tokens between delimiters. -/
namespace Tokens

variable {α : Type*} [DecidableEq α]

/-- A line with its newline, or as much of it as there is room for, and the
rest of the file. -/
def readLine (newline : α) : Nat → List α → List α × List α
  | 0, file => ([], file)
  | _ + 1, [] => ([], [])
  | room + 1, c :: file =>
      if c = newline then ([c], file)
      else (c :: (readLine newline room file).1, (readLine newline room file).2)

/-- `fgets` with a buffer of `n` characters, the last of which is for the
zero. -/
def fgets (newline : α) (n : Nat) (file : List α) : Option (List α × List α) :=
  if file = [] then none else some (readLine newline (n - 1) file)

/-- `strtok_r`: the next token, and the text behind the delimiter that ends
it. -/
def strtokR (delimiters text : List α) : Option (List α × List α) :=
  match text.dropWhile (· ∈ delimiters) with
  | [] => none
  | c :: rest => some ((c :: rest).takeWhile (· ∉ delimiters),
      ((c :: rest).dropWhile (· ∉ delimiters)).tail)

/-- The tokens that the first `n` calls of `strtok_r` deliver. -/
def tokensFrom (delimiters : List α) : Nat → List α → List (List α)
  | 0, _ => []
  | n + 1, text =>
      match strtokR delimiters text with
      | none => []
      | some (token, rest) => token :: tokensFrom delimiters n rest

/-- All tokens. No call delivers an empty one. -/
def tokens (delimiters text : List α) : List (List α) := tokensFrom delimiters text.length text

theorem readLine_append {newline : α} {line : List α} (hLine : ∀ c ∈ line, c ≠ newline)
    {room : Nat} (hRoom : line.length < room) (rest : List α) :
    readLine newline room (line ++ newline :: rest) = (line ++ [newline], rest) := by
  induction line generalizing room with
  | nil =>
      obtain ⟨room, rfl⟩ := Nat.exists_eq_add_of_lt hRoom
      simp [readLine]
  | cons c line ih =>
      obtain ⟨room, rfl⟩ : ∃ n, room = n + 1 := ⟨room - 1, by simp at hRoom; omega⟩
      have hShort : line.length < room := by simpa using hRoom
      rw [List.cons_append, readLine, if_neg (hLine c List.mem_cons_self),
        ih (fun x hx => hLine x (List.mem_cons_of_mem c hx)) hShort]
      rfl

/-- The last line may end with the file. -/
theorem readLine_last {newline : α} {line : List α} (hLine : ∀ c ∈ line, c ≠ newline)
    {room : Nat} (hRoom : line.length ≤ room) : readLine newline room line = (line, []) := by
  induction line generalizing room with
  | nil => cases room with
    | zero => rfl
    | succ room => rfl
  | cons c line ih =>
      obtain ⟨room, rfl⟩ : ∃ n, room = n + 1 := ⟨room - 1, by simp at hRoom; omega⟩
      have hShort : line.length ≤ room := by simpa using hRoom
      rw [readLine, if_neg (hLine c List.mem_cons_self),
        ih (fun x hx => hLine x (List.mem_cons_of_mem c hx)) hShort]

variable {delimiters token : List α}

/-- A token in front of a delimiter. -/
theorem strtokR_append (hNe : token ≠ []) (hToken : ∀ c ∈ token, c ∉ delimiters) {d : α}
    (hd : d ∈ delimiters) (rest : List α) :
    strtokR delimiters (token ++ d :: rest) = some (token, rest) := by
  obtain ⟨c, token, rfl⟩ := List.exists_cons_of_ne_nil hNe
  have hDrop : ((c :: token) ++ d :: rest).dropWhile (· ∈ delimiters) = c :: (token ++ d :: rest) := by
    rw [List.cons_append, List.dropWhile_cons_of_neg (by simpa using hToken c List.mem_cons_self)]
  have hAll : ∀ x ∈ c :: token, decide (x ∉ delimiters) = true := by simpa using hToken
  unfold strtokR
  rw [hDrop]
  dsimp only
  rw [← List.cons_append, List.takeWhile_append_of_pos hAll, List.dropWhile_append_of_pos hAll,
    List.takeWhile_cons_of_neg (by simpa using hd), List.dropWhile_cons_of_neg (by simpa using hd),
    List.append_nil, List.tail_cons]

/-- A token that ends with the text. -/
theorem strtokR_last (hNe : token ≠ []) (hToken : ∀ c ∈ token, c ∉ delimiters) :
    strtokR delimiters token = some (token, []) := by
  obtain ⟨c, token, rfl⟩ := List.exists_cons_of_ne_nil hNe
  have hAll : ∀ x ∈ c :: token, decide (x ∉ delimiters) = true := by simpa using hToken
  unfold strtokR
  rw [List.dropWhile_cons_of_neg (by simpa using hToken c List.mem_cons_self)]
  dsimp only
  rw [List.takeWhile_eq_self_iff.mpr hAll, List.dropWhile_eq_nil_iff.mpr hAll, List.tail_nil]

/-- Words with a delimiter between any two are the tokens. -/
theorem tokensFrom_intercalate {d : α} (hd : d ∈ delimiters) {words : List (List α)}
    (hNe : ∀ word ∈ words, word ≠ []) (hWords : ∀ word ∈ words, ∀ c ∈ word, c ∉ delimiters)
    {n : Nat} (hn : words.length ≤ n) :
    tokensFrom delimiters n ([d].intercalate words) = words := by
  induction words generalizing n with
  | nil =>
      cases n with
      | zero => rfl
      | succ n => rfl
  | cons word words ih =>
      obtain ⟨n, rfl⟩ : ∃ m, n = m + 1 := ⟨n - 1, by simp at hn; omega⟩
      have hWord := hNe word List.mem_cons_self
      have hChars := hWords word List.mem_cons_self
      cases words with
      | nil =>
          rw [List.intercalate_singleton, tokensFrom, strtokR_last hWord hChars]
          cases n with
          | zero => rfl
          | succ n => rfl
      | cons next words =>
          rw [List.intercalate_cons_cons, List.append_assoc, List.singleton_append, tokensFrom,
            strtokR_append hWord hChars hd]
          dsimp only
          rw [ih (fun x hx => hNe x (List.mem_cons_of_mem word hx))
            (fun x hx => hWords x (List.mem_cons_of_mem word hx)) (by simpa using hn)]

omit [DecidableEq α] in
theorem length_le_intercalate (d : α) {words : List (List α)} (hNe : ∀ word ∈ words, word ≠ []) :
    words.length ≤ ([d].intercalate words).length := by
  induction words with
  | nil => exact Nat.le_refl 0
  | cons word words ih =>
      have hWord := List.length_pos_iff.mpr (hNe word List.mem_cons_self)
      cases words with
      | nil =>
          rw [List.intercalate_singleton]
          exact hWord
      | cons next words =>
          have hRest := ih fun x hx => hNe x (List.mem_cons_of_mem word hx)
          rw [List.intercalate_cons_cons]
          simp only [List.length_append, List.length_cons, List.length_nil] at hRest ⊢
          omega

/-- Words that hold no delimiter are the tokens of the text in which one
stands between them. -/
theorem tokens_intercalate {d : α} (hd : d ∈ delimiters) {words : List (List α)}
    (hNe : ∀ word ∈ words, word ≠ []) (hWords : ∀ word ∈ words, ∀ c ∈ word, c ∉ delimiters) :
    tokens delimiters ([d].intercalate words) = words :=
  tokensFrom_intercalate hd hNe hWords (length_le_intercalate d hNe)

variable {text rest gap : List α}

/-- Delimiters in front are skipped. -/
theorem strtokR_gap (hGap : ∀ c ∈ gap, c ∈ delimiters) (text : List α) :
    strtokR delimiters (gap ++ text) = strtokR delimiters text := by
  have hAll : ∀ c ∈ gap, decide (c ∈ delimiters) = true := by simpa using hGap
  rw [strtokR, List.dropWhile_append_of_pos hAll]
  rfl

/-- A word in front of a delimiter or of the end. -/
theorem strtokR_word (hNe : token ≠ []) (hToken : ∀ c ∈ token, c ∉ delimiters)
    (hText : ∀ c ∈ text.head?, c ∈ delimiters) :
    strtokR delimiters (token ++ text) = some (token, text.tail) := by
  cases text with
  | nil => rw [List.append_nil, strtokR_last hNe hToken, List.tail_nil]
  | cons c text => rw [strtokR_append hNe hToken (hText c rfl), List.tail_cons]

/-- A token that a delimiter has ended is the same in a longer text. -/
theorem strtokR_extend (h : strtokR delimiters text = some (token, rest)) (hRest : rest ≠ [])
    (more : List α) : strtokR delimiters (text ++ more) = some (token, rest ++ more) := by
  unfold strtokR at h ⊢
  cases hText : text.dropWhile (· ∈ delimiters) with
  | nil =>
      rw [hText] at h
      cases h
  | cons c word =>
      rw [hText] at h
      obtain ⟨rfl, rfl⟩ := Prod.mk.inj (Option.some.inj h)
      have hBehind : (c :: word).dropWhile (· ∉ delimiters) ≠ [] := by
        intro hNone
        rw [hNone] at hRest
        exact hRest rfl
      have hShort : ((c :: word).takeWhile (· ∉ delimiters)).length ≠ (c :: word).length := by
        intro hSame
        have hParts := congrArg List.length
          (List.takeWhile_append_dropWhile (p := (decide <| · ∉ delimiters)) (l := c :: word))
        rw [List.length_append, hSame] at hParts
        exact hBehind (List.eq_nil_of_length_eq_zero (by omega))
      rw [List.dropWhile_append, hText, List.isEmpty_cons, if_neg (by decide), List.cons_append]
      dsimp only
      rw [← List.cons_append, List.takeWhile_append, if_neg hShort, List.dropWhile_append,
        if_neg (by simpa using hBehind), List.tail_append_of_ne_nil hBehind]

/-- A call that delivers a token takes it from the text. -/
theorem length_strtokR (h : strtokR delimiters text = some (token, rest)) :
    rest.length < text.length := by
  unfold strtokR at h
  have hDrop := (List.dropWhile_suffix (l := text) (decide <| · ∈ delimiters)).length_le
  cases hText : text.dropWhile (· ∈ delimiters) with
  | nil =>
      rw [hText] at h
      cases h
  | cons c more =>
      rw [hText] at h hDrop
      obtain ⟨-, rfl⟩ := Prod.mk.inj (Option.some.inj h)
      have hHead : c ∉ delimiters := by
        have hNot := List.head_dropWhile_not (decide <| · ∈ delimiters) (l := text)
          (by rw [hText]; exact List.cons_ne_nil _ _)
        simpa [hText] using hNot
      have hTail := (List.dropWhile_suffix (l := more) (decide <| · ∉ delimiters)).length_le
      rw [List.dropWhile_cons_of_pos (by simpa using hHead), List.length_tail]
      rw [List.length_cons] at hDrop
      omega

theorem tokensFrom_of_le {n m : Nat} (hn : text.length ≤ n) (hm : text.length ≤ m) :
    tokensFrom delimiters n text = tokensFrom delimiters m text := by
  induction n generalizing m text with
  | zero =>
      obtain rfl := List.eq_nil_of_length_eq_zero (Nat.le_zero.mp hn)
      cases m <;> rfl
  | succ n ih =>
      cases m with
      | zero =>
          obtain rfl := List.eq_nil_of_length_eq_zero (Nat.le_zero.mp hm)
          rfl
      | succ m =>
          rw [tokensFrom, tokensFrom]
          cases hToken : strtokR delimiters text with
          | none => rfl
          | some next =>
              have hLess := length_strtokR hToken
              exact congrArg (next.1 :: ·) (ih (by omega) (by omega))

/-- The first token, and those of the rest. -/
theorem tokens_eq (delimiters text : List α) :
    tokens delimiters text =
      match strtokR delimiters text with
      | none => []
      | some (token, rest) => token :: tokens delimiters rest := by
  have hMore : tokens delimiters text = tokensFrom delimiters (text.length + 1) text :=
    tokensFrom_of_le le_rfl (Nat.le_succ _)
  rw [hMore, tokensFrom]
  cases hToken : strtokR delimiters text with
  | none => rfl
  | some next =>
      have hLess := length_strtokR hToken
      exact congrArg (next.1 :: ·) (tokensFrom_of_le (by omega) le_rfl)

theorem tokens_nil (delimiters : List α) : tokens delimiters [] = [] := rfl

theorem tokens_gap (hGap : ∀ c ∈ gap, c ∈ delimiters) (text : List α) :
    tokens delimiters (gap ++ text) = tokens delimiters text := by
  rw [tokens_eq, strtokR_gap hGap, ← tokens_eq]

theorem tokens_tail (hText : ∀ c ∈ text.head?, c ∈ delimiters) :
    tokens delimiters text.tail = tokens delimiters text := by
  cases text with
  | nil => rfl
  | cons c text =>
      have hOne : ∀ d ∈ [c], d ∈ delimiters := by simpa using hText
      exact (tokens_gap hOne text).symm

/-- A word in front of a delimiter, or of the end, is the first token. -/
theorem tokens_word (hNe : token ≠ []) (hToken : ∀ c ∈ token, c ∉ delimiters)
    (hText : ∀ c ∈ text.head?, c ∈ delimiters) :
    tokens delimiters (token ++ text) = token :: tokens delimiters text := by
  rw [tokens_eq, strtokR_word hNe hToken hText]
  exact congrArg (token :: ·) (tokens_tail hText)

/-- A text that starts with no delimiter starts with a word. -/
theorem exists_word {c : α} (hc : c ∉ delimiters) :
    ∃ word rest, c :: text = word ++ rest ∧ word ≠ [] ∧ (∀ d ∈ word, d ∉ delimiters) ∧
      ∀ d ∈ rest.head?, d ∈ delimiters := by
  refine ⟨(c :: text).takeWhile (· ∉ delimiters), (c :: text).dropWhile (· ∉ delimiters),
    List.takeWhile_append_dropWhile.symm, ?_, ?_, ?_⟩
  · rw [List.takeWhile_cons_of_pos (by simpa using hc)]
    exact List.cons_ne_nil _ _
  · intro d hd
    simpa using List.mem_takeWhile_imp hd
  · intro d hd
    have hHead := List.head?_dropWhile_not (decide <| · ∉ delimiters) (c :: text)
    rw [Option.mem_def.mp hd] at hHead
    simpa using hHead

/-- The tokens are the pieces between single delimiters that are not empty. -/
theorem filter_splitOnP (delimiters text : List α) :
    (text.splitOnP (· ∈ delimiters)).filter (· ≠ []) = tokens delimiters text := by
  induction hLength : text.length using Nat.strong_induction_on generalizing text with
  | _ length ih =>
      cases text with
      | nil => rfl
      | cons c text =>
          by_cases hc : c ∈ delimiters
          · have hOne : ∀ d ∈ [c], d ∈ delimiters := by simpa using hc
            have hSplit : (c :: text).splitOnP (· ∈ delimiters) =
                [].splitOnP (· ∈ delimiters) ++ text.splitOnP (· ∈ delimiters) :=
              List.splitOnP_append_cons [] text (by simpa using hc)
            rw [hSplit, List.filter_append, ih text.length (by simp at hLength; omega) text rfl,
              ← tokens_gap hOne text]
            rfl
          · obtain ⟨word, rest, hText, hNe, hWord, hRest⟩ := @exists_word α _ delimiters text c hc
            rw [hText, tokens_word hNe hWord hRest]
            cases rest with
            | nil =>
                have hSplit : word.splitOnP (· ∈ delimiters) = [word] :=
                  List.splitOnP_eq_singleton fun d hd => by simpa using hWord d hd
                rw [List.append_nil, hSplit, tokens_nil]
                simp [hNe]
            | cons d rest =>
                have hd : d ∈ delimiters := hRest d rfl
                have hOne : ∀ x ∈ [d], x ∈ delimiters := by simpa using hd
                have hSplit : word.splitOnP (· ∈ delimiters) = [word] :=
                  List.splitOnP_eq_singleton fun d hd => by simpa using hWord d hd
                have hLess : rest.length < length := by
                  rw [← hLength, hText]
                  simp
                  omega
                rw [List.splitOnP_append_cons _ _ (by simpa using hd), hSplit, List.filter_append,
                  ih rest.length hLess rest rfl, ← tokens_gap hOne rest]
                simp [hNe]

end Tokens
