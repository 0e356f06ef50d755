import Gtexswifi.Library.Tokens

/-! What repeated calls of `fgets` deliver of a file. A line that is longer
than the buffer comes in several pieces, and no piece reaches into the next
line. -/
namespace Tokens

variable {α : Type*} [DecidableEq α]

/-- What the first `k` calls of `fgets` deliver. -/
def piecesFrom (newline : α) (n : Nat) : Nat → List α → List (List α)
  | 0, _ => []
  | k + 1, file =>
      match fgets newline n file with
      | none => []
      | some (piece, rest) => piece :: piecesFrom newline n k rest

def pieces (newline : α) (n : Nat) (file : List α) : List (List α) :=
  piecesFrom newline n file.length file

/-- The lines of a file, each with its newline unless the file ends with it. -/
def physicalLines (newline : α) : List α → List (List α)
  | [] => []
  | c :: file =>
      if c = newline then [c] :: physicalLines newline file
      else
        match physicalLines newline file with
        | [] => [[c]]
        | line :: lines => (c :: line) :: lines

variable {newline : α} {n room : Nat} {file line piece rest : List α}

theorem readLine_parts (newline : α) (room : Nat) (file : List α) :
    (readLine newline room file).1 ++ (readLine newline room file).2 = file := by
  induction file generalizing room with
  | nil => cases room <;> rfl
  | cons c file ih =>
      cases room with
      | zero => rfl
      | succ room =>
          rw [readLine]
          split
          · rfl
          · exact congrArg (c :: ·) (ih room)

/-- A piece ends with the first newline, with the file, or with the room. -/
theorem readLine_ends (newline : α) (room : Nat) (file : List α) :
    (∃ front, (readLine newline room file).1 = front ++ [newline] ∧ ∀ c ∈ front, c ≠ newline) ∨
      ((∀ c ∈ (readLine newline room file).1, c ≠ newline) ∧
        ((readLine newline room file).2 = [] ∨ (readLine newline room file).1.length = room)) := by
  induction file generalizing room with
  | nil =>
      have hNone : ∀ c ∈ ([] : List α), c ≠ newline := fun c hc => absurd hc List.not_mem_nil
      cases room with
      | zero => exact Or.inr ⟨hNone, Or.inl rfl⟩
      | succ room => exact Or.inr ⟨hNone, Or.inl rfl⟩
  | cons c file ih =>
      cases room with
      | zero => exact Or.inr ⟨fun x hx => absurd hx List.not_mem_nil, Or.inr rfl⟩
      | succ room =>
          rw [readLine]
          by_cases hc : c = newline
          · rw [if_pos hc]
            exact Or.inl ⟨[], by rw [hc]; rfl, fun x hx => absurd hx List.not_mem_nil⟩
          · rw [if_neg hc]
            rcases ih room with ⟨front, hFront, hPlain⟩ | ⟨hPlain, hEnd⟩
            · exact Or.inl ⟨c :: front, congrArg (c :: ·) hFront,
                List.forall_mem_cons.mpr ⟨hc, hPlain⟩⟩
            · refine Or.inr ⟨List.forall_mem_cons.mpr ⟨hc, hPlain⟩, ?_⟩
              exact hEnd.imp_right fun hLength => congrArg Nat.succ hLength

/-- A full buffer without a newline. -/
theorem readLine_full (hPiece : ∀ c ∈ piece, c ≠ newline) (hRoom : piece.length = room)
    (rest : List α) : readLine newline room (piece ++ rest) = (piece, rest) := by
  induction piece generalizing room with
  | nil =>
      obtain rfl := hRoom
      rfl
  | cons c piece ih =>
      obtain ⟨hc, hPiece⟩ := List.forall_mem_cons.mp hPiece
      obtain rfl := hRoom
      rw [List.cons_append, List.length_cons, readLine, if_neg hc, ih hPiece rfl]

theorem length_readLine_le (newline : α) (room : Nat) (file : List α) :
    (readLine newline room file).1.length ≤ room := by
  induction file generalizing room with
  | nil => cases room <;> simp [readLine]
  | cons c file ih =>
      cases room with
      | zero => exact Nat.le_refl 0
      | succ room =>
          rw [readLine]
          split
          · simp
          · exact Nat.succ_le_succ (ih room)

theorem readLine_ne_nil (newline : α) (hRoom : 0 < room) (hFile : file ≠ []) :
    (readLine newline room file).1 ≠ [] := by
  obtain ⟨c, file, rfl⟩ := List.exists_cons_of_ne_nil hFile
  obtain ⟨room, rfl⟩ := Nat.exists_eq_add_of_lt hRoom
  rw [Nat.zero_add, readLine]
  split
  · exact List.cons_ne_nil _ _
  · exact List.cons_ne_nil _ _

/-- Each call leaves less of the file, so that as many calls as there are
characters are enough. -/
theorem length_readLine_rest (newline : α) (hRoom : 0 < room) (hFile : file ≠ []) :
    (readLine newline room file).2.length < file.length := by
  have hPiece := List.length_pos_iff.mpr (readLine_ne_nil newline hRoom hFile)
  have hParts := congrArg List.length (readLine_parts newline room file)
  rw [List.length_append] at hParts
  omega

theorem piecesFrom_of_le (hn : 1 < n) {k m : Nat} (hk : file.length ≤ k) (hm : file.length ≤ m) :
    piecesFrom newline n k file = piecesFrom newline n m file := by
  induction k generalizing m file with
  | zero =>
      obtain rfl := List.eq_nil_of_length_eq_zero (Nat.le_zero.mp hk)
      cases m <;> rfl
  | succ k ih =>
      by_cases hFile : file = []
      · rw [hFile]
        cases m <;> rfl
      · have hLess := length_readLine_rest newline (show 0 < n - 1 by omega) hFile
        obtain ⟨m, rfl⟩ : ∃ j, m = j + 1 := ⟨m - 1, by omega⟩
        rw [piecesFrom, piecesFrom, fgets, if_neg hFile]
        exact congrArg (_ :: ·) (ih (by omega) (by omega))

/-- The first piece, and those of the rest. -/
theorem pieces_eq (hn : 1 < n) (hFile : file ≠ []) :
    pieces newline n file = (readLine newline (n - 1) file).1 ::
      pieces newline n (readLine newline (n - 1) file).2 := by
  have hLess := length_readLine_rest newline (show 0 < n - 1 by omega) hFile
  obtain ⟨k, hk⟩ : ∃ k, file.length = k + 1 := ⟨file.length - 1, by omega⟩
  rw [pieces, hk, piecesFrom, fgets, if_neg hFile]
  exact congrArg (_ :: ·) (piecesFrom_of_le hn (by omega) le_rfl)

theorem pieces_of_readLine (hn : 1 < n) (hLine : line ≠ [])
    (hRead : readLine newline (n - 1) line = (line, [])) : pieces newline n line = [line] := by
  rw [pieces_eq hn hLine, hRead]
  rfl

/-- A line ends with its newline, and the rest is split on its own. -/
theorem physicalLines_closed (hLine : ∀ c ∈ line, c ≠ newline) (rest : List α) :
    physicalLines newline (line ++ newline :: rest) =
      (line ++ [newline]) :: physicalLines newline rest := by
  induction line with
  | nil =>
      rw [List.nil_append, physicalLines, if_pos rfl]
      rfl
  | cons c line ih =>
      obtain ⟨hc, hLine⟩ := List.forall_mem_cons.mp hLine
      rw [List.cons_append, physicalLines, if_neg hc, ih hLine]
      rfl

/-- Characters in front of a line are of that line. -/
theorem physicalLines_open (hPiece : ∀ c ∈ piece, c ≠ newline) (hNe : piece ≠ [])
    (rest : List α) :
    physicalLines newline (piece ++ rest) =
      match physicalLines newline rest with
      | [] => [piece]
      | line :: lines => (piece ++ line) :: lines := by
  induction piece with
  | nil => exact absurd rfl hNe
  | cons c piece ih =>
      obtain ⟨hc, hPiece⟩ := List.forall_mem_cons.mp hPiece
      rw [List.cons_append, physicalLines, if_neg hc]
      by_cases hLast : piece = []
      · rw [hLast]
        rfl
      · rw [ih hPiece hLast]
        cases physicalLines newline rest <;> rfl

/-- A line has no newline, except at its end. -/
theorem exists_front (hLine : line ∈ physicalLines newline file) :
    ∃ front, line ≠ [] ∧ (∀ c ∈ front, c ≠ newline) ∧ (line = front ++ [newline] ∨ line = front) := by
  induction file generalizing line with
  | nil => cases hLine
  | cons c file ih =>
      rw [physicalLines] at hLine
      by_cases hc : c = newline
      · rw [if_pos hc] at hLine
        rcases List.mem_cons.mp hLine with rfl | hMore
        · exact ⟨[], List.cons_ne_nil _ _, by simp, Or.inl (by rw [hc]; rfl)⟩
        · exact ih hMore
      · rw [if_neg hc] at hLine
        have hOne : ∀ x ∈ [c], x ≠ newline := by simpa using hc
        cases hLines : physicalLines newline file with
        | nil =>
            rw [hLines, List.mem_singleton] at hLine
            exact ⟨[c], hLine ▸ List.cons_ne_nil _ _, hOne, Or.inr hLine⟩
        | cons first lines =>
            rw [hLines] at hLine ih
            rcases List.mem_cons.mp hLine with rfl | hMore
            · obtain ⟨front, -, hFront, hEnd⟩ := ih List.mem_cons_self
              refine ⟨c :: front, List.cons_ne_nil _ _, List.forall_mem_cons.mpr ⟨hc, hFront⟩, ?_⟩
              exact hEnd.imp (congrArg (c :: ·)) (congrArg (c :: ·))
            · exact ih (List.mem_cons_of_mem first hMore)

/-- A line that fits comes in one piece. -/
theorem pieces_of_fits (hn : 1 < n) (hLine : line ∈ physicalLines newline file)
    (hFits : line.length ≤ n - 1) : pieces newline n line = [line] := by
  obtain ⟨front, hNe, hFront, rfl | rfl⟩ := exists_front hLine
  · exact pieces_of_readLine hn hNe (readLine_append hFront (by simp at hFits; omega) [])
  · exact pieces_of_readLine hn hNe (readLine_last hFront hFits)

/-- The lines deliver their pieces one after the other. -/
theorem pieces_physicalLines (hn : 1 < n) (file : List α) :
    pieces newline n file = (physicalLines newline file).flatMap (pieces newline n) := by
  induction hLength : file.length using Nat.strong_induction_on generalizing file with
  | _ length ih =>
      by_cases hFile : file = []
      · rw [hFile]
        rfl
      · have hRoom : 0 < n - 1 := by omega
        have hLess := length_readLine_rest newline hRoom hFile
        have hParts := readLine_parts newline (n - 1) file
        have hNe := readLine_ne_nil newline hRoom hFile
        have hShort := length_readLine_le newline (n - 1) file
        have hRest := ih _ (hLength ▸ hLess) (readLine newline (n - 1) file).2 rfl
        have hEnds := readLine_ends newline (n - 1) file
        rw [pieces_eq hn hFile]
        generalize (readLine newline (n - 1) file).1 = piece at *
        generalize (readLine newline (n - 1) file).2 = rest at *
        subst hParts
        rcases hEnds with ⟨front, rfl, hPlain⟩ | ⟨hPlain, hEnd⟩
        · have hOne : pieces newline n (front ++ [newline]) = [front ++ [newline]] :=
            pieces_of_readLine hn hNe (readLine_append hPlain (by simp at hShort; omega) [])
          rw [List.append_assoc, List.singleton_append, physicalLines_closed hPlain,
            List.flatMap_cons, hOne, hRest]
          rfl
        · rw [physicalLines_open hPlain hNe, hRest]
          cases hMore : physicalLines newline rest with
          | nil =>
              have hOne := pieces_of_readLine hn hNe (readLine_last hPlain hShort)
              simp [hOne]
          | cons line lines =>
              have hFull : piece.length = n - 1 := by
                refine hEnd.resolve_left ?_
                rintro rfl
                cases hMore
              have hFirst : pieces newline n (piece ++ line) = piece :: pieces newline n line := by
                rw [pieces_eq hn (List.append_ne_nil_of_left_ne_nil hNe _),
                  readLine_full hPlain hFull]
              simp [hFirst]

end Tokens
