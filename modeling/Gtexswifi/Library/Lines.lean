import Mathlib.Data.List.Basic

/-! The lines of a sequence: its maximal pieces without a separator, of
those that are not empty the ones whose separator has come. -/
namespace Lines

variable {α : Type*} (sep : α → Bool)

/-- The non-empty lines that are complete. What stands behind the last
separator is not. -/
def complete (s : List α) : List (List α) := (s.splitOnP sep).dropLast.filter (· ≠ [])

/-- Behind these elements, of which `done` are the complete lines, a new
line starts. -/
def Closed (front : List α) (done : List (List α)) : Prop :=
  ∀ rest, complete sep (front ++ rest) = done ++ complete sep rest

variable {sep} {front line s : List α} {done : List (List α)} {c : α}

theorem complete_open (h : ∀ x ∈ line, sep x = false) : complete sep line = [] := by
  rw [complete, List.splitOnP_eq_singleton h]
  rfl

/-- The first line ends at its first separator. An empty one is none. -/
theorem complete_line (h : ∀ x ∈ line, sep x = false) (hc : sep c = true) (s : List α) :
    complete sep (line ++ c :: s) =
      (if line = [] then [] else [line]) ++ complete sep s := by
  rw [complete, List.splitOnP_append_cons_of_forall_mem h c hc,
    List.dropLast_cons_of_ne_nil (List.splitOnP_ne_nil sep s), List.filter_cons]
  by_cases hEmpty : line = []
  · simp [hEmpty, complete]
  · simp [hEmpty, complete]

theorem closed_nil : Closed sep ([] : List α) [] := fun _ => rfl

/-- A separator where a line starts adds no line. -/
theorem Closed.skip (h : Closed sep front done) (hc : sep c = true) :
    Closed sep (front ++ [c]) done := by
  intro rest
  have hNone : ∀ x ∈ ([] : List α), sep x = false := fun x hx => absurd hx List.not_mem_nil
  have hLine := complete_line hNone hc rest
  rw [List.append_assoc, h]
  exact congrArg (done ++ ·) hLine

theorem Closed.skipAll (h : Closed sep front done) {run : List α}
    (hRun : ∀ x ∈ run, sep x = true) : Closed sep (front ++ run) done := by
  induction run generalizing front with
  | nil =>
      rw [List.append_nil]
      exact h
  | cons c run ih =>
      rw [List.append_cons]
      exact ih (h.skip (hRun c List.mem_cons_self)) fun x hx =>
        hRun x (List.mem_cons_of_mem c hx)

/-- A line with its separator adds that line. -/
theorem Closed.addLine (h : Closed sep front done) (hLine : ∀ x ∈ line, sep x = false)
    (hNe : line ≠ []) (hc : sep c = true) :
    Closed sep (front ++ line ++ [c]) (done ++ [line]) := by
  intro rest
  rw [List.append_assoc, List.append_assoc, h]
  show done ++ complete sep (line ++ c :: rest) = _
  rw [complete_line hLine hc, if_neg hNe, List.append_assoc]

/-- Separators in front, and behind them a line that is complete or still
open. -/
theorem exists_split (sep : α → Bool) (s : List α) : ∃ run rest, s = run ++ rest ∧
    (∀ x ∈ run, sep x = true) ∧ (∀ x ∈ rest.head?, sep x = false) ∧
    ((∀ x ∈ rest, sep x = false) ∨
      ∃ line c more, rest = line ++ c :: more ∧ line ≠ [] ∧ (∀ x ∈ line, sep x = false) ∧
        sep c = true) := by
  induction s with
  | nil => exact ⟨[], [], rfl, by simp, by simp, Or.inl (by simp)⟩
  | cons a s ih =>
      obtain ⟨run, rest, rfl, hRun, hHead, hRest⟩ := ih
      cases ha : sep a with
      | true =>
          refine ⟨a :: run, rest, rfl, ?_, hHead, hRest⟩
          intro x hx
          cases hx with
          | head => exact ha
          | tail _ hx => exact hRun x hx
      | false =>
          refine ⟨[], a :: (run ++ rest), rfl, by simp, by simp [ha], ?_⟩
          cases run with
          | cons c run =>
              refine Or.inr ⟨[a], c, run ++ rest, rfl, by simp, by simp [ha], ?_⟩
              exact hRun c List.mem_cons_self
          | nil =>
              rcases hRest with hOpen | ⟨line, c, more, rfl, hNe, hLine, hc⟩
              · refine Or.inl fun x hx => ?_
                cases hx with
                | head => exact ha
                | tail _ hx => exact hOpen x hx
              · refine Or.inr ⟨a :: line, c, more, rfl, by simp, ?_, hc⟩
                intro x hx
                cases hx with
                | head => exact ha
                | tail _ hx => exact hLine x hx

/-- What comes behind takes no complete line away. -/
theorem complete_prefix (s more : List α) : complete sep s <+: complete sep (s ++ more) := by
  induction hLength : s.length using Nat.strongRecOn generalizing s with
  | ind n ih =>
      obtain ⟨run, rest, rfl, hRun, -, hOpen | ⟨line, c, behind, rfl, -, hLine, hc⟩⟩ :=
        exists_split sep s
      · have hSkip : Closed sep ([] ++ run) [] := closed_nil.skipAll hRun
        have hNone : complete sep (run ++ rest) = [] :=
          (hSkip rest).trans (complete_open hOpen)
        rw [hNone]
        exact List.nil_prefix
      · have hSkip : ∀ rest, complete sep (run ++ rest) = complete sep rest :=
          closed_nil.skipAll hRun
        have hShort : behind.length < n := by
          rw [← hLength]
          simp only [List.length_append, List.length_cons]
          omega
        rw [hSkip, List.append_assoc, hSkip, List.append_assoc, List.cons_append,
          complete_line hLine hc, complete_line hLine hc]
        exact (List.prefix_append_right_inj _).mpr (ih behind.length hShort behind rfl)

/-- Without a separator behind them, all complete lines are those of the
closed part. -/
theorem Closed.complete_eq (h : Closed sep front done) (hLine : ∀ x ∈ line, sep x = false) :
    complete sep (front ++ line) = done := by
  rw [h, complete_open hLine, List.append_nil]

end Lines
