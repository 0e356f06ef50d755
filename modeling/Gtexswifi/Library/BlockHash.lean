import Gtexswifi.Library.Sampling

/-! Hashes that compress a stream block by block: what a hash holds between
two pieces of the stream, and where two streams with one hash have met. -/
namespace BlockHash

open Sampling

variable {α σ : Type*} (compress : σ → List α → σ)

/-- The chaining value behind the full blocks, and the elements that wait
for their block. -/
structure Absorbed (σ α : Type*) where
  chaining : σ
  waiting : List α

/-- Add a piece of the stream. -/
def absorb (n : Nat) (held : Absorbed σ α) (piece : List α) : Absorbed σ α where
  chaining := (windows n (held.waiting ++ piece)).foldl compress held.chaining
  waiting := rest n (held.waiting ++ piece)

variable {compress}

/-- Two pieces one after the other are one piece. -/
theorem absorb_append {n : Nat} (hn : 0 < n) (held : Absorbed σ α) (first second : List α) :
    absorb compress n held (first ++ second) =
      absorb compress n (absorb compress n held first) second := by
  unfold absorb
  rw [← List.append_assoc, windows_append hn (held.waiting ++ first),
    rest_append hn (held.waiting ++ first), List.foldl_append]

variable (compress) in
/-- What the compressions of a run are given, from the chaining value `s`
on. -/
def inputs : σ → List (List α) → List (σ × List α)
  | _, [] => []
  | s, block :: blocks => (s, block) :: inputs (compress s block) blocks

variable (compress) in
/-- Two different inputs with the same result, one from each run. -/
def Collide (s : σ) (xs : List (List α)) (t : σ) (ys : List (List α)) : Prop :=
  ∃ p ∈ inputs compress s xs, ∃ q ∈ inputs compress t ys,
    p ≠ q ∧ compress p.1 p.2 = compress q.1 q.2

instance [DecidableEq σ] [DecidableEq α] (s : σ) (xs : List (List α)) (t : σ)
    (ys : List (List α)) : Decidable (Collide compress s xs t ys) :=
  inferInstanceAs (Decidable (∃ p ∈ _, ∃ q ∈ _, _ ∧ _))

variable {s t : σ} {x y : List α} {xs ys : List (List α)}

/-- The inputs of a stream are those of its parts, the second one taken up
where the first has come to. -/
theorem inputs_append (s : σ) (xs ys : List (List α)) :
    inputs compress s (xs ++ ys) =
      inputs compress s xs ++ inputs compress (xs.foldl compress s) ys := by
  induction xs generalizing s with
  | nil => rfl
  | cons x xs ih =>
      rw [List.cons_append, inputs, inputs, ih, List.cons_append, List.foldl_cons]

/-- The last block is compressed with the chaining value in front of it. -/
theorem mem_inputs_last (s : σ) (xs : List (List α)) (x : List α) :
    (xs.foldl compress s, x) ∈ inputs compress s (xs ++ [x]) := by
  rw [inputs_append]
  exact List.mem_append_right _ List.mem_cons_self

/-- A collision before the last blocks is one of the whole runs. -/
theorem Collide.append (h : Collide compress s xs t ys) (x y : List α) :
    Collide compress s (xs ++ [x]) t (ys ++ [y]) := by
  obtain ⟨p, hp, q, hq, hCollide⟩ := h
  refine ⟨p, ?_, q, ?_, hCollide⟩
  · rw [inputs_append]
    exact List.mem_append_left _ hp
  · rw [inputs_append]
    exact List.mem_append_left _ hq

/-- The last compressions of two runs with one result have the same input or
collide. -/
theorem last_eq_or_collide
    (h : (xs ++ [x]).foldl compress s = (ys ++ [y]).foldl compress t) :
    (xs.foldl compress s = ys.foldl compress t ∧ x = y) ∨
      Collide compress s (xs ++ [x]) t (ys ++ [y]) := by
  rw [List.foldl_append, List.foldl_append] at h
  by_cases hSame : (xs.foldl compress s, x) = (ys.foldl compress t, y)
  · exact Or.inl (Prod.mk.inj hSame)
  · exact Or.inr ⟨_, mem_inputs_last s xs x, _, mem_inputs_last t ys y, hSame, h⟩

/-- Runs over equally many blocks with one result agree from their start on
or collide. -/
theorem eq_or_collide_of_length (hLength : xs.length = ys.length)
    (h : xs.foldl compress s = ys.foldl compress t) :
    (s = t ∧ xs = ys) ∨ Collide compress s xs t ys := by
  induction xs using List.reverseRecOn generalizing ys with
  | nil =>
      obtain rfl := List.eq_nil_of_length_eq_zero hLength.symm
      exact Or.inl ⟨h, rfl⟩
  | append_singleton xs x ih =>
      rcases List.eq_nil_or_concat ys with rfl | ⟨ys, y, rfl⟩
      · simp at hLength
      · rw [List.concat_eq_append] at hLength h ⊢
        rcases last_eq_or_collide h with ⟨hBefore, rfl⟩ | hCollide
        · have hShorter : xs.length = ys.length := by simpa using hLength
          rcases ih hShorter hBefore with ⟨hStart, rfl⟩ | hCollide
          · exact Or.inl ⟨hStart, rfl⟩
          · exact Or.inr (hCollide.append x x)
        · exact Or.inr hCollide

/-- Runs with one result agree or collide, when the last block tells how
many blocks there are. -/
theorem eq_or_collide (hx : xs ≠ []) (hy : ys ≠ [])
    (hLast : xs.getLast hx = ys.getLast hy → xs.length = ys.length)
    (h : xs.foldl compress s = ys.foldl compress s) :
    xs = ys ∨ Collide compress s xs s ys := by
  by_cases hSame : xs.getLast hx = ys.getLast hy
  · exact (eq_or_collide_of_length (hLast hSame) h).imp_left fun hBoth => hBoth.2
  · rw [← List.dropLast_append_getLast hx, ← List.dropLast_append_getLast hy] at h ⊢
    rcases last_eq_or_collide h with ⟨-, hEnd⟩ | hCollide
    · exact absurd hEnd hSame
    · exact Or.inr hCollide

end BlockHash
