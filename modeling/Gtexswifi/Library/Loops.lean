import Mathlib.Tactic.TypeStar

/-! Loops whose passes go on with a state or end with a result. A loop is
run with a number of passes, after which it is given up. -/
namespace Loops

variable {State Result : Type*}

/-- What the loop gives within `passes` passes. -/
def run (pass : State → State ⊕ Result) : Nat → State → Option Result
  | 0, _ => none
  | passes + 1, s =>
      match pass s with
      | .inl next => run pass passes next
      | .inr result => some result

variable {pass : State → State ⊕ Result}

theorem run_next {s next : State} (h : pass s = .inl next) (passes : Nat) :
    run pass (passes + 1) s = run pass passes next := by
  rw [run, h]

/-- A pass that ends the loop gives its result, however many passes would be
left. -/
theorem run_end {s : State} {result : Result} (h : pass s = .inr result) (passes : Nat) :
    run pass (passes + 1) s = some result := by
  rw [run, h]

/-- A loop ends, and with what the invariant says, when every pass keeps the
invariant and lowers a bound. -/
theorem run_of_invariant (Inv : State → Prop) (Post : Result → Prop) (bound : State → Nat)
    (hNext : ∀ s next, Inv s → pass s = .inl next → Inv next ∧ bound next < bound s)
    (hEnd : ∀ s result, Inv s → pass s = .inr result → Post result)
    {s : State} (hInv : Inv s) {passes : Nat} (hPasses : bound s < passes) :
    ∃ result, run pass passes s = some result ∧ Post result := by
  induction passes generalizing s with
  | zero => exact absurd hPasses (Nat.not_lt_zero _)
  | succ passes ih =>
      cases hPass : pass s with
      | inl next =>
          obtain ⟨hKept, hLess⟩ := hNext s next hInv hPass
          rw [run_next hPass]
          exact ih hKept (Nat.lt_of_lt_of_le hLess (Nat.le_of_lt_succ hPasses))
      | inr result => exact ⟨result, run_end hPass passes, hEnd s result hInv hPass⟩

end Loops
