import Mathlib.Data.List.Basic

/-! Runs of a step function whose nondeterminism is carried by labels. A
label that is not enabled in a state, or that leads outside the defined
behaviour, gives `none`. -/
namespace Transition

variable {State Label : Type*} (step : State → Label → Option State)

/-- The state after the labelled steps, taken in order. -/
def run : State → List Label → Option State
  | s, [] => some s
  | s, label :: rest => (step s label).bind fun t => run t rest

/-- Every enabled step along the labels meets `guard` in the state it starts
from. -/
def Meets (guard : State → Label → Prop) : State → List Label → Prop
  | _, [] => True
  | s, label :: rest => ∀ t, step s label = some t → guard s label ∧ Meets guard t rest

/-- Every step along the labels is defined, and `P` holds in every state,
the first and the last one included. -/
def Safe (P : State → Prop) : State → List Label → Prop
  | s, [] => P s
  | s, label :: rest => P s ∧ ∃ t, step s label = some t ∧ Safe P t rest

/-- `P` holds in every state along the labels, the first and the last one
included, up to the first label that is not enabled. -/
def Throughout (P : State → Prop) : State → List Label → Prop
  | s, [] => P s
  | s, label :: rest => P s ∧ ∀ t, step s label = some t → Throughout P t rest

/-- Some label of a kind is enabled as long as `P` does not hold, and
whichever of them are taken, they come to `P` after finitely many steps. -/
inductive Inevitable (allowed : Label → Prop) (P : State → Prop) : State → Prop
  | now {s : State} (h : P s) : Inevitable allowed P s
  | later {s : State} (hEnabled : ∃ label t, allowed label ∧ step s label = some t)
      (hAll : ∀ label t, allowed label → step s label = some t → Inevitable allowed P t) :
      Inevitable allowed P s

@[simp] theorem run_nil (s : State) : run step s [] = some s := rfl

/-- A run takes its first step and goes on from there, if the step is
defined. -/
theorem run_cons (s : State) (label : Label) (rest : List Label) :
    run step s (label :: rest) = (step s label).bind fun t => run step t rest := rfl

variable {step}

/-- A safe run is defined to its end, where `P` still holds. -/
theorem Safe.last {P : State → Prop} {s : State} {labels : List Label}
    (h : Safe step P s labels) : ∃ t, run step s labels = some t ∧ P t := by
  induction labels generalizing s with
  | nil => exact ⟨s, rfl, h⟩
  | cons label rest ih =>
      obtain ⟨_, middle, hMiddle, hRest⟩ := h
      obtain ⟨t, hRun, hP⟩ := ih hRest
      exact ⟨t, by rw [run_cons, hMiddle, Option.bind_some, hRun], hP⟩

/-- A run splits at any point of its labels. -/
theorem run_append (s : State) (first second : List Label) :
    run step s (first ++ second) = (run step s first).bind fun t => run step t second := by
  induction first generalizing s with
  | nil => rfl
  | cons label rest ih =>
      simp only [List.cons_append, run_cons]
      cases step s label with
      | none => rfl
      | some t => simpa using ih t

/-- An invariant kept by every guarded step holds at the end of every
guarded run. -/
theorem run_invariant {guard : State → Label → Prop} {Inv : State → Prop}
    (hStep : ∀ s label t, Inv s → guard s label → step s label = some t → Inv t)
    {s t : State} {labels : List Label} (hInv : Inv s)
    (hMeets : Meets step guard s labels) (hRun : run step s labels = some t) : Inv t := by
  induction labels generalizing s with
  | nil =>
      simp only [run_nil, Option.some.injEq] at hRun
      exact hRun ▸ hInv
  | cons label rest ih =>
      rw [run_cons, Option.bind_eq_some_iff] at hRun
      obtain ⟨middle, hMiddle, hRest⟩ := hRun
      obtain ⟨hGuard, hMeets⟩ := hMeets middle hMiddle
      exact ih (hStep s label middle hInv hGuard hMiddle) hMeets hRest

/-- An invariant kept by every step holds at the end of every run. -/
theorem run_kept {Inv : State → Prop} (hStep : ∀ s label t, Inv s → step s label = some t → Inv t)
    {s t : State} {labels : List Label} (hInv : Inv s) (hRun : run step s labels = some t) :
    Inv t := by
  induction labels generalizing s with
  | nil => exact Option.some.inj hRun ▸ hInv
  | cons label rest ih =>
      obtain ⟨middle, hMiddle, hRest⟩ := Option.bind_eq_some_iff.mp hRun
      exact ih (hStep s label middle hInv hMiddle) hRest

/-- Where a measure goes down with every step of the kind, and one of them
is enabled as long as `P` does not hold, they come to `P`. -/
theorem inevitable_of_measure {allowed : Label → Prop} {P Inv : State → Prop}
    (measure : State → Nat)
    (hEnabled : ∀ s, Inv s → ¬P s → ∃ label t, allowed label ∧ step s label = some t)
    (hStep : ∀ s label t, Inv s → ¬P s → allowed label → step s label = some t →
      Inv t ∧ measure t < measure s)
    {s : State} (hInv : Inv s) : Inevitable step allowed P s := by
  induction hMeasure : measure s using Nat.strongRecOn generalizing s with
  | ind n ih =>
      by_cases hP : P s
      · exact .now hP
      · refine .later (hEnabled s hInv hP) fun label t hAllowed hTarget => ?_
        obtain ⟨hNext, hLess⟩ := hStep s label t hInv hP hAllowed hTarget
        exact ih (measure t) (hMeasure ▸ hLess) hNext rfl

/-- What they come to is the end of some run. -/
theorem Inevitable.exists_run {allowed : Label → Prop} {P : State → Prop} {s : State}
    (h : Inevitable step allowed P s) : ∃ labels t, run step s labels = some t ∧ P t := by
  induction h with
  | now hP => exact ⟨[], _, rfl, hP⟩
  | later hEnabled _ ih =>
      obtain ⟨label, next, hAllowed, hTarget⟩ := hEnabled
      obtain ⟨labels, t, hRun, hP⟩ := ih label next hAllowed hTarget
      exact ⟨label :: labels, t, by rw [run_cons, hTarget, Option.bind_some, hRun], hP⟩

/-- Nothing outside `P` that all steps of the kind keep lets `P` come. -/
theorem not_inevitable {allowed : Label → Prop} {P Inv : State → Prop}
    (hKept : ∀ s label t, Inv s → allowed label → step s label = some t → Inv t)
    (hOutside : ∀ s, Inv s → ¬P s) {s : State} (hInv : Inv s) :
    ¬Inevitable step allowed P s := by
  intro h
  induction h with
  | now hP => exact hOutside _ hInv hP
  | later hEnabled _ ih =>
      obtain ⟨label, t, hAllowed, hTarget⟩ := hEnabled
      exact ih label t hAllowed hTarget (hKept _ label t hInv hAllowed hTarget)

/-- Guarded runs are safe when guarded steps keep an invariant in which
every step is defined. -/
theorem safe_of_meets {guard : State → Label → Prop} {Inv P : State → Prop}
    (hInv : ∀ s, Inv s → P s)
    (hDefined : ∀ s label, Inv s → ∃ t, step s label = some t)
    (hStep : ∀ s label t, Inv s → guard s label → step s label = some t → Inv t)
    {s : State} (hStart : Inv s) {labels : List Label} (hMeets : Meets step guard s labels) :
    Safe step P s labels := by
  induction labels generalizing s with
  | nil => exact hInv s hStart
  | cons label rest ih =>
      obtain ⟨t, hTarget⟩ := hDefined s label hStart
      obtain ⟨hGuard, hRest⟩ := hMeets t hTarget
      exact ⟨hInv s hStart, t, hTarget, ih (hStep s label t hStart hGuard hTarget) hRest⟩

/-- When guarded steps keep an invariant and unguarded ones leave `P` at
once, the safe runs are exactly the guarded ones. -/
theorem safe_iff_meets {guard : State → Label → Prop} {Inv P : State → Prop}
    (hInv : ∀ s, Inv s → P s)
    (hDefined : ∀ s label, Inv s → ∃ t, step s label = some t)
    (hStep : ∀ s label t, Inv s → guard s label → step s label = some t → Inv t)
    (hBreak : ∀ s label t, Inv s → step s label = some t → P t → guard s label)
    {s : State} (hStart : Inv s) (labels : List Label) :
    Safe step P s labels ↔ Meets step guard s labels := by
  refine ⟨fun hSafe => ?_, safe_of_meets hInv hDefined hStep hStart⟩
  induction labels generalizing s with
  | nil => trivial
  | cons label rest ih =>
      obtain ⟨_, t, hTarget, hRest⟩ := hSafe
      intro t' hTarget'
      obtain rfl : t = t' := Option.some.inj (hTarget.symm.trans hTarget')
      have hP : P t := by cases rest with
        | nil => exact hRest
        | cons _ _ => exact hRest.1
      have hGuard := hBreak s label t hStart hTarget hP
      exact ⟨hGuard, ih (hStep s label t hStart hGuard hTarget) hRest⟩

theorem Throughout.first {P : State → Prop} {s : State} {labels : List Label}
    (h : Throughout step P s labels) : P s := by
  cases labels with
  | nil => exact h
  | cons label rest => exact h.1

/-- Where every step keeps an invariant, a property that a step keeps
exactly if it is a guarded one holds along exactly the guarded labels. -/
theorem throughout_iff_meets_of_kept {guard : State → Label → Prop} {Inv P : State → Prop}
    (hKept : ∀ s label t, Inv s → step s label = some t → Inv t)
    (hStep : ∀ s label t, Inv s → P s → step s label = some t → (P t ↔ guard s label))
    {s : State} (hInv : Inv s) (hStart : P s) (labels : List Label) :
    Throughout step P s labels ↔ Meets step guard s labels := by
  induction labels generalizing s with
  | nil => exact iff_of_true hStart trivial
  | cons label rest ih =>
      constructor
      · intro hAlong t hTarget
        have hRest := hAlong.2 t hTarget
        have hNext := hKept s label t hInv hTarget
        exact ⟨(hStep s label t hInv hStart hTarget).mp hRest.first,
          (ih hNext hRest.first).mp hRest⟩
      · intro hMeets
        refine ⟨hStart, fun t hTarget => ?_⟩
        obtain ⟨hGuard, hRest⟩ := hMeets t hTarget
        have hNext := hKept s label t hInv hTarget
        exact (ih hNext ((hStep s label t hInv hStart hTarget).mpr hGuard)).mpr hRest

/-- Likewise without an invariant. -/
theorem throughout_iff_meets {guard : State → Label → Prop} {P : State → Prop}
    (hStep : ∀ s label t, P s → step s label = some t → (P t ↔ guard s label))
    {s : State} (hStart : P s) (labels : List Label) :
    Throughout step P s labels ↔ Meets step guard s labels :=
  throughout_iff_meets_of_kept (fun _ _ _ _ _ => trivial) (fun s label t _ => hStep s label t)
    trivial hStart labels

/-- Conditions that agree wherever the invariant holds are met by the same
runs, if the steps that meet them keep it. -/
theorem meets_iff_meets {guard guard' : State → Label → Prop} {Inv : State → Prop}
    (hAgree : ∀ s label, Inv s → (guard s label ↔ guard' s label))
    (hStep : ∀ s label t, Inv s → guard' s label → step s label = some t → Inv t)
    {s : State} (hInv : Inv s) (labels : List Label) :
    Meets step guard s labels ↔ Meets step guard' s labels := by
  induction labels generalizing s with
  | nil => exact Iff.rfl
  | cons label rest ih =>
      constructor
      · intro hMeets t hTarget
        obtain ⟨hGuard, hRest⟩ := hMeets t hTarget
        have hGuard' := (hAgree s label hInv).mp hGuard
        exact ⟨hGuard', (ih (hStep s label t hInv hGuard' hTarget)).mp hRest⟩
      · intro hMeets t hTarget
        obtain ⟨hGuard', hRest⟩ := hMeets t hTarget
        exact ⟨(hAgree s label hInv).mpr hGuard',
          (ih (hStep s label t hInv hGuard' hTarget)).mpr hRest⟩

/-- Two systems in lockstep: a label is enabled in both states or in
neither, and the states it leads to belong together again. -/
theorem run_rel {State' : Type*} {step' : State' → Label → Option State'}
    {R : State → State' → Prop}
    (hStep : ∀ s s' label, R s s' → Option.Rel R (step s label) (step' s' label))
    {s : State} {s' : State'} (h : R s s') (labels : List Label) :
    Option.Rel R (run step s labels) (run step' s' labels) := by
  induction labels generalizing s s' with
  | nil => exact .some h
  | cons label rest ih =>
      rw [run_cons, run_cons]
      have hNext := hStep s s' label h
      generalize step s label = next, step' s' label = next' at hNext
      cases hNext with
      | none => exact .none
      | some hNext => exact ih hNext

/-- A loop whose every round makes its own item done, and undoes no other,
has all items done at its end. -/
theorem foldl_done {Item : Type*} {round : State → Item → State} {items : List Item}
    (Inv : State → Prop) (Later : State → State → Prop) (Done : Item → State → Prop)
    (hRefl : ∀ s, Later s s) (hTrans : ∀ r s t, Later r s → Later s t → Later r t)
    (hKept : ∀ item s t, Later s t → Done item s → Done item t)
    (hRound : ∀ item ∈ items, ∀ s, Inv s →
      Inv (round s item) ∧ Later s (round s item) ∧ Done item (round s item))
    {s : State} (hStart : Inv s) :
    Inv (items.foldl round s) ∧ Later s (items.foldl round s) ∧
      ∀ item ∈ items, Done item (items.foldl round s) := by
  induction items generalizing s with
  | nil => exact ⟨hStart, hRefl s, List.forall_mem_nil _⟩
  | cons item items ih =>
      obtain ⟨hInv, hLater, hDone⟩ := hRound item List.mem_cons_self s hStart
      obtain ⟨hEnd, hLast, hAll⟩ :=
        ih (fun other hMem => hRound other (List.mem_cons_of_mem _ hMem)) hInv
      exact ⟨hEnd, hTrans _ _ _ hLater hLast,
        List.forall_mem_cons.mpr ⟨hKept item _ _ hLast hDone, hAll⟩⟩

end Transition
