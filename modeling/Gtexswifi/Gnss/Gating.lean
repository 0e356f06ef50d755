import Gtexswifi.Gnss.GpsPcMode
import Gtexswifi.Library.Transition

/-! The commands that ask for the receiver's data are answered while it
searches. Both variables that they look at are zero behind every stop,
unless `EUT` stops what `SEARCH` has started. -/
namespace Gnss

open Numerals

variable {Double : Type} (doubles : Doubles Double) (longBits : Nat)

/-- The last one of the starts and stops, if there is any, is a stop. -/
def State.Stopped (s : State) : Prop :=
  (s.halCalls.filter fun call => call = .start ∨ call = .stop).getLast? ≠ some .start

instance (s : State) : Decidable s.Stopped := inferInstanceAs (Decidable (_ ≠ _))

/-- The commands that need a search. -/
def Command.Gated : Command → Prop
  | eutEq | eut | searchEq | search => False
  | _ => True

/-- `EUT_GPS_ERROR` with `EUT_GPSERR_PRNSEARCH`, and nothing else. -/
def refused (s : State) : Answer := ⟨s, some (eutGpsError ++ decimal eutGpserrPrnsearch), []⟩

/-- Behind a stop, or before the first start, every such command is refused. -/
def Gates (s : State) : Prop :=
  s.Stopped → ∀ (request : Request Double) (command : Command) (data subData : Int32),
    dispatch longBits request.pieces = some (command, data, subData) → command.Gated →
      gpsEutParse doubles longBits s request = refused s

/-- An `EUT` with argument 0 comes while `gps_search_state` is zero. -/
def EndsNoSearch (s : State) (request : Request Double) : Prop :=
  ∀ subData, dispatch longBits request.pieces = some (.eut, 0, subData) → s.gpsSearchState = 0

def step (s : State) (request : Request Double) : Option State :=
  some (gpsEutParse doubles longBits s request).state

/-- The two variables are zero whenever the receiver is stopped. -/
def Inv (s : State) : Prop := s.Stopped → s.gpsSearchState = 0 ∧ s.eutGpsState = 0

theorem not_stopped_start (s : State) : ¬(gpsExportStart s).Stopped := by
  intro hStopped
  apply hStopped
  rw [gpsExportStart, List.filter_append]
  exact List.getLast?_append_of_ne_nil _ (List.cons_ne_nil _ _)

theorem stopped_stop (s : State) : (gpsExportStop s).Stopped := by
  have hLast : ((gpsExportStop s).halCalls.filter fun call =>
      call = .start ∨ call = .stop).getLast? = some .stop := by
    rw [gpsExportStop, List.filter_append]
    exact List.getLast?_append_of_ne_nil _ (List.cons_ne_nil _ _)
  intro hStart
  cases hLast.symm.trans hStart

/-- An `EUT` starts the receiver, stops it, or does nothing to it. -/
theorem eutParse_cases (s : State) (data : Int32) :
    ¬(eutParse s data).state.Stopped ∨
    (data = 0 ∧ (eutParse s data).state.Stopped ∧ (eutParse s data).state.eutGpsState = 0 ∧
      (eutParse s data).state.gpsSearchState = s.gpsSearchState) ∨
    (data ≠ 0 ∧ (eutParse s data).state = { s with eutMode := true }) := by
  unfold eutParse
  dsimp only
  split
  · exact Or.inl (not_stopped_start _)
  · split
    · next hZero => exact Or.inr (Or.inl ⟨hZero, stopped_stop _, rfl, rfl⟩)
    · next hZero => exact Or.inr (Or.inr ⟨hZero, rfl⟩)

/-- The answer to a query changes the state only where it does so itself. -/
theorem searching_state (s : State) (answer : Answer) (h : answer.state = s) :
    (searching s answer).state = s := by
  unfold searching
  split
  · rfl
  · exact h

/-- The other commands leave the state alone. -/
theorem func_state (s : State) (receiver : Receiver Double) (data subData : Int32)
    {command : Command} (hEut : command ≠ .eut) (hSearch : command ≠ .search) :
    (command.func doubles s receiver data subData).state = s := by
  cases command with
  | eut => exact absurd rfl hEut
  | search => exact absurd rfl hSearch
  | eutEq => rfl
  | searchEq => rfl
  | snr =>
      apply searching_state
      split
      · rfl
      · rfl
  | _ => exact searching_state s _ rfl

/-- A gated command is refused where both variables are zero. -/
theorem func_refused {s : State} (hSearch : s.gpsSearchState = 0) (hEut : s.eutGpsState = 0)
    (receiver : Receiver Double) (data subData : Int32) {command : Command}
    (hGated : command.Gated) : command.func doubles s receiver data subData = refused s := by
  have hSearching (answer : Answer) : searching s answer = refused s := if_pos ⟨hSearch, hEut⟩
  cases command with
  | eutEq => exact hGated.elim
  | eut => exact hGated.elim
  | searchEq => exact hGated.elim
  | search => exact hGated.elim
  | _ => exact hSearching _

/-- In every state with the invariant an answer is given only to the queries
that its gates let through. -/
theorem Inv.gates {s : State} (h : Inv s) : Gates doubles longBits s := by
  intro hStopped request command data subData hDispatch hGated
  obtain ⟨hSearch, hEut⟩ := h hStopped
  rw [gpsEutParse, hDispatch]
  exact func_refused doubles hSearch hEut request.receiver data subData hGated

/-- A command keeps the invariant, where the one that ends the mode also
ends the search. -/
theorem Inv.eutParse {s : State} (h : Inv s) {data : Int32}
    (hEnds : data = 0 → s.gpsSearchState = 0) : Inv (eutParse s data).state := by
  intro hStopped
  rcases eutParse_cases s data with hRunning | ⟨hZero, _, hEut, hSearch⟩ | ⟨_, hSame⟩
  · exact absurd hStopped hRunning
  · exact ⟨hSearch.trans (hEnds hZero), hEut⟩
  · rw [hSame] at hStopped ⊢
    exact h hStopped

/-- A `SEARCH` makes the two variables one. -/
theorem Inv.searchParse {s : State} (h : Inv s) (data : Int32) : Inv (searchParse s data).state := by
  intro hStopped
  unfold Gnss.searchParse at hStopped ⊢
  dsimp only at hStopped ⊢
  suffices hEut : (if data ≠ s.eutGpsState then (Gnss.eutParse s data).state else s).eutGpsState = 0
    from ⟨hEut, hEut⟩
  by_cases hData : data ≠ s.eutGpsState
  · rw [if_pos hData] at hStopped ⊢
    rcases eutParse_cases s data with hRunning | ⟨_, _, hEut, _⟩ | ⟨_, hSame⟩
    · exact absurd hStopped hRunning
    · exact hEut
    · rw [hSame] at hStopped ⊢
      exact (h hStopped).2
  · rw [if_neg hData] at hStopped ⊢
    exact (h hStopped).2

/-- A request keeps the invariant, whichever command it parses to. -/
theorem Inv.gpsEutParse {s : State} (h : Inv s) {request : Request Double}
    (hEnds : EndsNoSearch longBits s request) : Inv (gpsEutParse doubles longBits s request).state := by
  unfold Gnss.gpsEutParse
  split
  · next command data subData hDispatch =>
      by_cases hEut : command = .eut
      · subst hEut
        exact h.eutParse fun hZero => hEnds subData (hZero ▸ hDispatch)
      by_cases hSearch : command = .search
      · subst hSearch
        exact h.searchParse data
      · rw [func_state doubles s request.receiver data subData hEut hSearch]
        exact h
  · exact h

/-- A command to write a register. -/
def writeRequest (receiver : Receiver Double) : Request Double where
  buf := ascii "WRITE"
  receiver := receiver
  pieces := ⟨[], [], ascii "WRITE"⟩
  splits := by decide

/-- A register is written behind a stop that has left `gps_search_state`
alone. -/
theorem not_gates {s : State} (hStopped : s.Stopped) (hSearch : s.gpsSearchState ≠ 0)
    (receiver : Receiver Double) : ¬Gates doubles longBits s := by
  intro hGates
  have hDispatch : dispatch longBits (writeRequest receiver).pieces = some (.write, 0, 0) := rfl
  have hRefused := hGates hStopped (writeRequest receiver) .write 0 0 hDispatch trivial
  have hAnswer : gpsEutParse doubles longBits s (writeRequest receiver) =
      ⟨s, some eutGpsOk, [.writeRegister 0 0]⟩ := by
    rw [gpsEutParse, hDispatch]
    exact if_neg fun h => hSearch h.1
  have hAccesses := congrArg Answer.accesses (hAnswer.symm.trans hRefused)
  cases hAccesses

/-- In every run of commands, the gated ones are refused whenever the
receiver is stopped, exactly when no `EUT` with argument 0 comes while a
search is still noted. -/
theorem gating_iff (requests : List (Request Double)) :
    Transition.Safe (step doubles longBits) (Gates doubles longBits) State.init requests ↔
      Transition.Meets (step doubles longBits) (EndsNoSearch longBits) State.init requests := by
  apply @Transition.safe_iff_meets _ _ (step doubles longBits) (EndsNoSearch longBits) Inv
  · exact fun s hInv => hInv.gates doubles longBits
  · exact fun s request _ => ⟨_, rfl⟩
  · intro s request t hInv hEnds hStep
    obtain rfl := Option.some.inj hStep
    exact hInv.gpsEutParse doubles longBits hEnds
  · intro s request t hInv hStep hGates subData hDispatch
    obtain rfl := Option.some.inj hStep
    by_contra hSearch
    rcases eutParse_cases s 0 with hRunning | ⟨_, hStopped, _, hSame⟩ | ⟨hZero, _⟩
    · exact hRunning (stopped_stop _)
    · have hState : (gpsEutParse doubles longBits s request).state = (eutParse s 0).state := by
        rw [gpsEutParse, hDispatch]
        rfl
      rw [hState] at hGates
      exact not_gates doubles longBits hStopped (by rwa [hSame]) request.receiver hGates
    · exact hZero rfl
  · exact fun _ => ⟨rfl, rfl⟩

/-- Ratios in millionths. -/
def millionths : Doubles Int := ⟨decimal, fun a b => decide (b < a)⟩

def quietReceiver : Receiver Int := ⟨[], false, 0, 0, .greenEyeII, 0, 0, 0, 0, fun _ => 0⟩

/-- `SEARCH,1` and `EUT,0`. -/
def searchThenStop : List (Request Int) :=
  [⟨ascii "AT+SPGPSTEST=SEARCH,1", quietReceiver,
      ⟨ascii "SEARCH", [ascii "1"], ascii "AT+SPGPSTEST=SEARCH,1"⟩, by decide⟩,
    ⟨ascii "AT+SPGPSTEST=EUT,0", quietReceiver,
      ⟨ascii "EUT", [ascii "0"], ascii "AT+SPGPSTEST=EUT,0"⟩, by decide⟩]

/-- The search that is noted opens the gates of a receiver that is stopped. -/
theorem stopped_answers : ¬Transition.Safe (step millionths 32) (Gates millionths 32) State.init
    searchThenStop := by
  intro hSafe
  obtain ⟨s, hRun, hGates⟩ := hSafe.last
  have hState : Transition.run (step millionths 32) State.init searchThenStop =
      some ⟨true, 0, 1, 0, [.deleteAidingData 65535, .start, .stop]⟩ := by decide
  obtain rfl := Option.some.inj (hState.symm.trans hRun)
  exact not_gates millionths 32 (by decide) (by decide) quietReceiver hGates

end Gnss
