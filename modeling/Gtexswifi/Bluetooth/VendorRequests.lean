import Gtexswifi.Bluetooth.Vendor
import Mathlib.Data.List.Perm.Basic
import Mathlib.Data.List.Count
import Mathlib.Data.Multiset.ZeroCons

/-! The requests of the stack, the commands with the chip and the reports,
over whole runs of the vendor library. For these, the two adapters are one
machine. -/
namespace Bluetooth.Vendor

open Upio Transition

/-- The report that the answer to a command leads to in the end. -/
def Command.owes : Command → Report
  | .pskey => .fwcfg
  | .core true => .fwcfg
  | .core false => .epilog

/-- What the requests and their buffers are about. -/
structure Ledger where
  cbacks : Bool
  commands : List Command
  events : Nat
  freed : List Nat
  leaked : List Nat
  requests : List Report
  aborted : List Report
  reports : List Report

def State.ledger (s : State) : Ledger :=
  ⟨s.cbacks, s.commands, s.events, s.freed, s.leaked, s.requests, s.aborted, s.reports⟩

namespace Ledger

/-- A command for the chip, or a request given up. -/
def send (l : Ledger) (command : Command) (allocates : Bool) : Ledger :=
  if l.cbacks = true ∧ allocates = true then { l with commands := l.commands ++ [command] }
  else { l with aborted := l.aborted ++ [command.owes] }

def freeEvent (l : Ledger) : Ledger :=
  if l.cbacks = true then { l with freed := l.freed ++ [l.events], events := l.events + 1 }
  else { l with leaked := l.leaked ++ [l.events], events := l.events + 1 }

def report (r : Report) (l : Ledger) : Option Ledger :=
  if l.cbacks = false then none
  else some { l with requests := l.requests ++ [r], reports := l.reports ++ [r] }

/-- The answer to a core command. -/
def coreAnswered (status : UInt8) (l : Ledger) : Option Ledger :=
  if l.cbacks = false then none
  else
    some { l.freeEvent with reports := l.reports ++ [if status ≠ 0 then .fwcfg else .epilog] }

def step (l : Ledger) : Label → Option Ledger
  | .init => some { l with cbacks := true }
  | .cleanup => some { l with cbacks := false }
  | .fwCfg io => some (send { l with requests := l.requests ++ [.fwcfg] } .pskey io.allocates)
  | .epilog io =>
      some (send { l with requests := l.requests ++ [.epilog] } (.core false) io.allocates)
  | .scoCfg => l.report .scocfg
  | .lpmSetMode => l.report .lpm
  | .answer status io =>
      match l.commands with
      | [] => none
      | .pskey :: commands => some (send (freeEvent { l with commands }) (.core true) io.allocates)
      | .core _ :: commands => coreAnswered status { l with commands }
  | _ => some l

variable {l m : Ledger} {command : Command} {allocates : Bool}

@[simp] theorem freeEvent_cbacks (l : Ledger) : l.freeEvent.cbacks = l.cbacks := by
  unfold freeEvent
  split <;> rfl

@[simp] theorem freeEvent_commands (l : Ledger) : l.freeEvent.commands = l.commands := by
  unfold freeEvent
  split <;> rfl

@[simp] theorem freeEvent_requests (l : Ledger) : l.freeEvent.requests = l.requests := by
  unfold freeEvent
  split <;> rfl

@[simp] theorem freeEvent_aborted (l : Ledger) : l.freeEvent.aborted = l.aborted := by
  unfold freeEvent
  split <;> rfl

@[simp] theorem freeEvent_reports (l : Ledger) : l.freeEvent.reports = l.reports := by
  unfold freeEvent
  split <;> rfl

/-- A request that is answered at once is in both lists of the ledger. -/
theorem report_eq {r : Report} (h : l.report r = some m) :
    m = { l with requests := l.requests ++ [r], reports := l.reports ++ [r] } := by
  unfold report at h
  split at h
  · cases h
  · exact (Option.some.inj h).symm

/-- The answer to the core command gives one report, of the configuration or
of the epilogue by its status. -/
theorem coreAnswered_eq {status : UInt8} (h : l.coreAnswered status = some m) :
    m = { l.freeEvent with
      reports := l.reports ++ [if status ≠ 0 then .fwcfg else .epilog] } := by
  unfold coreAnswered at h
  split at h
  · cases h
  · exact (Option.some.inj h).symm

/-- With callbacks and memory the command waits for its answer. -/
theorem send_granted (h : l.cbacks = true ∧ allocates = true) :
    l.send command allocates = { l with commands := l.commands ++ [command] } := if_pos h

/-- Without them the request is lost, and the ledger says which one. -/
theorem send_refused (h : ¬(l.cbacks = true ∧ allocates = true)) :
    l.send command allocates = { l with aborted := l.aborted ++ [command.owes] } := if_neg h

end Ledger

variable {adapter : Adapter} {notifyDeassert : Bool} {s t : State}

@[simp] theorem ledger_cbacks (s : State) : s.ledger.cbacks = s.cbacks := rfl

@[simp] theorem ledger_setWake (action : UInt8) (writes : Bool) (s : State) :
    (setWake notifyDeassert action writes s).ledger = s.ledger := rfl

@[simp] theorem ledger_setWakeOnMarlin2 (action : UInt8) (writes : Bool) (s : State) :
    (setWakeOnMarlin2 adapter notifyDeassert action writes s).ledger = s.ledger := by
  cases adapter <;> rfl

@[simp] theorem ledger_uipoUserialDebugEnable (io : Io) (s : State) :
    (uipoUserialDebugEnable io s).ledger = s.ledger := by
  unfold uipoUserialDebugEnable
  split
  · split <;> rfl
  · rfl

@[simp] theorem ledger_uipoUserialDebugDisable (s : State) :
    (uipoUserialDebugDisable s).ledger = s.ledger := by
  unfold uipoUserialDebugDisable
  split <;> rfl

@[simp] theorem ledger_userialVendorOpen (s : State) (opened : Option Nat) :
    (userialVendorOpen s opened).ledger = s.ledger := by
  cases opened <;> rfl

@[simp] theorem ledger_userialVendorClose (s : State) :
    (userialVendorClose s).ledger = s.ledger := by
  unfold userialVendorClose
  split <;> rfl

@[simp] theorem ledger_freeEvent (s : State) : (freeEvent s).ledger = s.ledger.freeEvent := by
  by_cases h : s.cbacks = true <;> simp [freeEvent, Ledger.freeEvent, State.ledger, h]

@[simp] theorem ledger_hwCoreEnable (enable allocates writes : Bool) (s : State) :
    (hwCoreEnable adapter notifyDeassert enable allocates writes s).ledger =
      s.ledger.send (.core enable) allocates := by
  by_cases h : s.cbacks = true ∧ allocates = true
  · rw [hwCoreEnable, if_pos h, Ledger.send_granted h]
    cases adapter <;> rfl
  · rw [hwCoreEnable, if_neg h, Ledger.send_refused h]
    cases enable <;> rfl

/-- The ledger is given a command, and whether there was memory for it. -/
@[simp] theorem ledger_sendPskey (io : Io) (s : State) :
    (sendPskey notifyDeassert io s).ledger = s.ledger.send .pskey io.allocates := by
  by_cases h : s.cbacks = true ∧ io.allocates = true
  · rw [sendPskey, if_pos h, Ledger.send_granted h]
    rfl
  · rw [sendPskey, if_neg h, Ledger.send_refused h]
    rfl

/-- A report of the code is one of the ledger, and both are undefined
without callbacks. -/
theorem ledger_report (r : Report) (s : State) :
    (report r s).map State.ledger = s.ledger.report r := by
  by_cases h : s.cbacks = false
  · rw [report, if_pos h, Ledger.report, ledger_cbacks, if_pos h]
    rfl
  · rw [report, if_neg h, Ledger.report, ledger_cbacks, if_neg h]
    rfl

theorem freeEvent_cbacks (s : State) : (freeEvent s).cbacks = s.cbacks := by
  unfold freeEvent
  split <;> rfl

/-- The answer to the core command is one event of the ledger, whatever the
wake signal does. -/
theorem ledger_hwCoreCback (status : UInt8) (writes : Bool) (s : State) :
    (hwCoreCback adapter notifyDeassert status writes s).map State.ledger =
      s.ledger.coreAnswered status := by
  by_cases h : s.cbacks = false
  · rw [Ledger.coreAnswered, ledger_cbacks, if_pos h, hwCoreCback,
      if_pos ((freeEvent_cbacks s).trans h)]
    rfl
  · rw [Ledger.coreAnswered, ledger_cbacks, if_neg h, hwCoreCback,
      if_neg (freeEvent_cbacks s ▸ h), Option.map_some, ledger_setWakeOnMarlin2,
      ← ledger_freeEvent]
    congr 2
    unfold freeEvent
    split <;> rfl

/-- The preload sends one command. The size that it takes from the table is
not looked at by the ledger. -/
@[simp] theorem ledger_marlinPskeyPreload (io : Io) (s : State) :
    (marlinPskeyPreload notifyDeassert io s).ledger = s.ledger.send .pskey io.allocates := by
  unfold marlinPskeyPreload
  split <;> simp

@[simp] theorem ledger_marlin2PskeyPreload (io : Io) (s : State) :
    (marlin2PskeyPreload notifyDeassert io s).ledger = s.ledger.send .pskey io.allocates :=
  ledger_sendPskey io s

/-- The answer to the configuration frees its event and sends the core
command. -/
@[simp] theorem ledger_marlinPskeyCback (io : Io) (s : State) :
    (marlinPskeyCback notifyDeassert io s).ledger =
      s.ledger.freeEvent.send (.core true) io.allocates := by
  simp [marlinPskeyCback]

@[simp] theorem ledger_marlin2PskeyCback (io : Io) (s : State) :
    (marlin2PskeyCback notifyDeassert io s).ledger =
      s.ledger.freeEvent.send (.core true) io.allocates := by
  simp [marlin2PskeyCback]

/-- A step does to the ledger what the machine without adapters does. -/
theorem ledger_step {label : Label} (hStep : step adapter notifyDeassert s label = some t) :
    s.ledger.step label = some t.ledger := by
  have hMap {x : Option State} (hx : x = some t) : x.map State.ledger = some t.ledger := by
    rw [hx, Option.map_some]
  cases label with
  | init | cleanup | procBtwriteTimeout =>
      cases hStep
      rfl
  | powerCtrl on reached opened timerCreates =>
      cases reached <;> cases hStep <;> rfl
  | fwCfg io =>
      cases adapter <;> cases hStep
      · rw [ledger_marlinPskeyPreload]
        rfl
      · rw [ledger_marlin2PskeyPreload]
        rfl
  | userialOpen opened =>
      simp only [step, Option.ite_none_right_eq_some, Option.some.injEq] at hStep
      rw [← hStep.2, ledger_userialVendorOpen]
      rfl
  | userialClose writes =>
      cases hStep
      rw [ledger_setWake, ledger_userialVendorClose]
      rfl
  | lpmWakeSetState wakeAssert writes =>
      cases hStep
      rw [ledger_setWake]
      rfl
  | epilog io =>
      cases hStep
      rw [ledger_hwCoreEnable]
      rfl
  | scoCfg => exact (ledger_report .scocfg s).symm.trans (hMap hStep)
  | lpmSetMode => exact (ledger_report .lpm s).symm.trans (hMap hStep)
  | answer status io =>
      cases hCommands : s.commands with
      | nil =>
          rw [step, hCommands] at hStep
          cases hStep
      | cons command commands =>
          have hLedger : s.ledger.commands = command :: commands := hCommands
          rw [step, hCommands] at hStep
          rw [Ledger.step, hLedger]
          cases command with
          | pskey =>
              cases adapter <;> cases hStep
              · rw [ledger_marlinPskeyCback]
                rfl
              · rw [ledger_marlin2PskeyCback]
                rfl
          | core enable => exact (ledger_hwCoreCback status io.writes _).symm.trans (hMap hStep)

/-- The chip's status for a core command says which of the two it was. -/
def Echoes (commands : List Command) : Label → Prop
  | .answer status _ => ∀ enable rest, commands = .core enable :: rest →
      (status ≠ 0 ↔ enable = true)
  | _ => True

namespace Ledger

variable {l m : Ledger} {command : Command} {allocates : Bool} {label : Label}

/-- What was asked for has been reported, was given up, or is still owed by
the chip. -/
def Balanced (l : Ledger) : Prop :=
  l.requests.Perm (l.reports ++ l.aborted ++ l.commands.map Command.owes)

/-- Every event buffer was freed, once, or is lost. -/
def Freed (l : Ledger) : Prop := (l.freed ++ l.leaked).Perm (List.range l.events)

/-- Freeing the event of an answer keeps it that every buffer was freed once
or is lost. -/
theorem freeEvent_freed (h : l.Freed) : l.freeEvent.Freed := by
  unfold Freed freeEvent at *
  split <;>
    simp only [List.perm_iff_count, List.count_append, List.range_succ] at h ⊢ <;>
    intro event <;> have := h event <;> omega

theorem send_freed : (l.send command allocates).Freed ↔ l.Freed := by
  unfold send
  split <;> rfl

/-- A command keeps the balance if its request is the one that it owes an
answer for. -/
theorem send_balanced : (l.send command allocates).Balanced ↔
    l.requests.Perm (l.reports ++ l.aborted ++ l.commands.map Command.owes ++ [command.owes]) := by
  unfold send Balanced
  split <;>
    simp only [List.perm_iff_count, List.count_append, List.map_append, List.map_cons,
      List.map_nil] <;>
    refine forall_congr' fun report => ?_ <;> omega

/-- Each step keeps it that every event buffer was freed once or is lost. -/
theorem step_freed (hStep : l.step label = some m) (hFreed : l.Freed) : m.Freed := by
  cases label with
  | init | cleanup | powerCtrl | userialOpen | userialClose | lpmWakeSetState
  | procBtwriteTimeout =>
      cases hStep
      exact hFreed
  | fwCfg io | epilog io =>
      cases hStep
      exact send_freed.mpr hFreed
  | scoCfg | lpmSetMode =>
      cases report_eq hStep
      exact hFreed
  | answer status io =>
      simp only [step] at hStep
      split at hStep
      next => cases hStep
      next commands _ =>
        cases hStep
        exact send_freed.mpr (freeEvent_freed (l := { l with commands }) hFreed)
      next enable commands _ =>
        cases coreAnswered_eq hStep
        exact freeEvent_freed (l := { l with commands }) hFreed

/-- The status of an answer decides what is reported. -/
theorem owes_eq_iff {status : UInt8} {enable : Bool} :
    (if status ≠ 0 then .fwcfg else .epilog) = (Command.core enable).owes ↔
      (status ≠ 0 ↔ enable = true) := by
  by_cases hStatus : status = 0 <;> cases enable <;> simp [hStatus, Command.owes]

/-- A step keeps the accounts exactly if the answer it may take echoes its
command. -/
theorem step_balanced (hStep : l.step label = some m) (hBalanced : l.Balanced) :
    m.Balanced ↔ Echoes l.commands label := by
  cases label with
  | init | cleanup | powerCtrl | userialOpen | userialClose | lpmWakeSetState
  | procBtwriteTimeout =>
      cases hStep
      exact iff_of_true hBalanced trivial
  | fwCfg io | epilog io =>
      cases hStep
      exact iff_of_true (send_balanced.mpr (hBalanced.append_right _)) trivial
  | scoCfg | lpmSetMode =>
      cases report_eq hStep
      refine iff_of_true ?_ trivial
      simp only [Balanced, List.perm_iff_count, List.count_append] at hBalanced ⊢
      intro report
      have := hBalanced report
      omega
  | answer status io =>
      simp only [step] at hStep
      split at hStep
      next => cases hStep
      next commands hCommands =>
        cases hStep
        refine iff_of_true ?_ (by simp [Echoes, hCommands])
        have hOwed : l.requests.Perm
            (l.reports ++ l.aborted ++ (.fwcfg :: commands.map Command.owes)) := by
          simpa [Balanced, hCommands, Command.owes] using hBalanced
        simp only [send_balanced, freeEvent_requests, freeEvent_reports, freeEvent_aborted,
          freeEvent_commands]
        exact hOwed.trans ((List.perm_append_singleton _ _).symm.append_left _ |>.trans
          (.of_eq (List.append_assoc _ _ _).symm))
      next enable commands hCommands =>
        cases coreAnswered_eq hStep
        have hEchoes : Echoes l.commands (.answer status io) ↔ (status ≠ 0 ↔ enable = true) := by
          rw [hCommands]
          exact ⟨fun h => h enable commands rfl, by rintro h _ _ ⟨⟩; exact h⟩
        have hOwed : l.requests.Perm ((Command.core enable).owes ::
            (l.reports ++ l.aborted ++ commands.map Command.owes)) := by
          refine hBalanced.trans ?_
          rw [hCommands]
          exact List.perm_middle
        have hReported : (l.reports ++ [if status ≠ 0 then Report.fwcfg else .epilog] ++
            l.aborted ++ commands.map Command.owes).Perm
              ((if status ≠ 0 then .fwcfg else .epilog) ::
                (l.reports ++ l.aborted ++ commands.map Command.owes)) := by
          rw [List.append_assoc, List.append_assoc, List.append_assoc l.reports]
          exact List.perm_middle
        rw [hEchoes, ← owes_eq_iff]
        simp only [Balanced, freeEvent_requests, freeEvent_aborted, freeEvent_commands]
        constructor
        · intro hNext
          have hCons := Multiset.coe_eq_coe.mpr (hReported.symm.trans (hNext.symm.trans hOwed))
          rwa [← Multiset.cons_coe, ← Multiset.cons_coe, Multiset.cons_inj_left] at hCons
        · intro hEq
          exact (hEq ▸ hOwed).trans hReported.symm

/-- The reports come in the order of the requests, and nothing is given up. -/
def InOrder (l : Ledger) : Prop := l.requests = l.reports ++ l.commands.map Command.owes

/-- Commands are sent when asked for, nothing is reported ahead of what the
chip owes, and no `DISABLE_BT` is with the chip when the answer to a pskey
has `ENABLE_BT` sent after it. -/
def Orderly (l : Ledger) : Label → Prop
  | .fwCfg io | .epilog io => l.cbacks = true ∧ io.allocates = true
  | .scoCfg | .lpmSetMode => l.commands = []
  | .answer status io =>
      match l.commands with
      | [] => True
      | .pskey :: commands => l.cbacks = true ∧ io.allocates = true ∧ .core false ∉ commands
      | .core enable :: _ => status ≠ 0 ↔ enable = true
  | _ => True

/-- An element can go from the end of a list to its start exactly if all the
others are equal to it. -/
theorem append_singleton_eq_cons_iff {α : Type} {a : α} (items : List α) :
    items ++ [a] = a :: items ↔ ∀ item ∈ items, item = a := by
  induction items with
  | nil => simp
  | cons item items ih =>
      rw [List.cons_append, List.cons.injEq, List.forall_mem_cons]
      exact and_congr_right fun hItem => hItem ▸ ih

/-- All the commands that wait owe the configuration exactly if none of them
is the core command for the epilogue. -/
theorem owes_fwcfg_iff (commands : List Command) :
    (∀ report ∈ commands.map Command.owes, report = .fwcfg) ↔ .core false ∉ commands := by
  induction commands with
  | nil => simp
  | cons command commands ih =>
      rcases command with - | (- | -) <;> simp_all [Command.owes]

/-- A request that asks for a command keeps the order exactly if the command
can be sent. One that is lost leaves a gap. -/
theorem requested_inOrder (hInOrder : l.InOrder) :
    (send { l with requests := l.requests ++ [command.owes] } command allocates).InOrder ↔
      l.cbacks = true ∧ allocates = true := by
  unfold InOrder at hInOrder
  by_cases h : l.cbacks = true ∧ allocates = true
  · rw [send_granted (by exact h)]
    simp [InOrder, hInOrder, h]
  · rw [send_refused (by exact h)]
    refine iff_of_false (fun hNext => ?_) h
    have hLength := congrArg List.length (hNext.trans hInOrder.symm)
    simp at hLength

/-- A request that is answered at once keeps the order where nothing waits
before it. -/
theorem reported_inOrder {r : Report} (hInOrder : l.InOrder) (hOwes : ∀ c, Command.owes c ≠ r) :
    InOrder { l with requests := l.requests ++ [r], reports := l.reports ++ [r] } ↔
      l.commands = [] := by
  unfold InOrder at *
  rw [hInOrder, List.append_assoc, List.append_assoc, List.append_cancel_left_eq,
    List.singleton_append, append_singleton_eq_cons_iff]
  cases hCommands : l.commands with
  | nil => simp
  | cons command commands => simp [hOwes]

/-- The answer to the configuration keeps the order where the core command
can be sent and no epilogue waits before it. -/
theorem pskeyAnswered_inOrder {commands : List Command}
    (hCommands : l.commands = .pskey :: commands) (hInOrder : l.InOrder) :
    (send (freeEvent { l with commands }) (.core true) allocates).InOrder ↔
      l.cbacks = true ∧ allocates = true ∧ .core false ∉ commands := by
  have hOwed : l.requests = l.reports ++ .fwcfg :: commands.map Command.owes := by
    rw [hInOrder, hCommands, List.map_cons]
    rfl
  have hBacks : (freeEvent { l with commands }).cbacks = l.cbacks := freeEvent_cbacks _
  by_cases h : l.cbacks = true ∧ allocates = true
  · rw [send_granted (hBacks.symm ▸ h)]
    simp only [InOrder, freeEvent_requests, freeEvent_reports, freeEvent_commands, hOwed, h,
      true_and, List.map_append, List.append_cancel_left_eq]
    rw [← owes_fwcfg_iff, ← append_singleton_eq_cons_iff]
    exact eq_comm
  · rw [send_refused (hBacks.symm ▸ h)]
    simp only [InOrder, freeEvent_requests, freeEvent_reports, freeEvent_commands, hOwed]
    refine iff_of_false (fun hNext => ?_) fun hBoth => h ⟨hBoth.1, hBoth.2.1⟩
    have hLength := congrArg List.length hNext
    simp at hLength

/-- A step keeps the order exactly if it is an orderly one. -/
theorem step_inOrder (hStep : l.step label = some m) (hInOrder : l.InOrder) :
    m.InOrder ↔ l.Orderly label := by
  cases label with
  | init | cleanup | powerCtrl | userialOpen | userialClose | lpmWakeSetState
  | procBtwriteTimeout =>
      cases hStep
      exact iff_of_true hInOrder trivial
  | fwCfg io | epilog io =>
      cases hStep
      exact requested_inOrder hInOrder
  | scoCfg | lpmSetMode =>
      cases report_eq hStep
      exact reported_inOrder hInOrder (by rintro (- | (- | -)) <;> simp [Command.owes])
  | answer status io =>
      simp only [step] at hStep
      split at hStep
      next => cases hStep
      next commands hCommands =>
        cases hStep
        simp only [Orderly, hCommands]
        exact pskeyAnswered_inOrder hCommands hInOrder
      next enable commands hCommands =>
        cases coreAnswered_eq hStep
        have hOwed : l.requests =
            l.reports ++ (Command.core enable).owes :: commands.map Command.owes := by
          rw [hInOrder, hCommands, List.map_cons]
        simp only [InOrder, Orderly, hCommands, freeEvent_requests, freeEvent_commands]
        rw [hOwed, ← owes_eq_iff, List.append_assoc, List.append_cancel_left_eq,
          List.singleton_append, List.cons.injEq]
        exact ⟨fun h => h.1.symm, fun h => ⟨h.symm, rfl⟩⟩

end Ledger

/-- Throughout a run every request is accounted for and no buffer is freed
twice, exactly if all answers of the run echo their commands. -/
theorem balanced_iff_echoes (labels : List Label) :
    Throughout (step adapter notifyDeassert) (fun s => s.ledger.Balanced ∧ s.ledger.Freed)
        .static labels ↔
      Meets (step adapter notifyDeassert) (fun s => Echoes s.commands) .static labels := by
  refine throughout_iff_meets (fun s label t hBoth hStep => ?_) ?_ labels
  · have hBalanced := Ledger.step_balanced (ledger_step hStep) hBoth.1
    have hFreed := Ledger.step_freed (ledger_step hStep) hBoth.2
    exact (and_iff_left hFreed).trans hBalanced
  · exact ⟨List.Perm.nil, List.Perm.nil⟩

/-- Throughout a run the requests are the reports and then what the chip
owes, in order, exactly if every step of the run is orderly. -/
theorem inOrder_iff_orderly (labels : List Label) :
    Throughout (step adapter notifyDeassert) (fun s => s.ledger.InOrder) .static labels ↔
      Meets (step adapter notifyDeassert) (fun s => s.ledger.Orderly) .static labels := by
  refine throughout_iff_meets (fun s label t hInOrder hStep => ?_) ?_ labels
  · exact Ledger.step_inOrder (ledger_step hStep) hInOrder
  · exact (rfl : State.static.ledger.InOrder)

/-- An epilog overtakes the configuration from before it, whose last command
leaves the chip enabled. -/
example :
    let io : Io := ⟨true, true, true, true, true, true⟩
    (run (step .marlin2 false) .static
      [.init, .fwCfg io, .epilog io, .answer 0 io, .answer 0 io, .answer 1 io]).map
        State.reports = some [.epilog, .fwcfg] := by
  decide

end Bluetooth.Vendor
