import Mathlib.Data.List.Basic

/-! The AT channel as the callers of `atc_send`, the reader thread and the
modem share it. A step is what one thread does while it holds a mutex, or
one unprotected access. Each final response carries the command it answers;
the code does not see that field. -/
namespace Agps.Atc

/-- A line that `isFinalResponse` accepts, as the modem answered `command`. -/
structure FinalResponse where
  command : Nat
  success : Bool
  deriving DecidableEq, Repr

structure Timeval where
  sec : Int
  usec : Int

structure Timespec where
  sec : Int
  nsec : Int

/-- The sum of the microseconds is not carried into the seconds. -/
def setTimespecRelative (now : Timeval) (msec : Int) : Timespec where
  sec := now.sec + msec.tdiv 1000
  nsec := (now.usec + msec.tmod 1000 * 1000) * 1000

/-- `pthread_cond_timedwait` returns EINVAL at once for any other deadline. -/
def Timespec.Valid (deadline : Timespec) : Prop :=
  0 ≤ deadline.nsec ∧ deadline.nsec < 1000000000

instance (deadline : Timespec) : Decidable deadline.Valid := inferInstanceAs (Decidable (_ ∧ _))

/-- A call between its write and its return. -/
inductive WaitPhase where
  | written
  | waiting (timed signalled : Bool)
  deriving DecidableEq, Repr

/-- The synchronous call that holds `s_command_mutex`. -/
structure SyncCall where
  command : Nat
  timeoutMs : Int
  phase : WaitPhase
  deriving DecidableEq, Repr

/-- What a synchronous call returned for its command, and the line it took
from the slot. -/
structure Report where
  command : Nat
  ret : Int
  consumed : Option FinalResponse
  deriving DecidableEq, Repr

/-- `success` and `finalResponse` are the slot `atrep`; `holder` is the
owner of `s_command_mutex`; `reader` is the line whose `success` flag
`processLine` has set and whose `handleFinalResponse` is still to come. The
remaining fields are the modem's side and the history. -/
structure AtChannel where
  success : Bool
  finalResponse : Option FinalResponse
  holder : Option SyncCall
  reader : Option FinalResponse
  written : Nat
  unanswered : List Nat
  arriving : List FinalResponse
  handled : List FinalResponse
  reports : List Report
  deriving DecidableEq, Repr

/-- A channel after `atc_init`, with the zeroed `atrep` of a static object. -/
def atcInit : AtChannel where
  success := false
  finalResponse := none
  holder := none
  reader := none
  written := 0
  unanswered := []
  arriving := []
  handled := []
  reports := []

inductive WaitError where
  | none | invalid | timedOut
  deriving DecidableEq, Repr

/-- The end of a synchronous call: only a timeout leaves the slot alone, and
the return value is read from `success` whether the slot held a line or not. -/
def finish (s : AtChannel) (call : SyncCall) (err : WaitError) : AtChannel :=
  if err = .timedOut then
    { s with
      holder := none
      reports := s.reports ++ [{ command := call.command, ret := -2, consumed := none }] }
  else
    { s with
      holder := none
      finalResponse := none
      reports := s.reports ++
        [{ command := call.command, ret := if s.success then 0 else -3,
           consumed := s.finalResponse }] }

inductive Label where
  /-- `atc_send` with `sync = 0`: the command is written and the call is
  over. -/
  | sendAsync
  /-- `atc_send` with `sync ≠ 0`, up to the end of `writeline`. -/
  | sendSync (timeoutMs : Int)
  /-- The modem sends the final response to the oldest unanswered command. -/
  | modemAnswers (success : Bool)
  /-- `processLine` assigns `success`, without a lock. -/
  | readLine
  /-- `handleFinalResponse` replaces the slot and signals. -/
  | storeLine
  /-- The sender takes `response_cond_mutex` and checks the slot. -/
  | look (now : Timeval)
  /-- The wait ends because it was signalled. -/
  | wake
  /-- The wait ends without a signal, as POSIX allows. -/
  | spurious
  | timeout

/-- One step of one thread. `writeline` calls that fail leave the channel as
it was and are not steps. -/
def step (s : AtChannel) : Label → Option AtChannel
  | .sendAsync =>
      some { s with written := s.written + 1, unanswered := s.unanswered ++ [s.written] }
  | .sendSync timeoutMs =>
      if s.holder = none then
        some { s with
          holder := some { command := s.written, timeoutMs, phase := .written }
          written := s.written + 1
          unanswered := s.unanswered ++ [s.written] }
      else none
  | .modemAnswers success =>
      match s.unanswered with
      | [] => none
      | command :: rest =>
          some { s with unanswered := rest, arriving := s.arriving ++ [{ command, success }] }
  | .readLine =>
      match s.reader, s.arriving with
      | none, line :: rest =>
          some { s with success := line.success, reader := some line, arriving := rest }
      | _, _ => none
  | .storeLine =>
      match s.reader with
      | none => none
      | some line =>
          let holder := s.holder.map fun call =>
            match call.phase with
            | .written => call
            | .waiting timed _ => { call with phase := .waiting timed true }
          some { s with
            finalResponse := some line, reader := none, handled := s.handled ++ [line], holder }
  | .look now =>
      match s.holder with
      | some call =>
          if call.phase = .written then
            if s.finalResponse.isSome then some (finish s call .none)
            else if call.timeoutMs = 0 then
              some { s with holder := some { call with phase := .waiting false false } }
            else if (setTimespecRelative now call.timeoutMs).Valid then
              some { s with holder := some { call with phase := .waiting true false } }
            else some (finish s call .invalid)
          else none
      | none => none
  | .wake =>
      match s.holder with
      | some call =>
          match call.phase with
          | .waiting _ true => some (finish s call .none)
          | _ => none
      | none => none
  | .spurious =>
      match s.holder with
      | some call =>
          match call.phase with
          | .waiting _ false => some (finish s call .none)
          | _ => none
      | none => none
  | .timeout =>
      match s.holder with
      | some call =>
          match call.phase with
          | .waiting true _ => some (finish s call .timedOut)
          | _ => none
      | none => none

end Agps.Atc
