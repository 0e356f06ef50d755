import Gtexswifi.Agps.LineReader
import Gtexswifi.Agps.Parser
import Gtexswifi.Agps.WorkQueue

/-! The channels `atcs[2]`, their reader threads, and the callbacks that are
registered for unsolicited lines. A step is one call of a function by one
thread, or what a reader thread does between two waits. `α` are the
addresses of the queue items and `κ` the callbacks. -/
namespace Agps.Dispatch

open Atc LinkedItems Queues

/-- `"OK"` and `"CONNECT"`. -/
def finalResponsesSuccess : List (List UInt8) :=
  [[0x4f, 0x4b], [0x43, 0x4f, 0x4e, 0x4e, 0x45, 0x43, 0x54]]

/-- `"ERROR"`, `"+CMS ERROR:"`, `"+CME ERROR:"`, `"NO CARRIER"`, `"NO
ANSWER"` and `"NO DIALTONE"`. -/
def finalResponsesError : List (List UInt8) :=
  [[0x45, 0x52, 0x52, 0x4f, 0x52],
    [0x2b, 0x43, 0x4d, 0x53, 0x20, 0x45, 0x52, 0x52, 0x4f, 0x52, 0x3a],
    [0x2b, 0x43, 0x4d, 0x45, 0x20, 0x45, 0x52, 0x52, 0x4f, 0x52, 0x3a],
    [0x4e, 0x4f, 0x20, 0x43, 0x41, 0x52, 0x52, 0x49, 0x45, 0x52],
    [0x4e, 0x4f, 0x20, 0x41, 0x4e, 0x53, 0x57, 0x45, 0x52],
    [0x4e, 0x4f, 0x20, 0x44, 0x49, 0x41, 0x4c, 0x54, 0x4f, 0x4e, 0x45]]

def isFinalResponseSuccess (line : List UInt8) : Bool :=
  finalResponsesSuccess.any fun start => strStartsWith line start

def isFinalResponseError (line : List UInt8) : Bool :=
  finalResponsesError.any fun start => strStartsWith line start

def isFinalResponse (line : List UInt8) : Bool :=
  isFinalResponseSuccess line || isFinalResponseError line

/-- `struct at_unso_node`; the callback may be NULL. -/
structure UnsoNode (κ : Type) where
  prefixUnso : List UInt8
  cb : Option κ
  deriving DecidableEq

/-- The callback that is called for a line: that of the item, if the line
starts as it asks. -/
def UnsoNode.called {κ : Type} (unode : UnsoNode κ) (line : List UInt8) : Option κ :=
  if strStartsWith line unode.prefixUnso = true then unode.cb else none

/-- What the callbacks do with the line. All of them get the buffer of the
reader thread, not a copy, and a callback that cuts it with `strsep` leaves
a shorter string to the next one. They return, and write only inside the
string they get. -/
structure Callbacks (κ : Type) where
  leaves : κ → List UInt8 → List UInt8
  shortens : ∀ cb line, (leaves cb line).length ≤ line.length

/-- `atrep` holds the last final response with its `success` flag; `inHand`
is the line that `readline` has returned and `processLine` has not seen, and
`exited` tells that `readerLoop` is over. -/
structure AtChannel where
  reader : LineReader
  inHand : Option (List UInt8)
  exited : Bool
  atrep : Option (Bool × List UInt8)

/-- What has happened on a channel. -/
inductive Event (κ : Type) where
  | registered (atc : Fin 2) (unode : UnsoNode κ)
  | processed (atc : Fin 2) (line : List UInt8)
  deriving DecidableEq

structure State (α κ : Type) where
  fds : Fin 2 → Int
  atcs : Fin 2 → AtChannel
  queues : Queues.State (Fin 2) α (UnsoNode κ)
  /-- The calls of callbacks, with the strings they are given. -/
  calls : List (κ × List UInt8)
  log : List (Event κ)

variable {α κ : Type} [DecidableEq α]

/-- The static channels, with what their devices will deliver. -/
def State.init (streams : Fin 2 → List UInt8) : State α κ where
  fds _ := 0
  atcs i := { reader := .init (streams i), inHand := none, exited := false, atrep := none }
  queues := .init
  calls := []
  log := []

/-- `atc_init`, where `open` returns `fd` or the caller passes it. It starts
the reader thread and returns the channel. -/
def atcInit (fds : Fin 2 → Int) (fd : Int) : (Fin 2 → Int) × Option (Fin 2) :=
  match [0, 1].find? fun i => fds i ≤ 0 with
  | none => (fds, none)
  | some i => (Function.update fds i fd, if fd < 0 then none else some i)

/-- `atc_try_init`: NULL stands for the first channel, which is opened on
demand. -/
def atcTryInit (fds : Fin 2 → Int) (atc : Option (Fin 2)) (fd : Int) :
    (Fin 2 → Int) × Option (Fin 2) :=
  match atc with
  | some i => (fds, some i)
  | none => if fds 0 ≤ 0 then atcInit fds fd else (fds, some 0)

/-- `atc_register_unsolicited`. The queue of a channel that is not open is
NULL, and the registration is lost. -/
def atcRegisterUnsolicited (s : State α κ) (atc : Option (Fin 2)) (prefixUnso : List UInt8)
    (cb : Option κ) (workItem : α) (fd : Int) : Option (State α κ) :=
  match atcTryInit s.fds atc fd with
  | (fds, none) => some { s with fds }
  | (fds, some i) =>
      let unode := { prefixUnso, cb }
      if 0 < fds i then
        (workQueueAdd s.queues (some i) unode workItem).map fun queues =>
          { s with fds, queues, log := s.log ++ [.registered i unode] }
      else (workQueueAdd s.queues none unode workItem).map fun queues => { s with fds, queues }

/-- The loop of `match_unsolicited_cb` from `curr` on, where `line` is what
the buffer holds by then: the text of every item is compared with what the
callbacks before it have left, and its callback gets that. -/
def matchUnsolicitedCb (callbacks : Callbacks κ) (items : Items α (UnsoNode κ)) :
    Nat → Option α → List UInt8 → Option (List (κ × List UInt8))
  | _, none, _ => some []
  | 0, some _, _ => none
  | passes + 1, some curr, line => do
      let item ← items curr
      match item.data.called line with
      | none => matchUnsolicitedCb callbacks items passes item.next line
      | some cb =>
          (matchUnsolicitedCb callbacks items passes item.next (callbacks.leaves cb line)).map
            ((cb, line) :: ·)

/-- `processLine`. A final response goes to the slot of the channel, and any
other line to the callbacks. -/
def processLine (callbacks : Callbacks κ) (s : State α κ) (i : Fin 2) (line : List UInt8) :
    Option (State α κ) :=
  let log := s.log ++ [.processed i line]
  let channel := { s.atcs i with inHand := none }
  if isFinalResponseSuccess line = true then
    let channel := { channel with atrep := some (true, line) }
    some { s with atcs := Function.update s.atcs i channel, log }
  else if isFinalResponseError line = true then
    let channel := { channel with atrep := some (false, line) }
    some { s with atcs := Function.update s.atcs i channel, log }
  else
    (matchUnsolicitedCb callbacks s.queues.items s.queues.mallocs (s.queues.queues i).head
        line).map fun calls =>
      { s with atcs := Function.update s.atcs i channel, calls := s.calls ++ calls, log }

/-- One call of `readline` in `readerLoop`, which ends with NULL. -/
def readerLoop (s : State α κ) (i : Fin 2) (reads : List Nat) : Option (State α κ) :=
  (readline reads (s.atcs i).reader).map fun outcome =>
    let channel := match outcome.1 with
      | some line => { s.atcs i with reader := outcome.2, inHand := some line }
      | none => { s.atcs i with reader := outcome.2, exited := true }
    { s with atcs := Function.update s.atcs i channel }

inductive Label (α κ : Type) where
  | atcInit (fd : Int)
  | register (atc : Option (Fin 2)) (prefixUnso : List UInt8) (cb : Option κ) (workItem : α)
      (fd : Int)
  /-- The reader thread of a channel calls `readline`. -/
  | readLine (atc : Fin 2) (reads : List Nat)
  /-- The reader thread handles the line it has. -/
  | processLine (atc : Fin 2)

/-- The reader thread of a channel could call `readline`. -/
def Reads (s : State α κ) (i : Fin 2) : Prop :=
  0 < s.fds i ∧ (s.atcs i).exited = false ∧ (s.atcs i).inHand = none

instance (s : State α κ) (i : Fin 2) : Decidable (Reads s i) :=
  inferInstanceAs (Decidable (_ ∧ _ ∧ _))

/-- One step of one thread. `open` does not return 0. -/
def step (callbacks : Callbacks κ) (s : State α κ) : Label α κ → Option (State α κ)
  | .atcInit fd => if fd = 0 then none else some { s with fds := (Dispatch.atcInit s.fds fd).1 }
  | .register atc prefixUnso cb workItem fd =>
      if fd = 0 then none else atcRegisterUnsolicited s atc prefixUnso cb workItem fd
  | .readLine i reads => if Reads s i then readerLoop s i reads else none
  | .processLine i =>
      (s.atcs i).inHand.bind fun line => Dispatch.processLine callbacks s i line

end Agps.Dispatch
