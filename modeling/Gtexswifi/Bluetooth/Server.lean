import Gtexswifi.Library.Transition
import Mathlib.Data.Finset.Erase
import Mathlib.Data.Finset.Insert

/-! `sitm_server_start_up`, `sitm_server_shut_down` and the two threads
between them, as steps that come in any order. The calls come in turn, and a
label carries what the system answers. `none` is a step that is not due, or
undefined behaviour. -/
namespace Bluetooth.Server

open Transition

/-- `sitm_read_th` with `rx_fds`, and `sitm_write_th` with `tx_fds`. -/
inductive Side
  | rx
  | tx
  deriving DecidableEq

/-- Where the calls are: the step that comes next. `fds` is a local variable
of the start. -/
inductive Main
  | idle
  | pairTx (fds : Nat × Nat)
  | pairRx (fds : Nat × Nat)
  | createRead
  | createWrite
  | allocSerial
  | allocStack
  | running
  | stopTx
  | joinRead
  | joinWrite
  | close
  deriving DecidableEq

/-- A thread waits in `select`, or in a read of `parse_frame` for the rest
of a frame, or is behind its loop. -/
inductive Thread
  | absent
  | looping
  | reading
  | ended
  deriving DecidableEq

/-- What `select` returns: an error, the end of the thread's pair, or the
descriptor with data. Then `complete` tells whether `parse_frame` comes to
its end with what is there: a frame is complete, or a read fails. -/
inductive Ready
  | fails
  | stops
  | data (complete : Bool)
  deriving DecidableEq

/-- The globals, with `none` for `INVALID_FD` and a flag for a buffer that
is there. The end that a thread looks at is `near`. `openFds` is what is
open, and `stopped` tells of a byte that waits there. `fault` is set where
`parse_frame` gets no buffer. -/
structure State where
  main : Main
  stackFd : Option Nat
  vendorFd : Option Nat
  near : Side → Option Nat
  far : Side → Option Nat
  stopped : Side → Bool
  thread : Side → Thread
  buffer : Side → Bool
  openFds : Finset Nat
  fault : Bool

def State.init : State where
  main := .idle
  stackFd := none
  vendorFd := none
  near := fun _ => none
  far := fun _ => none
  stopped := fun _ => false
  thread := fun _ => .absent
  buffer := fun _ => false
  openFds := ∅
  fault := false

inductive Label
  | socketpair (fds : Option (Nat × Nat))
  | pthreadCreate (created : Bool)
  | malloc (allocated : Bool)
  | shutDown
  | goOn
  | select (side : Side) (ready : Ready)
  /-- The rest of the frame that a thread waits for has come, or its read
  has failed. -/
  | parsed (side : Side)
  deriving DecidableEq

/-- `close`, unless the variable has no descriptor. -/
def closed (fd : Option Nat) (openFds : Finset Nat) : Finset Nat :=
  match fd with
  | none => openFds
  | some fd => openFds.erase fd

/-- The label `error` of `sitm_server_start_up`. -/
def startUpError (s : State) : State :=
  { s with
    main := .idle
    stackFd := none
    vendorFd := none
    buffer := fun _ => false
    openFds := closed s.vendorFd (closed s.stackFd s.openFds) }

/-- A pair that `socketpair` returns has two descriptors that were not open. -/
def fresh (s : State) (fds : Nat × Nat) : Prop :=
  fds.1 ∉ s.openFds ∧ fds.2 ∉ s.openFds ∧ fds.1 ≠ fds.2

instance (s : State) (fds : Nat × Nat) : Decidable (fresh s fds) :=
  inferInstanceAs (Decidable (_ ∧ _))

def withPair (s : State) (fds : Nat × Nat) : State :=
  { s with openFds := insert fds.1 (insert fds.2 s.openFds) }

@[simp] theorem withPair_stackFd (s : State) (fds : Nat × Nat) :
    (withPair s fds).stackFd = s.stackFd := rfl

@[simp] theorem withPair_vendorFd (s : State) (fds : Nat × Nat) :
    (withPair s fds).vendorFd = s.vendorFd := rfl

@[simp] theorem withPair_near (s : State) (fds : Nat × Nat) : (withPair s fds).near = s.near := rfl

@[simp] theorem withPair_far (s : State) (fds : Nat × Nat) : (withPair s fds).far = s.far := rfl

/-- The pair of a thread. -/
def setPair (s : State) (side : Side) (fds : Nat × Nat) : State :=
  { s with
    near := Function.update s.near side (some fds.1)
    far := Function.update s.far side (some fds.2)
    stopped := Function.update s.stopped side false }

/-- The three pairs of a start, and the assignments behind them. -/
def socketpair (s : State) (fds : Option (Nat × Nat)) : Option State :=
  match s.main, fds with
  | .idle, none => some (startUpError s)
  | .pairTx _, none => some (startUpError s)
  | .pairRx _, none => some (startUpError s)
  | .idle, some fds =>
      if fresh s fds then some { withPair s fds with main := .pairTx fds } else none
  | .pairTx locals, some fds =>
      if fresh s fds then some { setPair (withPair s fds) .tx fds with main := .pairRx locals }
      else none
  | .pairRx locals, some fds =>
      if fresh s fds then
        some { setPair (withPair s fds) .rx fds with
          main := .createRead, stackFd := some locals.1, vendorFd := some locals.2 }
      else none
  | _, _ => none

/-- `pthread_create` returns no negative number, so a thread that is not
created is not noticed. -/
def pthreadCreate (s : State) (created : Bool) : Option State :=
  let thread := if created = true then .looping else .absent
  match s.main with
  | .createRead =>
      some { s with thread := Function.update s.thread .rx thread, main := .createWrite }
  | .createWrite =>
      some { s with thread := Function.update s.thread .tx thread, main := .allocSerial }
  | _ => none

/-- A buffer is cleared before it is compared with `NULL`. -/
def malloc (s : State) (allocated : Bool) : Option State :=
  if allocated = false then none
  else match s.main with
    | .allocSerial =>
        some { s with buffer := Function.update s.buffer .rx true, main := .allocStack }
    | .allocStack => some { s with buffer := Function.update s.buffer .tx true, main := .running }
    | _ => none

/-- The byte for a thread. -/
def writeStop (s : State) (side : Side) : State :=
  { s with stopped := Function.update s.stopped side true }

/-- `pthread_join` returns when the thread has ended. -/
def join (s : State) (side : Side) (next : Main) : Option State :=
  if s.thread side = .ended then
    some { s with thread := Function.update s.thread side .absent, main := next }
  else none

/-- The end of `sitm_server_shut_down`. -/
def release (s : State) : State :=
  { s with
    main := .idle
    stackFd := none
    vendorFd := none
    far := fun _ => none
    buffer := fun _ => false
    openFds := closed s.vendorFd (closed s.stackFd (closed (s.far .tx) (closed (s.far .rx)
      s.openFds))) }

/-- The steps of `sitm_server_shut_down` behind the first one. -/
def goOn (s : State) : Option State :=
  match s.main with
  | .stopTx => some { writeStop s .tx with main := .joinRead }
  | .joinRead => join s .rx .joinWrite
  | .joinWrite => join s .tx .close
  | .close => some (release s)
  | _ => none

/-- A round of a thread, from its `select` to its next wait. The pair is
looked at first. With data on the descriptor, the reads of `parse_frame`
follow one another until it returns, and a thread that has not got its whole
frame stays in one of them: there it does not look at its pair any more. -/
def select (s : State) (side : Side) (ready : Ready) : Option State :=
  if s.thread side ≠ .looping then none
  else match ready with
    | .fails => some { s with thread := Function.update s.thread side .ended }
    | .stops =>
        if s.stopped side = true then
          some { s with
            thread := Function.update s.thread side .ended
            near := Function.update s.near side none
            openFds := closed (s.near side) s.openFds }
        else none
    | .data complete =>
        if s.stopped side = true then none
        else some { s with
          thread := Function.update s.thread side (if complete = true then .looping else .reading)
          fault := s.fault || !s.buffer side }

/-- The end of a `parse_frame` that has waited. -/
def parsed (s : State) (side : Side) : Option State :=
  if s.thread side = .reading then
    some { s with thread := Function.update s.thread side .looping }
  else none

def step (s : State) : Label → Option State
  | .socketpair fds => socketpair s fds
  | .pthreadCreate created => pthreadCreate s created
  | .malloc allocated => malloc s allocated
  | .shutDown =>
      if s.main = .running then some { writeStop s .rx with main := .stopTx } else none
  | .goOn => goOn s
  | .select side ready => select s side ready
  | .parsed side => parsed s side

end Bluetooth.Server
