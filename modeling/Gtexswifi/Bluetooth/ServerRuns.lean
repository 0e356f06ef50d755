import Gtexswifi.Bluetooth.Server
import Mathlib.Data.List.Count

/-! What holds of the server over whole runs, in every order of the steps of
its two threads and of the calls: what becomes of its descriptors, when a
thread finds no buffer, and when a shut-down returns. -/
namespace Bluetooth.Server

open Transition

variable {s t : State}

/-- The pair that a start has in its local variables. -/
def Main.locals : Main → List (Option Nat)
  | .pairTx fds | .pairRx fds => [some fds.1, some fds.2]
  | _ => []

def State.variables (s : State) : List (Option Nat) :=
  s.main.locals ++ [s.stackFd, s.vendorFd, s.near .rx, s.far .rx, s.near .tx, s.far .tx]

/-- The descriptors that are open are those of the variables, each one of a
single variable. -/
def State.Accounted (s : State) : Prop :=
  ∀ fd, s.variables.count (some fd) = if fd ∈ s.openFds then 1 else 0

/-- No pair but the first one of a start fails, and a thread gets a new pair
only when the variables of its old one have nothing left. -/
def State.Keeps (s : State) : Label → Prop
  | .socketpair none => s.main = .idle
  | .socketpair (some _) =>
      match s.main with
      | .pairTx _ => s.near .tx = none ∧ s.far .tx = none
      | .pairRx _ => s.near .rx = none ∧ s.far .rx = none
      | _ => True
  | _ => True

/-- The buffer of the side is there. -/
def Main.allocated : Main → Side → Bool
  | .allocStack, .rx => true
  | .running, _ | .stopTx, _ | .joinRead, _ | .joinWrite, _ | .close, _ => true
  | _, _ => false

/-- The thread of the side is not joined yet. -/
def Main.created : Main → Side → Bool
  | .createWrite, .rx | .joinWrite, .tx => true
  | .allocSerial, _ | .allocStack, _ | .running, _ | .stopTx, _ | .joinRead, _ => true
  | _, _ => false

/-- The start has created the thread of the side, and has still to allocate
its buffer. -/
def Main.window (main : Main) (side : Side) : Bool := main.created side && !main.allocated side

/-- The byte for the side is written. -/
def Main.stopping : Main → Side → Bool
  | .stopTx, .rx | .joinRead, _ | .joinWrite, _ | .close, _ => true
  | _, _ => false

/-- The next step is one of a start that has its sockets not yet in
`stack_fd` and `vendor_fd`. -/
def Main.pairing : Main → Bool
  | .idle | .pairTx _ | .pairRx _ => true
  | _ => false

/-- What the place of the calls tells of the variables. -/
structure Placed (s : State) : Prop where
  fds : s.main.pairing = true → s.stackFd = none ∧ s.vendorFd = none
  buffer : ∀ side, s.buffer side = s.main.allocated side
  thread : ∀ side, s.thread side ≠ .absent → s.main.created side = true
  stopped : ∀ side, s.main.stopping side = true → s.stopped side = true

/-- At the start there is no thread, no buffer and no descriptor. -/
theorem placed_init : Placed .init :=
  ⟨fun _ => ⟨rfl, rfl⟩, fun _ => rfl, fun _ h => absurd rfl h, fun _ => Bool.noConfusion⟩

/-- The steps, one by one. -/
inductive Moves (s : State) : Label → State → Prop
  | firstFails (hMain : s.main = .idle) : Moves s (.socketpair none) (startUpError s)
  | secondFails {fds : Nat × Nat} (hMain : s.main = .pairTx fds) :
      Moves s (.socketpair none) (startUpError s)
  | thirdFails {fds : Nat × Nat} (hMain : s.main = .pairRx fds) :
      Moves s (.socketpair none) (startUpError s)
  | first {fds : Nat × Nat} (hMain : s.main = .idle) (hFresh : fresh s fds) :
      Moves s (.socketpair (some fds)) { withPair s fds with main := .pairTx fds }
  | second {locals fds : Nat × Nat} (hMain : s.main = .pairTx locals) (hFresh : fresh s fds) :
      Moves s (.socketpair (some fds))
        { setPair (withPair s fds) .tx fds with main := .pairRx locals }
  | third {locals fds : Nat × Nat} (hMain : s.main = .pairRx locals) (hFresh : fresh s fds) :
      Moves s (.socketpair (some fds))
        { setPair (withPair s fds) .rx fds with
          main := .createRead, stackFd := some locals.1, vendorFd := some locals.2 }
  | createRead {created : Bool} (hMain : s.main = .createRead) :
      Moves s (.pthreadCreate created)
        { s with
          thread := Function.update s.thread .rx (if created = true then .looping else .absent)
          main := .createWrite }
  | createWrite {created : Bool} (hMain : s.main = .createWrite) :
      Moves s (.pthreadCreate created)
        { s with
          thread := Function.update s.thread .tx (if created = true then .looping else .absent)
          main := .allocSerial }
  | allocSerial (hMain : s.main = .allocSerial) :
      Moves s (.malloc true)
        { s with buffer := Function.update s.buffer .rx true, main := .allocStack }
  | allocStack (hMain : s.main = .allocStack) :
      Moves s (.malloc true)
        { s with buffer := Function.update s.buffer .tx true, main := .running }
  | shutDown (hMain : s.main = .running) :
      Moves s .shutDown { writeStop s .rx with main := .stopTx }
  | stopTx (hMain : s.main = .stopTx) : Moves s .goOn { writeStop s .tx with main := .joinRead }
  | joinRead (hMain : s.main = .joinRead) (hEnded : s.thread .rx = .ended) :
      Moves s .goOn
        { s with thread := Function.update s.thread .rx .absent, main := .joinWrite }
  | joinWrite (hMain : s.main = .joinWrite) (hEnded : s.thread .tx = .ended) :
      Moves s .goOn { s with thread := Function.update s.thread .tx .absent, main := .close }
  | close (hMain : s.main = .close) : Moves s .goOn (release s)
  | fails {side : Side} (hLooping : s.thread side = .looping) :
      Moves s (.select side .fails) { s with thread := Function.update s.thread side .ended }
  | stops {side : Side} (hLooping : s.thread side = .looping) (hStopped : s.stopped side = true) :
      Moves s (.select side .stops)
        { s with
          thread := Function.update s.thread side .ended
          near := Function.update s.near side none
          openFds := closed (s.near side) s.openFds }
  | data {side : Side} {complete : Bool} (hLooping : s.thread side = .looping)
      (hStopped : s.stopped side = false) :
      Moves s (.select side (.data complete))
        { s with
          thread := Function.update s.thread side (if complete = true then .looping else .reading)
          fault := s.fault || !s.buffer side }
  | parsed {side : Side} (hReading : s.thread side = .reading) :
      Moves s (.parsed side) { s with thread := Function.update s.thread side .looping }

/-- What a pair of sockets can do to the state: it opens two fresh
descriptors and holds them in the variables of the caller. -/
theorem moves_of_socketpair {fds : Option (Nat × Nat)} (h : socketpair s fds = some t) :
    Moves s (.socketpair fds) t := by
  unfold socketpair at h
  split at h
  · next hMain => exact Option.some.inj h ▸ .firstFails hMain
  · next hMain => exact Option.some.inj h ▸ .secondFails hMain
  · next hMain => exact Option.some.inj h ▸ .thirdFails hMain
  · next hMain =>
      obtain ⟨hFresh, hSome⟩ := Option.ite_none_right_eq_some.mp h
      exact Option.some.inj hSome ▸ .first hMain hFresh
  · next hMain =>
      obtain ⟨hFresh, hSome⟩ := Option.ite_none_right_eq_some.mp h
      exact Option.some.inj hSome ▸ .second hMain hFresh
  · next hMain =>
      obtain ⟨hFresh, hSome⟩ := Option.ite_none_right_eq_some.mp h
      exact Option.some.inj hSome ▸ .third hMain hFresh
  · cases h

/-- What a round of a thread can do to the state: it stores the data, goes
into a read, or ends. -/
theorem moves_of_select {side : Side} {ready : Ready} (h : select s side ready = some t) :
    Moves s (.select side ready) t := by
  obtain ⟨hLooping, hReady⟩ := Option.ite_none_left_eq_some.mp h
  have hLooping := not_not.mp hLooping
  cases ready with
  | fails => exact Option.some.inj hReady ▸ .fails hLooping
  | stops =>
      obtain ⟨hStopped, hSome⟩ := Option.ite_none_right_eq_some.mp hReady
      exact Option.some.inj hSome ▸ .stops hLooping hStopped
  | data complete =>
      obtain ⟨hStopped, hSome⟩ := Option.ite_none_left_eq_some.mp hReady
      exact Option.some.inj hSome ▸ .data hLooping (Bool.eq_false_iff.mpr hStopped)

/-- What each step can do to the state, said once. The invariants below are
read off it. -/
theorem moves_of_step {label : Label} (h : step s label = some t) : Moves s label t := by
  cases label with
  | socketpair fds => exact moves_of_socketpair h
  | pthreadCreate created =>
      rw [step, pthreadCreate] at h
      split at h
      · next hMain => exact Option.some.inj h ▸ .createRead hMain
      · next hMain => exact Option.some.inj h ▸ .createWrite hMain
      · cases h
  | malloc allocated =>
      obtain ⟨hAllocated, hMalloc⟩ := Option.ite_none_left_eq_some.mp h
      obtain rfl : allocated = true := Bool.eq_true_of_not_eq_false hAllocated
      split at hMalloc
      · next hMain => exact Option.some.inj hMalloc ▸ .allocSerial hMain
      · next hMain => exact Option.some.inj hMalloc ▸ .allocStack hMain
      · cases hMalloc
  | shutDown =>
      obtain ⟨hMain, hSome⟩ := Option.ite_none_right_eq_some.mp h
      exact Option.some.inj hSome ▸ .shutDown hMain
  | goOn =>
      rw [step, goOn] at h
      split at h
      · next hMain => exact Option.some.inj h ▸ .stopTx hMain
      · next hMain =>
          obtain ⟨hEnded, hSome⟩ := Option.ite_none_right_eq_some.mp h
          exact Option.some.inj hSome ▸ .joinRead hMain hEnded
      · next hMain =>
          obtain ⟨hEnded, hSome⟩ := Option.ite_none_right_eq_some.mp h
          exact Option.some.inj hSome ▸ .joinWrite hMain hEnded
      · next hMain => exact Option.some.inj h ▸ .close hMain
      · cases h
  | select side ready => exact moves_of_select h
  | parsed side =>
      obtain ⟨hReading, hSome⟩ := Option.ite_none_right_eq_some.mp h
      exact Option.some.inj hSome ▸ .parsed hReading

/-- While the pairs are made the descriptors of the server are not set. -/
theorem step_fds {label : Label} (h : Placed s) (hStep : step s label = some t)
    (hPairing : t.main.pairing = true) : t.stackFd = none ∧ t.vendorFd = none := by
  cases moves_of_step hStep with
  | firstFails | secondFails | thirdFails | close => exact ⟨rfl, rfl⟩
  | first hMain | second hMain => exact h.fds (by rw [hMain]; rfl)
  | fails | stops | data | parsed => exact h.fds hPairing
  | third | createRead | createWrite | allocSerial | allocStack | shutDown | stopTx | joinRead
  | joinWrite => cases hPairing

/-- A buffer is there exactly between its allocation and its release. -/
theorem step_buffer {label : Label} (h : Placed s) (hStep : step s label = some t) (side : Side) :
    t.buffer side = t.main.allocated side := by
  have hBuffer := h.buffer side
  cases moves_of_step hStep with
  | firstFails | secondFails | thirdFails | close => cases side <;> rfl
  | fails | stops | data | parsed => exact hBuffer
  | allocSerial hMain =>
      rw [hMain] at hBuffer
      cases side with
      | rx => rfl
      | tx => exact hBuffer
  | allocStack hMain =>
      rw [hMain] at hBuffer
      cases side with
      | rx => exact hBuffer
      | tx => rfl
  | first hMain | second hMain | third hMain | createRead hMain | createWrite hMain | shutDown hMain
  | stopTx hMain | joinRead hMain | joinWrite hMain =>
      rw [hMain] at hBuffer
      cases side <;> exact hBuffer

/-- A thread that makes a step was there. -/
theorem there_of_update {side other : Side} {thread next : Thread}
    (hThread : s.thread other = thread) (hOther : thread ≠ .absent)
    (hThere : Function.update s.thread other next side ≠ .absent) : s.thread side ≠ .absent := by
  by_cases hSide : side = other
  · rwa [hSide, hThread]
  · rwa [Function.update_of_ne hSide] at hThere

theorem step_thread {label : Label} (h : Placed s) (hStep : step s label = some t) {side : Side}
    (hThere : t.thread side ≠ .absent) : t.main.created side = true := by
  have hThread := h.thread side
  cases moves_of_step hStep with
  | fails hLooping | stops hLooping | data hLooping =>
      exact hThread (there_of_update hLooping (by decide) hThere)
  | parsed hReading => exact hThread (there_of_update hReading (by decide) hThere)
  | createRead hMain =>
      cases side with
      | rx => rfl
      | tx =>
          have hCreated := hThread hThere
          rw [hMain] at hCreated
          cases hCreated
  | createWrite => cases side <;> rfl
  | joinRead =>
      cases side with
      | rx => exact absurd rfl hThere
      | tx => rfl
  | joinWrite hMain =>
      cases side with
      | rx =>
          have hCreated := hThread hThere
          rw [hMain] at hCreated
          cases hCreated
      | tx => exact absurd rfl hThere
  | firstFails hMain | secondFails hMain | thirdFails hMain | first hMain | second hMain
  | third hMain | allocSerial hMain | allocStack hMain | shutDown hMain | stopTx hMain
  | close hMain =>
      have hCreated := hThread hThere
      rw [hMain] at hCreated
      cases side <;> exact hCreated

/-- Where the main thread is stopping a side, its flag has been set. -/
theorem step_stopped {label : Label} (h : Placed s) (hStep : step s label = some t) {side : Side}
    (hStopping : t.main.stopping side = true) : t.stopped side = true := by
  have hStopped := h.stopped side
  cases moves_of_step hStep with
  | fails | stops | data | parsed => exact hStopped hStopping
  | shutDown =>
      cases side with
      | rx => rfl
      | tx => cases hStopping
  | stopTx hMain =>
      rw [hMain] at hStopped
      cases side with
      | rx => exact hStopped rfl
      | tx => rfl
  | joinRead hMain | joinWrite hMain =>
      rw [hMain] at hStopped
      cases side <;> exact hStopped rfl
  | firstFails | secondFails | thirdFails | first | second | third | createRead | createWrite
  | allocSerial | allocStack | close => cases side <;> cases hStopping

/-- Each step keeps what is allocated, created and stopped in the place that
the main thread has come to. -/
theorem step_placed {label : Label} (h : Placed s) (hStep : step s label = some t) : Placed t :=
  ⟨step_fds h hStep, step_buffer h hStep, fun _ => step_thread h hStep,
    fun _ => step_stopped h hStep⟩

/-- How often a variable holds a descriptor. -/
def held (fd : Nat) (slot : Option Nat) : Nat := if slot = some fd then 1 else 0

/-- How often a descriptor is open. -/
def opened (fd : Nat) (openFds : Finset Nat) : Nat := if fd ∈ openFds then 1 else 0

@[simp] theorem held_none (fd : Nat) : held fd none = 0 := rfl

@[simp] theorem held_self (fd : Nat) : held fd (some fd) = 1 := if_pos rfl

theorem opened_le (fd : Nat) (openFds : Finset Nat) : opened fd openFds ≤ 1 := by
  unfold opened
  split <;> omega

/-- A descriptor that is closed is not open any more. -/
theorem opened_closed (fd : Nat) (slot : Option Nat) (openFds : Finset Nat) :
    opened fd (closed slot openFds) = opened fd openFds - held fd slot := by
  cases slot with
  | none => rfl
  | some other =>
      by_cases hSame : other = fd
      · subst hSame
        have hLe := opened_le other openFds
        rw [held_self, opened, closed, if_neg (Finset.notMem_erase other openFds)]
        omega
      · simp [opened, closed, held, hSame, Ne.symm hSame]

/-- Two fresh descriptors that are opened are held by the two ends of the
pair. -/
theorem opened_withPair (fd : Nat) {fds : Nat × Nat} (hFresh : fresh s fds) :
    opened fd (withPair s fds).openFds =
      opened fd s.openFds + held fd (some fds.1) + held fd (some fds.2) := by
  obtain ⟨hFirst, hSecond, hDiffer⟩ := hFresh
  have hMem : fd ∈ (withPair s fds).openFds ↔ fd = fds.1 ∨ fd = fds.2 ∨ fd ∈ s.openFds := by
    simp [withPair]
  by_cases hOne : fd = fds.1
  · subst hOne
    simp [opened, held, hMem, hFirst, Ne.symm hDiffer]
  · by_cases hTwo : fd = fds.2
    · subst hTwo
      simp [opened, held, hMem, hSecond, hDiffer]
    · simp [opened, held, hMem, hOne, hTwo, Ne.symm hOne, Ne.symm hTwo]

/-- Each descriptor is held by as many variables as it is open, which is at
most one. -/
theorem accounted_iff : s.Accounted ↔ ∀ fd, s.main.locals.count (some fd) + held fd s.stackFd +
    held fd s.vendorFd + held fd (s.near .rx) + held fd (s.far .rx) + held fd (s.near .tx) +
      held fd (s.far .tx) = opened fd s.openFds := by
  have hCount (fd : Nat) : s.variables.count (some fd) = s.main.locals.count (some fd) +
      held fd s.stackFd + held fd s.vendorFd + held fd (s.near .rx) + held fd (s.far .rx) +
        held fd (s.near .tx) + held fd (s.far .tx) := by
    simp only [State.variables, held, List.count_append, List.count_cons, List.count_nil,
      beq_iff_eq]
    omega
  simp only [State.Accounted, hCount, opened]

/-- Between `socketpair` and its stores the caller holds both ends. -/
theorem count_locals (fd : Nat) (fds : Nat × Nat) :
    (Main.pairTx fds).locals.count (some fd) = held fd (some fds.1) + held fd (some fds.2) ∧
      (Main.pairRx fds).locals.count (some fd) = held fd (some fds.1) + held fd (some fds.2) := by
  simp only [Main.locals, held, List.count_cons, List.count_nil, beq_iff_eq]
  omega

/-- The pair that a start has got is lost when it fails. -/
theorem startUpError_forgets {fds : Nat × Nat} (hPlaced : Placed s) (h : s.Accounted)
    (hMain : s.main = .pairTx fds ∨ s.main = .pairRx fds) : ¬(startUpError s).Accounted := by
  intro hNext
  have hLocals : s.main.locals.count (some fds.1) = 1 + held fds.1 (some fds.2) := by
    rcases hMain with hMain | hMain
    · rw [hMain, (count_locals fds.1 fds).1, held_self]
    · rw [hMain, (count_locals fds.1 fds).2, held_self]
  have hPairing : s.main.pairing = true := by
    rcases hMain with hMain | hMain
    · rw [hMain]
      rfl
    · rw [hMain]
      rfl
  obtain ⟨hStack, hVendor⟩ := hPlaced.fds hPairing
  have hBefore := accounted_iff.mp h fds.1
  have hBehind := accounted_iff.mp hNext fds.1
  simp only [hLocals, hStack, hVendor, held_none] at hBefore
  simp only [startUpError, hStack, hVendor, closed, held_none, Main.locals, List.count_nil]
    at hBehind
  omega

/-- What a thread's variables still hold. -/
theorem exists_held {first second : Option Nat} (h : ¬(first = none ∧ second = none)) :
    ∃ fd, 1 ≤ held fd first + held fd second := by
  cases first with
  | some fd => exact ⟨fd, by rw [held_self]; omega⟩
  | none =>
      cases second with
      | some fd => exact ⟨fd, by rw [held_self]; omega⟩
      | none => exact absurd ⟨rfl, rfl⟩ h

/-- A new pair for `sitm_write_th`. -/
theorem second_accounted {locals fds : Nat × Nat} (h : s.Accounted)
    (hMain : s.main = .pairTx locals) (hFresh : fresh s fds) :
    ({ setPair (withPair s fds) .tx fds with main := .pairRx locals } : State).Accounted ↔
      s.near .tx = none ∧ s.far .tx = none := by
  have hBefore (fd : Nat) := accounted_iff.mp h fd
  have hOpened (fd : Nat) := opened_withPair fd hFresh
  simp only [hMain, count_locals] at hBefore
  simp only [accounted_iff, setPair, Function.update_self, Function.update_of_ne, ne_eq,
    reduceCtorEq, not_false_eq_true, count_locals, hOpened, withPair_stackFd, withPair_vendorFd,
    withPair_near, withPair_far]
  constructor
  · intro hNext
    by_contra hOld
    obtain ⟨fd, hHeld⟩ := exists_held hOld
    have hBehind := hNext fd
    have hFd := hBefore fd
    omega
  · rintro ⟨hNear, hFar⟩ fd
    have hFd := hBefore fd
    rw [hNear, hFar, held_none] at hFd
    omega

/-- A new pair for `sitm_read_th`, and the sockets of the start in their
variables. -/
theorem third_accounted {locals fds : Nat × Nat} (hPlaced : Placed s) (h : s.Accounted)
    (hMain : s.main = .pairRx locals) (hFresh : fresh s fds) :
    ({ setPair (withPair s fds) .rx fds with
      main := .createRead, stackFd := some locals.1, vendorFd := some locals.2 } :
        State).Accounted ↔ s.near .rx = none ∧ s.far .rx = none := by
  obtain ⟨hStack, hVendor⟩ := hPlaced.fds (by rw [hMain]; rfl)
  have hBefore (fd : Nat) := accounted_iff.mp h fd
  have hOpened (fd : Nat) := opened_withPair fd hFresh
  simp only [hMain, count_locals, hStack, hVendor, held_none] at hBefore
  simp only [accounted_iff, setPair, Function.update_self, Function.update_of_ne, ne_eq,
    reduceCtorEq, not_false_eq_true, Main.locals, List.count_nil, hOpened, withPair_near,
    withPair_far]
  constructor
  · intro hNext
    by_contra hOld
    obtain ⟨fd, hHeld⟩ := exists_held hOld
    have hBehind := hNext fd
    have hFd := hBefore fd
    omega
  · rintro ⟨hNear, hFar⟩ fd
    have hFd := hBefore fd
    rw [hNear, hFar, held_none] at hFd
    omega

theorem release_accounted (h : s.Accounted) (hMain : s.main = .close) :
    (release s).Accounted := by
  rw [accounted_iff]
  intro fd
  have hFd := accounted_iff.mp h fd
  simp only [hMain, Main.locals, List.count_nil] at hFd
  simp only [release, opened_closed, held_none, Main.locals, List.count_nil]
  omega

/-- One step keeps the account except where it forgets a descriptor or
closes one that another variable holds. -/
theorem step_accounted {label : Label} (hPlaced : Placed s) (h : s.Accounted)
    (hStep : step s label = some t) : t.Accounted ↔ s.Keeps label := by
  have hSum := accounted_iff.mp h
  rw [accounted_iff]
  cases moves_of_step hStep with
  | firstFails hMain =>
      obtain ⟨hStack, hVendor⟩ := hPlaced.fds (by rw [hMain]; rfl)
      refine iff_of_true (fun fd => ?_) hMain
      have hFd := hSum fd
      rw [hMain, hStack, hVendor] at hFd
      simp only [startUpError, hStack, hVendor]
      exact hFd
  | secondFails hMain =>
      exact iff_of_false (fun hNext => startUpError_forgets hPlaced h (Or.inl hMain)
        (accounted_iff.mpr hNext)) (by rw [State.Keeps, hMain]; exact Main.noConfusion)
  | thirdFails hMain =>
      exact iff_of_false (fun hNext => startUpError_forgets hPlaced h (Or.inr hMain)
        (accounted_iff.mpr hNext)) (by rw [State.Keeps, hMain]; exact Main.noConfusion)
  | first hMain hFresh =>
      refine iff_of_true (fun fd => ?_) (by rw [State.Keeps, hMain]; trivial)
      have hFd := hSum fd
      have hOpened := opened_withPair fd hFresh
      rw [hMain] at hFd
      rw [hOpened, (count_locals fd _).1]
      simp only [Main.locals, List.count_nil] at hFd
      change _ + held fd s.stackFd + held fd s.vendorFd + held fd (s.near .rx) +
        held fd (s.far .rx) + held fd (s.near .tx) + held fd (s.far .tx) = _
      omega
  | second hMain hFresh =>
      rw [← accounted_iff, second_accounted h hMain hFresh, State.Keeps, hMain]
  | third hMain hFresh =>
      rw [← accounted_iff, third_accounted hPlaced h hMain hFresh, State.Keeps, hMain]
  | createRead hMain | createWrite hMain | allocSerial hMain | allocStack hMain | shutDown hMain
  | stopTx hMain | joinRead hMain | joinWrite hMain =>
      refine iff_of_true (fun fd => ?_) trivial
      have hFd := hSum fd
      rw [hMain] at hFd
      exact hFd
  | close hMain => exact iff_of_true (accounted_iff.mp (release_accounted h hMain)) trivial
  | fails | data | parsed => exact iff_of_true hSum trivial
  | stops =>
      next side _ _ =>
      refine iff_of_true (fun fd => ?_) trivial
      have hFd := hSum fd
      rw [opened_closed]
      cases side with
      | rx =>
          simp only [Function.update_self, Function.update_of_ne, ne_eq, reduceCtorEq,
            not_false_eq_true, held_none]
          omega
      | tx =>
          simp only [Function.update_self, Function.update_of_ne, ne_eq, reduceCtorEq,
            not_false_eq_true, held_none]
          omega

theorem accounted_init : State.init.Accounted := fun fd => by
  simp [State.init, State.variables, Main.locals]

/-- No thread gets data between its creation and the allocation of its
buffer. -/
def State.Prompt (s : State) : Label → Prop
  | .select side (.data _) => s.main.window side = false
  | _ => True

/-- One step faults exactly where a thread touches a buffer that is gone or
was never there. -/
theorem step_fault {label : Label} (h : Placed s) (hFault : s.fault = false)
    (hStep : step s label = some t) : t.fault = false ↔ s.Prompt label := by
  cases moves_of_step hStep with
  | data hLooping =>
      next side _ _ =>
      have hThere : s.thread side ≠ .absent := by rw [hLooping]; decide
      rw [State.Prompt, Main.window, h.thread side hThere, ← h.buffer side, hFault,
        Bool.false_or, Bool.true_and]
  | _ => exact iff_of_true hFault trivial

/-- The start has returned, and the shut-down has not. -/
def Main.started : Main → Bool
  | .running | .stopTx | .joinRead | .joinWrite | .close => true
  | _ => false

/-- The shut-down has still to join the thread of the side. -/
def Main.awaits : Main → Side → Bool
  | .running, _ | .stopTx, _ | .joinRead, _ | .joinWrite, .tx => true
  | _, _ => false

/-- A thread that comes to its end without the devices: it looks at its
pair, or has ended. -/
def Thread.joinable : Thread → Bool
  | .looping | .ended => true
  | .absent | .reading => false

/-- A step that needs nothing from the devices, neither data nor the rest of
a frame. -/
def Label.silent : Label → Prop
  | .select _ (.data _) | .parsed _ => False
  | _ => True

/-- The steps of a shut-down and of the threads meanwhile leave its place
between the two returns, or come to the second. -/
theorem step_started {label : Label} (hStarted : s.main.started = true)
    (hStep : step s label = some t) : t.main = .idle ∨ t.main.started = true := by
  cases moves_of_step hStep with
  | close => exact Or.inl rfl
  | fails | stops | data | parsed => exact Or.inr hStarted
  | shutDown | stopTx | joinRead | joinWrite => exact Or.inr rfl
  | firstFails hMain | secondFails hMain | thirdFails hMain | first hMain | second hMain
  | third hMain | createRead hMain | createWrite hMain | allocSerial hMain | allocStack hMain =>
      rw [hMain] at hStarted
      cases hStarted

/-- A shut-down has still to join a thread that is not there, or that waits
in `parse_frame`. -/
structure Stuck (thread : Thread) (side : Side) (s : State) : Prop where
  started : s.main.started = true
  awaits : s.main.awaits side = true
  stays : s.thread side = thread

/-- A thread that was not created is never joined, and one that waits in
`parse_frame` is not joined before the devices have done something. -/
theorem step_stuck {thread : Thread} {side : Side} {label : Label}
    (hThread : thread.joinable = false) (hLabel : thread = .absent ∨ label.silent)
    (h : Stuck thread side s) (hStep : step s label = some t) : Stuck thread side t := by
  obtain ⟨hStarted, hAwaits, rfl⟩ := h
  have hStays {other : Side} (next : Thread) (hOther : s.thread other ≠ s.thread side) :
      Function.update s.thread other next side = s.thread side :=
    Function.update_of_ne (fun hSame => hOther (congrArg s.thread hSame.symm)) _ _
  have hNe {thread : Thread} (hJoinable : thread.joinable = true) : thread ≠ s.thread side :=
    fun hSame => by
      rw [← hSame, hJoinable] at hThread
      cases hThread
  cases moves_of_step hStep with
  | fails hLooping | stops hLooping | data hLooping =>
      exact ⟨hStarted, hAwaits, hStays _ (by rw [hLooping]; exact hNe rfl)⟩
  | parsed hReading =>
      refine ⟨hStarted, hAwaits, hStays _ fun hSame => ?_⟩
      rcases hLabel with hAbsent | hSilent
      · cases hReading.symm.trans (hSame.trans hAbsent)
      · exact hSilent
  | shutDown | stopTx => exact ⟨rfl, by cases side <;> rfl, rfl⟩
  | joinRead hMain hEnded =>
      cases side with
      | rx => exact absurd hEnded.symm (hNe rfl)
      | tx => exact ⟨rfl, rfl, rfl⟩
  | joinWrite hMain hEnded =>
      cases side with
      | rx =>
          rw [hMain] at hAwaits
          cases hAwaits
      | tx => exact absurd hEnded.symm (hNe rfl)
  | close hMain =>
      rw [hMain] at hAwaits
      cases side <;> cases hAwaits
  | firstFails hMain | secondFails hMain | thirdFails hMain | first hMain | second hMain
  | third hMain | createRead hMain | createWrite hMain | allocSerial hMain | allocStack hMain =>
      rw [hMain] at hStarted
      cases hStarted

/-- All threads that a shut-down has still to join come to their ends by
themselves. -/
structure Joining (s : State) : Prop where
  placed : Placed s
  started : s.main = .idle ∨ s.main.started = true
  joinable : ∀ side, s.main.awaits side = true → (s.thread side).joinable = true

/-- The steps that a shut-down has still to make, and its threads. -/
def Main.left : Main → Nat
  | .running => 5
  | .stopTx => 4
  | .joinRead => 3
  | .joinWrite => 2
  | .close => 1
  | _ => 0

def Thread.left : Thread → Nat
  | .looping => 1
  | _ => 0

def State.left (s : State) : Nat := s.main.left + (s.thread .rx).left + (s.thread .tx).left

/-- A thread that moves on has fewer steps left, and so has the state. -/
theorem left_lt {side : Side} {next : Thread}
    (hThread : t.thread = Function.update s.thread side next)
    (hLess : t.main.left + next.left < s.main.left + (s.thread side).left) : t.left < s.left := by
  rw [State.left, State.left, hThread]
  cases side with
  | rx =>
      rw [Function.update_self, Function.update_of_ne (by decide)]
      omega
  | tx =>
      rw [Function.update_self, Function.update_of_ne (by decide)]
      omega

theorem joinable_of_ended {side other : Side} (h : (s.thread side).joinable = true) :
    (Function.update s.thread other .ended side).joinable = true := by
  by_cases hSame : side = other
  · rw [hSame, Function.update_self]
    rfl
  · rwa [Function.update_of_ne hSame]

/-- Without the devices, a shut-down comes nearer to its end with every
step. -/
theorem step_joining {label : Label} (h : Joining s) (hBusy : s.main ≠ .idle)
    (hSilent : label.silent) (hStep : step s label = some t) : Joining t ∧ t.left < s.left := by
  have hStarted := h.started.resolve_left hBusy
  have hPlaced := step_placed h.placed hStep
  have hNext := step_started hStarted hStep
  have hJoinable := h.joinable
  cases moves_of_step hStep with
  | fails hLooping | stops hLooping =>
      exact ⟨⟨hPlaced, hNext, fun side hAwaits => joinable_of_ended (hJoinable side hAwaits)⟩,
        left_lt rfl (by rw [hLooping]; exact Nat.lt_succ_self _)⟩
  | data | parsed => exact hSilent.elim
  | shutDown hMain | stopTx hMain =>
      rw [hMain] at hJoinable
      refine ⟨⟨hPlaced, hNext, fun side _ => hJoinable side (by cases side <;> rfl)⟩, ?_⟩
      simp only [State.left, writeStop, hMain, Main.left]
      omega
  | joinRead hMain hEnded =>
      rw [hMain] at hJoinable
      refine ⟨⟨hPlaced, hNext, fun side hAwaits => ?_⟩, ?_⟩
      · cases side with
        | rx => cases hAwaits
        | tx => exact hJoinable .tx rfl
      · refine left_lt rfl ?_
        rw [hMain]
        exact Nat.lt_add_right _ (Nat.lt_succ_self 2)
  | joinWrite hMain hEnded =>
      refine ⟨⟨hPlaced, hNext, fun side hAwaits => by cases side <;> cases hAwaits⟩, ?_⟩
      refine left_lt rfl ?_
      rw [hMain]
      exact Nat.lt_add_right _ (Nat.lt_succ_self 1)
  | close hMain =>
      refine ⟨⟨hPlaced, hNext, fun side hAwaits => by cases side <;> cases hAwaits⟩, ?_⟩
      simp only [State.left, release, hMain, Main.left]
      omega
  | firstFails hMain | secondFails hMain | thirdFails hMain | first hMain | second hMain
  | third hMain | createRead hMain | createWrite hMain | allocSerial hMain | allocStack hMain =>
      rw [hMain] at hStarted
      cases hStarted

/-- The next step of a shut-down is its own, or the end of the thread that
it waits for. -/
theorem exists_step_join {side : Side} {next : Main} (hGoOn : goOn s = join s side next)
    (hJoinable : (s.thread side).joinable = true) (hStopped : s.stopped side = true) :
    ∃ label t, label.silent ∧ step s label = some t := by
  cases hThread : s.thread side with
  | absent | reading =>
      rw [hThread] at hJoinable
      cases hJoinable
  | looping =>
      have hStep : (step s (.select side .stops)).isSome := by
        rw [step, select, if_neg (not_not.mpr hThread)]
        simp only [if_pos hStopped, Option.isSome_some]
      obtain ⟨t, hStep⟩ := Option.isSome_iff_exists.mp hStep
      exact ⟨.select side .stops, t, trivial, hStep⟩
  | ended => exact ⟨.goOn, _, trivial, hGoOn.trans (if_pos hThread)⟩

/-- As long as the main thread joins there is a step, and it is one that
needs nothing from outside. -/
theorem exists_step (hJoining : Joining s) (hBusy : s.main ≠ .idle) :
    ∃ label t, label.silent ∧ step s label = some t := by
  have hStarted := hJoining.started.resolve_left hBusy
  cases hMain : s.main with
  | running => exact ⟨.shutDown, _, trivial, if_pos hMain⟩
  | stopTx => exact ⟨.goOn, _, trivial, by rw [step, goOn, hMain]⟩
  | joinRead =>
      exact exists_step_join (by rw [goOn, hMain]) (hJoining.joinable .rx (by rw [hMain]; rfl))
        (hJoining.placed.stopped .rx (by rw [hMain]; rfl))
  | joinWrite =>
      exact exists_step_join (by rw [goOn, hMain]) (hJoining.joinable .tx (by rw [hMain]; rfl))
        (hJoining.placed.stopped .tx (by rw [hMain]; rfl))
  | close => exact ⟨.goOn, _, trivial, by rw [step, goOn, hMain]⟩
  | _ =>
      rw [hMain] at hStarted
      cases hStarted

/-- Steps lead back to where no call is under way. -/
def Returns (s : State) : Prop := ∃ labels t, run step s labels = some t ∧ t.main = .idle

/-- Whatever the order of the steps, and though the devices give nothing
more, they lead back to where no call is under way. -/
def ReturnsAlone (s : State) : Prop :=
  Inevitable step Label.silent (fun t => t.main = .idle) s

/-- The steps that are left are a measure that every step lowers, so that
the shutdown returns in whatever order they come. -/
theorem Joining.returnsAlone (h : Joining s) : ReturnsAlone s :=
  inevitable_of_measure State.left (fun _ => exists_step) (fun _ _ _ => step_joining) h

/-- The devices can wake a thread that is there. -/
theorem exists_woken (side : Side) : ∃ labels t, run step s labels = some t ∧ t.main = s.main ∧
    (s.thread side ≠ .absent → (t.thread side).joinable = true) ∧
    ∀ other, other ≠ side → t.thread other = s.thread other := by
  cases hThread : s.thread side with
  | absent => exact ⟨[], s, rfl, rfl, fun hThere => absurd rfl hThere, fun _ _ => rfl⟩
  | looping | ended => exact ⟨[], s, rfl, rfl, fun _ => by rw [hThread]; rfl, fun _ _ => rfl⟩
  | reading =>
      refine ⟨[.parsed side], { s with thread := Function.update s.thread side .looping }, ?_, rfl,
        fun _ => ?_, fun other hOther => Function.update_of_ne hOther _ _⟩
      · rw [run_cons, step, parsed, if_pos hThread]
        rfl
      · dsimp only
        rw [Function.update_self]
        rfl

/-- A start, half a frame of the UART, and a thread that `select` fails in. -/
def startLabels : List Label :=
  [.socketpair (some (3, 4)), .socketpair (some (5, 6)), .socketpair (some (7, 8)),
    .pthreadCreate true, .pthreadCreate true, .malloc true, .malloc true,
    .select .rx (.data false), .select .tx .fails]

end Bluetooth.Server
