import Gtexswifi.Library.Transition

/-! `upio_set` in the build with `BT_WAKE_VIA_PROC`. What `open`, `write`
and `timer_create` give comes with each call. -/
namespace Bluetooth.Upio

def upioBtWake : UInt8 := 0
def upioLpmMode : UInt8 := 2

def upioUnknown : UInt8 := 0
def upioDeassert : UInt8 := 1
def upioAssert : UInt8 := 2

/-- `BT_WAKE_PROC_DEASSERT` and `BT_WAKE_PROC_ASSERT`. -/
def btWakeProcDeassert : UInt8 := 0x32
def btWakeProcAssert : UInt8 := 0x31

/-- The entries of `upio_state` that are looked at, the descriptor of the
btwrite node, and the two flags of `lpm_proc_cb`. `openFds` are the
descriptors that the process has open, and `kicks` what the node was given. -/
structure State where
  btWake : UInt8
  lpmMode : UInt8
  fdBtwrite : Int
  btwriteActive : Bool
  timerCreated : Bool
  openFds : List Nat
  kicks : List UInt8
  deriving DecidableEq

/-- A call of `upio_set`: the descriptor that `open` would give it, if any,
and whether `timer_create` and `write` would succeed. -/
structure Call where
  pio : UInt8
  action : UInt8
  opened : Option Nat
  timerCreates : Bool
  writes : Bool

def upioInit (s : State) : State :=
  { s with
    btWake := upioUnknown
    lpmMode := upioUnknown
    btwriteActive := false
    timerCreated := false }

/-- The descriptor is forgotten, not closed. -/
def upioCleanup (s : State) : State := { s with timerCreated := false, fdBtwrite := -1 }

/-- `upio_start_stop_timer`, whose timer is not looked at again. -/
def upioStartStopTimer (action : UInt8) (s : State) : State :=
  if action = upioAssert then { s with btwriteActive := true } else s

def closeBtwrite (s : State) : State :=
  { s with openFds := s.openFds.filter (fun fd => (fd : Int) ≠ s.fdBtwrite), fdBtwrite := -1 }

/-- A descriptor from before is closed. -/
def releaseBtwrite (s : State) : State := if 0 < s.fdBtwrite then closeBtwrite s else s

/-- The timer for an assertion that is held, if there is none yet. -/
def createTimer (call : Call) (s : State) : State :=
  if call.action = upioAssert ∧ s.timerCreated = false ∧ call.timerCreates = true then
    { s with timerCreated := true }
  else s

/-- `case UPIO_LPM_MODE`. -/
def setLpmMode (s : State) (call : Call) : State :=
  if s.lpmMode = call.action then s
  else
    let s := releaseBtwrite { s with lpmMode := call.action }
    match call.opened with
    | none => { s with fdBtwrite := -1 }
    | some fd =>
        let s := createTimer call { s with fdBtwrite := fd, openFds := fd :: s.openFds }
        if call.action = upioDeassert then closeBtwrite s else s

/-- `case UPIO_BT_WAKE`, with the value of
`BT_WAKE_VIA_PROC_NOTIFY_DEASSERT`. -/
def setBtWake (notifyDeassert : Bool) (s : State) (call : Call) : State :=
  if s.btWake = call.action ∧ s.btwriteActive = true then upioStartStopTimer call.action s
  else
    let s := { s with btWake := call.action }
    if notifyDeassert = false ∧ call.action = upioDeassert then s
    else if s.fdBtwrite < 0 then s
    else
      let buffer := if call.action = upioDeassert then btWakeProcDeassert else btWakeProcAssert
      if call.writes = true then
        upioStartStopTimer call.action { s with kicks := s.kicks ++ [buffer] }
      else s

def upioSet (notifyDeassert : Bool) (s : State) (call : Call) : State :=
  if call.pio = upioLpmMode then setLpmMode s call
  else if call.pio = upioBtWake then setBtWake notifyDeassert s call
  else s

/-- What happens between `upio_init` and `upio_cleanup`: calls from outside,
and the timer, whose thread calls `upio_set` as well. -/
inductive Event
  | set (call : Call)
  | procBtwriteTimeout (writes : Bool)

def step (notifyDeassert : Bool) (s : State) : Event → Option State
  | .set call => some (upioSet notifyDeassert s call)
  | .procBtwriteTimeout writes =>
      some (upioSet notifyDeassert { s with btwriteActive := false }
        ⟨upioBtWake, upioDeassert, none, false, writes⟩)

/-- `fd_btwrite` is an open descriptor. -/
def State.Open (s : State) : Prop := ∃ fd ∈ s.openFds, s.fdBtwrite = fd

variable {notifyDeassert : Bool} {s : State} {call : Call}

@[simp] theorem releaseBtwrite_lpmMode (s : State) : (releaseBtwrite s).lpmMode = s.lpmMode := by
  unfold releaseBtwrite
  split <;> rfl

@[simp] theorem createTimer_lpmMode (call : Call) (s : State) :
    (createTimer call s).lpmMode = s.lpmMode := by
  unfold createTimer
  split <;> rfl

@[simp] theorem createTimer_fdBtwrite (call : Call) (s : State) :
    (createTimer call s).fdBtwrite = s.fdBtwrite := by
  unfold createTimer
  split <;> rfl

@[simp] theorem createTimer_openFds (call : Call) (s : State) :
    (createTimer call s).openFds = s.openFds := by
  unfold createTimer
  split <;> rfl

/-- A mode that is recorded already makes the call do nothing, be the
descriptor open or not. -/
theorem setLpmMode_same (h : s.lpmMode = call.action) : setLpmMode s call = s := if_pos h

/-- A request that is not a duplicate is recorded, whatever `open` gives. -/
theorem setLpmMode_recorded (h : s.lpmMode ≠ call.action) :
    (setLpmMode s call).lpmMode = call.action := by
  rw [setLpmMode, if_neg h]
  cases call.opened with
  | none => simp
  | some fd =>
      dsimp only
      split
      · simp [closeBtwrite]
      · simp

theorem setLpmMode_failed (h : s.lpmMode ≠ call.action) (hOpened : call.opened = none) :
    (setLpmMode s call).fdBtwrite = -1 := by
  rw [setLpmMode, if_neg h, hOpened]

/-- An open that succeeds for an assertion leaves its descriptor in use. -/
theorem setLpmMode_opened (h : s.lpmMode ≠ call.action) {fd : Nat} (hOpened : call.opened = some fd)
    (hAction : call.action ≠ upioDeassert) :
    (setLpmMode s call).fdBtwrite = fd ∧ fd ∈ (setLpmMode s call).openFds := by
  rw [setLpmMode, if_neg h, hOpened]
  simp [if_neg hAction]

/-- The other requests do not touch what concerns the low-power mode. -/
theorem setBtWake_keeps (notifyDeassert : Bool) (s : State) (call : Call) :
    (setBtWake notifyDeassert s call).lpmMode = s.lpmMode ∧
      (setBtWake notifyDeassert s call).fdBtwrite = s.fdBtwrite ∧
      (setBtWake notifyDeassert s call).openFds = s.openFds := by
  have hTimer (s : State) : (upioStartStopTimer call.action s).lpmMode = s.lpmMode ∧
      (upioStartStopTimer call.action s).fdBtwrite = s.fdBtwrite ∧
      (upioStartStopTimer call.action s).openFds = s.openFds := by
    unfold upioStartStopTimer
    split <;> exact ⟨rfl, rfl, rfl⟩
  unfold setBtWake
  dsimp only
  split
  · exact hTimer s
  · split
    · exact ⟨rfl, rfl, rfl⟩
    · split
      · exact ⟨rfl, rfl, rfl⟩
      · split
        · exact hTimer _
        · exact ⟨rfl, rfl, rfl⟩

theorem not_open_of_neg (h : s.fdBtwrite = -1) : ¬s.Open := by
  rintro ⟨fd, -, hFd⟩
  omega

/-- While `UPIO_LPM_MODE` is recorded as asserted the descriptor is open,
and while it is not, an assert tries to open it. -/
structure Matches (notifyDeassert : Bool) (s : State) : Prop where
  descriptor : s.lpmMode = upioAssert → s.Open
  retried : ¬s.Open → ∀ (fd : Nat) (timerCreates writes : Bool),
    (upioSet notifyDeassert s
      ⟨upioLpmMode, upioAssert, some fd, timerCreates, writes⟩).fdBtwrite = fd

/-- An assert that is not a duplicate gets its descriptor. -/
def OpensForAssert (s : State) : Event → Prop
  | .set call => call.pio = upioLpmMode → call.action = upioAssert → s.lpmMode ≠ upioAssert →
      call.opened ≠ none
  | .procBtwriteTimeout _ => True

/-- A state with an open descriptor for an asserted mode is one that
matches. -/
theorem matches_of_open (h : s.lpmMode = upioAssert → s.Open) : Matches notifyDeassert s where
  descriptor := h
  retried := by
    intro hClosed fd timerCreates writes
    have hMode : s.lpmMode ≠ upioAssert := fun hAssert => hClosed (h hAssert)
    have hGiven : upioAssert ≠ upioDeassert := by decide
    exact (@setLpmMode_opened s ⟨upioLpmMode, upioAssert, some fd, timerCreates, writes⟩
      hMode fd rfl hGiven).1

/-- The condition looks at the mode and the descriptors alone. -/
theorem open_of_keeps {t : State} (hMode : t.lpmMode = s.lpmMode)
    (hFd : t.fdBtwrite = s.fdBtwrite) (hFds : t.openFds = s.openFds)
    (h : s.lpmMode = upioAssert → s.Open) : t.lpmMode = upioAssert → t.Open := by
  intro hAssert
  obtain ⟨fd, hMem, hSame⟩ := h (hMode ▸ hAssert)
  exact ⟨fd, hFds ▸ hMem, hFd.trans hSame⟩

/-- A call keeps the mode and the descriptor together if and only if an
assert that it records gets its descriptor. -/
theorem upioSet_open_iff (h : s.lpmMode = upioAssert → s.Open) (call : Call) :
    ((upioSet notifyDeassert s call).lpmMode = upioAssert → (upioSet notifyDeassert s call).Open) ↔
      OpensForAssert s (.set call) := by
  unfold upioSet
  by_cases hLpm : call.pio = upioLpmMode
  · rw [if_pos hLpm]
    by_cases hSame : s.lpmMode = call.action
    · rw [setLpmMode_same hSame]
      exact iff_of_true h fun _ hAction hMode => absurd (hSame.trans hAction) hMode
    · rw [setLpmMode_recorded hSame]
      by_cases hAction : call.action = upioAssert
      · have hMode : s.lpmMode ≠ upioAssert := fun hMode => hSame (hMode.trans hAction.symm)
        cases hOpened : call.opened with
        | none =>
            refine iff_of_false ?_ fun hOpens => hOpens hLpm hAction hMode hOpened
            exact fun hOpen => not_open_of_neg (setLpmMode_failed hSame hOpened) (hOpen hAction)
        | some fd =>
            have hGiven : call.action ≠ upioDeassert := by
              rw [hAction]
              decide
            obtain ⟨hFd, hMem⟩ := setLpmMode_opened hSame hOpened hGiven
            refine iff_of_true (fun _ => ⟨fd, hMem, hFd⟩) fun _ _ _ => ?_
            rw [hOpened]
            exact Option.some_ne_none fd
      · exact iff_of_true (fun hAssert => absurd hAssert hAction)
          fun _ hAssert => absurd hAssert hAction
  · rw [if_neg hLpm]
    refine iff_of_true ?_ fun hPio => absurd hPio hLpm
    split
    · obtain ⟨hMode, hFd, hFds⟩ := setBtWake_keeps notifyDeassert s call
      exact open_of_keeps hMode hFd hFds h
    · exact h

/-- In every run from `upio_init` on, the recorded mode and the descriptor
match in all states exactly when every assert that is not a duplicate gets
its descriptor. -/
theorem lpmMode_matches_iff (notifyDeassert : Bool) (s : State) (events : List Event) :
    Transition.Safe (step notifyDeassert) (Matches notifyDeassert) (upioInit (upioCleanup s))
        events ↔
      Transition.Meets (step notifyDeassert) OpensForAssert (upioInit (upioCleanup s)) events := by
  have hStep (s : State) (event : Event) (h : s.lpmMode = upioAssert → s.Open) :
      ∃ t, step notifyDeassert s event = some t ∧
        ((t.lpmMode = upioAssert → t.Open) ↔ OpensForAssert s event) := by
    cases event with
    | set call => exact ⟨_, rfl, upioSet_open_iff h call⟩
    | procBtwriteTimeout writes =>
        refine ⟨_, rfl, ?_⟩
        have hCall := @upioSet_open_iff notifyDeassert { s with btwriteActive := false } h
          ⟨upioBtWake, upioDeassert, none, false, writes⟩
        have hPio : upioBtWake ≠ upioLpmMode := by decide
        exact hCall.trans (iff_of_true (fun hLpm => absurd hLpm hPio) trivial)
  have hUnknown : upioUnknown ≠ upioAssert := by decide
  refine @Transition.safe_iff_meets _ _ (step notifyDeassert) OpensForAssert
    (fun s => s.lpmMode = upioAssert → s.Open) (Matches notifyDeassert)
    (fun s => matches_of_open) ?_ ?_ ?_ _ (fun hAssert => absurd hAssert hUnknown) events
  · intro s event hInv
    obtain ⟨t, hRun, -⟩ := hStep s event hInv
    exact ⟨t, hRun⟩
  · intro s event t hInv hGuard hRun
    obtain ⟨t', hRun', hOpen⟩ := hStep s event hInv
    obtain rfl := Option.some.inj (hRun'.symm.trans hRun)
    exact hOpen.mpr hGuard
  · intro s event t hInv hRun hMatches
    obtain ⟨t', hRun', hOpen⟩ := hStep s event hInv
    obtain rfl := Option.some.inj (hRun'.symm.trans hRun)
    exact hOpen.mp hMatches.descriptor

/-- The state of the static variables. -/
def static : State := ⟨0, 0, -1, false, false, [], []⟩

/-- `upio_set(UPIO_LPM_MODE, UPIO_ASSERT, 0)` while the node cannot be
opened. -/
def failedAssert : Event := .set ⟨upioLpmMode, upioAssert, none, true, true⟩

/-- The assert is recorded without a descriptor, and the next one is taken
for a duplicate. -/
theorem failedAssert_recorded :
    ¬∀ (notifyDeassert : Bool) (s : State) (events : List Event),
      Transition.Safe (step notifyDeassert) (Matches notifyDeassert) (upioInit (upioCleanup s))
        events := by
  intro hClaim
  obtain ⟨t, hRun, hMatches⟩ := (hClaim true static [failedAssert]).last
  have hState : t = { upioInit static with lpmMode := upioAssert } :=
    (Option.some.inj hRun).symm
  obtain ⟨fd, hMem, -⟩ := hMatches.descriptor (by rw [hState])
  rw [hState] at hMem
  cases hMem

end Bluetooth.Upio
