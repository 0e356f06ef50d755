import Gtexswifi.Bluetooth.Upio

/-! The vendor library between the Bluetooth stack and the chip, in the
builds for the marlin and the marlin2 adapter: the interface functions, the
commands that are with the chip, and the callbacks for its answers. The chip
answers its commands in their order. -/
namespace Bluetooth.Vendor

open Upio

inductive Adapter where
  | marlin | marlin2
  deriving DecidableEq, Repr

/-- A command of `xmit_cb`, with its callback: `HCI_PSKEY`, or
`HCI_VSC_ENABLE_COMMMAND` with `ENABLE_BT` or `DISABLE_BT`. -/
inductive Command where
  | pskey
  | core (enable : Bool)
  deriving DecidableEq, Repr

/-- A callback of the stack that reports success. -/
inductive Report where
  | fwcfg | scocfg | lpm | epilog
  deriving DecidableEq, Repr

/-- `userial_debug_timer`: NULL, or a pointer, and whether the timer it
names exists. -/
structure DebugTimer where
  timer : Option Bool
  /-- How often `timer_create` has succeeded. -/
  created : Nat
  /-- The calls of `timer_delete` for a timer that does not exist. -/
  staleDeletes : Nat
  deriving DecidableEq, Repr

/-- `commands` are with the chip. `requests`, `aborted` and `reports` are
what the stack has asked for, what was given up without a report, and the
reports. The event buffers are numbered as they come. -/
structure State where
  cbacks : Bool
  upio : Upio.State
  userialFd : Int
  openFds : List Nat
  commands : List Command
  events : Nat
  freed : List Nat
  leaked : List Nat
  requests : List Report
  aborted : List Report
  reports : List Report
  debugTimer : DebugTimer

/-- The static variables. -/
def State.static : State where
  cbacks := false
  upio := Upio.static
  userialFd := 0
  openFds := []
  commands := []
  events := 0
  freed := []
  leaked := []
  requests := []
  aborted := []
  reports := []
  debugTimer := { timer := none, created := 0, staleDeletes := 0 }

/-- What the calls of one step to the stack and the system give: `alloc`,
the writes to the btwrite node, and the `open`, `malloc` and `timer_create`
of the debug timer. -/
structure Io where
  allocates : Bool
  writes : Bool
  writesAgain : Bool
  opens : Bool
  mallocs : Bool
  creates : Bool

def userialVendorInit (s : State) : State := { s with userialFd := -1 }

/-- `userial_vendor_open` with `userial_init_cfg`, which passes its checks.
The descriptor from before is forgotten first. -/
def userialVendorOpen (s : State) (opened : Option Nat) : State :=
  let s := { s with userialFd := -1 }
  match opened with
  | none => s
  | some fd => { s with userialFd := fd, openFds := fd :: s.openFds }

def userialVendorClose (s : State) : State :=
  if s.userialFd = -1 then s
  else { s with openFds := s.openFds.filter (fun fd => (fd : Int) ≠ s.userialFd), userialFd := -1 }

def uipoUserialDebugEnable (io : Io) (s : State) : State :=
  match s.debugTimer.timer with
  | none =>
      if io.opens = true ∧ io.mallocs = true then
        { s with debugTimer := { s.debugTimer with
            timer := some io.creates
            created := s.debugTimer.created + io.creates.toNat } }
      else s
  | some _ => s

/-- The timer is deleted, and its pointer stays. -/
def uipoUserialDebugDisable (s : State) : State :=
  match s.debugTimer.timer with
  | none => s
  | some live =>
      { s with debugTimer := { s.debugTimer with
          timer := some false
          staleDeletes := s.debugTimer.staleDeletes + (!live).toNat } }

/-- `upio_set(UPIO_BT_WAKE, ..)`. -/
def setWake (notifyDeassert : Bool) (action : UInt8) (writes : Bool) (s : State) : State :=
  { s with upio := upioSet notifyDeassert s.upio ⟨upioBtWake, action, none, false, writes⟩ }

def freeEvent (s : State) : State :=
  if s.cbacks = true then { s with freed := s.freed ++ [s.events], events := s.events + 1 }
  else { s with leaked := s.leaked ++ [s.events], events := s.events + 1 }

/-- `upio_set` in the functions where only the marlin2 adapter has it. -/
def setWakeOnMarlin2 (adapter : Adapter) (notifyDeassert : Bool) (action : UInt8) (writes : Bool)
    (s : State) : State :=
  match adapter with
  | .marlin => s
  | .marlin2 => setWake notifyDeassert action writes s

/-- `hw_core_enable` of the two adapters; without a buffer, nobody is told. -/
def hwCoreEnable (adapter : Adapter) (notifyDeassert enable allocates writes : Bool) (s : State) :
    State :=
  if s.cbacks = true ∧ allocates = true then
    let s := setWakeOnMarlin2 adapter notifyDeassert upioAssert writes s
    { s with commands := s.commands ++ [.core enable] }
  else { s with aborted := s.aborted ++ [if enable then .fwcfg else .epilog] }

/-- `hw_core_cback` of the two adapters. The callbacks are used without a
check. -/
def hwCoreCback (adapter : Adapter) (notifyDeassert : Bool) (status : UInt8) (writes : Bool)
    (s : State) : Option State :=
  let s := freeEvent s
  if s.cbacks = false then none
  else
    let s := { s with reports := s.reports ++ [if status ≠ 0 then .fwcfg else .epilog] }
    some (setWakeOnMarlin2 adapter notifyDeassert upioDeassert writes s)

def marlinPskeyCback (notifyDeassert : Bool) (io : Io) (s : State) : State :=
  let s := setWake notifyDeassert upioDeassert io.writes s
  let s := freeEvent s
  let s := hwCoreEnable .marlin notifyDeassert true io.allocates io.writesAgain s
  uipoUserialDebugDisable s

def marlin2PskeyCback (notifyDeassert : Bool) (io : Io) (s : State) : State :=
  let s := freeEvent s
  hwCoreEnable .marlin2 notifyDeassert true io.allocates io.writesAgain s

/-- The part that `marlin_pskey_preload` and `marlin2_pskey_preload` share.
The number that `get_pskey_size` gives goes into a field of the command that
is not looked at here, and is left out. That the call returns is granted: on
marlin its walk over the table has no end of its own. -/
def sendPskey (notifyDeassert : Bool) (io : Io) (s : State) : State :=
  if s.cbacks = true ∧ io.allocates = true then
    let s := setWake notifyDeassert upioAssert io.writes s
    { s with commands := s.commands ++ [.pskey] }
  else { s with aborted := s.aborted ++ [.fwcfg] }

def marlinPskeyPreload (notifyDeassert : Bool) (io : Io) (s : State) : State :=
  let sent := sendPskey notifyDeassert io s
  if s.cbacks = true ∧ io.allocates = false then sent else uipoUserialDebugEnable io sent

def marlin2PskeyPreload (notifyDeassert : Bool) (io : Io) (s : State) : State :=
  sendPskey notifyDeassert io s

inductive Label where
  | init
  | cleanup
  /-- `BT_VND_OP_POWER_CTRL`, and whether `upio_set_bluetooth_power` gets as
  far as `upio_set`. -/
  | powerCtrl (on reached : Bool) (opened : Option Nat) (timerCreates : Bool)
  | fwCfg (io : Io)
  | scoCfg
  | userialOpen (opened : Option Nat)
  | userialClose (writes : Bool)
  | lpmSetMode
  | lpmWakeSetState (wakeAssert writes : Bool)
  | epilog (io : Io)
  /-- The chip answers its oldest command. -/
  | answer (status : UInt8) (io : Io)
  | procBtwriteTimeout (writes : Bool)

/-- A callback of the stack that an operation calls at once, without a
check. -/
def report (r : Report) (s : State) : Option State :=
  if s.cbacks = false then none
  else some { s with requests := s.requests ++ [r], reports := s.reports ++ [r] }

def step (adapter : Adapter) (notifyDeassert : Bool) (s : State) : Label → Option State
  | .init =>
      let s := userialVendorInit s
      some { s with upio := upioInit s.upio, cbacks := true }
  | .cleanup => some { s with upio := upioCleanup s.upio, cbacks := false }
  | .powerCtrl on reached opened timerCreates =>
      if reached = true then
        let action := if on then upioAssert else upioDeassert
        let call := ⟨upioLpmMode, action, opened, timerCreates, true⟩
        some { s with upio := upioSet notifyDeassert s.upio call }
      else some s
  | .fwCfg io =>
      let s := { s with requests := s.requests ++ [.fwcfg] }
      match adapter with
      | .marlin => some (marlinPskeyPreload notifyDeassert io s)
      | .marlin2 => some (marlin2PskeyPreload notifyDeassert io s)
  | .scoCfg => report .scocfg s
  | .userialOpen opened =>
      if ∀ fd ∈ opened, fd ∉ s.openFds then some (userialVendorOpen s opened) else none
  | .userialClose writes =>
      some (setWake notifyDeassert upioDeassert writes (userialVendorClose s))
  | .lpmSetMode => report .lpm s
  | .lpmWakeSetState wakeAssert writes =>
      some (setWake notifyDeassert (if wakeAssert then upioAssert else upioDeassert) writes s)
  | .epilog io =>
      let s := { s with requests := s.requests ++ [.epilog] }
      some (hwCoreEnable adapter notifyDeassert false io.allocates io.writes s)
  | .answer status io =>
      match s.commands with
      | [] => none
      | .pskey :: commands =>
          let s := { s with commands }
          match adapter with
          | .marlin => some (marlinPskeyCback notifyDeassert io s)
          | .marlin2 => some (marlin2PskeyCback notifyDeassert io s)
      | .core _ :: commands =>
          hwCoreCback adapter notifyDeassert status io.writes { s with commands }
  | .procBtwriteTimeout writes =>
      let upio := { s.upio with btwriteActive := false }
      some (setWake notifyDeassert upioDeassert writes { s with upio })

end Bluetooth.Vendor
