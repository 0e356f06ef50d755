import Gtexswifi.Library.Memory
import Gtexswifi.Library.Numerals
import Mathlib.Data.List.DropRight
import Mathlib.Data.List.TakeWhile

/-! The power module: `power_scx35.c`. Every access to sysfs comes with what
it makes of it. `char` is unsigned, as on ARM. -/
namespace Power

open Numerals (ascii)

/-- What `open` and `read` do in `sysfs_read`. -/
inductive ReadOutcome
  | openFails
  | readFails
  | read (data : List UInt8)
  deriving DecidableEq

/-- What `open` and `write` do in `sysfs_write`. -/
inductive WriteOutcome
  | openFails
  | writeFails
  | written
  deriving DecidableEq

/-- The result of `sysfs_read` and the buffer behind it, or `none` if it
writes past the buffer. -/
def sysfsRead (s : List UInt8) (numBytes : Nat) : ReadOutcome → Option (Int × List UInt8)
  | .openFails => some (-1, s)
  | .readFails => some (-1, s)
  | .read data => (Memory.write s 0 (data.take (numBytes - 1) ++ [0])).map fun s => (0, s)

/-- The string in a buffer of `n` bytes. -/
structure CString (n : Nat) where
  text : List UInt8
  noZero : ∀ c ∈ text, c ≠ 0
  fits : text.length < n
  deriving DecidableEq

namespace CString

variable {n : Nat}

def empty (hn : 0 < n) : CString n := ⟨[], fun _ hc => absurd hc List.not_mem_nil, hn⟩

/-- The string of bytes that are stored with a zero behind them. -/
def ofData (hn : 0 < n) (data : List UInt8) : CString n where
  text := (data.take (n - 1)).takeWhile (· ≠ 0)
  noZero := fun c hc => by simpa using List.mem_takeWhile_imp hc
  fits := by
    have hTake := List.length_take_le (n - 1) data
    have hWhile := (List.takeWhile_prefix (· ≠ 0) (l := data.take (n - 1))).length_le
    omega

/-- `sysfs_read` into a buffer, with the buffer's size: its string behind
it. -/
def sysfsRead (hn : 0 < n) (s : CString n) : ReadOutcome → CString n
  | .read data => ofData hn data
  | _ => s

/-- The string with the characters at its end that meet a test overwritten
by zeros. -/
def stripped (s : CString n) (strip : UInt8 → Bool) : CString n where
  text := s.text.rdropWhile strip
  noZero := fun c hc => s.noZero c ((List.rdropWhile_prefix strip s.text).subset hc)
  fits := (List.rdropWhile_prefix strip s.text).length_le.trans_lt s.fits

end CString

/-- The nodes of the frequencies. The interactive governor has its own
directory. -/
inductive Node
  | scalingMinFreq
  | scalingMaxFreq
  | hispeedFreq (cpuInteractivePath : List UInt8)
  deriving DecidableEq

/-- An access that succeeds, with the text that is read or written. -/
inductive Event
  | read (node : Node) (text : List UInt8)
  | wrote (node : Node) (text : List UInt8)
  deriving DecidableEq

/-- The fields of `samsung_power_module`, the static variables, and what the
nodes of the touch devices and `io_is_busy` hold. `history` has the accesses
to the frequencies, the latest one first. -/
structure State where
  cpuHispeedFreq : CString 10
  cpuMinFreq : CString 10
  cpuMaxFreq : CString 10
  touchkeyBlocked : Bool
  governor : CString 20
  cpuInteractivePath : List UInt8
  currentPowerProfile : Int
  touchscreen : UInt8
  touchkey : UInt8
  ioIsBusy : UInt8
  history : List Event
  deriving DecidableEq

def profilePowerSave : Int := 0
def profileBalanced : Int := 1
def profileHighPerformance : Int := 2

/-- The static object, with the three nodes as they are found. -/
def State.static (touchscreen touchkey ioIsBusy : UInt8) : State where
  cpuHispeedFreq := .empty (by decide)
  cpuMinFreq := .empty (by decide)
  cpuMaxFreq := .empty (by decide)
  touchkeyBlocked := false
  governor := .empty (by decide)
  cpuInteractivePath := []
  currentPowerProfile := profileHighPerformance
  touchscreen := touchscreen
  touchkey := touchkey
  ioIsBusy := ioIsBusy
  history := []

def cpufreqSysfsPath : List UInt8 := ascii "/sys/devices/system/cpu/cpufreq/"

/-- `get_scaling_governor`, whose result is whether the node was read. -/
def getScalingGovernor (s : State) (outcome : ReadOutcome) : Bool × State :=
  match outcome with
  | .read data =>
      (true, { s with governor :=
        (CString.ofData (by decide) data).stripped fun c => c = 0x0a ∨ c = 0x0d })
  | _ => (false, s)

def getCpuInteractivePaths (s : State) (outcome : ReadOutcome) : State :=
  let (found, s) := getScalingGovernor s outcome
  if found = true ∧ ((ascii "interactive").isPrefixOf s.governor.text = true ∨
      (ascii "intelliactive").isPrefixOf s.governor.text = true) then
    { s with cpuInteractivePath := cpufreqSysfsPath ++ s.governor.text }
  else s

def readMinFreq (s : State) (outcome : ReadOutcome) : State :=
  match outcome with
  | .read data =>
      let text : CString 10 := .ofData (by decide) data
      { s with cpuMinFreq := text, history := .read .scalingMinFreq text.text :: s.history }
  | _ => s

/-- `cpu_interactive_read` of `HISPEED_FREQ_PATH`. -/
def readHispeedFreq (s : State) (outcome : ReadOutcome) : State :=
  match outcome with
  | .read data =>
      let text : CString 10 := .ofData (by decide) data
      { s with
        cpuHispeedFreq := text
        history := .read (.hispeedFreq s.cpuInteractivePath) text.text :: s.history }
  | _ => s

def readMaxFreq (s : State) (outcome : ReadOutcome) : State :=
  match outcome with
  | .read data =>
      let text : CString 10 := .ofData (by decide) data
      { s with cpuMaxFreq := text, history := .read .scalingMaxFreq text.text :: s.history }
  | _ => s

/-- `sysfs_write` to `SCALING_MAX_FREQ_PATH`. -/
def writeMaxFreq (s : State) (text : CString 10) (outcome : WriteOutcome) : State :=
  match outcome with
  | .written => { s with history := .wrote .scalingMaxFreq text.text :: s.history }
  | _ => s

/-- What `samsung_power_init` reads. The governor is read twice. -/
structure InitOutcomes where
  governor : ReadOutcome
  governorAgain : ReadOutcome
  minFreq : ReadOutcome
  hispeedFreq : ReadOutcome
  maxFreq : ReadOutcome
  deriving DecidableEq

def initCpufreqs (s : State) (outcomes : InitOutcomes) : State :=
  readMaxFreq (readHispeedFreq (readMinFreq s outcomes.minFreq) outcomes.hispeedFreq)
    outcomes.maxFreq

def samsungPowerInit (s : State) (outcomes : InitOutcomes) : State :=
  initCpufreqs
    (getCpuInteractivePaths (getScalingGovernor s outcomes.governor).2 outcomes.governorAgain)
    outcomes

/-- The `switch` of `set_power_profile`. -/
def applyProfile (s : State) (profile : Int) (reads : ReadOutcome) (writes : WriteOutcome) :
    State :=
  if profile = profilePowerSave then
    let s := readMinFreq s reads
    writeMaxFreq s s.cpuMinFreq writes
  else if profile = profileBalanced then
    let s := readHispeedFreq s reads
    writeMaxFreq s s.cpuHispeedFreq writes
  else if profile = profileHighPerformance then writeMaxFreq s s.cpuMaxFreq writes
  else s

def setPowerProfile (s : State) (profile : Int) (reads : ReadOutcome) (writes : WriteOutcome) :
    State :=
  if s.currentPowerProfile = profile then s
  else { applyProfile s profile reads writes with currentPowerProfile := profile }

/-- The hints. No boost pulse is ever sent, because nothing opens
`boostpulse_fd`. -/
inductive Hint
  | interaction
  | vsync
  | setProfile (profile : Int) (reads : ReadOutcome) (writes : WriteOutcome)
  | other

def samsungPowerHint (s : State) : Hint → State
  | .setProfile profile reads writes => setPowerProfile s profile reads writes
  | _ => s

def panelBrightnessPath : List UInt8 := ascii "/sys/class/backlight/panel/brightness"

def isDigit (c : UInt8) : Bool := 0x30 ≤ c ∧ c ≤ 0x39

/-- The digits are added, not read as a number. -/
def digitSum (buf : List UInt8) : Nat :=
  ((buf.filter isDigit).map fun c => c.toNat - 0x30).sum

/-- `read_panel_brightness`, on a buffer of four bytes with what the stack
has left there. The size that it gives to `sysfs_read` is that of the path. -/
def readPanelBrightness (stack : Fin 4 → UInt8) (outcome : ReadOutcome) : Option UInt32 :=
  (sysfsRead (List.ofFn stack) (panelBrightnessPath.length + 1) outcome).map fun (status, buf) =>
    if status < 0 then -1 else UInt32.ofNat (digitSum buf)

/-- `samsung_power_set_interactive`: its argument, and what its accesses
make of it. `stats` is whether `stat` finds the node of the touch keys, and
`reads` whether that node is read. -/
structure InteractiveCall where
  on : Int
  stack : Fin 4 → UInt8
  brightness : ReadOutcome
  touchscreen : WriteOutcome
  stats : Bool
  reads : Bool
  touchkey : WriteOutcome
  ioIsBusy : WriteOutcome

/-- What a node shows behind a `sysfs_write` of one character. -/
def nodeAfter (node c : UInt8) : WriteOutcome → UInt8
  | .written => c
  | _ => node

def flagText (on : Int) : UInt8 := if on ≠ 0 then 0x31 else 0x30

/-- From `sysfs_write(samsung_pwr->touchscreen_power_path, ..)` to the label
`out`. -/
def setTouchPower (s : State) (call : InteractiveCall) : State :=
  let s := { s with touchscreen := nodeAfter s.touchscreen (flagText call.on) call.touchscreen }
  if call.stats = false then s
  else if call.on = 0 then
    if call.reads = false then s
    else if s.touchkey = 0x30 then { s with touchkeyBlocked := true }
    else { s with touchkeyBlocked := false, touchkey := nodeAfter s.touchkey 0x30 call.touchkey }
  else if s.touchkeyBlocked = false then
    { s with touchkey := nodeAfter s.touchkey 0x31 call.touchkey }
  else s

/-- The screen is still on while the system turns non-interactive, or `none`
if the buffer of the brightness is left. -/
def InteractiveCall.screenOn (call : InteractiveCall) : Option Bool :=
  if call.on = 0 then
    (readPanelBrightness call.stack call.brightness).map fun brightness => decide (0 < brightness)
  else some false

def samsungPowerSetInteractive (s : State) (call : InteractiveCall) : Option State :=
  call.screenOn.map fun screenOn =>
    let s := if screenOn = true then s else setTouchPower s call
    { s with ioIsBusy := nodeAfter s.ioIsBusy (flagText call.on) call.ioIsBusy }

/-- The string of the buffer that `sysfs_read` leaves is that of
`CString.sysfsRead`. -/
theorem sysfsRead_string {n : Nat} (hn : 0 < n) {buffer : List UInt8} (hLength : buffer.length = n)
    {s : CString n} (hString : buffer.takeWhile (· ≠ 0) = s.text) (outcome : ReadOutcome) :
    ∃ status buffer', sysfsRead buffer n outcome = some (status, buffer') ∧
      buffer'.takeWhile (· ≠ 0) = (s.sysfsRead hn outcome).text := by
  cases outcome with
  | openFails => exact ⟨_, _, rfl, hString⟩
  | readFails => exact ⟨_, _, rfl, hString⟩
  | read data =>
      have hTake := List.length_take_le (n - 1) data
      have hFits : 0 + (data.take (n - 1) ++ [0]).length ≤ buffer.length := by
        rw [List.length_append, List.length_singleton]
        omega
      refine ⟨0, buffer.take 0 ++ (data.take (n - 1) ++ [0]) ++
        buffer.drop (0 + (data.take (n - 1) ++ [0]).length), ?_, ?_⟩
      · rw [sysfsRead, Memory.write, if_pos hFits]
        rfl
      · rw [List.take_zero, List.nil_append, List.append_assoc, List.takeWhile_append]
        split
        · next hAll =>
            have hWhole :=
              (List.takeWhile_prefix (· ≠ 0) (l := data.take (n - 1))).eq_of_length hAll
            rw [List.singleton_append, List.takeWhile_cons_of_neg (by decide), List.append_nil]
            exact hWhole.symm
        · rfl

end Power
