import Gtexswifi.Library.Transition
import Gtexswifi.Power.PowerScx35
import Mathlib.Algebra.Order.BigOperators.Group.List
import Mathlib.Data.FinEnum

/-! What the node of the touch keys shows after a pause of the screen. The
off call looks for a zero there that another component has written, and
writes a zero itself. -/
namespace Power

theorem le_of_isDigit {c : UInt8} (h : isDigit c = true) : 0x30 ≤ c.toNat ∧ c.toNat ≤ 0x39 := by
  simpa [isDigit, UInt8.le_iff_toNat_le] using h

theorem digitSum_le (buf : List UInt8) : digitSum buf ≤ 9 * buf.length := by
  have hDigits : ∀ n ∈ (buf.filter isDigit).map fun c => c.toNat - 0x30, n ≤ 9 := by
    intro n hn
    obtain ⟨c, hc, rfl⟩ := List.mem_map.mp hn
    have hRange := le_of_isDigit (List.mem_filter.mp hc).2
    omega
  have hSum := List.sum_le_card_nsmul _ 9 hDigits
  have hLength := List.length_filter_le isDigit buf
  rw [List.length_map, Nat.nsmul_eq_mul] at hSum
  unfold digitSum
  omega

theorem digitSum_eq_zero_iff (buf : List UInt8) :
    digitSum buf = 0 ↔ ∀ c ∈ buf, isDigit c = true → c = 0x30 := by
  simp only [digitSum, List.sum_eq_zero_iff, List.mem_map, List.mem_filter]
  constructor
  · intro hZero c hMem hDigit
    have hValue := hZero _ ⟨c, ⟨hMem, hDigit⟩, rfl⟩
    have hRange := le_of_isDigit hDigit
    exact UInt8.toNat_inj.mp (show c.toNat = 0x30 by omega)
  · rintro hZero n ⟨c, ⟨hMem, hDigit⟩, rfl⟩
    simp [hZero c hMem hDigit]

/-- What the four bytes are behind a reading, with a zero behind it. -/
def brightnessBuffer (stack : Fin 4 → UInt8) (data : List UInt8) : List UInt8 :=
  data ++ 0 :: (List.ofFn stack).drop (data.length + 1)

/-- What the node has delivered is put into the four bytes, with its
terminator. -/
theorem length_brightnessBuffer (stack : Fin 4 → UInt8) {data : List UInt8}
    (h : data.length ≤ 3) : (brightnessBuffer stack data).length = 4 := by
  simp [brightnessBuffer]
  omega

/-- The path has 37 characters, which is the length that the read is given
instead of that of the buffer. -/
theorem length_panelBrightnessPath : panelBrightnessPath.length = 37 := by decide

/-- A reading of three bytes is the longest that has room. -/
theorem readPanelBrightness_read (stack : Fin 4 → UInt8) (data : List UInt8) :
    readPanelBrightness stack (.read data) =
      if data.length ≤ 3 then some (UInt32.ofNat (digitSum (brightnessBuffer stack data)))
      else none := by
  have hStack : (List.ofFn stack).length = 4 := List.length_ofFn
  have hPath := length_panelBrightnessPath
  unfold readPanelBrightness sysfsRead Memory.write
  dsimp only
  by_cases hLength : data.length ≤ 3
  · have hTake : data.take (panelBrightnessPath.length + 1 - 1) = data :=
      List.take_of_length_le (by omega)
    have hFits : 0 + (data ++ [0]).length ≤ (List.ofFn stack).length := by simp; omega
    rw [hTake, if_pos hFits, if_pos hLength]
    simp [brightnessBuffer]
  · have hLong : ¬0 + (data.take (panelBrightnessPath.length + 1 - 1) ++ [0]).length ≤
        (List.ofFn stack).length := by
      simp [length_panelBrightnessPath]
      omega
    rw [if_neg hLong, if_neg hLength]
    rfl

namespace InteractiveCall

/-- What the node of the brightness delivers. -/
def delivered (call : InteractiveCall) : List UInt8 :=
  match call.brightness with
  | .read data => data
  | _ => []

/-- All accesses of the call succeed. -/
structure Succeeds (call : InteractiveCall) : Prop where
  brightness : call.brightness = .read call.delivered
  touchscreen : call.touchscreen = .written
  stats : call.stats = true
  reads : call.reads = true
  touchkey : call.touchkey = .written
  ioIsBusy : call.ioIsBusy = .written

/-- What an off call reads of the brightness has room in its buffer. -/
def Fits (call : InteractiveCall) : Prop := call.on = 0 → call.delivered.length ≤ 3

/-- No digit but zero stands in the buffer of the brightness. -/
def Dark (call : InteractiveCall) : Prop :=
  ∀ c ∈ brightnessBuffer call.stack call.delivered, isDigit c = true → c = 0x30

instance (call : InteractiveCall) : Decidable call.Dark := by
  unfold Dark
  infer_instance

/-- When the screen goes off, its state is what the brightness says. A text
of more than three characters leaves the buffer. -/
theorem screenOn_off {call : InteractiveCall} (h : call.Succeeds) (hOff : call.on = 0) :
    call.screenOn = if call.delivered.length ≤ 3 then some (decide ¬call.Dark) else none := by
  rw [screenOn, if_pos hOff, h.brightness, readPanelBrightness_read]
  split_ifs with hLength
  · have hSum := digitSum_le (brightnessBuffer call.stack call.delivered)
    rw [length_brightnessBuffer call.stack hLength] at hSum
    have hValue := Nat.mod_eq_of_lt (show digitSum (brightnessBuffer call.stack call.delivered) <
      2 ^ 32 by omega)
    have hZero := digitSum_eq_zero_iff (brightnessBuffer call.stack call.delivered)
    simp only [Option.map_some, Option.some.injEq, decide_eq_decide, UInt32.lt_iff_toNat_lt,
      UInt32.toNat_ofNat', hValue]
    exact Nat.pos_iff_ne_zero.trans (not_congr hZero)
  · rfl

end InteractiveCall

/-- What the node of the touch keys shows, and whether they stay off. -/
def State.keys (s : State) : UInt8 × Bool := (s.touchkey, s.touchkeyBlocked)

/-- An off call with the screen dark. -/
def darken (keys : UInt8 × Bool) : UInt8 × Bool := (0x30, decide (keys.1 = 0x30))

/-- An on call. -/
def lighten (keys : UInt8 × Bool) : UInt8 × Bool := (if keys.2 = true then keys.1 else 0x31, keys.2)

variable {s : State} {call : InteractiveCall}

/-- A call that turns the screen on puts the keys back to what was saved. -/
theorem setInteractive_on (h : call.Succeeds) (hOn : call.on ≠ 0) :
    ∃ t, samsungPowerSetInteractive s call = some t ∧ t.keys = lighten s.keys := by
  refine ⟨_, by rw [samsungPowerSetInteractive, InteractiveCall.screenOn, if_neg hOn]; rfl, ?_⟩
  cases hBlocked : s.touchkeyBlocked <;>
    simp [setTouchPower, State.keys, lighten, nodeAfter, h.stats, h.touchkey, hOn, hBlocked]

/-- An off call changes the node only if the screen is dark. -/
theorem setInteractive_off (h : call.Succeeds) (hOff : call.on = 0)
    (hLength : call.delivered.length ≤ 3) :
    ∃ t, samsungPowerSetInteractive s call = some t ∧
      t.keys = if call.Dark then darken s.keys else s.keys := by
  refine ⟨_, by rw [samsungPowerSetInteractive, InteractiveCall.screenOn_off h hOff,
    if_pos hLength]; rfl, ?_⟩
  by_cases hDark : call.Dark
  · by_cases hNode : s.touchkey = 0x30 <;>
      simp [setTouchPower, State.keys, darken, nodeAfter, h.stats, h.reads, h.touchkey, hOff, hDark,
        hNode]
  · simp [State.keys, hDark]

theorem setInteractive_overrun (h : call.Succeeds) (hFits : ¬call.Fits) :
    samsungPowerSetInteractive s call = none := by
  obtain ⟨hOff, hLong⟩ := Classical.not_imp.mp hFits
  rw [samsungPowerSetInteractive, InteractiveCall.screenOn_off h hOff, if_neg hLong]
  rfl

theorem setInteractive_defined_iff (h : call.Succeeds) :
    (∃ t, samsungPowerSetInteractive s call = some t) ↔ call.Fits := by
  by_cases hFits : call.Fits
  · refine iff_of_true ?_ hFits
    by_cases hOff : call.on = 0
    · exact (setInteractive_off h hOff (hFits hOff)).imp fun _ => And.left
    · exact (setInteractive_on h hOff).imp fun _ => And.left
  · simp [setInteractive_overrun h hFits, hFits]

theorem run_defined_iff {calls : List InteractiveCall} (h : ∀ call ∈ calls, call.Succeeds) :
    (∃ t, Transition.run samsungPowerSetInteractive s calls = some t) ↔
      ∀ call ∈ calls, call.Fits := by
  induction calls generalizing s with
  | nil => simp
  | cons call rest ih =>
      obtain ⟨hCall, hRest⟩ := List.forall_mem_cons.mp h
      have hStep := setInteractive_defined_iff (s := s) hCall
      rw [Transition.run_cons, List.forall_mem_cons, ← hStep]
      cases samsungPowerSetInteractive s call with
      | none => simp
      | some t => simpa using ih hRest

/-- Each off call with the screen dark takes its turn, the others none. -/
theorem run_offs {offs : List InteractiveCall} (h : ∀ call ∈ offs, call.Succeeds)
    (hOff : ∀ call ∈ offs, call.on = 0) (hFits : ∀ call ∈ offs, call.Fits) :
    ∃ t, Transition.run samsungPowerSetInteractive s offs = some t ∧
      t.keys = darken^[offs.countP (·.Dark)] s.keys := by
  induction offs generalizing s with
  | nil => exact ⟨s, rfl, rfl⟩
  | cons call rest ih =>
      obtain ⟨hCall, hRest⟩ := List.forall_mem_cons.mp h
      obtain ⟨hCallOff, hRestOff⟩ := List.forall_mem_cons.mp hOff
      obtain ⟨hCallFits, hRestFits⟩ := List.forall_mem_cons.mp hFits
      obtain ⟨middle, hMiddle, hKeys⟩ :=
        setInteractive_off (s := s) hCall hCallOff (hCallFits hCallOff)
      obtain ⟨t, hRun, hEnd⟩ := ih (s := middle) hRest hRestOff hRestFits
      refine ⟨t, by rw [Transition.run_cons, hMiddle, Option.bind_some, hRun], ?_⟩
      rw [hEnd, hKeys, List.countP_cons]
      by_cases hDark : call.Dark <;> simp [hDark]

/-- From the second dark call on, the zero is the code's own. -/
theorem darken_again (n : Nat) (keys : UInt8 × Bool) : darken^[n + 2] keys = (0x30, true) := by
  rw [Function.iterate_succ_apply', Function.iterate_succ_apply']
  simp [darken]

/-- The node and the flag before a pause with so many dark calls let the
node come back. -/
def Returns (keys : UInt8 × Bool) (dark : Nat) : Prop :=
  (dark = 0 ∧ keys.2 = true) ∨ (1 ≤ dark ∧ keys.1 = 0x30) ∨ (dark ≤ 1 ∧ keys.1 = 0x31)

/-- A run of dark calls and the call that ends it give the node its value
back in three cases only, since the second dark call saves what the first
has written. -/
theorem lighten_darken_iff (keys : UInt8 × Bool) (dark : Nat) :
    (lighten (darken^[dark] keys)).1 = keys.1 ↔ Returns keys dark := by
  obtain ⟨node, blocked⟩ := keys
  match dark with
  | 0 => cases blocked <;> simp [lighten, Returns, eq_comm]
  | 1 => by_cases hNode : node = 0x30 <;> simp [lighten, darken, Returns, hNode, eq_comm]
  | n + 2 => simp [darken_again, lighten, Returns, eq_comm]

/-- `offs` are the off calls of one pause, from the first one on, and `on`
ends it. -/
structure Pause (calls before offs : List InteractiveCall) (on : InteractiveCall) : Prop where
  calls : ∃ after, calls = before ++ offs ++ on :: after
  nonempty : offs ≠ []
  off : ∀ call ∈ offs, call.on = 0
  first : ∀ call ∈ before.getLast?, call.on ≠ 0
  ends : on.on ≠ 0

/-- After every pause the node shows what it showed before it. -/
def Restores (s : State) (calls : List InteractiveCall) : Prop :=
  ∀ before offs on, Pause calls before offs on →
    ∃ s₀ t, Transition.run samsungPowerSetInteractive s before = some s₀ ∧
      Transition.run samsungPowerSetInteractive s (before ++ offs ++ [on]) = some t ∧
      t.touchkey = s₀.touchkey

/-- A pause gives the keys back exactly if every text fits and the saved
state was not overwritten. -/
theorem pause_restores_iff {before offs : List InteractiveCall} {on : InteractiveCall}
    (h : ∀ call ∈ before ++ offs ++ [on], call.Succeeds) (hOff : ∀ call ∈ offs, call.on = 0)
    (hOn : on.on ≠ 0) :
    (∃ s₀ t, Transition.run samsungPowerSetInteractive s before = some s₀ ∧
      Transition.run samsungPowerSetInteractive s (before ++ offs ++ [on]) = some t ∧
      t.touchkey = s₀.touchkey) ↔
    (∀ call ∈ before ++ offs, call.Fits) ∧
      ∀ s₀, Transition.run samsungPowerSetInteractive s before = some s₀ →
        Returns s₀.keys (offs.countP (·.Dark)) := by
  have hOnFits : on.Fits := fun hZero => absurd hZero hOn
  have hDefined := run_defined_iff (s := s) h
  by_cases hFits : ∀ call ∈ before ++ offs, call.Fits
  · obtain ⟨hBeforeFits, hOffsFits⟩ := List.forall_mem_append.mp hFits
    obtain ⟨hFirst, hLast⟩ := List.forall_mem_append.mp h
    obtain ⟨hBefore, hOffs⟩ := List.forall_mem_append.mp hFirst
    obtain ⟨s₀, hStart⟩ := (run_defined_iff (s := s) hBefore).mpr hBeforeFits
    obtain ⟨s₁, hRun, hKeys⟩ := run_offs (s := s₀) hOffs hOff hOffsFits
    obtain ⟨t, hEnd, hLight⟩ := setInteractive_on (s := s₁) (hLast on (by simp)) hOn
    have hWhole :
        Transition.run samsungPowerSetInteractive s (before ++ offs ++ [on]) = some t := by
      simp [Transition.run_append, hStart, hRun, Transition.run_cons, hEnd]
    have hNode : t.touchkey = (lighten (darken^[offs.countP (·.Dark)] s₀.keys)).1 := by
      rw [← hKeys, ← hLight]
      rfl
    have hReturns := lighten_darken_iff s₀.keys (offs.countP (·.Dark))
    rw [← hNode] at hReturns
    constructor
    · rintro ⟨s', t', hStart', hRun', hSame⟩
      obtain rfl : s₀ = s' := Option.some.inj (hStart.symm.trans hStart')
      obtain rfl : t = t' := Option.some.inj (hWhole.symm.trans hRun')
      refine ⟨hFits, fun s' hStart' => ?_⟩
      obtain rfl : s₀ = s' := Option.some.inj (hStart.symm.trans hStart')
      exact hReturns.mp hSame
    · intro hAll
      exact ⟨s₀, t, hStart, hWhole, hReturns.mpr (hAll.2 s₀ hStart)⟩
  · refine iff_of_false ?_ fun hAll => hFits hAll.1
    rintro ⟨-, t, -, hRun, -⟩
    exact hFits (List.forall_mem_append.mp (hDefined.mp ⟨t, hRun⟩)).1

/-- A call whose accesses succeed, while the brightness is read as `0`. -/
def darkCall (on : Int) : InteractiveCall where
  on := on
  stack := fun _ => 0
  brightness := .read (Numerals.ascii "0")
  touchscreen := .written
  stats := true
  reads := true
  touchkey := .written
  ioIsBusy := .written

theorem darkCall_succeeds (on : Int) : (darkCall on).Succeeds := ⟨rfl, rfl, rfl, rfl, rfl, rfl⟩

end Power
