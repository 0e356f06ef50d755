import Gtexswifi.Bluetooth.Vendor

/-! The descriptors of the serial port that the vendor library has open over
whole runs. Neither `userial_vendor_open` nor `userial_vendor_init` looks at
the descriptor from before. -/
namespace Bluetooth.Vendor

open Upio Transition

variable {adapter : Adapter} {notifyDeassert : Bool} {s t : State}

/-- The serial port, its descriptors and the one in use. -/
def State.port (s : State) : Int × List Nat := (s.userialFd, s.openFds)

/-- Every descriptor of the serial port that is open is the one that a close
would release. -/
def State.Owned (s : State) : Prop := ∀ fd ∈ s.openFds, (fd : Int) = s.userialFd

/-- The port is not opened, nor the library initialised, while a descriptor
is open. -/
def State.Released (s : State) : Label → Prop
  | .init | .userialOpen _ => s.openFds = []
  | _ => True

/-- The wake signal is written through a descriptor of its own. -/
@[simp] theorem port_setWake (action : UInt8) (writes : Bool) (s : State) :
    (setWake notifyDeassert action writes s).port = s.port := rfl

/-- On marlin2 the wake signal is written, and on marlin nothing is. -/
@[simp] theorem port_setWakeOnMarlin2 (action : UInt8) (writes : Bool) (s : State) :
    (setWakeOnMarlin2 adapter notifyDeassert action writes s).port = s.port := by
  cases adapter <;> rfl

@[simp] theorem port_uipoUserialDebugEnable (io : Io) (s : State) :
    (uipoUserialDebugEnable io s).port = s.port := by
  unfold uipoUserialDebugEnable
  split
  · split <;> rfl
  · rfl

@[simp] theorem port_uipoUserialDebugDisable (s : State) :
    (uipoUserialDebugDisable s).port = s.port := by
  unfold uipoUserialDebugDisable
  split <;> rfl

@[simp] theorem port_freeEvent (s : State) : (freeEvent s).port = s.port := by
  unfold freeEvent
  split <;> rfl

@[simp] theorem port_hwCoreEnable (enable allocates writes : Bool) (s : State) :
    (hwCoreEnable adapter notifyDeassert enable allocates writes s).port = s.port := by
  unfold hwCoreEnable
  split
  · exact port_setWakeOnMarlin2 upioAssert writes s
  · rfl

/-- A command goes through the callback of the stack, not through the port. -/
@[simp] theorem port_sendPskey (io : Io) (s : State) :
    (sendPskey notifyDeassert io s).port = s.port := by
  unfold sendPskey
  split <;> rfl

theorem port_marlinPskeyPreload (io : Io) (s : State) :
    (marlinPskeyPreload notifyDeassert io s).port = s.port := by
  unfold marlinPskeyPreload
  split <;> simp

theorem port_marlinPskeyCback (io : Io) (s : State) :
    (marlinPskeyCback notifyDeassert io s).port = s.port := by
  simp [marlinPskeyCback]

theorem port_marlin2PskeyCback (io : Io) (s : State) :
    (marlin2PskeyCback notifyDeassert io s).port = s.port := by
  simp [marlin2PskeyCback]

theorem port_report {r : Report} (h : report r s = some t) : t.port = s.port := by
  unfold report at h
  split at h
  · cases h
  · cases h
    rfl

theorem port_hwCoreCback {status : UInt8} {writes : Bool}
    (h : hwCoreCback adapter notifyDeassert status writes s = some t) : t.port = s.port := by
  simp only [hwCoreCback, Option.ite_none_left_eq_some, Option.some.injEq] at h
  rw [← h.2, port_setWakeOnMarlin2]
  exact port_freeEvent s

/-- Whether the open descriptors are the one of the port depends on the port
alone. -/
theorem owned_of_port (hPort : t.port = s.port) : t.Owned ↔ s.Owned := by
  obtain ⟨hFd, hOpen⟩ := Prod.mk.inj hPort
  rw [State.Owned, State.Owned, hFd, hOpen]

/-- The initialisation forgets the descriptor, so that the port owns what is
open only if nothing is. -/
theorem userialVendorInit_owned (s : State) : (userialVendorInit s).Owned ↔ s.openFds = [] := by
  simp [State.Owned, userialVendorInit, List.eq_nil_iff_forall_not_mem]

/-- The descriptor from before is lost, whether the port could be opened
again or not. -/
theorem userialVendorOpen_owned {opened : Option Nat} (hFresh : ∀ fd ∈ opened, fd ∉ s.openFds) :
    (userialVendorOpen s opened).Owned ↔ s.openFds = [] := by
  cases opened with
  | none => exact userialVendorInit_owned s
  | some fd =>
      have hFresh : fd ∉ s.openFds := hFresh fd rfl
      constructor
      · intro hOwned
        refine List.eq_nil_iff_forall_not_mem.mpr fun other hMem => ?_
        have hSame : (other : Int) = fd := hOwned other (List.mem_cons_of_mem _ hMem)
        exact hFresh (Int.ofNat_inj.mp hSame ▸ hMem)
      · intro hNil
        simp [State.Owned, userialVendorOpen, hNil]

/-- The close closes the descriptor that is known and no other. -/
theorem userialVendorClose_owned (hOwned : s.Owned) : (userialVendorClose s).Owned := by
  unfold userialVendorClose
  split
  · exact hOwned
  · intro fd hFd
    have hKept := List.mem_filter.mp hFd
    exact absurd (hOwned fd hKept.1) (by simpa using hKept.2)

/-- One step keeps the descriptors owned exactly where it does not forget
one that is open. -/
theorem step_owned {label : Label} (hOwned : s.Owned)
    (hStep : step adapter notifyDeassert s label = some t) : t.Owned ↔ s.Released label := by
  have hSame (hPort : t.port = s.port) : t.Owned ↔ True :=
    iff_of_true ((owned_of_port hPort).mpr hOwned) trivial
  cases label with
  | init =>
      cases hStep
      exact (owned_of_port rfl).trans (userialVendorInit_owned s)
  | cleanup | procBtwriteTimeout | lpmWakeSetState =>
      cases hStep
      exact hSame rfl
  | powerCtrl on reached opened timerCreates =>
      cases reached <;> cases hStep <;> exact hSame rfl
  | userialOpen opened =>
      simp only [step, Option.ite_none_right_eq_some, Option.some.injEq] at hStep
      rw [← hStep.2]
      exact userialVendorOpen_owned hStep.1
  | userialClose writes =>
      cases hStep
      exact iff_of_true (userialVendorClose_owned hOwned) trivial
  | scoCfg | lpmSetMode => exact hSame (port_report hStep)
  | fwCfg io =>
      cases adapter <;> cases hStep
      · exact hSame (port_marlinPskeyPreload io _)
      · exact hSame (port_sendPskey io _)
  | epilog io =>
      cases hStep
      exact hSame (port_hwCoreEnable ..)
  | answer status io =>
      simp only [step] at hStep
      split at hStep
      next => cases hStep
      next commands _ =>
        cases adapter <;> cases hStep
        · exact hSame (port_marlinPskeyCback io _)
        · exact hSame (port_marlin2PskeyCback io _)
      next enable commands _ =>
        have hPort := port_hwCoreCback hStep
        exact hSame hPort

/-- Throughout a run no descriptor of the port is lost, exactly if the port
is opened, and the library initialised, only while none is open. -/
theorem owned_iff_released (labels : List Label) :
    Throughout (step adapter notifyDeassert) State.Owned .static labels ↔
      Meets (step adapter notifyDeassert) State.Released .static labels := by
  refine throughout_iff_meets (fun s label t hOwned hStep => step_owned hOwned hStep) ?_ labels
  exact List.forall_mem_nil _

end Bluetooth.Vendor
