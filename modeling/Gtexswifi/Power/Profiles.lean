import Gtexswifi.Library.Transition
import Gtexswifi.Power.PowerScx35

/-! The recorded power profile and the one whose frequency was written last.
The history of the accesses that succeed decides which frequency belongs to
a profile. -/
namespace Power

/-- What the system asks of the module in one run. -/
inductive Request
  | init (outcomes : InitOutcomes)
  | hint (hint : Hint)

def serve (s : State) : Request → Option State
  | .init outcomes => some (samsungPowerInit s outcomes)
  | .hint hint => some (samsungPowerHint s hint)

/-- The profile whose frequency a node holds. -/
def Node.profile : Node → Int
  | .scalingMinFreq => profilePowerSave
  | .hispeedFreq _ => profileBalanced
  | .scalingMaxFreq => profileHighPerformance

/-- The text of the latest reading of a profile's frequency. -/
def frequencyOf (profile : Int) : List Event → Option (List UInt8)
  | [] => none
  | .read node text :: before =>
      if node.profile = profile then some text else frequencyOf profile before
  | .wrote _ _ :: before => frequencyOf profile before

/-- The latest text that was written to `scaling_max_freq`, with the history
before that. -/
def lastWrite : List Event → Option (List UInt8 × List Event)
  | [] => none
  | .wrote .scalingMaxFreq text :: before => some (text, before)
  | _ :: before => lastWrite before

/-- The recorded profile is one of the three only if the last text written
to `scaling_max_freq` is the frequency that was read for it. -/
def Applied (s : State) : Prop :=
  ∀ text before, lastWrite s.history = some (text, before) →
    s.currentPowerProfile ∈ [profilePowerSave, profileBalanced, profileHighPerformance] →
    frequencyOf s.currentPowerProfile before = some text

/-- The outcome of `sysfs_read` is an error. -/
def ReadOutcome.Fails : ReadOutcome → Prop
  | .read _ => False
  | _ => True

def WriteOutcome.Fails (writes : WriteOutcome) : Prop := writes ≠ .written

/-- The hint makes an access that fails. -/
def Hint.Fails : Hint → Prop
  | .setProfile profile reads writes =>
      (profile ∈ [profilePowerSave, profileBalanced] ∧ reads.Fails) ∨
        (profile ∈ [profilePowerSave, profileBalanced, profileHighPerformance] ∧ writes.Fails)
  | _ => False

/-- A hint leaves the profile that is recorded and the one that is applied
the same, and a failing one changes no record. -/
def Records (s : State) : Request → Prop
  | .init _ => True
  | .hint hint => Applied (samsungPowerHint s hint) ∧
      (hint.Fails → (samsungPowerHint s hint).currentPowerProfile = s.currentPowerProfile)

/-- The hint is for the recorded profile, or all of its accesses succeed
and, where it restores the saved frequency, that one was read at some time. -/
def Succeeds (s : State) : Request → Prop
  | .hint (.setProfile profile reads writes) =>
      s.currentPowerProfile = profile ∨
        (¬(Hint.setProfile profile reads writes).Fails ∧
          (profile = profileHighPerformance →
            frequencyOf profileHighPerformance s.history ≠ none))
  | _ => True

/-- The last write shows the recorded profile, and the saved frequency is
the latest one read. -/
structure Consistent (s : State) : Prop where
  applied : Applied s
  saved : ∀ text, frequencyOf profileHighPerformance s.history = some text →
    s.cpuMaxFreq.text = text

variable {s : State}

@[simp] theorem lastWrite_read (node : Node) (text : List UInt8) (before : List Event) :
    lastWrite (.read node text :: before) = lastWrite before := rfl

@[simp] theorem lastWrite_wrote (text : List UInt8) (before : List Event) :
    lastWrite (.wrote .scalingMaxFreq text :: before) = some (text, before) := rfl

/-- The frequency of a profile is what was last read of its node. -/
@[simp] theorem frequencyOf_read (profile : Int) (node : Node) (text : List UInt8)
    (before : List Event) : frequencyOf profile (.read node text :: before) =
      if node.profile = profile then some text else frequencyOf profile before := rfl

@[simp] theorem frequencyOf_wrote (profile : Int) (node : Node) (text : List UInt8)
    (before : List Event) :
    frequencyOf profile (.wrote node text :: before) = frequencyOf profile before := rfl

/-- What the governor's name is changes no frequency and no record. -/
theorem Consistent.getScalingGovernor (h : Consistent s) (outcome : ReadOutcome) :
    Consistent (getScalingGovernor s outcome).2 := by
  cases outcome <;> exact ⟨h.applied, h.saved⟩

theorem Consistent.getCpuInteractivePaths (h : Consistent s) (outcome : ReadOutcome) :
    Consistent (getCpuInteractivePaths s outcome) := by
  have hGovernor := h.getScalingGovernor outcome
  unfold Power.getCpuInteractivePaths
  dsimp only
  split
  · exact ⟨hGovernor.applied, hGovernor.saved⟩
  · exact hGovernor

/-- Reading the lowest frequency changes nothing that has been written. -/
theorem Consistent.readMinFreq (h : Consistent s) (outcome : ReadOutcome) :
    Consistent (readMinFreq s outcome) := by
  cases outcome with
  | read data => exact ⟨h.applied, h.saved⟩
  | _ => exact h

/-- Reading the frequency of the high-speed profile changes nothing that has
been written. -/
theorem Consistent.readHispeedFreq (h : Consistent s) (outcome : ReadOutcome) :
    Consistent (readHispeedFreq s outcome) := by
  cases outcome with
  | read data => exact ⟨h.applied, h.saved⟩
  | _ => exact h

/-- Reading the highest frequency changes nothing that has been written. -/
theorem Consistent.readMaxFreq (h : Consistent s) (outcome : ReadOutcome) :
    Consistent (readMaxFreq s outcome) := by
  cases outcome with
  | read data => exact ⟨h.applied, fun _ hText => Option.some.inj hText⟩
  | _ => exact h

theorem Consistent.samsungPowerInit (h : Consistent s) (outcomes : InitOutcomes) :
    Consistent (samsungPowerInit s outcomes) :=
  have hMinFreq := ((h.getScalingGovernor _).getCpuInteractivePaths _).readMinFreq _
  (hMinFreq.readHispeedFreq _).readMaxFreq _

theorem setPowerProfile_same {profile : Int} (h : s.currentPowerProfile = profile)
    (reads : ReadOutcome) (writes : WriteOutcome) : setPowerProfile s profile reads writes = s :=
  if_pos h

/-- Every other profile is recorded, whatever the accesses give. -/
theorem setPowerProfile_recorded (profile : Int) (reads : ReadOutcome) (writes : WriteOutcome) :
    (setPowerProfile s profile reads writes).currentPowerProfile = profile := by
  unfold setPowerProfile
  split
  · assumption
  · rfl

/-- Where no access fails, what is written last is the frequency of the
profile. -/
theorem setPowerProfile_history {profile : Int} {reads : ReadOutcome} {writes : WriteOutcome}
    (h : s.currentPowerProfile ≠ profile)
    (hSucceeds : ¬(Hint.setProfile profile reads writes).Fails)
    (hProfile : profile ∈ [profilePowerSave, profileBalanced, profileHighPerformance]) :
    ∃ text before, lastWrite (setPowerProfile s profile reads writes).history =
        some (text, before) ∧
      frequencyOf profileHighPerformance (setPowerProfile s profile reads writes).history =
        frequencyOf profileHighPerformance s.history ∧
      (setPowerProfile s profile reads writes).cpuMaxFreq = s.cpuMaxFreq ∧
      if profile = profileHighPerformance then text = s.cpuMaxFreq.text ∧ before = s.history
      else frequencyOf profile before = some text := by
  obtain ⟨hReads, hWrites⟩ := not_or.mp hSucceeds
  obtain rfl : writes = .written := Classical.not_not.mp fun hFails => hWrites ⟨hProfile, hFails⟩
  rw [setPowerProfile, if_neg h]
  simp only [List.mem_cons, List.not_mem_nil, or_false] at hProfile
  obtain rfl | rfl | rfl := hProfile
  · cases reads with
    | read data => exact ⟨_, _, rfl, rfl, rfl, rfl⟩
    | _ => exact absurd ⟨List.mem_cons_self, trivial⟩ hReads
  · cases reads with
    | read data => exact ⟨_, _, rfl, rfl, rfl, rfl⟩
    | _ => exact absurd ⟨by simp, trivial⟩ hReads
  · exact ⟨_, _, rfl, rfl, rfl, rfl, rfl⟩

/-- A profile that is none of the three leaves the frequencies alone. -/
theorem applyProfile_other {profile : Int} (reads : ReadOutcome) (writes : WriteOutcome)
    (h : profile ∉ [profilePowerSave, profileBalanced, profileHighPerformance]) :
    applyProfile s profile reads writes = s := by
  simp only [List.mem_cons, List.not_mem_nil, or_false, not_or] at h
  rw [applyProfile, if_neg h.1, if_neg h.2.1, if_neg h.2.2]

/-- A hint that succeeds applies what it records, and keeps the saved
frequency. -/
theorem Consistent.setPowerProfile (h : Consistent s) {profile : Int} {reads : ReadOutcome}
    {writes : WriteOutcome} (hSucceeds : Succeeds s (.hint (.setProfile profile reads writes))) :
    Consistent (setPowerProfile s profile reads writes) := by
  by_cases hSame : s.currentPowerProfile = profile
  · rw [setPowerProfile_same hSame]
    exact h
  · obtain ⟨hFails, hSaved⟩ := hSucceeds.resolve_left hSame
    by_cases hProfile : profile ∈ [profilePowerSave, profileBalanced, profileHighPerformance]
    · obtain ⟨text, before, hWrite, hMax, hBuffer, hText⟩ :=
        setPowerProfile_history hSame hFails hProfile
      constructor
      · intro text' before' hWrite' _
        obtain ⟨rfl, rfl⟩ := Prod.mk.inj (Option.some.inj (hWrite.symm.trans hWrite'))
        rw [setPowerProfile_recorded]
        split at hText
        · next hHigh =>
            obtain ⟨saved, hRead⟩ := Option.ne_none_iff_exists'.mp (hSaved hHigh)
            rw [hText.1, hText.2, hHigh, hRead, h.saved saved hRead]
        · exact hText
      · intro saved hRead
        rw [hBuffer]
        exact h.saved saved (hMax ▸ hRead)
    · rw [Power.setPowerProfile, if_neg hSame, applyProfile_other reads writes hProfile]
      exact ⟨fun _ _ _ hMem => absurd hMem hProfile, h.saved⟩

/-- Each request keeps the recorded profile the one that is in force, where
its reads and writes succeed. -/
theorem Consistent.serve (h : Consistent s) {request : Request} (hSucceeds : Succeeds s request)
    {t : State} (hStep : serve s request = some t) : Consistent t := by
  cases request with
  | init outcomes => exact Option.some.inj hStep ▸ h.samsungPowerInit outcomes
  | hint hint =>
      cases hint with
      | setProfile profile reads writes =>
          exact Option.some.inj hStep ▸ h.setPowerProfile hSucceeds
      | _ => exact Option.some.inj hStep ▸ h

/-- Of the hints that change the record, those that succeed are the ones
that also apply it. -/
theorem records_iff (h : Consistent s) (request : Request) :
    Records s request ↔ Succeeds s request := by
  cases request with
  | init outcomes => exact Iff.rfl
  | hint hint =>
      cases hint with
      | setProfile profile reads writes =>
          constructor
          · intro hRecords
            refine or_iff_not_imp_left.mpr fun hSame => ?_
            have hFails : ¬(Hint.setProfile profile reads writes).Fails := fun hFails =>
              hSame ((hRecords.2 hFails).symm.trans (setPowerProfile_recorded profile reads writes))
            refine ⟨hFails, ?_⟩
            rintro rfl hRead
            have hProfile : profileHighPerformance ∈
                [profilePowerSave, profileBalanced, profileHighPerformance] := by simp
            obtain ⟨text, before, hWrite, -, -, hText⟩ :=
              setPowerProfile_history hSame hFails hProfile
            rw [if_pos rfl] at hText
            have hRecorded := setPowerProfile_recorded (s := s) profileHighPerformance reads writes
            have hApplied : Applied (setPowerProfile s profileHighPerformance reads writes) :=
              hRecords.1
            have hFrequency := hApplied text before hWrite (by rw [hRecorded]; exact hProfile)
            rw [hRecorded, hText.2, hRead] at hFrequency
            cases hFrequency
          · intro hSucceeds
            refine ⟨(h.setPowerProfile hSucceeds).applied, fun hFails => ?_⟩
            obtain hSame | hNot := hSucceeds
            · rw [samsungPowerHint, setPowerProfile_same hSame]
            · exact absurd hFails hNot.1
      | _ => exact iff_of_true ⟨h.applied, False.elim⟩ trivial

theorem static_consistent (touchscreen touchkey ioIsBusy : UInt8) :
    Consistent (State.static touchscreen touchkey ioIsBusy) := by
  constructor
  · intro text before hWrite
    cases hWrite
  · intro text hRead
    cases hRead

/-- In every run from the static object on, all hints record what they apply
exactly when none that asks for another profile than the recorded one makes
an access that fails or restores a frequency that was never read. -/
theorem records_applied_iff (touchscreen touchkey ioIsBusy : UInt8) (requests : List Request) :
    Transition.Meets serve Records (State.static touchscreen touchkey ioIsBusy) requests ↔
      Transition.Meets serve Succeeds (State.static touchscreen touchkey ioIsBusy) requests :=
  Transition.meets_iff_meets (fun _ request hInv => records_iff hInv request)
    (fun _ _ _ hInv hSucceeds hStep => hInv.serve hSucceeds hStep)
    (static_consistent touchscreen touchkey ioIsBusy) requests

/-- The hint for the power-save profile, while `scaling_max_freq` cannot be
written. -/
def refusedPowerSave : Hint :=
  .setProfile profilePowerSave (.read (Numerals.ascii "768000")) .writeFails

/-- The profile is recorded though nothing was written, and the same hint
does nothing then. -/
theorem refusedPowerSave_recorded :
    ¬∀ (touchscreen touchkey ioIsBusy : UInt8) (requests : List Request),
      Transition.Meets serve Records (State.static touchscreen touchkey ioIsBusy) requests := by
  intro hClaim
  have hRecords := (hClaim 0x31 0x31 0x31 [.hint refusedPowerSave] _ rfl).1
  have hFails : refusedPowerSave.Fails := .inr ⟨List.mem_cons_self, WriteOutcome.noConfusion⟩
  have hUnchanged := hRecords.2 hFails
  rw [refusedPowerSave, samsungPowerHint, setPowerProfile_recorded] at hUnchanged
  exact absurd hUnchanged (by decide)

end Power
