import Gtexswifi.Bluetooth.ReceiveBuffer

/-! A bulk read that fails in a body. Its -1 is added to the counters that
the byte before it has moved, so that they are back where they were, and the
next byte takes the place of that one. -/
namespace Bluetooth.Sitm

/-- One byte of the body is received, and nothing else. -/
structure KeepsByte (d : PacketReceiveData) (byte : UInt8) (next : PacketReceiveData) : Prop where
  stored : next.buffer.take (d.index + 1) = d.buffer.take d.index ++ [byte]
  index : next.index = d.index + 1
  remaining : next.bytesRemaining + 1 = d.bytesRemaining

variable {d : PacketReceiveData}

/-- The index after a failed bulk read does not count the byte before it. -/
theorem storeBody_failed {byte : UInt8} {wire rest : List UInt8} {next : PacketReceiveData}
    (h : storeBody d byte none wire = some (next, rest)) : next.index ≤ d.index := by
  simp only [storeBody, dataReady, Option.bind_eq_bind, Option.bind_eq_some_iff, Option.pure_def,
    Option.some.injEq, Prod.mk.injEq] at h
  obtain ⟨_, -, _, -, rfl, -⟩ := h
  simp only [wrap16]
  omega

/-- No state in a body receives the byte in front of a failed bulk read. -/
theorem failed_read_never_keeps (hState : d.state = .body) (byte : UInt8) (wire : List UInt8) :
    ¬∃ next, turnStep d ⟨byte, none, wire⟩ = some next ∧ KeepsByte d byte next := by
  rintro ⟨next, hStep, hKeeps⟩
  obtain ⟨outcome, hTurn, rfl⟩ := Option.map_eq_some_iff.mp hStep
  simp only [turn, receiveByte, hState, Option.bind_eq_bind, Option.bind_eq_some_iff] at hTurn
  obtain ⟨⟨received, rest⟩, hReceive, hRest⟩ := hTurn
  have hIndex := storeBody_failed hReceive
  have hSame : outcome.data.index = received.index := by
    split at hRest
    · obtain ⟨_, -, hOutcome⟩ := Option.bind_eq_some_iff.mp hRest
      obtain rfl := Option.some.inj hOutcome
      rfl
    · obtain rfl := Option.some.inj hRest
      rfl
  have hMoved := hKeeps.index
  omega

/-- An event packet of four parameters, up to the first of them. -/
def eventHeader : List TurnInput :=
  [0x04, 0x0E, 0x04].map fun byte => { byte, bulk := some 0, wire := [] }

/-- The structure behind the three bytes of the header. -/
def eventBody : PacketReceiveData where
  state := .body
  bytesRemaining := 4
  type := 0x04
  preamble := [0x04, 0x0E, 0x04, 0, 0]
  index := 3
  buffer := [0x04, 0x0E, 0x04] ++ List.replicate 1023 0

/-- The three bytes of the header lead to the body, in which the four
parameters are still to come. -/
theorem eventBody_reached : Transition.run turnStep (cleared 0) eventHeader = some eventBody := by
  decide +kernel

/-- In this state the byte that was read before the failed read is given up. -/
theorem failed_read_never_keeps_event :
    ¬∃ next, turnStep eventBody ⟨0x01, none, []⟩ = some next ∧ KeepsByte eventBody 0x01 next :=
  failed_read_never_keeps rfl 0x01 []

/-- The state is one that is reached, so that not every reachable state
keeps its byte. -/
theorem failed_read_loses :
    ¬∀ (byteAlignment : Nat) (inputs : List TurnInput) (d : PacketReceiveData),
      Transition.run turnStep (cleared byteAlignment) inputs = some d → d.state = .body →
      ∀ (byte : UInt8) (wire : List UInt8),
        ∃ next, turnStep d ⟨byte, none, wire⟩ = some next ∧ KeepsByte d byte next := by
  intro hAll
  obtain ⟨next, hStep, hKeeps⟩ := hAll 0 eventHeader eventBody eventBody_reached rfl 0x01 []
  have hIndex : (turnStep eventBody ⟨0x01, none, []⟩).map PacketReceiveData.index = some 3 := by
    decide +kernel
  rw [hStep] at hIndex
  exact absurd (hKeeps.index.symm.trans (Option.some.inj hIndex)) (by decide)

/-- The byte is lost: the counters are as before it, and the next byte that
is received stands in its place. -/
theorem next_byte_replaces (hInv : ReceiveInvariant d) (hState : d.state = .body)
    (byte other : UInt8) (wire wire' : List UInt8) :
    ∃ failed next, turnStep d ⟨byte, none, wire⟩ = some failed ∧
      failed.index = d.index ∧ failed.bytesRemaining = d.bytesRemaining ∧
      turnStep failed ⟨other, some 0, wire'⟩ = some next ∧ KeepsByte d other next := by
  have hBuffer := hInv.buffer
  have hRemaining := hInv.bounded.remaining (Or.inr hState)
  have hFits := hInv.bounded.bodyFits hState
  obtain ⟨failed, ready, hReady, -, hIndex, hLeft, hSame, hTake, -, hMore⟩ :=
    turn_body byte none wire hState hRemaining hFits hBuffer
  have hRet : ready.ret = -1 := by rw [hReady, dataReady]
  have hNone : ready.bytes = [] := by rw [hReady, dataReady]
  have hIndex' : failed.index = d.index := by omega
  have hLeft' : failed.bytesRemaining = d.bytesRemaining := by omega
  obtain ⟨hBody, hFailed⟩ := hMore (by omega)
  obtain ⟨next, ready', hReady', -, hNextIndex, hNextLeft, -, hNextTake, hNextDone, hNextMore⟩ :=
    turn_body other (some 0) wire' hBody (by omega) (by omega) (by omega)
  have hEmpty : ready'.bytes = [] := by simp [hReady', dataReady]
  have hZero : ready'.ret = 0 := by simp [hReady', dataReady]
  have hPrefix : failed.buffer.take d.index = d.buffer.take d.index := by
    have hShorter := congrArg (List.take d.index) hTake
    rw [List.take_take, hNone, List.take_append_of_le_length (by simp; omega),
      List.take_take] at hShorter
    simpa using hShorter
  have hNext : turnStep failed ⟨other, some 0, wire'⟩ = some next := by
    by_cases hDone : next.bytesRemaining = 0
    · exact turnStep_of_completes (hNextDone hDone).2
    · exact turnStep_of_continues (hNextMore hDone).2
  rw [hEmpty, hIndex', hPrefix] at hNextTake
  exact ⟨failed, next, turnStep_of_continues hFailed, hIndex', hLeft', hNext, hNextTake, by omega,
    by omega⟩

end Bluetooth.Sitm
