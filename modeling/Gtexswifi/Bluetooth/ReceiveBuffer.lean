import Gtexswifi.Bluetooth.Turn
import Gtexswifi.Library.Transition

/-! The bounds on the receive buffer over whole runs of the loop. Every
byte, every result of the bulk reads and every place where a call ends is
possible. -/
namespace Bluetooth.Sitm

/-- One byte read by the loop, with what the bulk read of its turn can
deliver. -/
structure TurnInput where
  byte : UInt8
  bulk : Option Nat
  wire : List UInt8

def turnStep (d : PacketReceiveData) (input : TurnInput) : Option PacketReceiveData :=
  (turn d input.byte input.bulk input.wire).map Outcome.data

/-- What every state that a turn starts from or ends in has to satisfy. -/
structure Bounded (d : PacketReceiveData) : Prop where
  preambleIndex : d.state = .preamble → d.index < preambleBufferSize
  bodyFits : d.state = .body → d.index + d.bytesRemaining ≤ hciHalSerialBufferSize
  remaining : d.state = .preamble ∨ d.state = .body → 1 ≤ d.bytesRemaining
  notFinished : d.state ≠ .finished

/-- The byte does not complete an ACL preamble that announces more than 1021
bytes. -/
def AclFits (d : PacketReceiveData) (input : TurnInput) : Prop :=
  d.state = .preamble → d.bytesRemaining = 1 → d.type = dataTypeAcl →
    announcedLength d.type (d.preamble.take d.index ++ [input.byte]) ≤ 1021

/-- The invariant that carries the bounds from one turn to the next. -/
structure ReceiveInvariant (d : PacketReceiveData) : Prop where
  buffer : hciHalSerialBufferSize ≤ d.buffer.length
  phase : d.state = .brandNew ∨ (∃ size, InPreamble d size) ∨
    (d.state = .body ∧ 1 ≤ d.bytesRemaining ∧ d.index + d.bytesRemaining ≤ hciHalSerialBufferSize)

/-- The cleared structure waits for a packet with an empty buffer of the
full size. -/
theorem receiveInvariant_cleared (byteAlignment : Nat) :
    ReceiveInvariant (cleared byteAlignment) where
  buffer := by simp [cleared]
  phase := Or.inl rfl

theorem ReceiveInvariant.bounded {d : PacketReceiveData} (h : ReceiveInvariant d) : Bounded d := by
  rcases h.phase with hNew | ⟨size, hPreamble⟩ | ⟨hBody, hRemaining, hFits⟩
  · constructor <;> simp [hNew]
  · have hState := hPreamble.state
    have hSize := hPreamble.size_le
    have hTotal := hPreamble.total
    have hRemaining := hPreamble.remaining
    refine ⟨fun _ => ?_, by simp [hState], fun _ => hRemaining, by simp [hState]⟩
    simp only [preambleBufferSize]
    omega
  · exact ⟨by simp [hBody], fun _ => hFits, fun _ => hRemaining, by simp [hBody]⟩

/-- What a turn from the invariant is to satisfy: it is defined, it keeps
the invariant when the ACL length fits, and it is out of bounds when that
length does not fit. -/
def StaysOrBreaks (d : PacketReceiveData) (input : TurnInput) : Prop :=
  ∃ next, turnStep d input = some next ∧ (AclFits d input → ReceiveInvariant next) ∧
    (Bounded next → AclFits d input)

/-- A turn that goes on is a step to the structure that it leaves. -/
theorem turnStep_of_continues {d next : PacketReceiveData} {input : TurnInput} {rest : List UInt8}
    (h : Continues d input.byte input.bulk input.wire next rest) :
    turnStep d input = some next := by
  simp [turnStep, show turn d input.byte input.bulk input.wire = _ from h]

/-- A turn that completes a frame is a step to the structure that it leaves. -/
theorem turnStep_of_completes {d next : PacketReceiveData} {input : TurnInput}
    {frame rest : List UInt8} (h : Completes d input.byte input.bulk input.wire frame next rest) :
    turnStep d input = some next := by
  simp [turnStep, show turn d input.byte input.bulk input.wire = _ from h]

/-- A step that keeps the invariant and meets no ACL header that is too
large is one that stays. -/
theorem staysOrBreaks_of_stays {d next : PacketReceiveData} {input : TurnInput}
    (hStep : turnStep d input = some next) (hInv : ReceiveInvariant next)
    (hAcl : AclFits d input) : StaysOrBreaks d input :=
  ⟨next, hStep, fun _ => hInv, fun _ => hAcl⟩

theorem turnStep_brandNew {d : PacketReceiveData} (hInv : ReceiveInvariant d)
    (hState : d.state = .brandNew) (input : TurnInput) : StaysOrBreaks d input := by
  have hAcl : AclFits d input := by
    intro hPreamble
    simp [hState] at hPreamble
  by_cases hByte : Known input.byte
  · obtain ⟨size, hSize⟩ := hByte.size
    obtain ⟨next, hTurn, hNext, _⟩ := turn_start input.byte input.bulk input.wire hState
      hByte hSize hInv.buffer
    exact staysOrBreaks_of_stays (turnStep_of_continues hTurn)
      ⟨hNext.buffer, Or.inr (Or.inl ⟨size, hNext⟩)⟩ hAcl
  · exact staysOrBreaks_of_stays (turnStep_of_continues (turn_skip _ _ _ hState hByte)) hInv hAcl

/-- In the preamble only the last byte of an ACL header can announce more
than the buffer holds. -/
theorem turnStep_preamble {d : PacketReceiveData} {size : Nat} (h : InPreamble d size)
    (input : TurnInput) : StaysOrBreaks d input := by
  have hFull : hciHalSerialBufferSize = 1026 := rfl
  have hBuffer := h.buffer
  have hPos := h.remaining
  have hBound := h.size_le
  by_cases hMore : 2 ≤ d.bytesRemaining
  · obtain ⟨next, hTurn, hNext, _⟩ := turn_preamble_more input.byte input.bulk input.wire h hMore
    refine staysOrBreaks_of_stays (turnStep_of_continues hTurn)
      ⟨hNext.buffer, Or.inr (Or.inl ⟨size, hNext⟩)⟩ ?_
    intro _ hLast
    omega
  have hLast : d.bytesRemaining = 1 := by omega
  rcases Nat.eq_zero_or_pos (announcedLength d.type (d.preamble.take d.index ++ [input.byte]))
    with hEmpty | hLength
  · obtain ⟨next, hTurn, hNew, hSame⟩ := turn_preamble_empty input.byte input.bulk input.wire h
      hLast hEmpty
    refine staysOrBreaks_of_stays (turnStep_of_completes hTurn) ⟨by omega, Or.inl hNew⟩ ?_
    intro _ _ _
    omega
  · obtain ⟨next, hTurn, hBody, _, hIndex, hRemaining, hSame, _⟩ := turn_preamble_body
      input.byte input.bulk input.wire h hLast hLength
    refine ⟨next, turnStep_of_continues hTurn, fun hAcl => ?_, fun hBounded _ _ hType => ?_⟩
    · have hFits : next.bytesRemaining ≤ 1021 := by
        rw [hRemaining]
        by_cases hType : d.type = dataTypeAcl
        · exact hAcl h.state hLast hType
        · exact Nat.le_trans (announcedLength_of_ne_acl hType _) (by omega)
      exact ⟨by omega, Or.inr (Or.inr ⟨hBody, by omega, by omega⟩)⟩
    · have hFits := hBounded.bodyFits hBody
      have hFour := h.size_acl hType
      omega

/-- In the body the count of the bytes that are missing keeps the bulk read
in the buffer. -/
theorem turnStep_body {d : PacketReceiveData} (hInv : ReceiveInvariant d)
    (hState : d.state = .body) (hRemaining : 1 ≤ d.bytesRemaining)
    (hFits : d.index + d.bytesRemaining ≤ hciHalSerialBufferSize) (input : TurnInput) :
    StaysOrBreaks d input := by
  have hAcl : AclFits d input := by
    intro hPreamble
    simp [hState] at hPreamble
  have hBuffer := hInv.buffer
  obtain ⟨next, ready, hReady, _, hIndex, hLeft, hSame, _, hDone, hMore⟩ := turn_body
    input.byte input.bulk input.wire hState hRemaining hFits hBuffer
  have hRet := dataReady_ret_bounds input.bulk (d.bytesRemaining - 1) input.wire
  rw [← hReady] at hRet
  by_cases hZero : next.bytesRemaining = 0
  · obtain ⟨hNew, hTurn⟩ := hDone hZero
    exact staysOrBreaks_of_stays (turnStep_of_completes hTurn) ⟨by omega, Or.inl hNew⟩ hAcl
  · obtain ⟨hBody, hTurn⟩ := hMore hZero
    exact staysOrBreaks_of_stays (turnStep_of_continues hTurn)
      ⟨by omega, Or.inr (Or.inr ⟨hBody, by omega, by omega⟩)⟩ hAcl

theorem turnStep_spec {d : PacketReceiveData} (hInv : ReceiveInvariant d) (input : TurnInput) :
    StaysOrBreaks d input := by
  rcases hInv.phase with hNew | ⟨size, hPreamble⟩ | ⟨hBody, hRemaining, hFits⟩
  · exact turnStep_brandNew hInv hNew input
  · exact turnStep_preamble hPreamble input
  · exact turnStep_body hInv hBody hRemaining hFits input

/-- A call of `parse_frame` is a run of turns on the structure. -/
theorem parseFrame_run {d : PacketReceiveData} {wire : List UInt8} {call : List Answers}
    {outcome : Outcome} (h : parseFrame d wire call = some outcome) :
    ∃ inputs, Transition.run turnStep d inputs = some outcome.data := by
  induction call generalizing d wire with
  | nil =>
      obtain rfl := Option.some.inj h
      exact ⟨[], rfl⟩
  | cons answers rest ih =>
      rw [parseFrame] at h
      split at h
      · obtain rfl := Option.some.inj h
        exact ⟨[], rfl⟩
      · next byte _ _ =>
          rw [Option.bind_eq_some_iff] at h
          obtain ⟨middle, hTurn, hRest⟩ := h
          have hStep : turnStep d ⟨byte, answers.bulk, (dataReady answers.first 1 wire).wire⟩ =
              some middle.data := by simp [turnStep, hTurn]
          split at hRest
          · obtain rfl := Option.some.inj hRest
            exact ⟨[_], by rw [Transition.run_cons, hStep]; rfl⟩
          · obtain ⟨inputs, hRun⟩ := ih hRest
            exact ⟨_ :: inputs, by rw [Transition.run_cons, hStep, Option.bind_some, hRun]⟩

/-- The structure between two calls is the end of a run of turns. -/
theorem parseFrames_run {d next : PacketReceiveData} {wire rest : List UInt8}
    {calls : List (List Answers)} {frames : List (List UInt8)}
    (h : parseFrames d wire calls = some (next, rest, frames)) :
    ∃ inputs, Transition.run turnStep d inputs = some next := by
  induction calls generalizing d wire frames with
  | nil =>
      simp only [parseFrames, Option.some.injEq, Prod.mk.injEq] at h
      exact ⟨[], by rw [Transition.run_nil, h.1]⟩
  | cons call calls ih =>
      simp only [parseFrames, Option.bind_eq_bind, Option.bind_eq_some_iff, Option.pure_def,
        Option.some.injEq, Prod.mk.injEq] at h
      obtain ⟨outcome, hCall, ⟨last, _, more⟩, hCalls, rfl, rfl, _⟩ := h
      obtain ⟨first, hFirst⟩ := parseFrame_run hCall
      obtain ⟨second, hSecond⟩ := ih hCalls
      exact ⟨first ++ second, by rw [Transition.run_append, hFirst, Option.bind_some, hSecond]⟩

/-- No store leaves an array and every state is in bounds, exactly in the
runs in which no ACL preamble announces more than 1021 bytes. -/
theorem receiveBuffer_safe_iff (byteAlignment : Nat) (inputs : List TurnInput) :
    Transition.Safe turnStep Bounded (cleared byteAlignment) inputs ↔
      Transition.Meets turnStep AclFits (cleared byteAlignment) inputs := by
  refine Transition.safe_iff_meets (fun _ hInv => hInv.bounded) ?_ ?_ ?_
    (receiveInvariant_cleared byteAlignment) inputs
  · intro d input hInv
    obtain ⟨next, hStep, _⟩ := turnStep_spec hInv input
    exact ⟨next, hStep⟩
  · intro d input next hInv hAcl hNext
    obtain ⟨next', hStep, hStays, _⟩ := turnStep_spec hInv input
    obtain rfl : next' = next := Option.some.inj (hStep.symm.trans hNext)
    exact hStays hAcl
  · intro d input next hInv hNext hBounded
    obtain ⟨next', hStep, _, hBreaks⟩ := turnStep_spec hInv input
    obtain rfl : next' = next := Option.some.inj (hStep.symm.trans hNext)
    exact hBreaks hBounded

/-- An ACL preamble announcing 65535 bytes, as a remote controller can send
it. -/
def overlongAcl : List TurnInput :=
  [0x02, 0x00, 0x00, 0xFF, 0xFF].map fun byte => { byte, bulk := some 0, wire := [] }

/-- After these five bytes the buffer of 1026 bytes is expected to take
65540. -/
theorem overlongAcl_unbounded :
    ¬∀ inputs, Transition.Safe turnStep Bounded (cleared 0) inputs := by
  intro hSafe
  obtain ⟨d, hRun, hBounded⟩ := (hSafe overlongAcl).last
  have hState : (Transition.run turnStep (cleared 0) overlongAcl).map
      (fun d => (d.state, d.index + d.bytesRemaining)) = some (.body, 65540) := by
    decide +kernel
  rw [hRun, Option.map_some, Option.some.injEq, Prod.mk.injEq] at hState
  have hFits := hBounded.bodyFits hState.1
  have hSize : hciHalSerialBufferSize = 1026 := rfl
  omega

end Bluetooth.Sitm
