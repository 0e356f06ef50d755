import Gtexswifi.Bluetooth.Sitm

/-! What one turn of the `parse_frame` loop does in each state that a run
can be in. -/
namespace Bluetooth.Sitm

variable {d : PacketReceiveData} {byte : UInt8} {bulk : Option Nat} {wire : List UInt8}

/-- The turn ends with `next` stored and the loop goes on. -/
def Continues (d : PacketReceiveData) (byte : UInt8) (bulk : Option Nat) (wire : List UInt8)
    (next : PacketReceiveData) (rest : List UInt8) : Prop :=
  turn d byte bulk wire = some { data := next, wire := rest, frame := none, returned := false }

/-- The turn hands `frame` to `frame_complete` and the call returns. -/
def Completes (d : PacketReceiveData) (byte : UInt8) (bulk : Option Nat) (wire : List UInt8)
    (frame : List UInt8) (next : PacketReceiveData) (rest : List UInt8) : Prop :=
  turn d byte bulk wire = some { data := next, wire := rest, frame := some frame, returned := true }

/-- A turn whose byte does not finish a packet goes on with the structure
that the byte leaves. -/
theorem continues_of_receiveByte {next : PacketReceiveData} {rest : List UInt8}
    (hReceive : receiveByte d byte bulk wire = some (next, rest))
    (hState : next.state ≠ .finished) (hIgnore : d.state ≠ .ignore) :
    Continues d byte bulk wire next rest := by
  simp [Continues, turn, hReceive, hState, hIgnore]

/-- A turn whose byte finishes a packet returns what the buffer holds up to
the index. -/
theorem completes_of_receiveByte {received : PacketReceiveData} {rest : List UInt8}
    (hReceive : receiveByte d byte bulk wire = some (received, rest))
    (hState : received.state = .finished) (hIndex : received.index ≤ received.buffer.length) :
    Completes d byte bulk wire (received.buffer.take received.index)
      { received with state := .brandNew } rest := by
  have hSlice : Memory.slice received.buffer 0 received.index =
      some ((received.buffer.drop 0).take received.index) := Memory.slice_eq_some (by omega)
  simp [Completes, turn, hReceive, hState, hSlice]

/-- A call that goes on has not completed a frame in this turn. -/
theorem turn_frame_eq_none {outcome : Outcome} (h : turn d byte bulk wire = some outcome)
    (hReturned : ¬outcome.returned = true) : outcome.frame = none := by
  simp only [turn, Option.bind_eq_bind, Option.bind_eq_some_iff] at h
  obtain ⟨received, _, hRest⟩ := h
  split at hRest
  · simp only [Option.bind_eq_some_iff, Option.pure_def, Option.some.injEq] at hRest
    obtain ⟨_, _, rfl⟩ := hRest
    exact absurd rfl hReturned
  · obtain rfl := Option.some.inj hRest
    rfl

/-- The type bytes a packet can start with. -/
def Known (byte : UInt8) : Prop := ¬(byte > dataTypeEvent ∨ byte < dataTypeCommand)

instance (byte : UInt8) : Decidable (Known byte) := inferInstanceAs (Decidable (¬_))

theorem Known.size (h : Known byte) :
    ∃ size, preambleSizes[packetTypeToIndex byte]? = some size := by
  have hIndex : packetTypeToIndex byte < preambleSizes.length := by
    have hFour : dataTypeEvent.toNat = 4 := rfl
    have hOne : dataTypeCommand.toNat = 1 := rfl
    simp only [Known, not_or, UInt8.not_lt, UInt8.le_iff_toNat_le, gt_iff_lt] at h
    simp only [packetTypeToIndex, preambleSizes, List.length_cons, List.length_nil]
    omega
  exact ⟨_, List.getElem?_eq_getElem hIndex⟩

variable (byte bulk wire)

/-- Between packets, a byte that is no packet type is dropped. -/
theorem turn_skip (hState : d.state = .brandNew) (hByte : ¬Known byte) :
    Continues d byte bulk wire d wire := by
  have hSkip : (decide (byte > dataTypeEvent) || decide (byte < dataTypeCommand)) = true := by
    simpa [Known] using Classical.not_not.mp hByte
  exact continues_of_receiveByte (by simp [receiveByte, hState, hSkip]) (by simp [hState])
    (by simp [hState])

/-- Between packets, a packet type opens a preamble and is its first byte. -/
theorem turn_start {size : Nat} (hState : d.state = .brandNew) (hByte : Known byte)
    (hSize : preambleSizes[packetTypeToIndex byte]? = some size)
    (hBuffer : hciHalSerialBufferSize ≤ d.buffer.length) :
    ∃ next, Continues d byte bulk wire next wire ∧ InPreamble next size ∧ next.type = byte ∧
      next.index = 1 ∧ next.preamble.take 1 = [byte] := by
  obtain ⟨started, hStart, hStarted, hType, hZero⟩ := startPacket_spec hSize hBuffer
  have hBound := hStarted.size_le
  have hTotal := hStarted.total
  obtain ⟨stored, hStore, hStored, hSame, hIndex, hTake⟩ :=
    storePreamble_more byte hStarted (by omega)
  have hOpen : ¬(decide (byte > dataTypeEvent) || decide (byte < dataTypeCommand)) = true := by
    simpa [Known] using hByte
  have hReceive : receiveByte d byte bulk wire = some (stored, wire) := by
    simp only [receiveByte, hState]
    rw [if_neg hOpen]
    simp [hStart, hStore]
  rw [hZero] at hIndex
  rw [hIndex, hZero] at hTake
  exact ⟨stored, continues_of_receiveByte hReceive (by simp [hStored.state]) (by simp [hState]),
    hStored, hSame.trans hType, hIndex, by simpa using hTake⟩

/-- With two bytes or more to come, a byte of the preamble is stored and the
state stays. -/
theorem turn_preamble_more {size : Nat} (h : InPreamble d size) (hMore : 2 ≤ d.bytesRemaining) :
    ∃ next, Continues d byte bulk wire next wire ∧ InPreamble next size ∧ next.type = d.type ∧
      next.index = d.index + 1 ∧
      next.preamble.take next.index = d.preamble.take d.index ++ [byte] := by
  obtain ⟨stored, hStore, hStored, hType, hIndex, hTake⟩ := storePreamble_more byte h hMore
  have hReceive : receiveByte d byte bulk wire = some (stored, wire) := by
    simp [receiveByte, h.state, hStore]
  exact ⟨stored, continues_of_receiveByte hReceive (by simp [hStored.state]) (by simp [h.state]),
    hStored, hType, hIndex, hTake⟩

/-- A complete preamble that announces no payload is a whole packet. -/
theorem turn_preamble_empty {size : Nat} (h : InPreamble d size) (hLast : d.bytesRemaining = 1)
    (hEmpty : announcedLength d.type (d.preamble.take d.index ++ [byte]) = 0) :
    ∃ next, Completes d byte bulk wire (d.preamble.take d.index ++ [byte]) next wire ∧
      next.state = .brandNew ∧ next.buffer.length = d.buffer.length := by
  have hSize := h.size_le
  have hBuffer : 1026 ≤ d.buffer.length := h.buffer
  obtain ⟨stored, hStore, _, hIndex, hLength, hStored, hSame, hTake⟩ :=
    storePreamble_last byte h hLast
  have hReceive : receiveByte d byte bulk wire = some (stored, wire) := by
    simp [receiveByte, h.state, hStore]
  rw [hLength, hEmpty, if_neg (Nat.lt_irrefl 0)] at hStored
  have hTurn := completes_of_receiveByte hReceive hStored (by omega)
  rw [hTake] at hTurn
  exact ⟨_, hTurn, rfl, hSame⟩

/-- A complete preamble that announces a payload opens the body behind it. -/
theorem turn_preamble_body {size : Nat} (h : InPreamble d size) (hLast : d.bytesRemaining = 1)
    (hPos : 0 < announcedLength d.type (d.preamble.take d.index ++ [byte])) :
    ∃ next, Continues d byte bulk wire next wire ∧ next.state = .body ∧ next.type = d.type ∧
      next.index = size + 1 ∧
      next.bytesRemaining = announcedLength d.type (d.preamble.take d.index ++ [byte]) ∧
      next.buffer.length = d.buffer.length ∧
      next.buffer.take next.index = d.preamble.take d.index ++ [byte] := by
  obtain ⟨stored, hStore, hType, hIndex, hLength, hStored, hSame, hTake⟩ :=
    storePreamble_last byte h hLast
  have hReceive : receiveByte d byte bulk wire = some (stored, wire) := by
    simp [receiveByte, h.state, hStore]
  rw [hLength, if_pos hPos] at hStored
  exact ⟨stored, continues_of_receiveByte hReceive (by simp [hStored]) (by simp [h.state]), hStored,
    hType, hIndex, hLength, hSame, hTake⟩

/-- In a body the byte and the bytes of the bulk read are appended, and the
packet is complete when none remains. -/
theorem turn_body (hState : d.state = .body) (hRemaining : 1 ≤ d.bytesRemaining)
    (hBound : d.index + d.bytesRemaining ≤ hciHalSerialBufferSize)
    (hBuffer : hciHalSerialBufferSize ≤ d.buffer.length) :
    ∃ next ready, ready = dataReady bulk (d.bytesRemaining - 1) wire ∧ next.type = d.type ∧
      (next.index : Int) = d.index + 1 + ready.ret ∧
      (next.bytesRemaining : Int) = d.bytesRemaining - 1 - ready.ret ∧
      next.buffer.length = d.buffer.length ∧
      next.buffer.take (d.index + 1 + ready.bytes.length) =
        d.buffer.take d.index ++ byte :: ready.bytes ∧
      (next.bytesRemaining = 0 → next.state = .brandNew ∧
        Completes d byte bulk wire (next.buffer.take next.index) next ready.wire) ∧
      (next.bytesRemaining ≠ 0 → next.state = .body ∧
        Continues d byte bulk wire next ready.wire) := by
  have hSize : hciHalSerialBufferSize = 1026 := rfl
  obtain ⟨stored, ready, hReady, hStore, hType, hIndex, hLeft, hStored, hSame, hTake⟩ :=
    storeBody_spec byte bulk wire hState hRemaining hBound hBuffer
  have hRet := dataReady_ret_bounds bulk (d.bytesRemaining - 1) wire
  rw [← hReady] at hRet
  have hReceive : receiveByte d byte bulk wire = some (stored, ready.wire) := by
    simp [receiveByte, hState, hStore]
  by_cases hZero : stored.bytesRemaining = 0
  · rw [if_pos hZero] at hStored
    refine ⟨{ stored with state := .brandNew }, ready, hReady, hType, hIndex, hLeft, hSame, hTake,
      fun _ => ⟨rfl, ?_⟩, fun hOther => absurd hZero hOther⟩
    have hTurn := completes_of_receiveByte hReceive hStored (by omega)
    exact hTurn
  · rw [if_neg hZero] at hStored
    refine ⟨stored, ready, hReady, hType, hIndex, hLeft, hSame, hTake,
      fun hOther => absurd hOther hZero, fun _ => ⟨hStored, ?_⟩⟩
    exact continues_of_receiveByte hReceive (by simp [hStored]) (by simp [hState])

end Bluetooth.Sitm
