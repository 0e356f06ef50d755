import Gtexswifi.Library.Memory

/-! The receive side of the serial interface transport manager: one
byte-driven state machine serves the controller's UART and the stack's
socket. -/
namespace Bluetooth.Sitm

inductive ReceiveState where
  | brandNew | preamble | body | ignore | finished
  deriving DecidableEq, Repr

/-- The 16-bit counters are natural numbers reduced by `wrap16` at every
update. -/
structure PacketReceiveData where
  state : ReceiveState
  bytesRemaining : Nat
  type : UInt8
  preamble : List UInt8
  index : Nat
  buffer : List UInt8
  deriving DecidableEq, Repr

def preambleBufferSize : Nat := 5
def hciHalSerialBufferSize : Nat := 1026

def dataTypeCommand : UInt8 := 1
def dataTypeAcl : UInt8 := 2
def dataTypeSco : UInt8 := 3
def dataTypeEvent : UInt8 := 4

def hciCommandPreambleSize : Nat := 3
def hciAclPreambleSize : Nat := 4
def hciScoPreambleSize : Nat := 3
def hciEventPreambleSize : Nat := 2

def preambleSizes : List Nat :=
  [hciCommandPreambleSize, hciAclPreambleSize, hciScoPreambleSize, hciEventPreambleSize]

def packetTypeToIndex (type : UInt8) : Nat := type.toNat - 1

/-- Assignment to a `uint16_t`. -/
def wrap16 (value : Int) : Nat := (value % 65536).toNat

/-- The length field of an ACL packet, the type byte being cell 0 of the
preamble. -/
def retrieveAclLength (preamble : List UInt8) : Option Nat := do
  let high ← preamble[4]?
  let low ← preamble[3]?
  return (high.toNat &&& 0xFFFF) <<< 8 ||| low.toNat

/-- The structure as `sitm_server_start_up` clears it. -/
def cleared (byteAlignment : Nat) : PacketReceiveData where
  state := .brandNew
  bytesRemaining := 0
  type := 0
  preamble := List.replicate preambleBufferSize 0
  index := 0
  buffer := List.replicate (hciHalSerialBufferSize + byteAlignment) 0

/-- `case BRAND_NEW` for a known packet type, up to the fall-through. -/
def startPacket (d : PacketReceiveData) (byte : UInt8) : Option PacketReceiveData := do
  let size ← preambleSizes[packetTypeToIndex byte]?
  return { d with
    type := byte
    bytesRemaining := wrap16 (size + 1)
    preamble := List.replicate preambleBufferSize 0
    index := 0
    state := .preamble }

/-- `case PREAMBLE`. The null check of the source comes after the structure
has been dereferenced, so the branch to `IGNORE` is not taken. -/
def storePreamble (d : PacketReceiveData) (byte : UInt8) : Option PacketReceiveData := do
  let preamble ← Memory.write d.preamble d.index [byte]
  let index := wrap16 (d.index + 1)
  let bytesRemaining := wrap16 (d.bytesRemaining - 1)
  if bytesRemaining = 0 then
    let length ← (if d.type = dataTypeAcl then retrieveAclLength preamble else some byte.toNat :
      Option Nat)
    let header ← Memory.slice preamble 0 index
    let buffer ← Memory.write d.buffer 0 header
    return { d with
      preamble, index, buffer
      bytesRemaining := wrap16 length
      state := if wrap16 length > 0 then .body else .finished }
  else
    return { d with preamble, index, bytesRemaining }

/-- What a `data_ready` call hands over when the wire still holds `wire`.
`answer` bounds the bytes it delivers; `none` is the -1 of a failed read. -/
structure DataReady where
  ret : Int
  bytes : List UInt8
  wire : List UInt8

def dataReady (answer : Option Nat) (len : Nat) (wire : List UInt8) : DataReady :=
  match answer with
  | some limit =>
      let bytes := wire.take (min limit len)
      { ret := bytes.length, bytes, wire := wire.drop (min limit len) }
  | none => { ret := -1, bytes := [], wire }

/-- `case BODY`, with the result of the bulk read added to the counters
unchecked. -/
def storeBody (d : PacketReceiveData) (byte : UInt8) (bulk : Option Nat) (wire : List UInt8) :
    Option (PacketReceiveData × List UInt8) := do
  let buffer ← Memory.write d.buffer d.index [byte]
  let index := wrap16 (d.index + 1)
  let bytesRemaining := wrap16 (d.bytesRemaining - 1)
  let ready := dataReady bulk bytesRemaining wire
  let buffer ← Memory.write buffer index ready.bytes
  let bytesRemaining := wrap16 (bytesRemaining - ready.ret)
  return ({ d with
    buffer, bytesRemaining
    index := wrap16 (index + ready.ret)
    state := if bytesRemaining = 0 then .finished else d.state }, ready.wire)

/-- The `switch` of `parse_frame` on one byte. `none` is a store outside an
array. -/
def receiveByte (d : PacketReceiveData) (byte : UInt8) (bulk : Option Nat) (wire : List UInt8) :
    Option (PacketReceiveData × List UInt8) :=
  match d.state with
  | .brandNew =>
      if byte > dataTypeEvent || byte < dataTypeCommand then some (d, wire)
      else (startPacket d byte).bind fun d => (storePreamble d byte).map fun d => (d, wire)
  | .preamble => (storePreamble d byte).map fun d => (d, wire)
  | .body => storeBody d byte bulk wire
  | .ignore =>
      let bytesRemaining := wrap16 (d.bytesRemaining - 1)
      let state := if bytesRemaining = 0 then .brandNew else .ignore
      some ({ d with bytesRemaining, state }, wire)
  | .finished => some (d, wire)

/-- Where one turn of the loop leaves the structure and the wire. -/
structure Outcome where
  data : PacketReceiveData
  wire : List UInt8
  frame : Option (List UInt8)
  returned : Bool

/-- One turn of the `while` loop after its one-byte read. A finished packet
goes to `frame_complete`, and the state machine starts over. -/
def turn (d : PacketReceiveData) (byte : UInt8) (bulk : Option Nat) (wire : List UInt8) :
    Option Outcome := do
  let (received, wire) ← receiveByte d byte bulk wire
  if received.state = .finished then
    let frame ← Memory.slice received.buffer 0 received.index
    return {
      data := { received with state := .brandNew }
      wire, frame := some frame, returned := true }
  else
    -- `case IGNORE` returns as well once the ignored packet is over.
    let ignored := d.state = .ignore && received.state = .brandNew
    return { data := received, wire, frame := none, returned := ignored }

/-- The answers to the two `data_ready` calls that one turn of the loop can
make. -/
structure Answers where
  first : Option Nat
  bulk : Option Nat

/-- One call of `parse_frame`. The loop ends when the one-byte read does not
deliver a byte, in particular when the answers run out. -/
def parseFrame (d : PacketReceiveData) (wire : List UInt8) : List Answers → Option Outcome
  | [] => some { data := d, wire, frame := none, returned := true }
  | answers :: rest =>
      let ready := dataReady answers.first 1 wire
      match ready.bytes with
      | [] => some { data := d, wire := ready.wire, frame := none, returned := true }
      | byte :: _ =>
          (turn d byte answers.bulk ready.wire).bind fun outcome =>
            if outcome.returned then some outcome
            else parseFrame outcome.data outcome.wire rest

/-- Successive calls on one structure, with the frames they completed, in
order. -/
def parseFrames (d : PacketReceiveData) (wire : List UInt8) :
    List (List Answers) → Option (PacketReceiveData × List UInt8 × List (List UInt8))
  | [] => some (d, wire, [])
  | call :: rest => do
      let outcome ← parseFrame d wire call
      let (d, wire, frames) ← parseFrames outcome.data outcome.wire rest
      return (d, wire, outcome.frame.toList ++ frames)

theorem wrap16_of_lt {value : Nat} (h : value < 65536) : wrap16 value = value := by
  unfold wrap16
  omega

theorem wrap16_add_one {value : Nat} (h : value + 1 < 65536) :
    wrap16 ((value : Int) + 1) = value + 1 := by
  unfold wrap16
  omega

theorem wrap16_sub_one {value : Nat} (hPos : 1 ≤ value) (h : value < 65536) :
    wrap16 ((value : Int) - 1) = value - 1 := by
  unfold wrap16
  omega

theorem dataReady_bytes_length_le (answer : Option Nat) (len : Nat) (wire : List UInt8) :
    (dataReady answer len wire).bytes.length ≤ len := by
  cases answer with
  | none => exact Nat.zero_le _
  | some limit =>
      simp only [dataReady, List.length_take]
      omega

theorem dataReady_ret_bounds (answer : Option Nat) (len : Nat) (wire : List UInt8) :
    -1 ≤ (dataReady answer len wire).ret ∧ (dataReady answer len wire).ret ≤ len := by
  cases answer with
  | none => simp only [dataReady]; omega
  | some limit =>
      simp only [dataReady, List.length_take]
      omega

/-- A read that does not fail moves its bytes from the wire to the caller. -/
theorem dataReady_delivered (limit len : Nat) (wire : List UInt8) :
    (dataReady (some limit) len wire).ret = (dataReady (some limit) len wire).bytes.length ∧
      wire = (dataReady (some limit) len wire).bytes ++ (dataReady (some limit) len wire).wire := by
  simp [dataReady]

/-- A structure part of the way through a preamble of `size` bytes. -/
structure InPreamble (d : PacketReceiveData) (size : Nat) : Prop where
  state : d.state = .preamble
  sizes : preambleSizes[packetTypeToIndex d.type]? = some size
  remaining : 1 ≤ d.bytesRemaining
  total : d.index + d.bytesRemaining = size + 1
  array : d.preamble.length = preambleBufferSize
  buffer : hciHalSerialBufferSize ≤ d.buffer.length

theorem preambleSizes_le {i size : Nat} (h : preambleSizes[i]? = some size) :
    2 ≤ size ∧ size ≤ 4 := by
  have hMem := List.mem_of_getElem? h
  simp only [preambleSizes, hciCommandPreambleSize, hciAclPreambleSize, hciScoPreambleSize,
    hciEventPreambleSize, List.mem_cons, List.not_mem_nil, or_false] at hMem
  omega

theorem InPreamble.size_le {d : PacketReceiveData} {size : Nat} (h : InPreamble d size) :
    2 ≤ size ∧ size ≤ 4 := preambleSizes_le h.sizes

theorem InPreamble.size_acl {d : PacketReceiveData} {size : Nat} (h : InPreamble d size)
    (hAcl : d.type = dataTypeAcl) : size = 4 := by
  have hSizes := h.sizes
  rw [hAcl] at hSizes
  exact (Option.some.inj hSizes).symm

/-- A known type byte opens its preamble with nothing stored yet. -/
theorem startPacket_spec {d : PacketReceiveData} {byte : UInt8} {size : Nat}
    (hSize : preambleSizes[packetTypeToIndex byte]? = some size)
    (hBuffer : hciHalSerialBufferSize ≤ d.buffer.length) :
    ∃ started, startPacket d byte = some started ∧ InPreamble started size ∧
      started.type = byte ∧ started.index = 0 := by
  have hBound := preambleSizes_le hSize
  have hWrap : wrap16 ((size : Int) + 1) = size + 1 := wrap16_add_one (by omega)
  have hResult : startPacket d byte = some { d with
      type := byte
      bytesRemaining := size + 1
      preamble := List.replicate preambleBufferSize 0
      index := 0
      state := .preamble } := by
    simp [startPacket, hSize, hWrap]
  refine ⟨_, hResult, ?_, rfl, rfl⟩
  exact {
    state := rfl
    sizes := hSize
    remaining := Nat.le_add_left 1 size
    total := Nat.zero_add _
    array := List.length_replicate
    buffer := hBuffer }

/-- A preamble byte that is not the last one is only stored. -/
theorem storePreamble_more {d : PacketReceiveData} {size : Nat} (byte : UInt8)
    (h : InPreamble d size) (hMore : 2 ≤ d.bytesRemaining) :
    ∃ stored, storePreamble d byte = some stored ∧ InPreamble stored size ∧
      stored.type = d.type ∧ stored.index = d.index + 1 ∧
      stored.preamble.take stored.index = d.preamble.take d.index ++ [byte] := by
  have hSize := h.size_le
  have hTotal := h.total
  have hArray : d.preamble.length = 5 := h.array
  obtain ⟨preamble, hWrite, hLength, hTake⟩ :=
    Memory.exists_write d.preamble d.index [byte]
      (by simp only [List.length_singleton]; omega)
  have hIndex : wrap16 ((d.index : Int) + 1) = d.index + 1 := wrap16_add_one (by omega)
  have hRemaining : wrap16 ((d.bytesRemaining : Int) - 1) = d.bytesRemaining - 1 :=
    wrap16_sub_one (by omega) (by omega)
  have hNotLast : d.bytesRemaining - 1 ≠ 0 := by omega
  have hResult : storePreamble d byte = some { d with
      preamble := preamble
      index := d.index + 1
      bytesRemaining := d.bytesRemaining - 1 } := by
    simp [storePreamble, hWrite, hIndex, hRemaining, hNotLast]
  refine ⟨_, hResult, ?_, rfl, rfl, hTake⟩
  exact {
    state := h.state
    sizes := h.sizes
    remaining := by simp only; omega
    total := by simp only; omega
    array := hLength.trans h.array
    buffer := h.buffer }

/-- The length a complete preamble announces, its type byte included in
`header`. -/
def announcedLength (type : UInt8) (header : List UInt8) : Nat :=
  if type = dataTypeAcl then 256 * header[4]!.toNat + header[3]!.toNat
  else (header.getLastD 0).toNat

theorem announcedLength_lt (type : UInt8) (header : List UInt8) :
    announcedLength type header < 65536 := by
  unfold announcedLength
  have hHigh := (header[4]!).toNat_lt
  have hLow := (header[3]!).toNat_lt
  have hLast := (header.getLastD 0).toNat_lt
  split <;> omega

theorem announcedLength_of_ne_acl {type : UInt8} (hType : type ≠ dataTypeAcl)
    (header : List UInt8) : announcedLength type header ≤ 255 := by
  rw [announcedLength, if_neg hType]
  have hLast := (header.getLastD 0).toNat_lt
  omega

/-- The length of an ACL packet stands in the two bytes behind the handle,
the low one first. -/
theorem retrieveAclLength_eq {preamble : List UInt8} (h : preamble.length = 5) :
    retrieveAclLength preamble = some (256 * preamble[4]!.toNat + preamble[3]!.toNat) := by
  have hLow : preamble[3]!.toNat < 2 ^ 8 := preamble[3]!.toNat_lt
  have hHigh : preamble[4]!.toNat < 2 ^ 16 := Nat.lt_trans preamble[4]!.toNat_lt (by decide)
  have hGet3 : preamble[3]? = some preamble[3]! := by
    rw [getElem!_pos preamble 3 (by omega), List.getElem?_eq_getElem]
  have hGet4 : preamble[4]? = some preamble[4]! := by
    rw [getElem!_pos preamble 4 (by omega), List.getElem?_eq_getElem]
  have hMask : preamble[4]!.toNat &&& 0xFFFF = preamble[4]!.toNat := by
    rw [show (0xFFFF : Nat) = 2 ^ 16 - 1 by rfl, Nat.and_two_pow_sub_one_of_lt_two_pow hHigh]
  have hJoin : preamble[4]!.toNat <<< 8 ||| preamble[3]!.toNat =
      256 * preamble[4]!.toNat + preamble[3]!.toNat := by
    rw [← Nat.shiftLeft_add_eq_or_of_lt hLow, Nat.shiftLeft_eq]
    omega
  simp only [retrieveAclLength, hGet3, hGet4, Option.bind_eq_bind, Option.bind_some, hMask, hJoin,
    Option.pure_def]

/-- The last preamble byte moves the header to the buffer and sets the
length it announces. Nothing compares that length with the size of the
buffer. -/
theorem storePreamble_last {d : PacketReceiveData} {size : Nat} (byte : UInt8)
    (h : InPreamble d size) (hLast : d.bytesRemaining = 1) :
    ∃ stored, storePreamble d byte = some stored ∧
      stored.type = d.type ∧ stored.index = size + 1 ∧
      stored.bytesRemaining =
        announcedLength d.type (d.preamble.take d.index ++ [byte]) ∧
      stored.state = (if 0 < stored.bytesRemaining then .body else .finished) ∧
      stored.buffer.length = d.buffer.length ∧
      stored.buffer.take stored.index = d.preamble.take d.index ++ [byte] := by
  have hSize := h.size_le
  have hTotal := h.total
  have hArray : d.preamble.length = 5 := h.array
  have hBuffer : 1026 ≤ d.buffer.length := h.buffer
  have hSizeIndex : size = d.index := by omega
  obtain ⟨preamble, hWrite, hLength, hTake⟩ :=
    Memory.exists_write d.preamble d.index [byte]
      (by simp only [List.length_singleton]; omega)
  have hIndex : wrap16 ((d.index : Int) + 1) = d.index + 1 := wrap16_add_one (by omega)
  have hSlice : Memory.slice preamble 0 (d.index + 1) =
      some (d.preamble.take d.index ++ [byte]) := by
    rw [Memory.slice_eq_some (by omega), List.drop_zero]
    exact congrArg some hTake
  obtain ⟨buffer, hCopy, hCopyLength, hCopyTake⟩ :=
    Memory.exists_write d.buffer 0 (d.preamble.take d.index ++ [byte])
      (by simp only [List.length_append, List.length_take, List.length_singleton]; omega)
  have hAnnounced : (if d.type = dataTypeAcl then retrieveAclLength preamble else some byte.toNat) =
      some (announcedLength d.type (d.preamble.take d.index ++ [byte])) := by
    unfold announcedLength
    split
    · next hAcl =>
        have hFour := h.size_acl hAcl
        have hWhole : preamble = d.preamble.take d.index ++ [byte] := by
          rw [← hTake, List.take_of_length_le (by simp only [List.length_singleton]; omega)]
        rw [retrieveAclLength_eq (hLength.trans h.array), hWhole]
    · simp
  have hWrap := wrap16_of_lt (announcedLength_lt d.type (d.preamble.take d.index ++ [byte]))
  have hResult : storePreamble d byte = some { d with
      preamble := preamble
      index := d.index + 1
      buffer := buffer
      bytesRemaining := announcedLength d.type (d.preamble.take d.index ++ [byte])
      state := if announcedLength d.type (d.preamble.take d.index ++ [byte]) > 0 then .body
        else .finished } := by
    simp only [storePreamble, hWrite, Option.bind_eq_bind, Option.bind_some, hIndex, hLast]
    rw [if_pos (by rfl), hAnnounced]
    simp only [Option.bind_some, hSlice, hCopy, hWrap, Option.pure_def]
  refine ⟨_, hResult, rfl, by simp only; omega, rfl, rfl, hCopyLength, ?_⟩
  simpa [hSizeIndex, Nat.min_eq_left (by omega : d.index ≤ d.preamble.length)] using hCopyTake

/-- A body byte and the bytes of the bulk read are stored one after the
other. The counters move by the result of the bulk read, also when that is
-1. -/
theorem storeBody_spec {d : PacketReceiveData} (byte : UInt8) (bulk : Option Nat)
    (wire : List UInt8) (hState : d.state = .body) (hRemaining : 1 ≤ d.bytesRemaining)
    (hBound : d.index + d.bytesRemaining ≤ hciHalSerialBufferSize)
    (hBuffer : hciHalSerialBufferSize ≤ d.buffer.length) :
    ∃ stored ready, ready = dataReady bulk (d.bytesRemaining - 1) wire ∧
      storeBody d byte bulk wire = some (stored, ready.wire) ∧ stored.type = d.type ∧
      (stored.index : Int) = d.index + 1 + ready.ret ∧
      (stored.bytesRemaining : Int) = d.bytesRemaining - 1 - ready.ret ∧
      stored.state = (if stored.bytesRemaining = 0 then .finished else .body) ∧
      stored.buffer.length = d.buffer.length ∧
      stored.buffer.take (d.index + 1 + ready.bytes.length) =
        d.buffer.take d.index ++ byte :: ready.bytes := by
  have hSize : hciHalSerialBufferSize = 1026 := rfl
  obtain ⟨first, hFirst, hFirstLength, hFirstTake⟩ :=
    Memory.exists_write d.buffer d.index [byte]
      (by simp only [List.length_singleton]; omega)
  have hIndex : wrap16 ((d.index : Int) + 1) = d.index + 1 := wrap16_add_one (by omega)
  have hLess : wrap16 ((d.bytesRemaining : Int) - 1) = d.bytesRemaining - 1 :=
    wrap16_sub_one hRemaining (by omega)
  obtain ⟨ready, hReady⟩ : ∃ ready, ready = dataReady bulk (d.bytesRemaining - 1) wire := ⟨_, rfl⟩
  have hBytes := dataReady_bytes_length_le bulk (d.bytesRemaining - 1) wire
  have hRet := dataReady_ret_bounds bulk (d.bytesRemaining - 1) wire
  rw [← hReady] at hBytes hRet
  obtain ⟨second, hSecond, hSecondLength, hSecondTake⟩ :=
    Memory.exists_write first (d.index + 1) ready.bytes (by omega)
  have hCast : ((d.bytesRemaining - 1 : Nat) : Int) = d.bytesRemaining - 1 := by omega
  have hResult : storeBody d byte bulk wire = some ({ d with
      buffer := second
      bytesRemaining := wrap16 ((d.bytesRemaining - 1 : Nat) - ready.ret)
      index := wrap16 ((d.index + 1 : Nat) + ready.ret)
      state := if wrap16 ((d.bytesRemaining - 1 : Nat) - ready.ret) = 0 then .finished
        else .body }, ready.wire) := by
    simp only [storeBody, hFirst, Option.bind_eq_bind, Option.bind_some, hIndex, hLess, ← hReady,
      hSecond, Option.pure_def, hState]
  refine ⟨_, ready, hReady, hResult, rfl, ?_, ?_, rfl, hSecondLength.trans hFirstLength, ?_⟩
  · simp only [wrap16]
    omega
  · simp only [wrap16]
    omega
  · rw [hSecondTake]
    rw [List.length_singleton] at hFirstTake
    rw [hFirstTake, List.append_assoc, List.singleton_append]

end Bluetooth.Sitm
