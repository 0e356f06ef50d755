import Gtexswifi.Bluetooth.Reference
import Gtexswifi.Bluetooth.Turn

/-! The frames that `parse_frame` completes are the packets of the bytes it
has read, wherever the reads and the calls cut the stream. -/
namespace Bluetooth.Sitm

open Reference

/-- The packet types are the four of the HCI, and every other byte is passed
over. -/
theorem known_iff (byte : UInt8) : Known byte ↔ byte = 1 ∨ byte = 2 ∨ byte = 3 ∨ byte = 4 := by
  have hFour : dataTypeEvent.toNat = 4 := rfl
  have hOne : dataTypeCommand.toNat = 1 := rfl
  simp only [Known, not_or, UInt8.not_lt, UInt8.le_iff_toNat_le, gt_iff_lt, ← UInt8.toNat_inj,
    UInt8.reduceToNat]
  omega

/-- The table of the source and the packet format agree on the preamble
sizes. -/
theorem preambleLength_eq (byte : UInt8) :
    preambleLength byte =
      if Known byte then preambleSizes[packetTypeToIndex byte]? else none := by
  by_cases hByte : Known byte
  · rw [if_pos hByte]
    rcases (known_iff byte).mp hByte with rfl | rfl | rfl | rfl <;> rfl
  · rw [if_neg hByte]
    simp only [known_iff, not_or] at hByte
    simp [preambleLength, hByte]

/-- The length that the parser takes from the preamble is the one that the
preamble announces. -/
theorem announcedLength_eq {type : UInt8} {size : Nat} {preamble : List UInt8}
    (hSize : preambleLength type = some size) (hPreamble : preamble.length = size) :
    announcedLength type (type :: preamble) = payloadLength type preamble := by
  have hPos : preamble ≠ [] := by
    rintro rfl
    obtain rfl : 0 = size := hPreamble
    unfold preambleLength at hSize
    split_ifs at hSize <;> simp at hSize
  unfold announcedLength payloadLength dataTypeAcl
  split
  · simp [Nat.add_comm]
  · obtain ⟨first, rest, rfl⟩ := List.exists_cons_of_ne_nil hPos
    rfl

/-- `part` is what the structure holds of the packet it is receiving. -/
inductive Holds (d : PacketReceiveData) : List UInt8 → Prop where
  | brandNew (hState : d.state = .brandNew)
      (hBuffer : hciHalSerialBufferSize ≤ d.buffer.length) : Holds d []
  | preamble {size : Nat} {part : List UInt8} (hPreamble : InPreamble d size)
      (hKnown : preambleLength d.type = some size) (hIndex : d.index = (d.type :: part).length)
      (hArray : d.preamble.take d.index = d.type :: part) : Holds d (d.type :: part)
  | body {size : Nat} {preamble body : List UInt8} (hState : d.state = .body)
      (hKnown : preambleLength d.type = some size) (hPreamble : preamble.length = size)
      (hIndex : d.index = (d.type :: preamble ++ body).length)
      (hLength : body.length + d.bytesRemaining = payloadLength d.type preamble)
      (hRemaining : 1 ≤ d.bytesRemaining)
      (hFits : d.index + d.bytesRemaining ≤ hciHalSerialBufferSize)
      (hBuffer : hciHalSerialBufferSize ≤ d.buffer.length)
      (hArray : d.buffer.take d.index = d.type :: preamble ++ body) :
      Holds d (d.type :: preamble ++ body)

/-- What is held is never a whole packet. -/
theorem Holds.packets_eq_nil {d : PacketReceiveData} {part : List UInt8} (h : Holds d part) :
    packets part = [] := by
  cases h with
  | brandNew => rw [packets]
  | @preamble size part hPreamble hKnown hIndex hArray =>
      have hTotal := hPreamble.total
      have hPos := hPreamble.remaining
      refine packets_of_short_preamble hKnown ?_
      simp only [List.length_cons] at hIndex
      omega
  | body hState hKnown hPreamble hIndex hLength hRemaining =>
      exact packets_of_short_body hKnown hPreamble (by omega)

/-- Reading `taken` behind `part` completes `frames` and leaves `rest`
begun, whatever comes after it. -/
structure Advances (part taken : List UInt8) (frames : List (List UInt8)) (rest : List UInt8) :
    Prop where
  packets : ∀ more, packets (part ++ taken ++ more) = frames ++ packets (rest ++ more)
  aclFits : ∀ more, Reference.AclFits (part ++ taken ++ more) → Reference.AclFits (rest ++ more)

theorem Advances.refl (part : List UInt8) : Advances part [] [] part :=
  ⟨by simp, by simp⟩

/-- Bytes that only lengthen what is held complete nothing. -/
theorem Advances.extend (part taken : List UInt8) : Advances part taken [] (part ++ taken) :=
  ⟨by simp, by simp⟩

/-- What is completed by two runs one after the other is completed by both
together, where the second starts with what the first holds. -/
theorem Advances.trans {part middle rest first second : List UInt8}
    {before after : List (List UInt8)} (hFirst : Advances part first before middle)
    (hSecond : Advances middle second after rest) :
    Advances part (first ++ second) (before ++ after) rest where
  packets more := by
    have hBefore := hFirst.packets (second ++ more)
    have hAfter := hSecond.packets more
    simp only [List.append_assoc] at hBefore hAfter ⊢
    rw [hBefore, hAfter]
  aclFits more hFits := by
    refine hSecond.aclFits more ?_
    rw [List.append_assoc]
    refine hFirst.aclFits (second ++ more) ?_
    simpa only [List.append_assoc] using hFits

/-- Dropping a byte that is no packet type. -/
theorem Advances.skip {byte : UInt8} (h : preambleLength byte = none) :
    Advances [] [byte] [] [] where
  packets more := by simpa using packets_skip h
  aclFits more := by
    simp only [Reference.AclFits, List.nil_append, List.singleton_append, headers_skip h]
    exact id

/-- The bytes that finish a packet complete exactly that packet. -/
theorem Advances.complete {type : UInt8} {size : Nat} {preamble body part taken : List UInt8}
    (hKnown : preambleLength type = some size) (hPreamble : preamble.length = size)
    (hBody : body.length = payloadLength type preamble)
    (hWhole : part ++ taken = type :: preamble ++ body) :
    Advances part taken [part ++ taken] [] where
  packets more := by
    rw [hWhole]
    exact packets_of_complete hKnown hPreamble hBody
  aclFits more hFits := by
    intro header hHeader
    refine hFits header ?_
    rw [hWhole, List.append_assoc, headers_of_preamble hKnown hPreamble, ← hBody, List.drop_left]
    exact List.mem_cons_of_mem _ hHeader

/-- The result of one turn, or of one call, on a structure that holds
`part`. -/
def Receives (part wire : List UInt8) (outcome : Outcome) : Prop :=
  ∃ taken rest, wire = taken ++ outcome.wire ∧ Holds outcome.data rest ∧
    Advances part taken outcome.frame.toList rest

theorem receives_brandNew {d : PacketReceiveData} (hState : d.state = .brandNew)
    (hBuffer : hciHalSerialBufferSize ≤ d.buffer.length) (byte : UInt8) (bulk : Option Nat)
    (wire : List UInt8) :
    ∃ outcome, turn d byte bulk wire = some outcome ∧ Receives [] (byte :: wire) outcome := by
  have hTable := preambleLength_eq byte
  by_cases hByte : Known byte
  · obtain ⟨size, hSize⟩ := hByte.size
    rw [if_pos hByte, hSize] at hTable
    obtain ⟨next, hTurn, hNext, rfl, hIndex, hArray⟩ :=
      turn_start byte bulk wire hState hByte hSize hBuffer
    refine ⟨_, hTurn, [next.type], [next.type], rfl, ?_, Advances.extend [] [next.type]⟩
    exact Holds.preamble hNext hTable hIndex (by rw [hIndex, hArray])
  · rw [if_neg hByte] at hTable
    exact ⟨_, turn_skip byte bulk wire hState hByte, [byte], [], rfl, Holds.brandNew hState hBuffer,
      Advances.skip hTable⟩

theorem receives_preamble_more {d : PacketReceiveData} {size : Nat} {part : List UInt8}
    (hPreamble : InPreamble d size) (hKnown : preambleLength d.type = some size)
    (hIndex : d.index = (d.type :: part).length)
    (hArray : d.preamble.take d.index = d.type :: part) (hMore : 2 ≤ d.bytesRemaining)
    (byte : UInt8) (bulk : Option Nat) (wire : List UInt8) :
    ∃ outcome, turn d byte bulk wire = some outcome ∧
      Receives (d.type :: part) (byte :: wire) outcome := by
  rw [List.length_cons] at hIndex
  obtain ⟨next, hTurn, hNext, hType, hNextIndex, hNextArray⟩ :=
    turn_preamble_more byte bulk wire hPreamble hMore
  rw [hArray, ← hType] at hNextArray
  refine ⟨_, hTurn, [byte], next.type :: (part ++ [byte]), rfl, ?_, ?_⟩
  · refine Holds.preamble hNext (hType ▸ hKnown) ?_ hNextArray
    simp only [List.length_cons, List.length_append, List.length_nil]
    omega
  · exact hType ▸ Advances.extend (d.type :: part) [byte]

/-- The announced length leaves the packet inside the buffer, by its 16 bits
in an ACL packet of the stream and by its 8 bits in every other packet. -/
theorem announcedLength_le {type : UInt8} {size : Nat} {preamble wire : List UInt8}
    (hKnown : preambleLength type = some size) (hLength : preamble.length = size)
    (hFits : Reference.AclFits (type :: preamble ++ wire)) :
    payloadLength type preamble ≤ 1021 := by
  by_cases hAcl : type = dataTypeAcl
  · apply hFits (type, payloadLength type preamble) _ hAcl
    rw [headers_of_preamble hKnown hLength]
    exact List.mem_cons_self
  · have hShort := announcedLength_of_ne_acl hAcl (type :: preamble)
    rw [announcedLength_eq hKnown hLength] at hShort
    omega

/-- The last byte of a preamble gives the length of the body. A packet
without a body is complete with it. -/
theorem receives_preamble_last {d : PacketReceiveData} {size : Nat} {part : List UInt8}
    (hPreamble : InPreamble d size) (hKnown : preambleLength d.type = some size)
    (hIndex : d.index = (d.type :: part).length)
    (hArray : d.preamble.take d.index = d.type :: part) (hLast : d.bytesRemaining = 1)
    (byte : UInt8) (bulk : Option Nat) (wire : List UInt8)
    (hFits : Reference.AclFits (d.type :: part ++ byte :: wire)) :
    ∃ outcome, turn d byte bulk wire = some outcome ∧
      Receives (d.type :: part) (byte :: wire) outcome := by
  have hFull : hciHalSerialBufferSize = 1026 := rfl
  have hTotal := hPreamble.total
  have hBound := hPreamble.size_le
  have hBuffer := hPreamble.buffer
  rw [List.length_cons] at hIndex
  have hLength : (part ++ [byte]).length = size := by
    simp only [List.length_append, List.length_singleton]
    omega
  have hHeader : d.preamble.take d.index ++ [byte] = d.type :: (part ++ [byte]) := by
    rw [hArray, List.cons_append]
  have hAnnounced : announcedLength d.type (d.preamble.take d.index ++ [byte]) =
      payloadLength d.type (part ++ [byte]) := by
    rw [hHeader, announcedLength_eq hKnown hLength]
  rcases Nat.eq_zero_or_pos (payloadLength d.type (part ++ [byte])) with hEmpty | hPayload
  · obtain ⟨next, hTurn, hNew, hSame⟩ :=
      turn_preamble_empty byte bulk wire hPreamble hLast (hAnnounced.trans hEmpty)
    refine ⟨_, hTurn, [byte], [], rfl, Holds.brandNew hNew (by simp only; omega), ?_⟩
    rw [hArray]
    exact Advances.complete hKnown hLength (List.length_nil.trans hEmpty.symm) (by simp)
  · obtain ⟨next, hTurn, hBody, hType, hNextIndex, hRemaining, hSame, hNextArray⟩ :=
      turn_preamble_body byte bulk wire hPreamble hLast (hAnnounced ▸ hPayload)
    rw [hAnnounced] at hRemaining
    rw [hHeader, ← hType] at hNextArray
    have hLimit : payloadLength d.type (part ++ [byte]) ≤ 1021 := by
      apply announcedLength_le hKnown hLength
      rwa [show d.type :: (part ++ [byte]) ++ wire = d.type :: part ++ byte :: wire by simp]
    refine ⟨_, hTurn, [byte], next.type :: (part ++ [byte]) ++ [], rfl, ?_, ?_⟩
    · refine Holds.body hBody (hType ▸ hKnown) hLength ?_ ?_ ?_ ?_ ?_ ?_
      · simp only [List.append_nil, List.length_cons]
        omega
      · rw [hRemaining, hType, List.length_nil, Nat.zero_add]
      · simp only
        omega
      · simp only
        omega
      · simp only
        omega
      · simpa using hNextArray
    · have hExtend := Advances.extend (d.type :: part) [byte]
      rw [hType]
      simpa using hExtend

theorem receives_preamble {d : PacketReceiveData} {size : Nat} {part : List UInt8}
    (hPreamble : InPreamble d size) (hKnown : preambleLength d.type = some size)
    (hIndex : d.index = (d.type :: part).length)
    (hArray : d.preamble.take d.index = d.type :: part) (byte : UInt8) (bulk : Option Nat)
    (wire : List UInt8) (hFits : Reference.AclFits (d.type :: part ++ byte :: wire)) :
    ∃ outcome, turn d byte bulk wire = some outcome ∧
      Receives (d.type :: part) (byte :: wire) outcome := by
  have hPos := hPreamble.remaining
  by_cases hMore : 2 ≤ d.bytesRemaining
  · exact receives_preamble_more hPreamble hKnown hIndex hArray hMore byte bulk wire
  · have hLast : d.bytesRemaining = 1 := by omega
    exact receives_preamble_last hPreamble hKnown hIndex hArray hLast byte bulk wire hFits

/-- A byte of the body is stored with those that the bulk read finds behind
it, and the last one completes the packet. -/
theorem receives_body {d : PacketReceiveData} {size : Nat} {preamble body : List UInt8}
    (hState : d.state = .body) (hKnown : preambleLength d.type = some size)
    (hPreamble : preamble.length = size) (hIndex : d.index = (d.type :: preamble ++ body).length)
    (hLength : body.length + d.bytesRemaining = payloadLength d.type preamble)
    (hRemaining : 1 ≤ d.bytesRemaining)
    (hFits : d.index + d.bytesRemaining ≤ hciHalSerialBufferSize)
    (hBuffer : hciHalSerialBufferSize ≤ d.buffer.length)
    (hArray : d.buffer.take d.index = d.type :: preamble ++ body) (byte : UInt8) (limit : Nat)
    (wire : List UInt8) :
    ∃ outcome, turn d byte (some limit) wire = some outcome ∧
      Receives (d.type :: preamble ++ body) (byte :: wire) outcome := by
  obtain ⟨next, ready, hReady, hType, hNextIndex, hLeft, hSame, hNextArray, hDone, hMore⟩ :=
    turn_body byte (some limit) wire hState hRemaining hFits hBuffer
  obtain ⟨hRet, hWire⟩ := dataReady_delivered limit (d.bytesRemaining - 1) wire
  rw [← hReady] at hRet hWire
  have hTaken : byte :: wire = (byte :: ready.bytes) ++ ready.wire := by
    rw [List.cons_append, ← hWire]
  have hStored : d.index + 1 + ready.bytes.length = next.index := by omega
  rw [hStored, hArray] at hNextArray
  have hAppend : d.type :: preamble ++ body ++ (byte :: ready.bytes) =
      d.type :: preamble ++ (body ++ byte :: ready.bytes) := List.append_assoc ..
  have hBody : (body ++ byte :: ready.bytes).length + next.bytesRemaining =
      payloadLength d.type preamble := by
    simp only [List.length_append, List.length_cons]
    omega
  by_cases hZero : next.bytesRemaining = 0
  · obtain ⟨hNew, hTurn⟩ := hDone hZero
    refine ⟨_, hTurn, byte :: ready.bytes, [], hTaken,
      Holds.brandNew hNew (by simp only; omega), ?_⟩
    rw [hNextArray]
    exact Advances.complete hKnown hPreamble (by omega) hAppend
  · obtain ⟨hStill, hTurn⟩ := hMore hZero
    refine ⟨_, hTurn, byte :: ready.bytes, next.type :: preamble ++ (body ++ byte :: ready.bytes),
      hTaken, ?_, ?_⟩
    · refine Holds.body hStill (hType ▸ hKnown) hPreamble ?_ (hType ▸ hBody) ?_ ?_ ?_ ?_
      · simp only [List.length_append, List.length_cons] at hIndex ⊢
        omega
      · simp only; omega
      · simp only; omega
      · simp only; omega
      · simp only
        rw [hNextArray, hAppend, hType]
    · rw [hType, ← hAppend]
      exact Advances.extend _ _

/-- One turn of the loop reads on in the packet that the structure holds. -/
theorem turn_receives {d : PacketReceiveData} {part : List UInt8} (hHolds : Holds d part)
    (byte : UInt8) (limit : Nat) (wire : List UInt8)
    (hFits : Reference.AclFits (part ++ byte :: wire)) :
    ∃ outcome, turn d byte (some limit) wire = some outcome ∧
      Receives part (byte :: wire) outcome := by
  cases hHolds with
  | brandNew hState hBuffer => exact receives_brandNew hState hBuffer byte (some limit) wire
  | preamble hPreamble hKnown hIndex hArray =>
      exact receives_preamble hPreamble hKnown hIndex hArray byte (some limit) wire hFits
  | body hState hKnown hPreamble hIndex hLength hRemaining hBound hBuffer hArray =>
      exact receives_body hState hKnown hPreamble hIndex hLength hRemaining hBound hBuffer hArray
        byte limit wire

/-- Neither read of the turn fails. -/
def Answers.Delivers (answers : Answers) : Prop :=
  answers.first ≠ none ∧ answers.bulk ≠ none

/-- A call reads on wherever the previous one stopped and completes at most
one packet. -/
theorem parseFrame_receives {d : PacketReceiveData} {part wire : List UInt8} {call : List Answers}
    (hHolds : Holds d part) (hReads : ∀ answers ∈ call, answers.Delivers)
    (hFits : Reference.AclFits (part ++ wire)) :
    ∃ outcome, parseFrame d wire call = some outcome ∧ Receives part wire outcome := by
  induction call generalizing d part wire with
  | nil => exact ⟨_, rfl, [], part, rfl, hHolds, Advances.refl part⟩
  | cons answers rest ih =>
      obtain ⟨hFirst, hBulk⟩ := hReads answers List.mem_cons_self
      obtain ⟨first, hFirst⟩ := Option.ne_none_iff_exists'.mp hFirst
      obtain ⟨limit, hBulk⟩ := Option.ne_none_iff_exists'.mp hBulk
      obtain ⟨_, hWire⟩ := dataReady_delivered first 1 wire
      have hOne := dataReady_bytes_length_le (some first) 1 wire
      rw [parseFrame, hFirst, hBulk]
      cases hBytes : (dataReady (some first) 1 wire).bytes with
      | nil =>
          rw [hBytes, List.nil_append] at hWire
          exact ⟨_, rfl, [], part, hWire, hHolds, Advances.refl part⟩
      | cons byte more =>
          rw [hBytes, List.length_cons] at hOne
          obtain rfl : more = [] := List.eq_nil_of_length_eq_zero (by omega)
          rw [hBytes, List.singleton_append] at hWire
          obtain ⟨middle, hTurn, taken, held, hTaken, hMiddle, hAdvances⟩ :=
            turn_receives hHolds byte limit _ (hWire ▸ hFits)
          rw [← hWire] at hTaken
          simp only [hTurn, Option.bind_some]
          by_cases hReturned : middle.returned = true
          · rw [if_pos hReturned]
            exact ⟨middle, rfl, taken, held, hTaken, hMiddle, hAdvances⟩
          · rw [if_neg hReturned]
            have hMore : Reference.AclFits (held ++ middle.wire) :=
              hAdvances.aclFits _ (by rwa [List.append_assoc, ← hTaken])
            obtain ⟨outcome, hRest, taken', held', hTaken', hOutcome, hAdvances'⟩ :=
              ih hMiddle (fun a ha => hReads a (List.mem_cons_of_mem _ ha)) hMore
            have hNone := turn_frame_eq_none hTurn hReturned
            refine ⟨outcome, hRest, taken ++ taken', held', ?_, hOutcome, ?_⟩
            · rw [hTaken, hTaken', List.append_assoc]
            · simpa [hNone] using hAdvances.trans hAdvances'

/-- By induction over the calls. What has been taken is what the frames hold
and what is held of the next one. -/
theorem parseFrames_receives {d : PacketReceiveData} {part wire : List UInt8}
    {calls : List (List Answers)} (hHolds : Holds d part)
    (hReads : ∀ call ∈ calls, ∀ answers ∈ call, answers.Delivers)
    (hFits : Reference.AclFits (part ++ wire)) :
    ∃ next rest frames taken held, parseFrames d wire calls = some (next, rest, frames) ∧
      wire = taken ++ rest ∧ Holds next held ∧ Advances part taken frames held := by
  induction calls generalizing d part wire with
  | nil => exact ⟨d, wire, [], [], part, rfl, rfl, hHolds, Advances.refl part⟩
  | cons call calls ih =>
      obtain ⟨outcome, hCall, taken, held, hTaken, hOutcome, hAdvances⟩ :=
        parseFrame_receives hHolds (hReads call List.mem_cons_self) hFits
      obtain ⟨next, rest, frames, taken', held', hCalls, hTaken', hNext, hAdvances'⟩ :=
        ih hOutcome (fun c hc => hReads c (List.mem_cons_of_mem _ hc))
          (hAdvances.aclFits _ (by rwa [List.append_assoc, ← hTaken]))
      refine ⟨next, rest, outcome.frame.toList ++ frames, taken ++ taken', held', ?_, ?_, hNext,
        hAdvances.trans hAdvances'⟩
      · simp [parseFrames, hCall, hCalls]
      · rw [hTaken, hTaken', List.append_assoc]

/-- The first read of a call delivers its byte, if the wire has one. -/
def deliversByte (call : List Answers) : Bool :=
  call.head?.any fun answers => answers.first.any (0 < ·)

theorem dataReady_wire_le (answer : Option Nat) (len : Nat) (wire : List UInt8) :
    (dataReady answer len wire).wire.length ≤ wire.length := by
  cases answer with
  | none => exact Nat.le_refl _
  | some limit => exact (List.drop_suffix _ wire).length_le

/-- The bulk read of the body puts nothing back on the wire either. -/
theorem receiveByte_wire_le {d received : PacketReceiveData} {byte : UInt8} {bulk : Option Nat}
    {wire left : List UInt8} (h : receiveByte d byte bulk wire = some (received, left)) :
    left.length ≤ wire.length := by
  unfold receiveByte at h
  split at h
  · split_ifs at h
    · obtain ⟨-, rfl⟩ := Prod.mk.inj (Option.some.inj h)
      exact Nat.le_refl _
    · obtain ⟨started, -, hStored⟩ := Option.bind_eq_some_iff.mp h
      obtain ⟨stored, -, hSame⟩ := Option.map_eq_some_iff.mp hStored
      obtain ⟨-, rfl⟩ := Prod.mk.inj hSame
      exact Nat.le_refl _
  · obtain ⟨stored, -, hSame⟩ := Option.map_eq_some_iff.mp h
    obtain ⟨-, rfl⟩ := Prod.mk.inj hSame
    exact Nat.le_refl _
  · obtain ⟨buffer, -, hRest⟩ := Option.bind_eq_some_iff.mp h
    obtain ⟨stored, -, hSame⟩ := Option.bind_eq_some_iff.mp hRest
    obtain ⟨-, rfl⟩ := Prod.mk.inj (Option.some.inj hSame)
    exact dataReady_wire_le _ _ wire
  · obtain ⟨-, rfl⟩ := Prod.mk.inj (Option.some.inj h)
    exact Nat.le_refl _
  · obtain ⟨-, rfl⟩ := Prod.mk.inj (Option.some.inj h)
    exact Nat.le_refl _

/-- A turn puts nothing back on the wire. -/
theorem turn_wire_le {d : PacketReceiveData} {byte : UInt8} {bulk : Option Nat} {wire : List UInt8}
    {outcome : Outcome} (h : turn d byte bulk wire = some outcome) :
    outcome.wire.length ≤ wire.length := by
  obtain ⟨⟨received, left⟩, hReceived, hRest⟩ := Option.bind_eq_some_iff.mp h
  have hLeft := receiveByte_wire_le hReceived
  dsimp only at hRest
  split_ifs at hRest with hFinished
  · obtain ⟨frame, -, hOutcome⟩ := Option.bind_eq_some_iff.mp hRest
    exact Option.some.inj hOutcome ▸ hLeft
  · exact Option.some.inj hRest ▸ hLeft

/-- Neither does a call, and one that gets its first byte takes it. -/
theorem parseFrame_wire_le {d : PacketReceiveData} {wire : List UInt8} {call : List Answers}
    {outcome : Outcome} (h : parseFrame d wire call = some outcome) :
    outcome.wire.length ≤ wire.length ∧
      (deliversByte call = true → wire ≠ [] → outcome.wire.length < wire.length) := by
  induction call generalizing d wire with
  | nil => exact ⟨Option.some.inj h ▸ Nat.le_refl _, fun hFirst => by cases hFirst⟩
  | cons answers rest ih =>
      have hRead := dataReady_wire_le answers.first 1 wire
      rw [parseFrame] at h
      split at h
      · next hNone =>
          rw [← Option.some.inj h]
          refine ⟨hRead, fun hFirst hWire => ?_⟩
          rw [deliversByte, List.head?_cons, Option.any_some] at hFirst
          cases hLimit : answers.first with
          | none =>
              rw [hLimit] at hFirst
              cases hFirst
          | some limit =>
              rw [hLimit] at hFirst hNone
              have hPos : 0 < limit := of_decide_eq_true hFirst
              rcases List.take_eq_nil_iff.mp hNone with hZero | hEmpty
              · omega
              · exact absurd hEmpty hWire
      · next byte more hByte =>
          obtain ⟨middle, hTurn, hRest⟩ := Option.bind_eq_some_iff.mp h
          have hMiddle := turn_wire_le hTurn
          have hLess : (dataReady answers.first 1 wire).wire.length < wire.length := by
            cases hFirst : answers.first with
            | none =>
                rw [hFirst] at hByte
                cases hByte
            | some limit =>
                have hTaken := congrArg List.length (dataReady_delivered limit 1 wire).2
                rw [hFirst] at hByte
                rw [hByte, List.length_append, List.length_cons] at hTaken
                omega
          have hOutcome : outcome.wire.length ≤ middle.wire.length := by
            split_ifs at hRest
            · exact Option.some.inj hRest ▸ Nat.le_refl _
            · exact (ih hRest).1
          exact ⟨by omega, fun _ _ => by omega⟩

/-- Each call whose reads deliver a byte takes one off the wire as long as
there is any. -/
theorem parseFrames_wire_le {d next : PacketReceiveData} {wire rest : List UInt8}
    {calls : List (List Answers)} {frames : List (List UInt8)}
    (h : parseFrames d wire calls = some (next, rest, frames)) :
    rest.length + min (calls.countP deliversByte) wire.length ≤ wire.length := by
  induction calls generalizing d wire frames next with
  | nil =>
      obtain rfl : wire = rest := congrArg (fun run => run.2.1) (Option.some.inj h)
      simp
  | cons call calls ih =>
      obtain ⟨outcome, hCall, hMore⟩ := Option.bind_eq_some_iff.mp h
      obtain ⟨⟨last, left, completed⟩, hCalls, hSame⟩ := Option.bind_eq_some_iff.mp hMore
      obtain rfl : left = rest := congrArg (fun run => run.2.1) (Option.some.inj hSame)
      obtain ⟨hLe, hLess⟩ := parseFrame_wire_le hCall
      have hRest := ih hCalls
      rw [List.countP_cons]
      by_cases hFirst : deliversByte call = true
      · by_cases hEmpty : wire = []
        · subst hEmpty
          simp only [List.length_nil] at hLe ⊢
          omega
        · have hTaken := hLess hFirst hEmpty
          rw [if_pos hFirst]
          omega
      · rw [if_neg hFirst]
        omega

/-- Whatever the fragmentation, the completed frames are the packets whose
last byte has been read, each once, in order and in full. What has been read
is the front of the wire that the reads have delivered: a byte at least for
every call whose first read delivers one, as long as there is any. -/
theorem parseFrames_eq_packets (byteAlignment : Nat) (wire : List UInt8)
    (calls : List (List Answers)) (hFits : Reference.AclFits wire)
    (hReads : ∀ call ∈ calls, ∀ answers ∈ call, answers.Delivers) :
    ∃ next taken rest, wire = taken ++ rest ∧
      min (calls.countP deliversByte) wire.length ≤ taken.length ∧
      parseFrames (cleared byteAlignment) wire calls = some (next, rest, packets taken) := by
  have hStart : Holds (cleared byteAlignment) [] := Holds.brandNew rfl (by simp [cleared])
  obtain ⟨next, rest, frames, taken, held, hCalls, hTaken, hHolds, hAdvances⟩ :=
    parseFrames_receives hStart hReads hFits
  have hPackets : packets taken = frames := by
    simpa [hHolds.packets_eq_nil] using hAdvances.packets []
  refine ⟨next, taken, rest, hTaken, ?_, hPackets ▸ hCalls⟩
  have hLeft := parseFrames_wire_le hCalls
  have hLength := congrArg List.length hTaken
  rw [List.length_append] at hLength
  omega

/-- A stray byte, an event and the start of an ACL packet, read in two
calls. -/
theorem parseFrames_eq_packets_event :
    ∃ next taken rest,
      [0x00, 0x04, 0x0E, 0x02, 0xAA, 0xBB, 0x02, 0x01] = taken ++ rest ∧ 2 ≤ taken.length ∧
        parseFrames (cleared 0) [0x00, 0x04, 0x0E, 0x02, 0xAA, 0xBB, 0x02, 0x01]
          [[⟨some 1, some 0⟩, ⟨some 1, some 3⟩, ⟨some 0, some 0⟩],
           [⟨some 1, some 0⟩, ⟨some 1, some 0⟩, ⟨some 1, some 9⟩]] =
          some (next, rest, packets taken) := by
  refine parseFrames_eq_packets 0 _ [[⟨some 1, some 0⟩, ⟨some 1, some 3⟩, ⟨some 0, some 0⟩],
    [⟨some 1, some 0⟩, ⟨some 1, some 0⟩, ⟨some 1, some 9⟩]] ?_ ?_
  · simp [Reference.AclFits, headers, preambleLength, payloadLength]
  · simp [Answers.Delivers]

end Bluetooth.Sitm
