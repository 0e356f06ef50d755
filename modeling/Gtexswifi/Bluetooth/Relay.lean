import Gtexswifi.Bluetooth.FrameExactness

/-! The relay between the stack and the UART: every packet that
`parse_frame` completes is given to `serial_data_transmit`, which pads it in
the receive buffer. -/
namespace Bluetooth.Sitm

open Reference

/-- `BYTE_ALIGNMENT`, and whether there is a `USERIAL_SCO_PORT`. -/
structure Build where
  byteAlignment : Nat
  scoPort : Bool

/-- What the two ports were given, and `sco_fd`. -/
structure Ports where
  serial : List UInt8
  sco : List UInt8
  scoFd : Int
  deriving DecidableEq

def Ports.start : Ports := ⟨[], [], -1⟩

/-- What `open` of the SCO port gives, and the most bytes that `write`
takes. -/
structure Transmit where
  opened : Option Nat
  accepted : Nat

/-- The number of zeros behind a packet. It is not 0 for a packet that is
aligned already. -/
def tail (byteAlignment len : Nat) : Nat :=
  if byteAlignment > 1 then byteAlignment - (len + byteAlignment) % byteAlignment else 0

/-- `serial_data_transmit` on the receive buffer, which it pads behind the
packet. -/
def serialDataTransmit (build : Build) (transmit : Transmit) (buffer : List UInt8) (len : Nat)
    (ports : Ports) : Option (List UInt8 × Ports) :=
  if build.scoPort = true ∧ buffer[0]? = some dataTypeSco then
    let scoFd := if ports.scoFd < 0 then transmit.opened.elim (-1) Int.ofNat else ports.scoFd
    if scoFd > 0 then do
      let data ← Memory.slice buffer 0 len
      return (buffer, { ports with scoFd, sco := ports.sco ++ data.take transmit.accepted })
    else some (buffer, { ports with scoFd })
  else do
    let tail := tail build.byteAlignment len
    let buffer ← Memory.write buffer len (List.replicate tail 0)
    let data ← Memory.slice buffer 0 (len + tail)
    return (buffer, { ports with serial := ports.serial ++ data.take transmit.accepted })

/-- One round of the loop of `sitm_write_th`. -/
def writeRound (build : Build) (d : PacketReceiveData) (wire : List UInt8) (ports : Ports)
    (round : List Answers × Transmit) : Option (PacketReceiveData × List UInt8 × Ports) := do
  let outcome ← parseFrame d wire round.1
  match outcome.frame with
  | none => return (outcome.data, outcome.wire, ports)
  | some _ =>
      let (buffer, ports) ←
        serialDataTransmit build round.2 outcome.data.buffer outcome.data.index ports
      return ({ outcome.data with buffer }, outcome.wire, ports)

def sitmWriteTh (build : Build) (d : PacketReceiveData) (wire : List UInt8) (ports : Ports) :
    List (List Answers × Transmit) → Option (PacketReceiveData × List UInt8 × Ports)
  | [] => some (d, wire, ports)
  | round :: rounds => do
      let (d, wire, ports) ← writeRound build d wire ports round
      sitmWriteTh build d wire ports rounds

theorem tail_le (byteAlignment len : Nat) : tail byteAlignment len ≤ byteAlignment := by
  unfold tail
  split <;> omega

theorem dvd_add_tail {byteAlignment : Nat} (h : 1 < byteAlignment) (len : Nat) :
    byteAlignment ∣ len + tail byteAlignment len := by
  have hLess := Nat.mod_lt len (by omega : 0 < byteAlignment)
  have hSplit := Nat.div_add_mod len byteAlignment
  rw [tail, if_pos h, Nat.add_mod_right]
  refine ⟨len / byteAlignment + 1, ?_⟩
  rw [Nat.mul_add, Nat.mul_one]
  omega

/-- The type of a packet is stored in the preamble and not in the buffer. -/
theorem startPacket_buffer {d started : PacketReceiveData} {byte : UInt8}
    (h : startPacket d byte = some started) : started.buffer = d.buffer := by
  obtain ⟨size, _, h⟩ := Option.bind_eq_some_iff.mp h
  cases h
  rfl

/-- The preamble is copied into the buffer when it is complete. Its length
stays. -/
theorem storePreamble_buffer {d stored : PacketReceiveData} {byte : UInt8}
    (h : storePreamble d byte = some stored) : stored.buffer.length = d.buffer.length := by
  obtain ⟨preamble, _, h⟩ := Option.bind_eq_some_iff.mp h
  dsimp only at h
  split at h
  · obtain ⟨length, _, h⟩ := Option.bind_eq_some_iff.mp h
    obtain ⟨header, _, h⟩ := Option.bind_eq_some_iff.mp h
    obtain ⟨buffer, hBuffer, h⟩ := Option.bind_eq_some_iff.mp h
    cases h
    exact Memory.length_of_write hBuffer
  · cases h
    rfl

theorem storeBody_buffer {d stored : PacketReceiveData} {byte : UInt8} {bulk : Option Nat}
    {wire rest : List UInt8} (h : storeBody d byte bulk wire = some (stored, rest)) :
    stored.buffer.length = d.buffer.length := by
  obtain ⟨first, hFirst, h⟩ := Option.bind_eq_some_iff.mp h
  obtain ⟨second, hSecond, h⟩ := Option.bind_eq_some_iff.mp h
  cases h
  exact (Memory.length_of_write hSecond).trans (Memory.length_of_write hFirst)

/-- No byte that is received changes the length of the buffer. -/
theorem receiveByte_buffer {d received : PacketReceiveData} {byte : UInt8} {bulk : Option Nat}
    {wire rest : List UInt8} (h : receiveByte d byte bulk wire = some (received, rest)) :
    received.buffer.length = d.buffer.length := by
  unfold receiveByte at h
  split at h
  · split at h
    · cases h
      rfl
    · obtain ⟨started, hStart, h⟩ := Option.bind_eq_some_iff.mp h
      obtain ⟨stored, hStore, h⟩ := Option.map_eq_some_iff.mp h
      cases h
      exact (storePreamble_buffer hStore).trans (congrArg _ (startPacket_buffer hStart))
  · obtain ⟨stored, hStore, h⟩ := Option.map_eq_some_iff.mp h
    cases h
    exact storePreamble_buffer hStore
  · exact storeBody_buffer h
  · cases h
    rfl
  · cases h
    rfl

/-- What a turn, or a call, leaves of the receive buffer: its size, and the
packet that it has completed. -/
def Leaves (d : PacketReceiveData) (outcome : Outcome) : Prop :=
  outcome.data.buffer.length = d.buffer.length ∧
    ∀ frame ∈ outcome.frame, outcome.data.state = .brandNew ∧
      Memory.slice outcome.data.buffer 0 outcome.data.index = some frame

/-- A turn leaves a buffer of its length, and a frame that lies in it. -/
theorem turn_leaves {d : PacketReceiveData} {byte : UInt8} {bulk : Option Nat}
    {wire : List UInt8} {outcome : Outcome} (h : turn d byte bulk wire = some outcome) :
    Leaves d outcome := by
  obtain ⟨⟨received, rest⟩, hReceived, h⟩ := Option.bind_eq_some_iff.mp h
  have hBuffer := receiveByte_buffer hReceived
  dsimp only at h
  split at h
  · obtain ⟨frame, hFrame, h⟩ := Option.bind_eq_some_iff.mp h
    cases h
    refine ⟨hBuffer, fun other hOther => ⟨rfl, ?_⟩⟩
    exact Option.some.inj hOther ▸ hFrame
  · cases h
    exact ⟨hBuffer, fun other hOther => by cases hOther⟩

theorem parseFrame_leaves {d : PacketReceiveData} {wire : List UInt8} {call : List Answers}
    {outcome : Outcome} (h : parseFrame d wire call = some outcome) : Leaves d outcome := by
  induction call generalizing d wire with
  | nil =>
      cases h
      exact ⟨rfl, fun frame hFrame => by cases hFrame⟩
  | cons answers rest ih =>
      rw [parseFrame] at h
      split at h
      · cases h
        exact ⟨rfl, fun frame hFrame => by cases hFrame⟩
      · obtain ⟨middle, hTurn, h⟩ := Option.bind_eq_some_iff.mp h
        have hLeaves := turn_leaves hTurn
        split at h
        · cases h
          exact hLeaves
        · have hRest := ih h
          exact ⟨hRest.1.trans hLeaves.1, hRest.2⟩

/-- Whether a packet goes to the SCO port. -/
def toSco (build : Build) (packet : List UInt8) : Bool :=
  build.scoPort && packet.head? = some dataTypeSco

/-- The SCO port can be opened, and no write is cut short. -/
def Transmit.Delivers (build : Build) (transmit : Transmit) : Prop :=
  hciHalSerialBufferSize + build.byteAlignment ≤ transmit.accepted ∧
    (build.scoPort = true → ∃ fd, transmit.opened = some fd ∧ 0 < fd)

section Transmit

variable {build : Build} {transmit : Transmit} {buffer packet : List UInt8} {len : Nat}
  {ports : Ports}

theorem slice_zero (hSlice : Memory.slice buffer 0 len = some packet) (hLen : len ≤ buffer.length) :
    buffer.take len = packet := by
  rw [Memory.slice_eq_some (by omega), List.drop_zero] at hSlice
  exact Option.some.inj hSlice

theorem take_accepted (hTransmit : transmit.Delivers build) {data : List UInt8}
    (hData : data.length ≤ hciHalSerialBufferSize + build.byteAlignment) :
    data.take transmit.accepted = data :=
  List.take_of_length_le (hData.trans hTransmit.1)

/-- The descriptor that an SCO packet is written to. -/
theorem scoFd_pos (hTransmit : transmit.Delivers build) (hSco : build.scoPort = true)
    (hFd : ports.scoFd = -1 ∨ 0 < ports.scoFd) :
    0 < (if ports.scoFd < 0 then transmit.opened.elim (-1) Int.ofNat else ports.scoFd) := by
  obtain ⟨fd, hOpened, hPos⟩ := hTransmit.2 hSco
  rw [hOpened]
  rcases hFd with hFd | hFd
  · rw [if_pos (by omega)]
    exact Int.natCast_pos.mpr hPos
  · rwa [if_neg (by omega)]

/-- A whole packet goes to the port that its type asks for, padded on the
serial one. The descriptor of the SCO port is opened by the first packet for
it. -/
theorem serialDataTransmit_delivered (hTransmit : transmit.Delivers build) (hWhole : Whole packet)
    (hBuffer : buffer.length = hciHalSerialBufferSize + build.byteAlignment)
    (hSlice : Memory.slice buffer 0 len = some packet) (hLen : len ≤ hciHalSerialBufferSize)
    (hFd : ports.scoFd = -1 ∨ 0 < ports.scoFd) :
    ∃ stored sent, serialDataTransmit build transmit buffer len ports = some (stored, sent) ∧
      stored.length = buffer.length ∧ (sent.scoFd = -1 ∨ 0 < sent.scoFd) ∧
      sent.serial = ports.serial ++ (if toSco build packet then []
        else packet ++ List.replicate (tail build.byteAlignment len) 0) ∧
      sent.sco = ports.sco ++ (if toSco build packet then packet else []) := by
  have hLength : packet.length = len := Memory.length_of_slice hSlice
  have hTake : buffer.take len = packet := slice_zero hSlice (by omega)
  have hHead : buffer[0]? = packet.head? := by
    obtain ⟨hKnown, hPreamble, hBody⟩ := hWhole
    rw [← List.head?_eq_getElem?, ← hTake, List.head?_take, if_neg]
    rw [← hLength]
    simp
  by_cases hSco : toSco build packet = true
  · have hBoth : build.scoPort = true ∧ packet.head? = some dataTypeSco := by
      simpa [toSco] using hSco
    have hPos := scoFd_pos hTransmit hBoth.1 hFd
    refine ⟨buffer, { ports with scoFd := _, sco := ports.sco ++ packet }, ?_, rfl, Or.inr hPos,
      by simp [hSco], by simp [hSco]⟩
    rw [serialDataTransmit, if_pos (hHead ▸ hBoth), if_pos hPos, hSlice]
    simp only [Option.bind_eq_bind, Option.bind_some, Option.pure_def]
    rw [take_accepted hTransmit (by omega)]
    rfl
  · have hBoth : ¬(build.scoPort = true ∧ packet.head? = some dataTypeSco) := by
      simpa [toSco] using hSco
    have hTail := tail_le build.byteAlignment len
    obtain ⟨stored, hWrite, hStored, hWritten⟩ := Memory.exists_write buffer len
      (List.replicate (tail build.byteAlignment len) 0) (by rw [List.length_replicate]; omega)
    rw [List.length_replicate, hTake] at hWritten
    have hData : Memory.slice stored 0 (len + tail build.byteAlignment len) =
        some (packet ++ List.replicate (tail build.byteAlignment len) 0) := by
      rw [Memory.slice_eq_some (by omega), List.drop_zero, hWritten]
    refine ⟨stored, { ports with serial := ports.serial ++
      (packet ++ List.replicate (tail build.byteAlignment len) 0) }, ?_, hStored, hFd,
      by simp [hSco], by simp [hSco]⟩
    rw [serialDataTransmit, if_neg (hHead ▸ hBoth)]
    simp only [hWrite, Option.bind_eq_bind, Option.bind_some, Option.pure_def, hData]
    rw [take_accepted hTransmit (by simp only [List.length_append, List.length_replicate]; omega)]

end Transmit

/-- What the ports have been given is `packets`, each on its port, and the
UART nothing that is not aligned. -/
structure Relayed (build : Build) (frames : List (List UInt8)) (ports : Ports) : Prop where
  serial : ∀ more, packets (ports.serial ++ more) =
    frames.filter (fun frame => !toSco build frame) ++ packets more
  sco : ports.sco = (frames.filter (toSco build)).flatten
  scoFd : ports.scoFd = -1 ∨ 0 < ports.scoFd
  aligned : 1 < build.byteAlignment → build.byteAlignment ∣ ports.serial.length

variable {build : Build} {frames : List (List UInt8)} {ports sent : Ports} {packet : List UInt8}

/-- At the start nothing has been relayed and nothing has been sent. -/
theorem Relayed.start (build : Build) : Relayed build [] .start where
  serial _ := rfl
  sco := rfl
  scoFd := Or.inl rfl
  aligned _ := Nat.dvd_zero _

theorem Relayed.append (h : Relayed build frames ports) (hWhole : Whole packet)
    (hFd : sent.scoFd = -1 ∨ 0 < sent.scoFd)
    (hSerial : sent.serial = ports.serial ++ (if toSco build packet then []
      else packet ++ List.replicate (tail build.byteAlignment packet.length) 0))
    (hSco : sent.sco = ports.sco ++ (if toSco build packet then packet else [])) :
    Relayed build (frames ++ [packet]) sent where
  serial more := by
    by_cases hPort : toSco build packet = true
    · simp [hSerial, hPort, h.serial]
    · simp only [hSerial, hPort, Bool.false_eq_true, if_false, List.append_assoc, h.serial,
        hWhole.packets_append, packets_replicate_zero]
      simp [hPort]
  sco := by
    by_cases hPort : toSco build packet = true <;> simp [hSco, hPort, h.sco]
  scoFd := hFd
  aligned hAlignment := by
    by_cases hPort : toSco build packet = true
    · simpa [hSerial, hPort] using h.aligned hAlignment
    · have hDvd := dvd_add_tail hAlignment packet.length
      simpa [hSerial, hPort] using Nat.dvd_add (h.aligned hAlignment) hDvd

/-- A structure that expects a new packet holds nothing. -/
theorem Holds.brandNew_nil {d : PacketReceiveData} {part : List UInt8} (h : Holds d part)
    (hState : d.state = .brandNew) : part = [] := by
  cases h with
  | brandNew => rfl
  | preamble hPreamble => exact absurd (hPreamble.state.symm.trans hState) (by decide)
  | body hBody => exact absurd (hBody.symm.trans hState) (by decide)

/-- One call of `parse_frame` reads on and hands over what it completes. -/
theorem writeRound_relayed {d : PacketReceiveData} {part wire : List UInt8}
    {round : List Answers × Transmit} (hHolds : Holds d part)
    (hBuffer : d.buffer.length = hciHalSerialBufferSize + build.byteAlignment)
    (hReads : ∀ answers ∈ round.1, answers.Delivers) (hTransmit : round.2.Delivers build)
    (hFits : Reference.AclFits (part ++ wire)) (hRelayed : Relayed build frames ports) :
    ∃ next rest sent taken held completed,
      writeRound build d wire ports round = some (next, rest, sent) ∧ wire = taken ++ rest ∧
      Holds next held ∧ next.buffer.length = hciHalSerialBufferSize + build.byteAlignment ∧
      Advances part taken completed held ∧ Relayed build (frames ++ completed) sent := by
  obtain ⟨outcome, hCall, taken, held, hTaken, hOutcome, hAdvances⟩ :=
    parseFrame_receives hHolds hReads hFits
  obtain ⟨hSize, hFrame⟩ := parseFrame_leaves hCall
  cases hCompleted : outcome.frame with
  | none =>
      rw [hCompleted] at hAdvances
      refine ⟨outcome.data, outcome.wire, ports, taken, held, [], ?_, hTaken, hOutcome,
        hSize.trans hBuffer, hAdvances, by rwa [List.append_nil]⟩
      simp [writeRound, hCall, hCompleted]
  | some packet =>
      rw [hCompleted] at hAdvances
      obtain ⟨hState, hSlice⟩ := hFrame packet hCompleted
      obtain rfl := hOutcome.brandNew_nil hState
      have hPacket : packet ∈ packets (part ++ wire) := by
        rw [hTaken, ← List.append_assoc, hAdvances.packets]
        exact List.mem_cons_self
      obtain ⟨hWhole, hLength⟩ := mem_packets hPacket
      have hLen : outcome.data.index ≤ hciHalSerialBufferSize :=
        (Memory.length_of_slice hSlice).symm.trans_le (hLength hFits)
      obtain ⟨stored, sent, hTransmitted, hStored, hFd, hSerial, hSco⟩ :=
        serialDataTransmit_delivered hTransmit hWhole (hSize.trans hBuffer) hSlice hLen
          hRelayed.scoFd
      rw [← Memory.length_of_slice hSlice] at hSerial
      refine ⟨{ outcome.data with buffer := stored }, outcome.wire, sent, taken, [], [packet], ?_,
        hTaken, .brandNew hState ?_, hStored.trans (hSize.trans hBuffer), hAdvances,
        hRelayed.append hWhole hFd hSerial hSco⟩
      · simp [writeRound, hCall, hCompleted, hTransmitted]
      · dsimp only
        omega

/-- By induction over the rounds. The invariant says what the parser holds,
how long its buffer is, and what the ports have been given. -/
theorem sitmWriteTh_relayed {d : PacketReceiveData} {part wire : List UInt8}
    {rounds : List (List Answers × Transmit)} (hHolds : Holds d part)
    (hBuffer : d.buffer.length = hciHalSerialBufferSize + build.byteAlignment)
    (hReads : ∀ round ∈ rounds, ∀ answers ∈ round.1, answers.Delivers)
    (hTransmits : ∀ round ∈ rounds, round.2.Delivers build)
    (hFits : Reference.AclFits (part ++ wire)) (hRelayed : Relayed build frames ports) :
    ∃ next rest sent taken held completed,
      sitmWriteTh build d wire ports rounds = some (next, rest, sent) ∧ wire = taken ++ rest ∧
      Holds next held ∧ Advances part taken completed held ∧
      Relayed build (frames ++ completed) sent := by
  induction rounds generalizing d part wire ports frames with
  | nil =>
      exact ⟨d, wire, ports, [], part, [], rfl, rfl, hHolds, Advances.refl part,
        by rwa [List.append_nil]⟩
  | cons round rounds ih =>
      obtain ⟨next, rest, sent, taken, held, completed, hRound, hTaken, hNext, hSize, hAdvances,
        hSent⟩ := writeRound_relayed hHolds hBuffer (hReads round List.mem_cons_self)
          (hTransmits round List.mem_cons_self) hFits hRelayed
      have hMore : Reference.AclFits (held ++ rest) :=
        hAdvances.aclFits _ (by rwa [List.append_assoc, ← hTaken])
      obtain ⟨last, rest', sent', taken', held', completed', hRounds, hTaken', hLast, hAdvances',
        hSent'⟩ := ih hNext hSize (fun r hr => hReads r (List.mem_cons_of_mem _ hr))
          (fun r hr => hTransmits r (List.mem_cons_of_mem _ hr)) hMore hSent
      refine ⟨last, rest', sent', taken ++ taken', held', completed ++ completed', ?_, ?_, hLast,
        hAdvances.trans hAdvances', by rwa [← List.append_assoc]⟩
      · simp [sitmWriteTh, hRound, hRounds]
      · rw [hTaken, hTaken', List.append_assoc]

/-- A round puts nothing back on the wire, and takes a byte if its first
read delivers one. -/
theorem sitmWriteTh_wire_le {d next : PacketReceiveData} {wire rest : List UInt8}
    {ports sent : Ports} {rounds : List (List Answers × Transmit)}
    (h : sitmWriteTh build d wire ports rounds = some (next, rest, sent)) :
    rest.length + min (rounds.countP fun round => deliversByte round.1) wire.length ≤
      wire.length := by
  induction rounds generalizing d wire ports with
  | nil =>
      obtain rfl : wire = rest := congrArg (fun run => run.2.1) (Option.some.inj h)
      simp
  | cons round rounds ih =>
      obtain ⟨⟨middle, left, given⟩, hRound, hRounds⟩ := Option.bind_eq_some_iff.mp h
      obtain ⟨outcome, hCall, hSent⟩ := Option.bind_eq_some_iff.mp hRound
      have hLeft : left = outcome.wire := by
        cases hFrame : outcome.frame with
        | none =>
            rw [hFrame] at hSent
            exact congrArg (fun run => run.2.1) (Option.some.inj hSent).symm
        | some frame =>
            rw [hFrame] at hSent
            obtain ⟨transmitted, -, hSame⟩ := Option.bind_eq_some_iff.mp hSent
            exact congrArg (fun run => run.2.1) (Option.some.inj hSame).symm
      obtain ⟨hLe, hLess⟩ := parseFrame_wire_le hCall
      have hRest := ih hRounds
      rw [hLeft] at hRest
      rw [List.countP_cons]
      by_cases hFirst : deliversByte round.1 = true
      · by_cases hEmpty : wire = []
        · subst hEmpty
          simp only [List.length_nil] at hLe ⊢
          omega
        · have hTaken := hLess hFirst hEmpty
          rw [if_pos hFirst]
          omega
      · rw [if_neg hFirst]
        omega

/-- However the stack's bytes are cut, a receiver of packets at the UART and
one at the SCO port read exactly the packets that the relay has read to
their ends, each on its port, in order; and what the UART is given is
aligned. What the relay has read is the front of the wire that its reads
have delivered: a byte at least for every round whose first read delivers
one, as long as there is any. -/
theorem relay_transparent (build : Build) (wire : List UInt8)
    (rounds : List (List Answers × Transmit)) (hFits : Reference.AclFits wire)
    (hReads : ∀ round ∈ rounds, ∀ answers ∈ round.1, answers.Delivers)
    (hTransmits : ∀ round ∈ rounds, round.2.Delivers build) :
    ∃ next taken rest ports, wire = taken ++ rest ∧
      min (rounds.countP fun round => deliversByte round.1) wire.length ≤ taken.length ∧
      sitmWriteTh build (cleared build.byteAlignment) wire .start rounds =
        some (next, rest, ports) ∧
      packets ports.serial = (packets taken).filter (fun packet => !toSco build packet) ∧
      packets ports.sco = (packets taken).filter (toSco build) ∧
      (1 < build.byteAlignment → build.byteAlignment ∣ ports.serial.length) := by
  have hStart : Holds (cleared build.byteAlignment) [] := .brandNew rfl (by simp [cleared])
  obtain ⟨next, rest, ports, taken, held, completed, hRun, hTaken, hHolds, hAdvances, hRelayed⟩ :=
    sitmWriteTh_relayed hStart (by simp [cleared]) hReads hTransmits hFits (Relayed.start build)
  have hPackets : packets taken = completed := by
    simpa [hHolds.packets_eq_nil] using hAdvances.packets []
  have hEmpty : packets [] = [] := by rw [packets]
  rw [List.nil_append, ← hPackets] at hRelayed
  have hLeft := sitmWriteTh_wire_le hRun
  have hLength := congrArg List.length hTaken
  rw [List.length_append] at hLength
  refine ⟨next, taken, rest, ports, hTaken, by omega, hRun, ?_, ?_, hRelayed.aligned⟩
  · simpa [hEmpty] using hRelayed.serial []
  · have hWholes : ∀ frame ∈ (packets taken).filter (toSco build), Whole frame :=
      fun frame hFrame => (mem_packets (List.mem_of_mem_filter hFrame)).1
    simpa [hEmpty, hRelayed.sco] using packets_of_wholes hWholes []

/-- A command and the start of a SCO packet, with words of four bytes at the
UART. -/
theorem relay_transparent_command :
    ∃ next taken rest ports, [0x01, 0x03, 0x0C, 0x01, 0x00, 0x03, 0x2A] = taken ++ rest ∧
      2 ≤ taken.length ∧
      sitmWriteTh ⟨4, true⟩ (cleared 4) [0x01, 0x03, 0x0C, 0x01, 0x00, 0x03, 0x2A] .start
        [(List.replicate 5 ⟨some 1, some 0⟩, ⟨some 7, 2000⟩),
          (List.replicate 2 ⟨some 1, some 0⟩, ⟨some 7, 2000⟩)] = some (next, rest, ports) ∧
      packets ports.serial = (packets taken).filter (fun packet => !toSco ⟨4, true⟩ packet) ∧
      packets ports.sco = (packets taken).filter (toSco ⟨4, true⟩) ∧
      (1 < 4 → 4 ∣ ports.serial.length) := by
  refine relay_transparent ⟨4, true⟩ _ [(List.replicate 5 ⟨some 1, some 0⟩, ⟨some 7, 2000⟩),
    (List.replicate 2 ⟨some 1, some 0⟩, ⟨some 7, 2000⟩)] ?_ ?_ ?_
  · simp [Reference.AclFits, headers, preambleLength, payloadLength]
  · simp [Answers.Delivers]
  · simp [Transmit.Delivers, hciHalSerialBufferSize]

end Bluetooth.Sitm
