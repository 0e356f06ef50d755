import Mathlib.Data.UInt

/-! The H4 packet format read off a complete byte list, without state. -/
namespace Bluetooth.Reference

/-- Bytes between the type byte and the payload; other type bytes are
skipped. -/
def preambleLength (type : UInt8) : Option Nat :=
  if type = 1 then some 3
  else if type = 2 then some 4
  else if type = 3 then some 3
  else if type = 4 then some 2
  else none

/-- ACL carries a little-endian 16-bit length in its last two preamble
bytes, the other packets an 8-bit length in the last one. -/
def payloadLength (type : UInt8) (preamble : List UInt8) : Nat :=
  if type = 2 then preamble[2]!.toNat + 256 * preamble[3]!.toNat
  else (preamble.getLastD 0).toNat

/-- The packets whose last byte is in the list, type byte included. -/
def packets : List UInt8 → List (List UInt8)
  | [] => []
  | type :: rest =>
      match preambleLength type with
      | none => packets rest
      | some size =>
          let length := size + payloadLength type (rest.take size)
          if rest.length < size ∨ rest.length < length then []
          else (type :: rest.take length) :: packets (rest.drop length)
termination_by bytes => bytes.length
decreasing_by all_goals simp only [List.length_cons, List.length_drop]; omega

/-- The type and payload length of every packet whose preamble is in the
list. -/
def headers : List UInt8 → List (UInt8 × Nat)
  | [] => []
  | type :: rest =>
      match preambleLength type with
      | none => headers rest
      | some size =>
          let length := size + payloadLength type (rest.take size)
          if rest.length < size then []
          else (type, payloadLength type (rest.take size)) :: headers (rest.drop length)
termination_by bytes => bytes.length
decreasing_by all_goals simp only [List.length_cons, List.length_drop]; omega

variable {type : UInt8} {size : Nat} {preamble body rest : List UInt8}

theorem packets_skip (h : preambleLength type = none) :
    packets (type :: rest) = packets rest := by
  rw [packets, h]

theorem headers_skip (h : preambleLength type = none) :
    headers (type :: rest) = headers rest := by
  rw [headers, h]

/-- A preamble that has not arrived in full gives no packet yet. -/
theorem packets_of_short_preamble (h : preambleLength type = some size)
    (hShort : preamble.length < size) : packets (type :: preamble) = [] := by
  rw [packets, h]
  simp [hShort]

theorem packets_of_short_body (h : preambleLength type = some size)
    (hPreamble : preamble.length = size) (hShort : body.length < payloadLength type preamble) :
    packets (type :: preamble ++ body) = [] := by
  have hTake : (preamble ++ body).take size = preamble := by
    rw [← hPreamble, List.take_left]
  rw [List.cons_append, packets, h]
  simp only [hTake, List.length_append]
  rw [if_pos (by omega)]

/-- A complete packet is split off whatever follows it. -/
theorem packets_of_complete (h : preambleLength type = some size)
    (hPreamble : preamble.length = size) (hBody : body.length = payloadLength type preamble) :
    packets (type :: preamble ++ body ++ rest) = (type :: preamble ++ body) :: packets rest := by
  have hTake : (preamble ++ body ++ rest).take size = preamble := by
    rw [List.append_assoc, ← hPreamble, List.take_left]
  have hSplit : size + payloadLength type preamble = (preamble ++ body).length := by
    rw [List.length_append, hPreamble, hBody]
  rw [List.cons_append, List.cons_append, packets, h]
  simp only [hTake, hSplit, List.take_left, List.drop_left]
  rw [if_neg (by simp only [List.length_append] at hSplit ⊢; omega)]

/-- A complete preamble is one header, and the next one stands behind its
payload. -/
theorem headers_of_preamble (h : preambleLength type = some size)
    (hPreamble : preamble.length = size) :
    headers (type :: preamble ++ rest) =
      (type, payloadLength type preamble) :: headers (rest.drop (payloadLength type preamble)) := by
  have hTake : (preamble ++ rest).take size = preamble := by
    rw [← hPreamble, List.take_left]
  have hDrop : (preamble ++ rest).drop (size + payloadLength type preamble) =
      rest.drop (payloadLength type preamble) := by
    rw [← hPreamble, List.drop_length_add_append]
  rw [List.cons_append, headers, h]
  simp only [hTake, hDrop]
  rw [if_neg (by simp only [List.length_append]; omega)]

/-- No ACL packet of the list announces more payload than the receive buffer
holds. -/
def AclFits (bytes : List UInt8) : Prop :=
  ∀ header ∈ headers bytes, header.1 = 2 → header.2 ≤ 1021

/-- The bytes of one packet. -/
inductive Whole : List UInt8 → Prop where
  | packet {type : UInt8} {size : Nat} {preamble body : List UInt8}
      (hKnown : preambleLength type = some size) (hPreamble : preamble.length = size)
      (hBody : body.length = payloadLength type preamble) : Whole (type :: preamble ++ body)

/-- A whole packet in front is the first packet, and what follows is split
on its own. -/
theorem Whole.packets_append {packet : List UInt8} (h : Whole packet) (more : List UInt8) :
    packets (packet ++ more) = packet :: packets more := by
  cases h with
  | packet hKnown hPreamble hBody => exact packets_of_complete hKnown hPreamble hBody

theorem packets_of_wholes {frames : List (List UInt8)} (h : ∀ frame ∈ frames, Whole frame)
    (more : List UInt8) : packets (frames.flatten ++ more) = frames ++ packets more := by
  induction frames with
  | nil => rfl
  | cons frame frames ih =>
      obtain ⟨hFrame, hFrames⟩ := List.forall_mem_cons.mp h
      rw [List.flatten_cons, List.append_assoc, hFrame.packets_append, ih hFrames]
      rfl

/-- Zero bytes between packets are skipped. -/
theorem packets_replicate_zero (count : Nat) (more : List UInt8) :
    packets (List.replicate count 0 ++ more) = packets more := by
  induction count with
  | zero => rfl
  | succ count ih =>
      rw [List.replicate_succ, List.cons_append, packets_skip (by decide), ih]

/-- No preamble is longer than the four bytes of an ACL header. -/
theorem preambleLength_le (h : preambleLength type = some size) : size ≤ 4 := by
  unfold preambleLength at h
  split_ifs at h <;> simp_all <;> omega

/-- Only ACL packets can be longer than the receive buffer. -/
theorem payloadLength_le (h : preambleLength type = some size)
    (hAcl : type = 2 → payloadLength type preamble ≤ 1021) :
    size + payloadLength type preamble ≤ 1025 := by
  have hSize := preambleLength_le h
  by_cases hType : type = 2
  · have hPayload := hAcl hType
    omega
  · have hByte := (preamble.getLastD 0).toNat_lt
    rw [payloadLength, if_neg hType]
    omega

/-- What is read off a byte list are whole packets, which fit when their
headers do. -/
theorem mem_packets {bytes packet : List UInt8} (hPacket : packet ∈ packets bytes) :
    Whole packet ∧ (AclFits bytes → packet.length ≤ 1026) := by
  induction bytes using packets.induct with
  | case1 => simp [packets] at hPacket
  | case2 type rest hNone ih =>
      rw [packets_skip hNone] at hPacket
      simpa only [AclFits, headers_skip hNone] using ih hPacket
  | case3 type rest size hKnown length hShort =>
      rw [packets, hKnown] at hPacket
      dsimp only at hPacket
      rw [if_pos hShort] at hPacket
      cases hPacket
  | case4 type rest size hKnown length hEnough ih =>
      obtain ⟨hSize, hLength⟩ := not_or.mp hEnough
      have hPreamble : (rest.take size).length = size := by
        rw [List.length_take]
        omega
      have hBody : ((rest.drop size).take (payloadLength type (rest.take size))).length =
          payloadLength type (rest.take size) := by
        rw [List.length_take, List.length_drop]
        omega
      have hRest : rest = rest.take size ++
          (rest.drop size).take (payloadLength type (rest.take size)) ++ rest.drop length := by
        rw [← List.drop_drop, List.append_assoc, List.take_append_drop, List.take_append_drop]
      have hHeaders : headers (type :: rest.take size ++ rest.drop size) = _ :=
        headers_of_preamble hKnown hPreamble
      have hPackets : packets (type :: rest.take size ++
          (rest.drop size).take (payloadLength type (rest.take size)) ++ rest.drop length) = _ :=
        packets_of_complete hKnown hPreamble hBody
      rw [List.cons_append, List.take_append_drop, List.drop_drop] at hHeaders
      rw [List.cons_append, List.cons_append, ← hRest] at hPackets
      rw [hPackets, List.mem_cons] at hPacket
      rcases hPacket with rfl | hPacket
      · refine ⟨.packet hKnown hPreamble hBody, fun hFits => ?_⟩
        have hLe : size + payloadLength type (rest.take size) ≤ 1025 :=
          payloadLength_le hKnown fun hType => hFits (type, _) (hHeaders ▸ List.mem_cons_self) hType
        simp only [List.length_cons, List.length_append, hPreamble, hBody]
        omega
      · obtain ⟨hWhole, hLe⟩ := ih hPacket
        refine ⟨hWhole, fun hFits => hLe fun header hHeader => hFits header ?_⟩
        exact hHeaders ▸ List.mem_cons_of_mem _ hHeader

end Bluetooth.Reference
