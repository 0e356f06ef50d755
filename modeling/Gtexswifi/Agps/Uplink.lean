import Gtexswifi.Agps.MessageRoundTrip
import Gtexswifi.Library.Memory

/-! The commands of the uplink, built in an array of `char` and copied by
`writeline`. `none` is a cell that has not been set, and a store or a read
that is undefined. -/
namespace Agps

open Numerals

/-- An array of `char` and the pointer behind what is printed so far. -/
structure Printer where
  cells : List (Option UInt8)
  p : Nat
  deriving DecidableEq

/-- An array of `size` characters as it is declared. -/
def Printer.declare (size : Nat) : Printer := ⟨List.replicate size none, 0⟩

/-- `p += sprintf(p, ...)` -/
def Printer.sprintf (s : Printer) (text : List UInt8) : Option Printer :=
  (Memory.write s.cells s.p ((text ++ [0]).map some)).map fun cells => ⟨cells, s.p + text.length⟩

/-- What `at_send` is called with, and whether `meas_term_cb` has been
called before. -/
structure Request where
  atCmd : List (Option UInt8)
  len : Nat
  stopSession : Bool
  deriving DecidableEq

/-- The uplink payload, whose size is an `unsigned long`. -/
structure Payload (longBits : Nat) where
  data : List UInt8
  inRange : data.length < 2 ^ longBits

/-- `"%d,%d,%d,%ld,"` -/
def ulreqNumbers {longBits : Nat} (otaType rrcMsgType : UInt32) (isfinal : Int32)
    (msg : Payload longBits) : List UInt8 :=
  decimal isfinal.toInt ++ 0x2c :: (decimal otaType.toInt32.toInt ++
    0x2c :: (decimal rrcMsgType.toInt32.toInt ++
      0x2c :: (decimal (Int.bmod msg.data.length (2 ^ longBits)) ++ [0x2c])))

def agpsCPlaneStackNetworkUlreq {longBits : Nat} (otaType rrcMsgType : UInt32) (isfinal : Int32)
    (msg : Payload longBits) : Option Request := do
  let p ← (Printer.declare (16 * 1024)).sprintf (ascii "AT+SPAGPSUL=")
  let p ← p.sprintf (ulreqNumbers otaType rrcMsgType isfinal msg)
  let p ← p.sprintf (ascii "\"")
  let p ← msg.data.foldlM (fun p b => p.sprintf (hexText [b])) p
  let p ← p.sprintf (ascii "\"")
  return ⟨p.cells, p.p, isfinal ≠ 0⟩

/-- `"%lu, %lu"` -/
def verificationNumbers {longBits : Nat} (verificationResponse notifId : BitVec longBits) :
    List UInt8 :=
  write 10 verificationResponse.toNat ++ 0x2c :: 0x20 :: write 10 notifId.toNat

def agpsCPlaneStackLcsverificationresp {longBits : Nat}
    (notifId present verificationResponse : BitVec longBits) : Option Request := do
  let p := Printer.declare 50
  let p ← if present ≠ 0 then do
      let p ← p.sprintf (ascii "AT+CMTLRA=")
      p.sprintf (verificationNumbers verificationResponse notifId)
    else some p
  return ⟨p.cells, p.p, false⟩

/-- The string at the start of an array. -/
def cString : List (Option UInt8) → Option (List UInt8)
  | [] => none
  | none :: _ => none
  | some c :: cells => if c = 0 then some [] else (cString cells).map (c :: ·)

/-- `strcpy(new_s, s)` and `strcat(new_s, "\r")` in `writeline`, with `char
new_s[len + 2]`. -/
def writelineCopy (s : List (Option UInt8)) (len : Nat) : Option (List (Option UInt8)) := do
  let text ← cString s
  let newS ← Memory.write (List.replicate (len + 2) none) 0 ((text ++ [0]).map some)
  Memory.write newS text.length ([0x0d, 0].map some)

/-- The array holds a string of the length that is passed, and `writeline`
copies it. -/
def Request.Complete (r : Request) : Prop :=
  ∃ text, cString r.atCmd = some text ∧ text.length = r.len ∧
    writelineCopy r.atCmd r.len = some ((text ++ [0x0d, 0]).map some)

/-- The command is built inside its array, and it is complete. -/
def Delivered (r : Option Request) : Prop := ∃ request, r = some request ∧ request.Complete

/-- What printing into an array of `size` characters leaves, where `text` is
printed in all. -/
inductive Printed (size : Nat) (text : List UInt8) : Option Printer → Prop
  | overrun (h : size ≤ text.length) : Printed size text none
  | inside {s : Printer} (hFits : text.length < size) (hPointer : s.p = text.length)
      (hLength : s.cells.length = size)
      (hText : s.cells.take (text.length + 1) = (text ++ [0]).map some) : Printed size text (some s)

/-- What is printed goes behind the text that stands in the buffer, if there
is room, and is undefined otherwise. -/
theorem Printer.sprintf_printed {size : Nat} {text : List UInt8} {s : Printer}
    (hLength : s.cells.length = size) (hPointer : s.p = text.length)
    (hText : s.cells.take s.p = text.map some) (more : List UInt8) :
    Printed size (text ++ more) (s.sprintf more) := by
  unfold Printer.sprintf
  by_cases hBound : s.p + ((more ++ [0]).map some).length ≤ s.cells.length
  · have hWrite := Memory.exists_write s.cells s.p ((more ++ [0]).map some) hBound
    obtain ⟨stored, hStored, hSize, hTake⟩ := hWrite
    rw [hStored]
    simp only [List.length_map, List.length_append, List.length_singleton] at hBound hTake
    rw [hText, hPointer, ← Nat.add_assoc, ← List.map_append, ← List.append_assoc] at hTake
    apply Printed.inside
    · rw [List.length_append]
      omega
    · rw [List.length_append, hPointer]
    · rw [hSize, hLength]
    · rw [List.length_append, hTake]
  · rw [Memory.write, if_neg hBound]
    simp only [List.length_map, List.length_append, List.length_singleton] at hBound
    apply Printed.overrun
    rw [List.length_append]
    omega

/-- The first text that is printed into an array. -/
theorem Printer.declare_printed (size : Nat) (text : List UInt8) :
    Printed size text ((Printer.declare size).sprintf text) := by
  have hEmpty : (Printer.declare size).cells.take (Printer.declare size).p = [].map some := rfl
  simpa using Printer.sprintf_printed (by simp [Printer.declare]) rfl hEmpty text

/-- A text is printed behind what is printed already. -/
theorem Printed.sprintf {size : Nat} {text : List UInt8} {s : Option Printer}
    (h : Printed size text s) (more : List UInt8) :
    Printed size (text ++ more) (s >>= fun s => s.sprintf more) := by
  cases h with
  | overrun hFull =>
      apply Printed.overrun
      rw [List.length_append]
      omega
  | @inside s _ hPointer hLength hText =>
      have hPrefix := congrArg (List.take text.length) hText
      rw [List.take_take, Nat.min_eq_left (Nat.le_succ _), List.map_append,
        List.take_left' (List.length_map some), ← hPointer] at hPrefix
      exact Printer.sprintf_printed hLength hPointer hPrefix more

/-- The loop prints the payload byte by byte. By induction on it, what
stands in the buffer is the text so far and the digits. -/
theorem Printed.hexLoop {size : Nat} {text : List UInt8} {s : Option Printer}
    (h : Printed size text s) (data : List UInt8) :
    Printed size (text ++ hexText data)
      (s >>= fun s => data.foldlM (fun s b => s.sprintf (hexText [b])) s) := by
  induction data generalizing text s with
  | nil => simpa [hexText] using h
  | cons b data ih =>
      have hFirst := ih (h.sprintf (hexText [b]))
      have hText : text ++ hexText [b] ++ hexText data = text ++ hexText (b :: data) := by
        simp [hexText]
      rw [hText] at hFirst
      simpa [List.foldlM_cons, Option.bind_assoc] using hFirst

/-- A text without zeros is the string at its start, if the terminator
follows it. -/
theorem cString_eq {text : List UInt8} (hText : ∀ c ∈ text, c ≠ 0) {cells : List (Option UInt8)}
    (h : cells.take (text.length + 1) = (text ++ [0]).map some) : cString cells = some text := by
  induction text generalizing cells with
  | nil =>
      cases cells with
      | nil => simp at h
      | cons cell cells =>
          obtain rfl : cell = some 0 := by simpa using h
          rfl
  | cons c text ih =>
      cases cells with
      | nil => simp at h
      | cons cell cells =>
          simp only [List.length_cons, List.take_succ_cons, List.cons_append, List.map_cons,
            List.cons.injEq] at h
          obtain ⟨rfl, hRest⟩ := h
          have hc : c ≠ 0 := hText c List.mem_cons_self
          rw [cString, if_neg hc, ih (fun d hd => hText d (List.mem_cons_of_mem c hd)) hRest]
          rfl

/-- A copy of a string into an array of its size and two. -/
theorem writelineCopy_eq {s : List (Option UInt8)} {text : List UInt8}
    (h : cString s = some text) :
    writelineCopy s text.length = some ((text ++ [0x0d, 0]).map some) := by
  have hCopy := Memory.write_append [] (List.replicate (text.length + 1) (none : Option UInt8))
    ((text ++ [0]).map some) [none] (by simp)
  have hAppend := Memory.write_append (text.map some) [some 0, none]
    ([0x0d, 0].map (some : UInt8 → Option UInt8)) [] rfl
  simp only [List.nil_append, ← List.replicate_succ', List.length_nil, List.map_append,
    List.map_cons, List.map_nil, List.append_assoc, List.cons_append] at hCopy
  simp only [List.length_map, List.append_nil, List.map_cons, List.map_nil] at hAppend
  simp only [writelineCopy, h, Option.bind_eq_bind, Option.bind_some, List.map_append,
    List.map_cons, List.map_nil]
  rw [hCopy, Option.bind_some, hAppend]

/-- What is printed is delivered where it fits. -/
theorem delivered_iff {size : Nat} {text : List UInt8} (hText : ∀ c ∈ text, c ≠ 0)
    {s : Option Printer} (h : Printed size text s) (stopSession : Bool) :
    Delivered (s.map fun s => ⟨s.cells, s.p, stopSession⟩) ↔ text.length < size := by
  cases h with
  | overrun hFull =>
      simp only [Option.map_none, Delivered, reduceCtorEq, false_and, exists_false, false_iff]
      omega
  | @inside s hFits hPointer _ hTake =>
      have hString := cString_eq hText hTake
      have hComplete : Request.Complete ⟨s.cells, s.p, stopSession⟩ :=
        ⟨text, hString, hPointer.symm, by simpa [hPointer] using writelineCopy_eq hString⟩
      exact ⟨fun _ => hFits, fun _ => ⟨_, rfl, hComplete⟩⟩

theorem decimal_natCast (n : Nat) : decimal (n : Int) = write 10 n := by
  simp [decimal, Int.not_lt.mpr]

theorem write_plain {n : Nat} {c : UInt8} (h : c ∈ write 10 n) : Plain c :=
  decimal_plain (decimal_natCast n ▸ h)

theorem Plain.ne_zero {c : UInt8} (h : Plain c) : c ≠ 0 := h.ne (by decide) (by decide)

/-- `AT+SPAGPSUL=isfinal,ota_type,rrc_msg_type,msg_size,"payload"` -/
def ulreqText {longBits : Nat} (otaType rrcMsgType : UInt32) (isfinal : Int32)
    (msg : Payload longBits) : List UInt8 :=
  ascii "AT+SPAGPSUL=" ++ ulreqNumbers otaType rrcMsgType isfinal msg ++ ascii "\"" ++
    hexText msg.data ++ ascii "\""

/-- `AT+CMTLRA=verificationResponse, notifId` -/
def verificationText {longBits : Nat} (notifId verificationResponse : BitVec longBits) :
    List UInt8 :=
  ascii "AT+CMTLRA=" ++ verificationNumbers verificationResponse notifId

/-- The text of an uplink request holds no zero, so that the whole of it is
the string that is sent. -/
theorem ulreqText_ne_zero {longBits : Nat} {otaType rrcMsgType : UInt32} {isfinal : Int32}
    {msg : Payload longBits} {c : UInt8} (h : c ∈ ulreqText otaType rrcMsgType isfinal msg) :
    c ≠ 0 := by
  have hName : ∀ c ∈ ascii "AT+SPAGPSUL=", c ≠ 0 := by decide +kernel
  have hQuote : ∀ c ∈ ascii "\"", c ≠ 0 := by decide +kernel
  simp only [ulreqText, ulreqNumbers, List.mem_append, List.mem_cons, List.not_mem_nil,
    or_false] at h
  rcases h with (((h | h) | h) | h) | h
  · exact hName c h
  · rcases h with h | rfl | h | rfl | h | rfl | h | rfl
    all_goals first | exact (decimal_plain h).ne_zero | decide
  · exact hQuote c h
  · exact (hexText_plain h).ne_zero
  · exact hQuote c h

/-- The text of a verification response holds no zero, so that the whole of
it is the string that is sent. -/
theorem verificationText_ne_zero {longBits : Nat} {notifId verificationResponse : BitVec longBits}
    {c : UInt8} (h : c ∈ verificationText notifId verificationResponse) : c ≠ 0 := by
  have hName : ∀ c ∈ ascii "AT+CMTLRA=", c ≠ 0 := by decide +kernel
  simp only [verificationText, verificationNumbers, List.mem_append, List.mem_cons] at h
  rcases h with h | h | rfl | rfl | h
  · exact hName c h
  · exact (write_plain h).ne_zero
  · decide
  · decide
  · exact (write_plain h).ne_zero

/-- The calls of `sprintf` build the text of the request, or leave the
buffer of 16 KiB. -/
theorem ulreq_printed {longBits : Nat} (otaType rrcMsgType : UInt32) (isfinal : Int32)
    (msg : Payload longBits) :
    ∃ s, Printed (16 * 1024) (ulreqText otaType rrcMsgType isfinal msg) s ∧
      agpsCPlaneStackNetworkUlreq otaType rrcMsgType isfinal msg =
        s.map fun p => ⟨p.cells, p.p, isfinal ≠ 0⟩ := by
  have hName := Printer.declare_printed (16 * 1024) (ascii "AT+SPAGPSUL=")
  have hNumbers := hName.sprintf (ulreqNumbers otaType rrcMsgType isfinal msg)
  have hData := (hNumbers.sprintf (ascii "\"")).hexLoop msg.data
  refine ⟨_, hData.sprintf (ascii "\""), ?_⟩
  unfold agpsCPlaneStackNetworkUlreq
  generalize (Printer.declare (16 * 1024)).sprintf (ascii "AT+SPAGPSUL=") = first
  simp only [Option.bind_eq_bind, Option.bind_assoc, Option.map_eq_bind]
  rfl

/-- The calls of `sprintf` build the text of the response, or leave the
buffer of 50 bytes. -/
theorem verificationresp_printed {longBits : Nat} (notifId verificationResponse : BitVec longBits)
    {present : BitVec longBits} (h : present ≠ 0) :
    ∃ s, Printed 50 (verificationText notifId verificationResponse) s ∧
      agpsCPlaneStackLcsverificationresp notifId present verificationResponse =
        s.map fun p => ⟨p.cells, p.p, false⟩ := by
  have hName := Printer.declare_printed 50 (ascii "AT+CMTLRA=")
  refine ⟨_, hName.sprintf (verificationNumbers verificationResponse notifId), ?_⟩
  unfold agpsCPlaneStackLcsverificationresp
  rw [if_pos h]
  generalize (Printer.declare 50).sprintf (ascii "AT+CMTLRA=") = first
  simp only [Option.bind_eq_bind, Option.bind_assoc, Option.map_eq_bind]
  rfl

/-- Without a response the array is sent as it is declared. -/
theorem verificationresp_absent {longBits : Nat} (notifId verificationResponse : BitVec longBits) :
    ¬Delivered (agpsCPlaneStackLcsverificationresp notifId 0 verificationResponse) := by
  rintro ⟨request, hRequest, text, hString, -⟩
  unfold agpsCPlaneStackLcsverificationresp at hRequest
  rw [if_neg (not_not.mpr rfl)] at hRequest
  obtain rfl := Option.some.inj hRequest
  cases hString

/-- The text of `+SPAGPSUL` with its NUL fits the array. -/
def UlreqFits {longBits : Nat} (otaType rrcMsgType : UInt32) (isfinal : Int32)
    (msg : Payload longBits) : Prop :=
  18 + (decimal isfinal.toInt).length + (decimal otaType.toInt32.toInt).length +
    (decimal rrcMsgType.toInt32.toInt).length +
    (decimal (Int.bmod msg.data.length (2 ^ longBits))).length + 2 * msg.data.length < 16 * 1024

/-- There is a response, and its text with its NUL fits the array. -/
def VerificationFits {longBits : Nat} (notifId present verificationResponse : BitVec longBits) :
    Prop :=
  present ≠ 0 ∧
    12 + (write 10 verificationResponse.toNat).length + (write 10 notifId.toNat).length < 50

/-- The condition on the fields is the one on the length of the text and its
terminator. -/
theorem ulreqFits_iff {longBits : Nat} {otaType rrcMsgType : UInt32} {isfinal : Int32}
    {msg : Payload longBits} : UlreqFits otaType rrcMsgType isfinal msg ↔
      (ulreqText otaType rrcMsgType isfinal msg).length < 16 * 1024 := by
  have hName : (ascii "AT+SPAGPSUL=").length = 12 := rfl
  have hQuote : (ascii "\"").length = 1 := rfl
  simp only [UlreqFits, ulreqText, ulreqNumbers, List.length_append, List.length_cons,
    List.length_nil, length_hexText, hName, hQuote]
  omega

/-- The condition on the fields is that there is a response and that its
text fits. -/
theorem verificationFits_iff {longBits : Nat}
    {notifId present verificationResponse : BitVec longBits} :
    VerificationFits notifId present verificationResponse ↔
      present ≠ 0 ∧ (verificationText notifId verificationResponse).length < 50 := by
  have hName : (ascii "AT+CMTLRA=").length = 10 := rfl
  apply and_congr_right
  intro _
  simp only [verificationText, verificationNumbers, List.length_append, List.length_cons, hName]
  omega

/-- The command of a payload is built inside its array exactly where it
fits, and where it is built it is complete. -/
theorem ulreq_delivered {longBits : Nat} (otaType rrcMsgType : UInt32) (isfinal : Int32)
    (msg : Payload longBits) :
    ((agpsCPlaneStackNetworkUlreq otaType rrcMsgType isfinal msg).isSome = true ↔
        UlreqFits otaType rrcMsgType isfinal msg) ∧
      (Delivered (agpsCPlaneStackNetworkUlreq otaType rrcMsgType isfinal msg) ↔
        UlreqFits otaType rrcMsgType isfinal msg) := by
  obtain ⟨s, hPrinted, hRequest⟩ := ulreq_printed otaType rrcMsgType isfinal msg
  rw [hRequest, ulreqFits_iff]
  constructor
  · cases hPrinted with
    | overrun hFull => simpa using hFull
    | inside hFits => simpa using hFits
  · exact delivered_iff (fun c hc => ulreqText_ne_zero hc) hPrinted _

/-- The response is sent whole exactly if it is present and fits. Without
one nothing is built, and an uninitialised buffer is sent. -/
theorem verificationresp_delivered {longBits : Nat}
    (notifId present verificationResponse : BitVec longBits) :
    Delivered (agpsCPlaneStackLcsverificationresp notifId present verificationResponse) ↔
      VerificationFits notifId present verificationResponse := by
  rw [verificationFits_iff]
  by_cases hPresent : present = 0
  · rw [hPresent]
    exact iff_of_false (verificationresp_absent notifId verificationResponse) fun h => h.1 rfl
  · obtain ⟨s, hPrinted, hRequest⟩ :=
      verificationresp_printed notifId verificationResponse hPresent
    rw [hRequest, delivered_iff (fun c hc => verificationText_ne_zero hc) hPrinted]
    exact (and_iff_right hPresent).symm

/-- An uplink command is built inside its array and complete exactly where
it fits. -/
theorem uplink_delivered_iff {longBits : Nat} :
    (∀ (otaType rrcMsgType : UInt32) (isfinal : Int32) (msg : Payload longBits),
      ((agpsCPlaneStackNetworkUlreq otaType rrcMsgType isfinal msg).isSome = true ↔
          UlreqFits otaType rrcMsgType isfinal msg) ∧
        (Delivered (agpsCPlaneStackNetworkUlreq otaType rrcMsgType isfinal msg) ↔
          UlreqFits otaType rrcMsgType isfinal msg)) ∧
      ∀ notifId present verificationResponse : BitVec longBits,
        (Delivered (agpsCPlaneStackLcsverificationresp notifId present verificationResponse) ↔
          VerificationFits notifId present verificationResponse) :=
  ⟨ulreq_delivered, verificationresp_delivered⟩

theorem length_decimal_int32 (n : Int32) : (decimal n.toInt).length ≤ 11 := by
  have hLow := n.le_toInt
  have hHigh := n.toInt_lt
  have hWrite : (write 10 n.toInt.natAbs).length ≤ 10 :=
    length_write_le (by decide) (by decide) (by omega)
  unfold decimal
  split
  · exact Nat.succ_le_succ hWrite
  · omega

/-- Where a `long` has 32 bits, every payload of at most 8164 bytes fits. -/
theorem ulreqFits_of_le {msg : Payload 32} (h : msg.data.length ≤ 8164)
    (otaType rrcMsgType : UInt32) (isfinal : Int32) :
    UlreqFits otaType rrcMsgType isfinal msg := by
  have hSigned : Int.bmod msg.data.length (2 ^ 32) = msg.data.length := by
    apply Int.bmod_eq_of_le <;> omega
  have hSize : (write 10 msg.data.length).length ≤ 4 :=
    length_write_le (by decide) (by decide) (by omega)
  have hFinal := length_decimal_int32 isfinal
  have hType := length_decimal_int32 otaType.toInt32
  have hRrc := length_decimal_int32 rrcMsgType.toInt32
  unfold UlreqFits
  rw [hSigned, decimal_natCast]
  omega

/-- Where a `long` has 32 bits, every response that is there fits. -/
theorem verificationFits_of_present {notifId present verificationResponse : BitVec 32}
    (h : present ≠ 0) : VerificationFits notifId present verificationResponse := by
  have hLength (n : BitVec 32) : (write 10 n.toNat).length ≤ 10 :=
    length_write_le (by decide) (by decide) (n.isLt.trans (by decide))
  have hResponse := hLength verificationResponse
  have hId := hLength notifId
  exact ⟨h, by omega⟩

/-- A payload of 8183 bytes leaves no room for any numbers. -/
theorem not_ulreqFits {longBits : Nat} {msg : Payload longBits} (h : 8183 ≤ msg.data.length)
    (otaType rrcMsgType : UInt32) (isfinal : Int32) :
    ¬UlreqFits otaType rrcMsgType isfinal msg := by
  unfold UlreqFits
  omega

/-- As many zeros as a payload may have. -/
def longestPayload : Payload 32 where
  data := List.replicate ciDevMaxApgsMsgSize 0
  inRange := by
    rw [List.length_replicate]
    decide

theorem length_longestPayload : longestPayload.data.length = ciDevMaxApgsMsgSize :=
  List.length_replicate

/-- The longest payload overruns its array, and a response that is not there
is sent from an array without a string. -/
theorem longestPayload_overruns :
    longestPayload.data.length ≤ ciDevMaxApgsMsgSize ∧
      agpsCPlaneStackNetworkUlreq 0 0 0 longestPayload = none ∧
      ¬Delivered (agpsCPlaneStackLcsverificationresp (0 : BitVec 32) 0 0) := by
  have hLong : 8183 ≤ longestPayload.data.length :=
    (by decide : 8183 ≤ ciDevMaxApgsMsgSize).trans length_longestPayload.ge
  have hNone := (ulreq_delivered 0 0 0 longestPayload).1.not.mpr (not_ulreqFits hLong 0 0 0)
  exact ⟨length_longestPayload.le, Option.not_isSome_iff_eq_none.mp hNone,
    verificationresp_absent 0 0⟩

end Agps
