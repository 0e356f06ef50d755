import Gtexswifi.Agps.NetworkMessages
import Mathlib.Data.List.TakeWhile

/-! A message that is written out as a line is handed to its hook as it was. -/
namespace Agps

open Numerals

/-- A data field, in quotes or without. -/
def dataField (quoted : Bool) (payload : List UInt8) : List UInt8 :=
  if quoted = true then 0x22 :: (hexText payload ++ [0x22]) else hexText payload

/-- `+SPAGPSDL: type,rrc_state,session_priority,pdu_len,"pdu_data"` -/
def downlinkLine (type rrcState sessionPriority pduLen : Int32) (pdu : List UInt8) : List UInt8 :=
  spagpsdl ++ 0x20 :: (decimal type.toInt ++ 0x2c :: (decimal rrcState.toInt ++
    0x2c :: (decimal sessionPriority.toInt ++ 0x2c :: (decimal pduLen.toInt ++
      0x2c :: dataField true pdu))))

/-- The seven integers of a `+SPAGPSMTLR` line. -/
structure MtlrIntegers where
  handleId : Int32
  niType : Int32
  notifyType : Int32
  clientNameLen : Int32
  clientNameDcs : Int32
  requestorIDLen : Int32
  requestorIDDcs : Int32

/-- `+SPAGPSMTLR:
handle_id,ni_type,notify_type,clientName_len,clientName_dcs,clientName,`
`requestorID_len,requestorID_dcs,requestorID` -/
def mtlrLine (n : MtlrIntegers) (quotedName quotedID : Bool) (clientName requestorID : List UInt8) :
    List UInt8 :=
  spagpsmtlr ++ 0x20 :: (decimal n.handleId.toInt ++ 0x2c :: (decimal n.niType.toInt ++
    0x2c :: (decimal n.notifyType.toInt ++ 0x2c :: (decimal n.clientNameLen.toInt ++
      0x2c :: (decimal n.clientNameDcs.toInt ++ 0x2c :: (dataField quotedName clientName ++
        0x2c :: (decimal n.requestorIDLen.toInt ++ 0x2c :: (decimal n.requestorIDDcs.toInt ++
          0x2c :: dataField quotedID requestorID))))))))

/-- A character of a number or of a hexadecimal text. -/
def Plain (c : UInt8) : Prop := c = 0x2d ∨ ∃ d < 16, c = digit d

theorem Plain.isSpace_eq {c : UInt8} (h : Plain c) : isSpace c = false := by
  rcases h with rfl | ⟨d, hd, rfl⟩
  · decide
  · exact isSpace_eq_false (by rw [digitValue_digit (by omega)]; omega)

/-- A character that is no digit of any base, and not the sign, does not
occur among the plain ones. -/
theorem Plain.ne {c d : UInt8} (h : Plain c) (hd : 36 ≤ digitValue d) (hMinus : d ≠ 0x2d) :
    c ≠ d := by
  rcases h with rfl | ⟨value, hValue, rfl⟩
  · exact hMinus.symm
  · exact digit_ne (by omega) hd

theorem decimal_plain {n : Int} {c : UInt8} (h : c ∈ decimal n) : Plain c := by
  have hWrite {c : UInt8} (h : c ∈ write 10 n.natAbs) : Plain c := by
    obtain ⟨d, hd, rfl⟩ := exists_digit (by decide) h
    exact Or.inr ⟨d, by omega, rfl⟩
  unfold decimal at h
  split at h
  · rcases List.mem_cons.mp h with hMinus | hDigit
    · exact Or.inl hMinus
    · exact hWrite hDigit
  · exact hWrite h

theorem hexText_plain {payload : List UInt8} {c : UInt8} (h : c ∈ hexText payload) : Plain c := by
  obtain ⟨b, -, hPair⟩ := List.mem_flatMap.mp h
  have hLt : b.toNat < 256 := b.toNat_lt
  rcases List.mem_cons.mp hPair with hHigh | hLow
  · exact Or.inr ⟨b.toNat / 16, by omega, hHigh⟩
  · exact Or.inr ⟨b.toNat % 16, by omega, List.mem_singleton.mp hLow⟩

/-- A token in front of its delimiter is cut off, and the cursor goes behind
the delimiter. -/
theorem strsep_delim {tok : List UInt8} {delim : UInt8} (h : ∀ c ∈ tok, c ≠ delim)
    (rest : List UInt8) : strsep (some (tok ++ delim :: rest)) delim = (some tok, some rest) := by
  have hAll : ∀ c ∈ tok, decide (c ≠ delim) = true := fun c hc => decide_eq_true (h c hc)
  unfold strsep
  dsimp only
  rw [List.takeWhile_append_of_pos hAll, List.dropWhile_append_of_pos hAll]
  simp

/-- The last token has no delimiter. The cursor is a null pointer behind it. -/
theorem strsep_end {tok : List UInt8} {delim : UInt8} (h : ∀ c ∈ tok, c ≠ delim) :
    strsep (some tok) delim = (some tok, none) := by
  unfold strsep
  dsimp only
  rw [if_neg fun hMem => h delim hMem rfl,
    List.takeWhile_eq_self_iff.mpr fun c hc => decide_eq_true (h c hc)]

/-- What `strsep` makes of a text behind its token. -/
def behind (rest : Cursor) (tok : List UInt8) : List UInt8 :=
  match rest with
  | none => tok
  | some text => tok ++ 0x2c :: text

/-- A token of plain characters is cut off as it is, whether further fields
follow or not. -/
theorem strsep_behind {tok : List UInt8} (h : ∀ c ∈ tok, Plain c) (rest : Cursor) :
    strsep (some (behind rest tok)) 0x2c = (some tok, rest) := by
  have hComma : ∀ c ∈ tok, c ≠ 0x2c := fun c hc => (h c hc).ne (by decide) (by decide)
  cases rest with
  | none => exact strsep_end hComma
  | some text => exact strsep_delim hComma text

/-- A field without quotes starts with no character that the tokenizer looks
for. -/
theorem head_behind {tok : List UInt8} (hTok : ∀ c ∈ tok, Plain c) (rest : Cursor) :
    ∀ c ∈ (behind rest tok).head?, isSpace c = false ∧ c ≠ 0x22 ∧ c ≠ 0x0a := by
  intro c hc
  cases tok with
  | nil =>
      cases rest with
      | none => cases hc
      | some text =>
          obtain rfl := Option.some.inj hc
          decide
  | cons d tok =>
      have hHead : (behind rest (d :: tok)).head? = some d := by cases rest <;> rfl
      rw [hHead] at hc
      obtain rfl := Option.some.inj hc
      have hPlain := hTok d List.mem_cons_self
      exact ⟨hPlain.isSpace_eq, hPlain.ne (by decide) (by decide),
        hPlain.ne (by decide) (by decide)⟩

/-- A text that begins otherwise does not begin with the character. -/
theorem strStartsWith_of_ne {text : List UInt8} {d : UInt8} (h : ∀ c ∈ text.head?, c ≠ d) :
    strStartsWith text [d] = false := by
  cases text with
  | nil => rfl
  | cons c text => exact if_pos (h c rfl)

/-- A field without quotes, behind blanks. -/
theorem getCurrentTok_plain {spaces tok : List UInt8} (hSpaces : ∀ c ∈ spaces, isSpace c = true)
    (hTok : ∀ c ∈ tok, Plain c) (rest : Cursor) :
    getCurrentTok (some (spaces ++ behind rest tok)) = (some tok, rest) := by
  have hHead := head_behind hTok rest
  have hDrop : (spaces ++ behind rest tok).dropWhile isSpace = behind rest tok := by
    rw [List.dropWhile_append_of_pos hSpaces]
    cases hText : behind rest tok with
    | nil => rfl
    | cons c text =>
        rw [hText] at hHead
        exact List.dropWhile_cons_of_neg (by rw [(hHead c rfl).1]; decide)
  have hQuote : strStartsWith (behind rest tok) [0x22] = false :=
    strStartsWith_of_ne fun c hc => (hHead c hc).2.1
  have hLine : strStartsWith (behind rest tok) [0x0a] = false :=
    strStartsWith_of_ne fun c hc => (hHead c hc).2.2
  unfold getCurrentTok
  rw [Option.map_some, hDrop]
  dsimp only
  rw [hQuote, hLine, if_neg Bool.false_ne_true, if_neg Bool.false_ne_true, strsep_behind hTok]

/-- A field in quotes. -/
theorem getCurrentTok_quoted {tok : List UInt8} (hTok : ∀ c ∈ tok, Plain c) (rest : Cursor) :
    getCurrentTok (some (behind rest (0x22 :: (tok ++ [0x22])))) = (some tok, rest) := by
  have hQuote : ∀ c ∈ tok, c ≠ 0x22 := fun c hc => (hTok c hc).ne (by decide) (by decide)
  have hText : behind rest (0x22 :: (tok ++ [0x22])) =
      0x22 :: (tok ++ 0x22 :: behind rest []) := by
    cases rest <;> simp [behind]
  have hNone : ∀ c ∈ ([] : List UInt8), Plain c := fun c hc => absurd hc List.not_mem_nil
  have hRest : strsep (some (behind rest [])) 0x2c = (some [], rest) := strsep_behind hNone rest
  have hDrop : (0x22 :: (tok ++ 0x22 :: behind rest [])).dropWhile isSpace =
      0x22 :: (tok ++ 0x22 :: behind rest []) := List.dropWhile_cons_of_neg (by decide)
  have hStart : strStartsWith (0x22 :: (tok ++ 0x22 :: behind rest [])) [0x22] = true := by
    rw [strStartsWith, if_neg (by decide)]
    cases tok <;> rfl
  unfold getCurrentTok
  rw [hText, Option.map_some, hDrop]
  dsimp only
  rw [if_pos hStart, List.drop_one, List.tail_cons, strsep_delim hQuote]
  dsimp only
  rw [hRest]

/-- What `%d` has written is read back as the same 32-bit number, with any
number of spaces in front. -/
theorem nextint_decimal {longBits : Nat} (hLong : 32 ≤ longBits) {spaces : List UInt8}
    (hSpaces : ∀ c ∈ spaces, isSpace c = true) (n : Int32) (rest : List UInt8) :
    nextint longBits (some (spaces ++ (decimal n.toInt ++ 0x2c :: rest))) = .ok (n, some rest) := by
  have hTok := getCurrentTok_plain hSpaces (fun c hc => decimal_plain (n := n.toInt) hc) (some rest)
  have hPower : (2 : Int) ^ 31 ≤ 2 ^ (longBits - 1) := by
    have hNat : 2 ^ 31 ≤ 2 ^ (longBits - 1) := Nat.pow_le_pow_right Nat.two_pos (by omega)
    exact_mod_cast hNat
  have hInt : toInt longBits (decimal n.toInt) = n := by
    have hLow := n.le_toInt
    have hHigh := n.toInt_lt
    rw [toInt, strtol_decimal (by omega) (by omega), Int32.ofInt_toInt]
  change getCurrentTok (some (spaces ++ (decimal n.toInt ++ 0x2c :: rest))) = _ at hTok
  rw [nextint_some longBits hTok, hInt]

/-- What a data field leaves in its buffer. -/
def decodedField (payload buffer : List UInt8) : HexField where
  buffer := payload.take ciDevMaxApgsMsgSize ++
    buffer.drop (payload.take ciDevMaxApgsMsgSize).length
  decoded := (payload.take ciDevMaxApgsMsgSize).length

/-- What has been written in hexadecimal is read back, with or without
quotes around it. Bytes beyond the field are dropped, and those of an older
payload stay behind a shorter one. -/
theorem nexthex_dataField (quoted : Bool) {payload : List UInt8}
    (hLength : 2 * payload.length < 2 ^ 32) (buffer : List UInt8) (rest : Cursor) :
    nexthex buffer (some (behind rest (dataField quoted payload))) =
      .ok (decodedField payload buffer, rest) := by
  have hTok : getCurrentTok (some (behind rest (dataField quoted payload))) =
      (some (hexText payload), rest) := by
    cases quoted with
    | true => exact getCurrentTok_quoted (fun c hc => hexText_plain hc) rest
    | false =>
        have hNone : ∀ c ∈ ([] : List UInt8), isSpace c = true :=
          fun c hc => absurd hc List.not_mem_nil
        exact getCurrentTok_plain hNone (fun c hc => hexText_plain hc) rest
  rw [nexthex_some buffer hTok, gsmHexToGSM_hexText hLength]
  rfl

/-- A +SPAGPSDL line comes out of the handler with its own integers and its
payload, field by field. -/
theorem handleReportDownlinkData_line {longBits : Nat} (hLong : 32 ≤ longBits)
    (cppayloadCb : Downlink → Nat) (pduData : List UInt8)
    (type rrcState sessionPriority pduLen : Int32) {pdu : List UInt8}
    (hLength : 2 * pdu.length < 2 ^ 32) :
    handleReportDownlinkData longBits cppayloadCb pduData
        (downlinkLine type rrcState sessionPriority pduLen pdu) =
      .returned
        (if cppayloadCb ⟨type.toUInt32, rrcState.toUInt32, sessionPriority.toUInt32,
          decodedField pdu pduData, toUnsignedLong longBits pduLen⟩ = 0 then -1 else 0)
        [⟨type.toUInt32, rrcState.toUInt32, sessionPriority.toUInt32,
          decodedField pdu pduData, toUnsignedLong longBits pduLen⟩] := by
  have hBlank : ∀ c ∈ [(0x20 : UInt8)], isSpace c = true :=
    List.forall_mem_singleton.mpr rfl
  have hNone : ∀ c ∈ ([] : List UInt8), isSpace c = true := fun c hc => absurd hc List.not_mem_nil
  have hType := nextint_decimal hLong hBlank type
  have hNext := nextint_decimal hLong hNone
  have hData := nexthex_dataField true hLength pduData none
  unfold handleReportDownlinkData downlinkLine
  rw [tokStart_spagpsdl]
  simp only [List.singleton_append, List.nil_append, behind, bind, Except.bind] at hType hNext hData ⊢
  simp only [hType, hNext, hData]
  rfl

/-- A +SPAGPSMTLR line comes out of the handler with its own integers, the
name and the identifier, each in the buffer that belongs to it. -/
theorem handleNotifyMTLR_line {longBits : Nat} (hLong : 32 ≤ longBits)
    (mtlrNotifyCb : UserNotifyParams → Nat) (bufferID bufferName : List UInt8) (n : MtlrIntegers)
    (quotedName quotedID : Bool) {clientName requestorID : List UInt8}
    (hName : 2 * clientName.length < 2 ^ 32) (hID : 2 * requestorID.length < 2 ^ 32) :
    handleNotifyMTLR longBits mtlrNotifyCb bufferID bufferName
        (mtlrLine n quotedName quotedID clientName requestorID) =
      .returned
        (if mtlrNotifyCb ⟨n.handleId, n.niType, n.notifyType, n.requestorIDLen, n.requestorIDDcs,
          decodedField requestorID bufferID, n.clientNameLen, n.clientNameDcs,
          decodedField clientName bufferName⟩ = 0 then -1 else 0)
        [⟨n.handleId, n.niType, n.notifyType, n.requestorIDLen, n.requestorIDDcs,
          decodedField requestorID bufferID, n.clientNameLen, n.clientNameDcs,
          decodedField clientName bufferName⟩] := by
  have hBlank : ∀ c ∈ [(0x20 : UInt8)], isSpace c = true :=
    List.forall_mem_singleton.mpr rfl
  have hNone : ∀ c ∈ ([] : List UInt8), isSpace c = true := fun c hc => absurd hc List.not_mem_nil
  have hFirst := nextint_decimal hLong hBlank n.handleId
  have hNext := nextint_decimal hLong hNone
  have hNameField (rest : List UInt8) := nexthex_dataField quotedName hName bufferName (some rest)
  have hIDField := nexthex_dataField quotedID hID bufferID none
  unfold handleNotifyMTLR mtlrLine
  rw [tokStart_spagpsmtlr]
  simp only [List.singleton_append, List.nil_append] at hFirst hNext
  simp only [behind, bind, Except.bind] at hNameField hIDField ⊢
  simp only [hFirst, hNext, hNameField, hIDField]
  rfl

/-- A payload that fits into the buffer is all that is decoded, from its
start on. -/
theorem take_decodedField {payload : List UInt8} (h : payload.length ≤ ciDevMaxApgsMsgSize)
    (buffer : List UInt8) :
    (decodedField payload buffer).buffer.take payload.length = payload := by
  unfold decodedField
  rw [List.take_of_length_le h, List.take_left]

/-- The messages that carry payloads reach their hooks once, with their
integers and payloads, whatever their length fields say. -/
theorem messages_roundTrip {longBits : Nat} (hLong : 32 ≤ longBits) :
    (∀ (cppayloadCb : Downlink → Nat) (pduData : List UInt8)
      (type rrcState sessionPriority pduLen : Int32) (pdu : List UInt8),
      pdu.length ≤ ciDevMaxApgsMsgSize →
      ∃ (err : Int) (data : HexField),
        handleReportDownlinkData longBits cppayloadCb pduData
            (downlinkLine type rrcState sessionPriority pduLen pdu) =
          .returned err [⟨type.toUInt32, rrcState.toUInt32, sessionPriority.toUInt32, data,
            toUnsignedLong longBits pduLen⟩] ∧
        data.buffer.take pdu.length = pdu) ∧
    (∀ (mtlrNotifyCb : UserNotifyParams → Nat) (bufferID bufferName : List UInt8)
      (n : MtlrIntegers) (quotedName quotedID : Bool) (clientName requestorID : List UInt8),
      2 * clientName.length < 2 ^ 32 → 2 * requestorID.length < 2 ^ 32 →
      ∃ (err : Int) (name id : HexField),
        handleNotifyMTLR longBits mtlrNotifyCb bufferID bufferName
            (mtlrLine n quotedName quotedID clientName requestorID) =
          .returned err [⟨n.handleId, n.niType, n.notifyType, n.requestorIDLen, n.requestorIDDcs,
            id, n.clientNameLen, n.clientNameDcs, name⟩] ∧
        name.buffer.take name.decoded = clientName.take ciDevMaxApgsMsgSize ∧
        id.buffer.take id.decoded = requestorID.take ciDevMaxApgsMsgSize) := by
  constructor
  · intro cppayloadCb pduData type rrcState sessionPriority pduLen pdu hPdu
    have hLength : 2 * pdu.length < 2 ^ 32 := by
      simp only [ciDevMaxApgsMsgSize] at hPdu
      omega
    have hRun := handleReportDownlinkData_line hLong cppayloadCb pduData type rrcState
      sessionPriority pduLen hLength
    exact ⟨_, decodedField pdu pduData, hRun, take_decodedField hPdu pduData⟩
  · intro mtlrNotifyCb bufferID bufferName n quotedName quotedID clientName requestorID hName hID
    have hRun := handleNotifyMTLR_line hLong mtlrNotifyCb bufferID bufferName n quotedName
      quotedID hName hID
    exact ⟨_, decodedField clientName bufferName, decodedField requestorID bufferID, hRun,
      List.take_left, List.take_left⟩

/-- A downlink message of two bytes, and a notification with a name and no
requestor. -/
theorem messages_roundTrip_short :
    (∃ (err : Int) (data : HexField),
      handleReportDownlinkData 32 (fun _ => 1) [] (downlinkLine 1 (-2) 3 2 [0xde, 0xad]) =
        .returned err [⟨1, (-2 : Int32).toUInt32, 3, data, toUnsignedLong 32 2⟩] ∧
      data.buffer.take 2 = [0xde, 0xad]) ∧
    ∃ (err : Int) (name id : HexField),
      handleNotifyMTLR 32 (fun _ => 1) [] [] (mtlrLine ⟨1, 2, 3, 1, 15, 0, 15⟩ true false [0x41] []) =
        .returned err [⟨1, 2, 3, 0, 15, id, 1, 15, name⟩] ∧
      name.buffer.take name.decoded = [0x41] ∧ id.buffer.take id.decoded = [] := by
  constructor
  · exact (messages_roundTrip (Nat.le_refl 32)).1 (fun _ => 1) [] 1 (-2) 3 2 [0xde, 0xad]
      (by decide)
  · exact (messages_roundTrip (Nat.le_refl 32)).2 (fun _ => 1) [] [] ⟨1, 2, 3, 1, 15, 0, 15⟩ true
      false [0x41] [] (by decide) (by decide)

end Agps
