import Gtexswifi.Agps.NetworkMessages

/-! What the handlers make of an arbitrary line. They look for missing
integers only: a missing data field is measured all the same, and a length
field is passed on as it stands. -/
namespace Agps

/-- The cursor behind `k` fields. -/
def cursorAt : Nat → Cursor → Cursor
  | 0, cur => cur
  | k + 1, cur => cursorAt k (getCurrentTok cur).2

/-- A field, counted from zero, or `none` where the line has ended before. -/
def field (line : List UInt8) (k : Nat) : Option (List UInt8) :=
  (getCurrentTok (cursorAt k (some line))).1

/-- How many bytes of a data field go into its buffer. -/
def decodedLength (tok : List UInt8) : Nat := min ciDevMaxApgsMsgSize (tok.length % 2 ^ 32 / 2)

/-- A length field of which no more is announced than its data field has. -/
def Announces (longBits : Nat) (length data : List UInt8) : Prop :=
  0 ≤ (toInt longBits length).toInt ∧ (toInt longBits length).toInt ≤ decodedLength data

instance (longBits : Nat) (length data : List UInt8) : Decidable (Announces longBits length data) :=
  inferInstanceAs (Decidable (_ ∧ _))

/-- The line ends before one of the four integers, or has the data with a
length that fits. -/
def DownlinkWellFormed (longBits : Nat) (line : List UInt8) : Prop :=
  field line 3 = none ∨ ∃ pduLen pduData, field line 3 = some pduLen ∧
    field line 4 = some pduData ∧ Announces longBits pduLen pduData

/-- The line ends before one of the first five integers. Otherwise it has
the name, and ends before one of the other two integers, or has the
requestor, and both with lengths that fit. -/
def MtlrWellFormed (longBits : Nat) (line : List UInt8) : Prop :=
  field line 4 = none ∨ ∃ clientNameLen clientName, field line 3 = some clientNameLen ∧
    field line 5 = some clientName ∧ (field line 7 = none ∨
      ∃ requestorIDLen requestorID, field line 6 = some requestorIDLen ∧
        field line 8 = some requestorID ∧ Announces longBits clientNameLen clientName ∧
        Announces longBits requestorIDLen requestorID)

/-- A negative result without a call of the hook, or calls with lengths that
fit. -/
def Outcome.Proper {Call : Type} (lengths : Call → Prop) : Outcome Call → Prop
  | .returned err [] => err < 0
  | .returned _ calls => ∀ call ∈ calls, lengths call
  | .nullToken => False

def Downlink.LengthsFit (call : Downlink) : Prop :=
  call.msgSize ≤ call.msgData.decoded ∧ call.msgSize ≤ ciDevMaxApgsMsgSize

def UserNotifyParams.LengthsFit (call : UserNotifyParams) : Prop :=
  (0 ≤ call.clientNameLen.toInt ∧ call.clientNameLen.toInt ≤ call.clientName.decoded ∧
    call.clientNameLen.toInt ≤ ciDevMaxApgsMsgSize) ∧
  (0 ≤ call.requestorIDLen.toInt ∧ call.requestorIDLen.toInt ≤ call.requestorID.decoded ∧
    call.requestorIDLen.toInt ≤ ciDevMaxApgsMsgSize)

/-- A token is missing only where the line has been used up before. -/
theorem getCurrentTok_none {cur : Cursor} (h : (getCurrentTok cur).1 = none) : cur = none := by
  cases cur with
  | none => rfl
  | some text =>
      obtain ⟨tok, rest, hTok⟩ := getCurrentTok_some text
      rw [hTok] at h
      cases h

/-- The cursor behind one more field is that behind the next token. -/
theorem cursorAt_succ (k : Nat) (cur : Cursor) :
    cursorAt (k + 1) cur = (getCurrentTok (cursorAt k cur)).2 := by
  induction k generalizing cur with
  | zero => rfl
  | succ k ih => exact ih _

/-- Behind a missing field there are no more. -/
theorem field_none_of_le {line : List UInt8} {k j : Nat} (h : field line k = none) (hLe : k ≤ j) :
    field line j = none := by
  induction j, hLe using Nat.le_induction with
  | base => exact h
  | succ j _ ih =>
      have hEnd : cursorAt j (some line) = none := getCurrentTok_none ih
      rw [field, cursorAt_succ, hEnd]
      rfl

/-- `nextint` fails where there is no token, and takes every token for an
integer otherwise. A text that is no number is not told from one. -/
theorem nextint_eq (longBits : Nat) (cur : Cursor) :
    nextint longBits cur = match (getCurrentTok cur).1 with
      | none => .error (.failed (-1))
      | some tok => .ok (toInt longBits tok, (getCurrentTok cur).2) := by
  cases cur with
  | none => rfl
  | some text =>
      obtain ⟨tok, rest, hTok⟩ := getCurrentTok_some text
      rw [nextint_some longBits hTok, hTok]

theorem length_hexBytes (sIn : List UInt8) (cbOut : Nat) :
    (hexBytes sIn cbOut).length = min cbOut (sIn.length / 2) := by
  induction sIn, cbOut using hexBytes.induct with
  | case1 chHigh chLow sIn cbOut ih =>
      rw [hexBytes, List.length_cons, ih, List.length_cons, List.length_cons]
      omega
  | case2 sIn cbOut hShort =>
      rw [hexBytes]
      · match sIn, cbOut with
        | [], _ => simp
        | [_], _ => simp
        | _ :: _ :: _, 0 => simp
        | chHigh :: chLow :: rest, cbOut + 1 => exact absurd rfl (hShort chHigh chLow rest cbOut rfl)
      · exact hShort

/-- `nexthex` fails where there is no token, and gives as many bytes as half
the token has characters otherwise. -/
theorem nexthex_eq (buffer : List UInt8) (cur : Cursor) :
    ∃ out : List UInt8 → List UInt8, nexthex buffer cur = match (getCurrentTok cur).1 with
      | none => .error .nullToken
      | some tok => .ok (⟨out tok, decodedLength tok⟩, (getCurrentTok cur).2) := by
  refine ⟨fun tok => (gsmHexToGSM tok buffer ciDevMaxApgsMsgSize).1, ?_⟩
  cases cur with
  | none => rfl
  | some text =>
      obtain ⟨tok, rest, hTok⟩ := getCurrentTok_some text
      have hDecoded : (gsmHexToGSM tok buffer ciDevMaxApgsMsgSize).2 = decodedLength tok := by
        rw [gsmHexToGSM, decodedLength]
        dsimp only
        rw [length_hexBytes, List.length_take, Nat.min_eq_left (Nat.mod_le _ _)]
      rw [nexthex_some buffer hTok, hTok, hDecoded]

/-- As an `unsigned long`, a negative length is larger than every buffer. -/
theorem toUnsignedLong_le_iff {longBits : Nat} (hLong : 32 ≤ longBits) (n : Int32) {count : Nat}
    (hCount : count ≤ ciDevMaxApgsMsgSize) :
    toUnsignedLong longBits n ≤ count ↔ 0 ≤ n.toInt ∧ n.toInt ≤ count := by
  have hPower : (2 : Int) ^ 32 ≤ 2 ^ longBits := by
    have hNat : 2 ^ 32 ≤ 2 ^ longBits := Nat.pow_le_pow_right Nat.two_pos hLong
    exact_mod_cast hNat
  have hLow := n.le_toInt
  have hHigh := n.toInt_lt
  unfold toUnsignedLong
  simp only [ciDevMaxApgsMsgSize] at hCount
  rcases Int.lt_or_le n.toInt 0 with hNegative | hPositive
  · have hMod : n.toInt % 2 ^ longBits = n.toInt + 2 ^ longBits := by
      rw [← Int.add_emod_right, Int.emod_eq_of_lt (by omega) (by omega)]
    rw [hMod]
    omega
  · rw [Int.emod_eq_of_lt hPositive (by omega)]
    omega

section Reading

variable {Call : Type} {lengths : Call → Prop} {P : Prop} {line : List UInt8} {k : Nat}

/-- An integer is looked for: the handler returns at once if it is missing,
and goes on. -/
theorem proper_nextint (longBits : Nat) {next : Int32 × Cursor → Except Stop (Int × List Call)}
    (hMissing : field line k = none → P)
    (hNext : ∀ tok, field line k = some tok →
      ((handled (next (toInt longBits tok, cursorAt (k + 1) (some line)))).Proper lengths ↔ P)) :
    (handled (nextint longBits (cursorAt k (some line)) >>= next)).Proper lengths ↔ P := by
  rw [nextint_eq]
  change (handled ((match field line k with
    | none => .error (.failed (-1))
    | some tok => .ok (toInt longBits tok, (getCurrentTok (cursorAt k (some line))).2)) >>=
      next)).Proper lengths ↔ P
  cases hField : field line k with
  | none =>
      refine iff_of_true ?_ (hMissing hField)
      change (-1 : Int) < 0
      decide
  | some tok =>
      rw [← cursorAt_succ]
      exact hNext tok hField

/-- A data field is measured, whether it is there or not. -/
theorem proper_nexthex (buffer : List UInt8)
    {next : HexField × Cursor → Except Stop (Int × List Call)}
    (hMissing : field line k = none → ¬P)
    (hNext : ∀ tok out, field line k = some tok →
      ((handled (next (⟨out, decodedLength tok⟩, cursorAt (k + 1) (some line)))).Proper lengths ↔
        P)) :
    (handled (nexthex buffer (cursorAt k (some line)) >>= next)).Proper lengths ↔ P := by
  obtain ⟨out, hRead⟩ := nexthex_eq buffer (cursorAt k (some line))
  rw [hRead]
  change (handled ((match field line k with
    | none => .error .nullToken
    | some tok => .ok (⟨out tok, decodedLength tok⟩, (getCurrentTok (cursorAt k (some line))).2)) >>=
      next)).Proper lengths ↔ P
  cases hField : field line k with
  | none => exact iff_of_false id (hMissing hField)
  | some tok =>
      rw [← cursorAt_succ]
      exact hNext tok (out tok) hField

end Reading

/-- The number of decoded bytes fits the field of the message, whatever the
token is. -/
theorem decodedLength_le (tok : List UInt8) : decodedLength tok ≤ ciDevMaxApgsMsgSize :=
  Nat.min_le_left _ _

/-- The handler of +SPAGPSDL gives a message whose lengths fit, or an error,
exactly on the lines that are well formed. -/
theorem downlink_proper_iff {longBits : Nat} (hLong : 32 ≤ longBits) (cppayloadCb : Downlink → Nat)
    (pduData line : List UInt8) :
    (handleReportDownlinkData longBits cppayloadCb pduData (spagpsdl ++ line)).Proper
        Downlink.LengthsFit ↔ DownlinkWellFormed longBits line := by
  have hEarly {k : Nat} (hk : k ≤ 3) (h : field line k = none) :
      DownlinkWellFormed longBits line := Or.inl (field_none_of_le h hk)
  rw [handleReportDownlinkData, tokStart_spagpsdl]
  change (handled (nextint longBits (cursorAt 0 (some line)) >>= _)).Proper _ ↔ _
  apply proper_nextint longBits (hEarly (by decide))
  intro type _
  apply proper_nextint longBits (hEarly (by decide))
  intro rrcState _
  apply proper_nextint longBits (hEarly (by decide))
  intro sessionPriority _
  apply proper_nextint longBits (hEarly (Nat.le_refl 3))
  intro pduLen hLen
  apply proper_nexthex pduData
  · intro hMissing hFormed
    rcases hFormed with hShort | ⟨_, data, _, hData, _⟩
    · cases hShort.symm.trans hLen
    · cases hMissing.symm.trans hData
  · intro data out hData
    have hFits := toUnsignedLong_le_iff hLong (toInt longBits pduLen) (decodedLength_le data)
    have hMax := decodedLength_le data
    constructor
    · intro hProper
      have hCall := (hProper _ List.mem_cons_self).1
      exact Or.inr ⟨pduLen, data, hLen, hData, hFits.mp hCall⟩
    · intro hFormed call hMem
      obtain rfl := List.mem_singleton.mp hMem
      rcases hFormed with hShort | ⟨pduLen', data', hLen', hData', hAnnounces⟩
      · cases hShort.symm.trans hLen
      · obtain rfl := Option.some.inj (hLen'.symm.trans hLen)
        obtain rfl := Option.some.inj (hData'.symm.trans hData)
        have hLe := hFits.mpr hAnnounces
        exact ⟨hLe, hLe.trans hMax⟩

/-- The handler of +SPAGPSMTLR gives a notification whose lengths fit, or an
error, exactly on the lines that are well formed. -/
theorem mtlr_proper_iff (longBits : Nat) (mtlrNotifyCb : UserNotifyParams → Nat)
    (requestorID clientName line : List UInt8) :
    (handleNotifyMTLR longBits mtlrNotifyCb requestorID clientName (spagpsmtlr ++ line)).Proper
        UserNotifyParams.LengthsFit ↔ MtlrWellFormed longBits line := by
  have hEarly {k : Nat} (hk : k ≤ 4) (h : field line k = none) :
      MtlrWellFormed longBits line := Or.inl (field_none_of_le h hk)
  rw [handleNotifyMTLR, tokStart_spagpsmtlr]
  change (handled (nextint longBits (cursorAt 0 (some line)) >>= _)).Proper _ ↔ _
  apply proper_nextint longBits (hEarly (by decide))
  intro handleId _
  apply proper_nextint longBits (hEarly (by decide))
  intro niType _
  apply proper_nextint longBits (hEarly (by decide))
  intro notifyType _
  apply proper_nextint longBits (hEarly (by decide))
  intro nameLen hNameLen
  apply proper_nextint longBits (hEarly (Nat.le_refl 4))
  intro nameDcs hNameDcs
  apply proper_nexthex clientName
  · intro hMissing hFormed
    rcases hFormed with hShort | ⟨_, name, _, hName, _⟩
    · cases hShort.symm.trans hNameDcs
    · cases hMissing.symm.trans hName
  intro name nameOut hName
  have hLate {k : Nat} (hk : k ≤ 7) (h : field line k = none) : MtlrWellFormed longBits line :=
    Or.inr ⟨nameLen, name, hNameLen, hName, Or.inl (field_none_of_le h hk)⟩
  apply proper_nextint longBits (hLate (by decide))
  intro idLen hIDLen
  apply proper_nextint longBits (hLate (Nat.le_refl 7))
  intro idDcs hIDDcs
  apply proper_nexthex requestorID
  · intro hMissing hFormed
    rcases hFormed with hShort | ⟨_, _, _, _, hShort | ⟨_, id, _, hID, _⟩⟩
    · cases hShort.symm.trans hNameDcs
    · cases hShort.symm.trans hIDDcs
    · cases hMissing.symm.trans hID
  · intro id idOut hID
    have hNameMax := decodedLength_le name
    have hIDMax := decodedLength_le id
    constructor
    · intro hProper
      obtain ⟨⟨hNameLow, hNameHigh, _⟩, hIDLow, hIDHigh, _⟩ := hProper _ List.mem_cons_self
      exact Or.inr ⟨nameLen, name, hNameLen, hName, Or.inr ⟨idLen, id, hIDLen, hID,
        ⟨hNameLow, hNameHigh⟩, ⟨hIDLow, hIDHigh⟩⟩⟩
    · intro hFormed call hMem
      obtain rfl := List.mem_singleton.mp hMem
      rcases hFormed with hShort | ⟨nameLen', name', hNameLen', hName', hRest⟩
      · cases hShort.symm.trans hNameDcs
      · obtain rfl := Option.some.inj (hNameLen'.symm.trans hNameLen)
        obtain rfl := Option.some.inj (hName'.symm.trans hName)
        rcases hRest with hShort | ⟨idLen', id', hIDLen', hID', hNameFits, hIDFits⟩
        · cases hShort.symm.trans hIDDcs
        · obtain rfl := Option.some.inj (hIDLen'.symm.trans hIDLen)
          obtain rfl := Option.some.inj (hID'.symm.trans hID)
          obtain ⟨hNameLow, hNameHigh⟩ := hNameFits
          obtain ⟨hIDLow, hIDHigh⟩ := hIDFits
          refine ⟨⟨hNameLow, hNameHigh, ?_⟩, hIDLow, hIDHigh, ?_⟩
          · dsimp only
            omega
          · dsimp only
            omega

/-- A line is rejected, or handed on with lengths that fit, exactly when it
is well formed. -/
theorem malformed_iff {longBits : Nat} (hLong : 32 ≤ longBits) :
    (∀ (cppayloadCb : Downlink → Nat) (pduData line : List UInt8),
      (handleReportDownlinkData longBits cppayloadCb pduData (spagpsdl ++ line)).Proper
        Downlink.LengthsFit ↔ DownlinkWellFormed longBits line) ∧
    (∀ (mtlrNotifyCb : UserNotifyParams → Nat) (requestorID clientName line : List UInt8),
      (handleNotifyMTLR longBits mtlrNotifyCb requestorID clientName (spagpsmtlr ++ line)).Proper
        UserNotifyParams.LengthsFit ↔ MtlrWellFormed longBits line) :=
  ⟨downlink_proper_iff hLong, mtlr_proper_iff longBits⟩

/-- `+SPAGPSDL:1,2,3,1,"00"` announces the byte that it has. -/
theorem malformed_iff_exactLine :
    (handleReportDownlinkData 32 (fun _ => 1) [] (spagpsdl ++
      [0x31, 0x2c, 0x32, 0x2c, 0x33, 0x2c, 0x31, 0x2c, 0x22, 0x30, 0x30, 0x22])).Proper
        Downlink.LengthsFit := by
  apply ((malformed_iff (Nat.le_refl 32)).1 (fun _ => 1) [] _).mpr
  exact Or.inr ⟨[0x31], [0x30, 0x30], by decide, by decide, by decide⟩

/-- `+SPAGPSDL:1,2,3,9,"00"` announces nine bytes of data for the one that
it has. -/
def overlongLine : List UInt8 :=
  [0x31, 0x2c, 0x32, 0x2c, 0x33, 0x2c, 0x39, 0x2c, 0x22, 0x30, 0x30, 0x22]

/-- `+SPAGPSDL:1,2,3,9` ends before the data. -/
def shortLine : List UInt8 := [0x31, 0x2c, 0x32, 0x2c, 0x33, 0x2c, 0x39]

/-- The overlong line is handed on as it is, and in the short one a `NULL`
token is measured. -/
theorem malformed_accepted :
    ¬(handleReportDownlinkData 32 (fun _ => 1) [] (spagpsdl ++ overlongLine)).Proper
        Downlink.LengthsFit ∧
      ¬(handleReportDownlinkData 32 (fun _ => 1) [] (spagpsdl ++ shortLine)).Proper
        Downlink.LengthsFit := by
  constructor
  · have hRun : handleReportDownlinkData 32 (fun _ => 1) [] (spagpsdl ++ overlongLine) =
        .returned 0 [⟨1, 2, 3, ⟨[0], 1⟩, 9⟩] := by decide +kernel
    rw [hRun]
    intro hProper
    exact absurd (hProper _ List.mem_cons_self).1 (by decide)
  · have hRun : handleReportDownlinkData 32 (fun _ => 1) [] (spagpsdl ++ shortLine) =
        .nullToken := by decide +kernel
    rw [hRun]
    exact id

end Agps
