import Gtexswifi.Agps.Parser

/-! The handlers of the messages that carry payloads from the network,
`+SPAGPSDL` and `+SPAGPSMTLR`. A handler reads its fields one after the
other and calls its hook. -/
namespace Agps

/-- `CI_DEV_MAX_APGS_MSG_SIZE`. -/
def ciDevMaxApgsMsgSize : Nat := 8192

/-- What keeps a handler from its hook: a negative result, or a `NULL` token
that is measured. -/
inductive Stop
  | failed (err : Int)
  | nullToken
  deriving DecidableEq, Repr

/-- How a handler ends: it returns, with the calls of its hook, or measures
a `NULL` token. -/
inductive Outcome (Call : Type)
  | returned (err : Int) (calls : List Call)
  | nullToken
  deriving DecidableEq

/-- A handler goes to its end label with the result it has, before the hook
is called. -/
def handled {Call : Type} : Except Stop (Int × List Call) → Outcome Call
  | .ok (err, calls) => .returned err calls
  | .error (.failed err) => .returned err []
  | .error .nullToken => .nullToken

def tokStart (pData : List UInt8) : Except Stop Cursor :=
  match atTokStart pData with
  | some line => .ok (some line)
  | none => .error (.failed (-1))

def nextint (longBits : Nat) (line : Cursor) : Except Stop (Int32 × Cursor) :=
  match parseNextint longBits line with
  | .ok read => .ok read
  | .error err => .error (.failed err)

/-- A data field: `strlen` of its token, and the conversion into a buffer. -/
structure HexField where
  buffer : List UInt8
  decoded : Nat
  deriving DecidableEq

def nexthex (buffer : List UInt8) (line : Cursor) : Except Stop (HexField × Cursor) :=
  match parseNextstr line with
  | (none, _) => .error .nullToken
  | (some tmpData, line) =>
      let (buffer, decoded) := gsmHexToGSM tmpData buffer ciDevMaxApgsMsgSize
      .ok (⟨buffer, decoded⟩, line)

/-- A call of `cppayload_cb`, whose data are the buffer of a data field. -/
structure Downlink where
  otaType : UInt32
  rrcState : UInt32
  sessionPriority : UInt32
  msgData : HexField
  msgSize : Nat
  deriving DecidableEq

/-- `(unsigned long int)` of an `int`. -/
def toUnsignedLong (longBits : Nat) (n : Int32) : Nat := (n.toInt % 2 ^ longBits).toNat

def handleReportDownlinkData (longBits : Nat) (cppayloadCb : Downlink → Nat)
    (pduData pData : List UInt8) : Outcome Downlink :=
  handled do
    let line ← tokStart pData
    let (type, line) ← nextint longBits line
    let (rrcState, line) ← nextint longBits line
    let (sessionPriority, line) ← nextint longBits line
    let (pduLen, line) ← nextint longBits line
    let (pdu, _) ← nexthex pduData line
    let call : Downlink := ⟨type.toUInt32, rrcState.toUInt32, sessionPriority.toUInt32, pdu,
      toUnsignedLong longBits pduLen⟩
    return (if cppayloadCb call = 0 then -1 else 0, [call])

/-- `agps_user_notify_params_t`. -/
structure UserNotifyParams where
  handleId : Int32
  niType : Int32
  notifyType : Int32
  requestorIDLen : Int32
  requestorIDDcs : Int32
  requestorID : HexField
  clientNameLen : Int32
  clientNameDcs : Int32
  clientName : HexField
  deriving DecidableEq

def handleNotifyMTLR (longBits : Nat) (mtlrNotifyCb : UserNotifyParams → Nat)
    (requestorID clientName pData : List UInt8) : Outcome UserNotifyParams :=
  handled do
    let line ← tokStart pData
    let (handleId, line) ← nextint longBits line
    let (niType, line) ← nextint longBits line
    let (notifyType, line) ← nextint longBits line
    let (clientNameLen, line) ← nextint longBits line
    let (clientNameDcs, line) ← nextint longBits line
    let (clientName, line) ← nexthex clientName line
    let (requestorIDLen, line) ← nextint longBits line
    let (requestorIDDcs, line) ← nextint longBits line
    let (requestorID, _) ← nexthex requestorID line
    let call : UserNotifyParams := ⟨handleId, niType, notifyType, requestorIDLen, requestorIDDcs,
      requestorID, clientNameLen, clientNameDcs, clientName⟩
    return (if mtlrNotifyCb call = 0 then -1 else 0, [call])

/-- `+SPAGPSDL:` -/
def spagpsdl : List UInt8 := [0x2b, 0x53, 0x50, 0x41, 0x47, 0x50, 0x53, 0x44, 0x4c, 0x3a]

/-- `+SPAGPSMTLR:` -/
def spagpsmtlr : List UInt8 :=
  [0x2b, 0x53, 0x50, 0x41, 0x47, 0x50, 0x53, 0x4d, 0x54, 0x4c, 0x52, 0x3a]

theorem tokStart_spagpsdl (rest : List UInt8) : tokStart (spagpsdl ++ rest) = .ok (some rest) := rfl

theorem tokStart_spagpsmtlr (rest : List UInt8) :
    tokStart (spagpsmtlr ++ rest) = .ok (some rest) := rfl

/-- A token of a text is never `NULL`. -/
theorem getCurrentTok_some (text : List UInt8) :
    ∃ tok cur, getCurrentTok (some text) = (some tok, cur) := by
  unfold getCurrentTok
  dsimp only [Option.map_some]
  split
  · exact ⟨_, _, rfl⟩
  · split
    · exact ⟨_, _, rfl⟩
    · exact ⟨_, _, rfl⟩

/-- A token that is there is converted by `strtol`, and the cursor is that
behind the token. -/
theorem nextint_some (longBits : Nat) {text tok : List UInt8} {cur : Cursor}
    (h : getCurrentTok (some text) = (some tok, cur)) :
    nextint longBits (some text) = .ok (toInt longBits tok, cur) := by
  unfold nextint parseNextint
  dsimp only
  rw [h]

/-- A token that is there is decoded into the buffer, as far as the field
has room. -/
theorem nexthex_some (buffer : List UInt8) {text tok : List UInt8} {cur : Cursor}
    (h : getCurrentTok (some text) = (some tok, cur)) :
    nexthex buffer (some text) =
      .ok (⟨(gsmHexToGSM tok buffer ciDevMaxApgsMsgSize).1,
        (gsmHexToGSM tok buffer ciDevMaxApgsMsgSize).2⟩, cur) := by
  unfold nexthex parseNextstr
  rw [h]

end Agps
