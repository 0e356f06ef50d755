import Gtexswifi.Library.Numerals
import Gtexswifi.Library.Tokens

/-! The engineering commands of the GPS receiver: `gps_eut_parse` of
`gps_pc_mode.c` behind the initialisation, so that the interface is there
and `first_open` is set. What the callbacks have left of the receiver's
data, and what its registers and its thermometer give, comes with each
command. -/
namespace Gnss

open Numerals

/-- The operations on `double` that the answers need. -/
structure Doubles (Double : Type) where
  /-- `"%f"` -/
  text : Double → List UInt8
  greater : Double → Double → Bool

/-- `GREENEYE_I` and the other value of `chip_id`. -/
inductive ChipId
  | greenEyeI
  | greenEyeII
  deriving DecidableEq

structure SvInfo (Double : Type) where
  prn : Int32
  snr : Double

/-- The data that the commands ask for. -/
structure Receiver (Double : Type) where
  svState : List (SvInfo Double)
  fixStatus : Bool
  latitude : Double
  longitude : Double
  chipId : ChipId
  cwcnValue : Int32
  cn0 : Int32
  tsxTemp : Double
  tcxoValue : Double
  register : UInt32 → UInt32

/-- A call of the interface of the hardware. -/
inductive HalCall
  | deleteAidingData (flags : UInt32)
  | start
  | stop
  deriving DecidableEq

/-- Access to the receiver's data or registers. -/
inductive Access
  | satellites
  | location
  | rssi
  | tsxTemp
  | tcxo
  | readRegister (addr : UInt32)
  | writeRegister (addr value : UInt32)
  deriving DecidableEq

/-- `halCalls` is history. -/
structure State where
  eutMode : Bool
  eutGpsState : Int32
  gpsSearchState : Int32
  gpsMode : UInt32
  halCalls : List HalCall
  deriving DecidableEq

def State.init : State := ⟨false, 0, 0, 0, []⟩

/-- What a command does: the buffer of the response may be left alone. -/
structure Answer where
  state : State
  rsp : Option (List UInt8)
  accesses : List Access
  deriving DecidableEq

def eutGpsOk : List UInt8 := ascii "+SPGPSTEST:OK"
def eutGpsError : List UInt8 := ascii "+SPGPSTEST:ERR="
def eutGpsReq : List UInt8 := ascii "+SPGPSTEST:EUT="
def eutGpsPrnReq : List UInt8 := ascii "+SPGPSTEST:PRN="
def eutGpsSnrReq : List UInt8 := ascii "+SPGPSTEST:SNR="
def eutGpsRssiReq : List UInt8 := ascii "+SPGPSTEST:RSSI="
def eutGpsTsxtempReq : List UInt8 := ascii "+SPGPSTEST:TSXTEMP="
def eutGpsTcxoReq : List UInt8 := ascii "+SPGPSTEST:TCXO="
def eutGpsReadReq : List UInt8 := ascii "+SPGPSTEST:READ="
def eutGpsSearchReq : List UInt8 := ascii "+SPGPSTEST:SEARCH="
def eutGpsNoFoundStaelite : List UInt8 := ascii "NO_FOUND_SATELLITE"
def eutGpsSvId : List UInt8 := ascii "SV_ID="
def eutGpsSvNums : List UInt8 := ascii "SV_NUM="
def eutGpserrPrnsearch : Int := 155

variable {Double : Type} (doubles : Doubles Double)

def gpsExportStart (s : State) : State := { s with halCalls := s.halCalls ++ [.start] }

def gpsExportStop (s : State) : State := { s with halCalls := s.halCalls ++ [.stop] }

def deleteAidingData (flags : UInt32) (s : State) : State :=
  { s with halCalls := s.halCalls ++ [.deleteAidingData flags] }

def eutParse (s : State) (data : Int32) : Answer :=
  let s := { s with eutMode := true }
  if data = 1 ∨ data = 2 ∨ data = 3 ∨ data = 4 then
    let s := { s with eutGpsState := 1 }
    let s :=
      if data = 2 then { deleteAidingData 50002 { s with eutGpsState := 2 } with gpsMode := 50002 }
      else if data = 3 then
        { deleteAidingData 50004 { s with eutGpsState := 3 } with gpsMode := 50004 }
      else if data = 4 then
        { deleteAidingData 50001 { s with eutGpsState := 4 } with gpsMode := 50001 }
      else { deleteAidingData 65535 s with gpsMode := 0 }
    ⟨gpsExportStart s, some eutGpsOk, []⟩
  else if data = 0 then
    ⟨gpsExportStop { s with eutGpsState := 0, gpsMode := 0 }, some eutGpsOk, []⟩
  else ⟨s, none, []⟩

def eutEqParse (s : State) : Answer :=
  ⟨s, some (eutGpsReq ++ decimal s.eutGpsState.toInt), []⟩

def searchEqParse (s : State) : Answer :=
  ⟨s, some (eutGpsSearchReq ++ decimal s.gpsSearchState.toInt), []⟩

def searchParse (s : State) (data : Int32) : Answer :=
  let s := if data ≠ s.eutGpsState then (eutParse s data).state else s
  ⟨{ s with gpsSearchState := s.eutGpsState }, some eutGpsOk, []⟩

/-- The check that the other commands make first. -/
def searching (s : State) (answer : Answer) : Answer :=
  if s.gpsSearchState = 0 ∧ s.eutGpsState = 0 then
    ⟨s, some (eutGpsError ++ decimal eutGpserrPrnsearch), []⟩
  else answer

/-- The text of `get_prn_list`. -/
def getPrnList (receiver : Receiver Double) : List UInt8 :=
  eutGpsPrnReq ++ receiver.svState.flatMap fun sv => decimal sv.prn.toInt ++ [0x2c]

def noSatellite : List UInt8 := eutGpsPrnReq ++ eutGpsNoFoundStaelite

def prnstateParse (s : State) (receiver : Receiver Double) : Answer :=
  searching s ⟨s, some (if receiver.svState = [] then noSatellite else getPrnList receiver),
    [.satellites]⟩

/-- The first satellite with the greatest ratio. -/
def strongest (best : SvInfo Double) : List (SvInfo Double) → SvInfo Double
  | [] => best
  | sv :: svs => strongest (if doubles.greater sv.snr best.snr = true then sv else best) svs

def snrParse (s : State) (receiver : Receiver Double) : Answer :=
  searching s (match receiver.svState with
    | [] => ⟨s, some (eutGpsSnrReq ++ ascii " no sv_num is found"), [.satellites]⟩
    | sv :: svs =>
        let max := strongest doubles sv svs
        ⟨s, some (eutGpsSnrReq ++ doubles.text max.snr ++ 0x20 :: eutGpsSvId ++
          decimal max.prn.toInt ++ 0x20 :: eutGpsSvNums ++ decimal (svs.length + 1)),
          [.satellites]⟩)

def prnParse (s : State) (receiver : Receiver Double) (data : Int32) : Answer :=
  searching s ⟨s, some (match receiver.svState.find? fun sv => sv.prn = data with
    | some sv => eutGpsPrnReq ++ decimal data.toInt ++ ascii ",CN0=" ++ doubles.text sv.snr
    | none => noSatellite), [.satellites]⟩

def fixParse (s : State) (receiver : Receiver Double) : Answer :=
  searching s ⟨s, some (if receiver.fixStatus = false then ascii "+SPGPSTEST:LOCATION=FAIL"
    else ascii "+SPGPSTEST:LOCATION=SUCC," ++ doubles.text receiver.latitude ++ 0x2c ::
      doubles.text receiver.longitude), [.location]⟩

def cwcnParse (s : State) (receiver : Receiver Double) : Answer :=
  searching s ⟨s, some (eutGpsRssiReq ++
    decimal (if receiver.chipId = .greenEyeI then receiver.cwcnValue else receiver.cn0).toInt),
    [.rssi]⟩

def tsxTempParse (s : State) (receiver : Receiver Double) : Answer :=
  searching s ⟨s, some (eutGpsTsxtempReq ++ doubles.text receiver.tsxTemp), [.tsxTemp]⟩

def tcxoStabilityParse (s : State) (receiver : Receiver Double) : Answer :=
  searching s ⟨s, some (eutGpsTcxoReq ++ doubles.text receiver.tcxoValue), [.tcxo]⟩

def eutReadRegister (s : State) (receiver : Receiver Double) (addr : Int32) : Answer :=
  searching s ⟨s, some (eutGpsReadReq ++ ascii "0x" ++
    write 16 (receiver.register addr.toUInt32).toNat), [.readRegister addr.toUInt32]⟩

def eutWriteRegister (s : State) (addr value : Int32) : Answer :=
  searching s ⟨s, some eutGpsOk, [.writeRegister addr.toUInt32 value.toUInt32]⟩

/-- The rows of `eut_gps_at_table`. -/
inductive Command
  | eutEq
  | eut
  | searchEq
  | search
  | prnState
  | snr
  | prn
  | location
  | rssi
  | tsxTemp
  | tcxo
  | read
  | write
  deriving DecidableEq

def eutGpsAtTable : List (List UInt8 × Command) :=
  [(ascii "EUT?", .eutEq), (ascii "EUT", .eut), (ascii "SEARCH?", .searchEq),
    (ascii "SEARCH", .search), (ascii "PRN?", .prnState), (ascii "SNR?", .snr),
    (ascii "PRN", .prn), (ascii "LOCATION?", .location), (ascii "RSSI?", .rssi),
    (ascii "TSXTEMP?", .tsxTemp), (ascii "TCXO?", .tcxo), (ascii "READ", .read),
    (ascii "WRITE", .write)]

def Command.func (s : State) (receiver : Receiver Double) (data subData : Int32) :
    Command → Answer
  | eutEq => eutEqParse s
  | eut => eutParse s data
  | searchEq => searchEqParse s
  | search => searchParse s data
  | prnState => prnstateParse s receiver
  | snr => snrParse doubles s receiver
  | prn => prnParse doubles s receiver data
  | location => fixParse doubles s receiver
  | rssi => cwcnParse s receiver
  | tsxTemp => tsxTempParse doubles s receiver
  | tcxo => tcxoStabilityParse doubles s receiver
  | read => eutReadRegister s receiver data
  | write => eutWriteRegister s data subData

/-- The value of hexadecimal digits up to another character. -/
def strhex2int (result : Int32) : List UInt8 → Int32
  | [] => result
  | c :: text =>
      if digitValue c < 16 then strhex2int (result * 16 + Int32.ofNat (digitValue c)) text
      else result

def atoi (longBits : Nat) (text : List UInt8) : Int32 := Int32.ofInt (strtol longBits text)

/-- The pieces of a command, and what `strtok` leaves of its buffer as a
string. -/
structure Pieces where
  name : List UInt8
  args : List (List UInt8)
  buf : List UInt8
  deriving DecidableEq

def comma : UInt8 := 0x2c

def equalsSign : UInt8 := 0x3d

def colon : UInt8 := 0x3a

/-- The text up to the end of its first token. -/
def untilFirst (text : List UInt8) : List UInt8 :=
  text.takeWhile (· = colon) ++ (text.dropWhile (· = colon)).takeWhile (· ≠ colon)

/-- `get_sub_str_colon` with four arrays of 33 bytes, for arguments of 32.
`none` if the name does not fit its array, or stands behind the comma. -/
def getSubStrColon (buf : List UInt8) : Option Pieces :=
  if comma ∉ buf ∨ equalsSign ∉ buf then some ⟨[], [], buf⟩
  else
    let start := buf.idxOf equalsSign + 1
    let len : Int := buf.idxOf comma - start
    if len < 0 ∨ 33 < len then none
    else
      let text := buf.drop (buf.idxOf comma + 1)
      some ⟨(buf.drop start).take len.toNat, ((Tokens.tokens [colon] text).take 3).map (·.take 32),
        buf.take (buf.idxOf comma + 1) ++ untilFirst text⟩

/-- `strstr` finds the word. -/
def occurs (word text : List UInt8) : Bool := text.tails.any fun rest => word.isPrefixOf rest

/-- The row that a command calls, with its arguments. -/
def dispatch (longBits : Nat) (pieces : Pieces) : Option (Command × Int32 × Int32) :=
  (eutGpsAtTable.find? fun row => occurs row.1 pieces.buf).map fun row =>
    let first := pieces.args.getD 0 []
    let second := pieces.args.getD 1 []
    match row.2 with
    | .read => (.read, strhex2int 0 first, atoi longBits second)
    | .write => (.write, strhex2int 0 first, strhex2int 0 second)
    | command => (command, atoi longBits first, atoi longBits second)

/-- A command that `get_sub_str_colon` can take apart, with the receiver's
data. -/
structure Request (Double : Type) where
  buf : List UInt8
  receiver : Receiver Double
  pieces : Pieces
  splits : getSubStrColon buf = some pieces

def gpsEutParse (longBits : Nat) (s : State) (request : Request Double) : Answer :=
  match dispatch longBits request.pieces with
  | some (command, data, subData) => command.func doubles s request.receiver data subData
  | none => ⟨s, none, []⟩

end Gnss
