import Gtexswifi.Gnss.Gating
import Gtexswifi.Gnss.NmeaTokenizer
import Gtexswifi.Gnss.CaptureWindows

/-! What the callbacks of the receiver leave for the commands, from the
moment when `get_init_mode` has registered them. A sentence is a C string,
and every callback and every call runs as a whole. -/
namespace Gnss

open Numerals Transition

/-- What the code needs of `double`, with `strtod`, zero, and the signal of
a window that `FFT` is called with, in the units of `CN0`. -/
structure Arithmetic (Double : Type) extends Doubles Double where
  zero : Double
  strtod : List UInt8 → Double
  signal : List Cell → Int32

variable {Double : Type} (arithmetic : Arithmetic Double) (longBits : Nat)

/-- `str2int`, with the digits in front. The number wraps around. -/
def str2int (result : Int32) : List UInt8 → Int32
  | [] => result
  | c :: text =>
      if digitValue c < 10 then str2int (result * 10 + Int32.ofNat (digitValue c)) text else -1

/-- `str2float`. Texts of 16 characters and more do not fit its array. -/
def str2float (text : List UInt8) : Double :=
  if text.length ≥ 16 then arithmetic.zero
  else if text.length = 0 then arithmetic.zero
  else arithmetic.strtod text

/-- `cwcn_value`, `tsx_value` and `tcxo_value`. -/
structure Values (Double : Type) where
  cwcnValue : Int32
  tsxValue : Double
  tcxoValue : Double

/-- A value is stored unless its token is empty. -/
def nmeaUpdate (values : Values Double) (sentence : List UInt8)
    (store : List UInt8 → Values Double) : Option Token → Values Double
  | none => values
  | some tok =>
      if tok.p ≥ tok.stop then values else store (between sentence tok.p tok.stop)

def nmeaUpdateCwcn (values : Values Double) (sentence : List UInt8) (cwcn : Option Token) :
    Values Double :=
  nmeaUpdate values sentence (fun text => { values with cwcnValue := str2int 0 text }) cwcn

def nmeaUpdateTsx (values : Values Double) (sentence : List UInt8) (tsx : Option Token) :
    Values Double :=
  nmeaUpdate values sentence (fun text => { values with tsxValue := str2float arithmetic text }) tsx

def nmeaUpdateTcxo (values : Values Double) (sentence : List UInt8) (tcxo : Option Token) :
    Values Double :=
  nmeaUpdate values sentence (fun text => { values with tcxoValue := str2float arithmetic text })
    tcxo

/-- What a token points to. The sentence goes on behind the token, up to its
zero. -/
def pointee (sentence : List UInt8) : Option Token → List UInt8
  | none => [0]
  | some tok => sentence.drop tok.p ++ [0]

/-- `memcmp` finds the word. -/
def pointsTo (sentence word : List UInt8) (tok : Option Token) : Bool :=
  word.isPrefixOf (pointee sentence tok)

/-- `tok.p + 5 > tok.end` -/
def tooShort : Option Token → Bool
  | none => true
  | some tok => tok.p + 5 > tok.stop

/-- `nmea_parse` behind its first checks. `tzer` is what the array of the
tokens holds before. -/
def parseFields (values : Values Double) (sentence : List UInt8) (tzer : NmeaTokenizer) :
    Values Double :=
  let tzer := nmeaTokenizerInit sentence tzer
  let tok := nmeaTokenizerGet tzer 0
  if tooShort tok = true then values
  else if pointsTo sentence (ascii "PCGDS") tok = true then
    let name := nmeaTokenizerGet tzer 1
    let value := nmeaTokenizerGet tzer 2
    if pointsTo sentence (ascii "CWCN0") name = true then nmeaUpdateCwcn values sentence value
    else if pointsTo sentence (ascii "TSXTEMP") name = true then
      nmeaUpdateTsx arithmetic values sentence value
    else if pointsTo sentence (ascii "TCXO") name = true then
      nmeaUpdateTcxo arithmetic values sentence value
    else values
  else values

/-- The variables of `gps_pc_mode.c`, and those of `cw_data_capture`.
`reported` has what `g_func` was called with. -/
structure Session (Double : Type) where
  engine : State
  firstOpen : Bool
  gFunc : Bool
  reported : List (List UInt8)
  chipId : ChipId
  svState : List (SvInfo Double)
  fixStatus : Bool
  latitude : Double
  longitude : Double
  values : Values Double
  capture : Capture

/-- The callbacks are registered, and `first_open` is not set yet. -/
def Session.init (chipId : ChipId) : Session Double where
  engine := .init
  firstOpen := false
  gFunc := false
  reported := []
  chipId := chipId
  svState := []
  fixStatus := false
  latitude := arithmetic.zero
  longitude := arithmetic.zero
  values := ⟨0, arithmetic.zero, arithmetic.zero⟩
  capture := .static

/-- `nmea_parse` -/
def nmeaParse (s : Session Double) (sentence : List UInt8) (tzer : NmeaTokenizer) :
    Option (Session Double) :=
  if s.chipId = .greenEyeII ∧ s.engine.eutGpsState = 2 then
    (cwDataCapture s.capture sentence).map fun capture =>
      { s with capture, values := parseFields arithmetic s.values sentence tzer }
  else if sentence.length < 9 ∧ s.engine.eutGpsState ≠ 5 then some s
  else some { s with values := parseFields arithmetic s.values sentence tzer }

def nmeaCallback (s : Session Double) (sentence : List UInt8) (tzer : NmeaTokenizer) :
    Option (Session Double) :=
  if s.firstOpen = false then some s
  else nmeaParse arithmetic
    (if s.gFunc = true then { s with reported := s.reported ++ [sentence] } else s) sentence tzer

/-- `set_gps_mode`, with the value that it returns. -/
def setGpsMode (s : State) (mode : UInt32) : State × Int32 :=
  if mode = 0 then (deleteAidingData 1024 s, 1)
  else if mode = 1 then (deleteAidingData 1 s, 1)
  else if mode = 2 then (deleteAidingData 125 s, 1)
  else if mode = 8 then (deleteAidingData 100 s, 0)
  else if mode = 10 then (deleteAidingData 50001 s, 1)
  else if mode = 11 ∨ mode = 12 ∨ mode = 13 then
    (deleteAidingData 50003 { s with eutGpsState := 5 }, 1)
  else if mode = 20 then (deleteAidingData 65535 s, 1)
  else (s, 0)

/-- A command that can be taken apart, with what the thermometer and the
registers give. -/
structure CommandLine (Double : Type) where
  buf : List UInt8
  pieces : Pieces
  splits : getSubStrColon buf = some pieces
  tsxTemp : Double
  register : UInt32 → UInt32

/-- The command as it finds a receiver. The thermometer and the registers
are its own. -/
def CommandLine.request (line : CommandLine Double) (receiver : Receiver Double) :
    Request Double where
  buf := line.buf
  receiver := { receiver with tsxTemp := line.tsxTemp, register := line.register }
  pieces := line.pieces
  splits := line.splits

/-- `CN0` -/
def Session.cn0 (s : Session Double) : Int32 :=
  match s.capture.windows.getLast? with
  | none => 0
  | some window => arithmetic.signal window

def Session.receiver (s : Session Double) : Receiver Double where
  svState := s.svState
  fixStatus := s.fixStatus
  latitude := s.latitude
  longitude := s.longitude
  chipId := s.chipId
  cwcnValue := s.values.cwcnValue
  cn0 := s.cn0 arithmetic
  tsxTemp := arithmetic.zero
  tcxoValue := s.values.tcxoValue
  register := fun _ => 0

def Session.answer (s : Session Double) (line : CommandLine Double) : Answer :=
  gpsEutParse arithmetic.toDoubles longBits s.engine (line.request (s.receiver arithmetic))

/-- A callback of the receiver, or a call of the engineering application. -/
inductive Event (Double : Type)
  | locationCallback (latitude longitude : Double)
  | svStatusCallback (svs : List (SvInfo Double))
  | nmeaCallback (sentence : List UInt8) (tzer : NmeaTokenizer)
  | getInitMode
  | setReportPtr (set : Bool)
  | setGpsMode (mode : UInt32)
  | gpsExportStart
  | gpsExportStop
  | gpsEutParse (line : CommandLine Double)

/-- A call that uses the interface comes behind the end of `get_init_mode`. -/
def Session.opened (s : Session Double) (engine : State) : Option (Session Double) :=
  if s.firstOpen = true then some { s with engine } else none

def sessionStep (s : Session Double) : Event Double → Option (Session Double)
  | .locationCallback latitude longitude =>
      some { s with fixStatus := true, latitude, longitude }
  | .svStatusCallback svs => some { s with svState := svs }
  | .nmeaCallback sentence tzer => nmeaCallback arithmetic s sentence tzer
  | .getInitMode => some { s with firstOpen := true }
  | .setReportPtr gFunc => some { s with gFunc }
  | .setGpsMode mode => s.opened (setGpsMode s.engine mode).1
  | .gpsExportStart => s.opened (gpsExportStart s.engine)
  | .gpsExportStop => s.opened (gpsExportStop s.engine)
  | .gpsEutParse line => s.opened (s.answer arithmetic longBits line).state

end Gnss
