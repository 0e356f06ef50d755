import Gtexswifi.Gnss.GpsPcMode
import Gtexswifi.Library.Memory

/-! `cw_data_capture` of `fft.c`. A sample is kept as its value and the
position whose window weight it is multiplied with, and `char` is unsigned,
as on ARM. `none` is an index out of range, a word that does not fit its
array, or a counter that overflows. -/
namespace Gnss

open Numerals

/-- `nDataCount`. -/
def nDataCount : Nat := 16384

/-- A cell of `arrIQData`: cleared, a value times a weight, or what `FFT`
leaves. -/
inductive Cell
  | cleared
  | weighted (value : Int) (position : Nat)
  | transformed
  deriving DecidableEq

/-- A cell of `arrWinAdd` has the weight of a position, or is cleared.
`windows` has what `FFT` was called with: the cells from 1 on, in the order
of the calls. -/
structure Capture where
  dataCaptureFlag : Bool
  dataCount : Nat
  lineCount : Nat
  arrIQData : List Cell
  arrWinAdd : List (Option Nat)
  windows : List (List Cell)

/-- The static variables. -/
def Capture.static : Capture where
  dataCaptureFlag := false
  dataCount := 0
  lineCount := 0
  arrIQData := List.replicate (2 * nDataCount + 1) .cleared
  arrWinAdd := List.replicate nDataCount none
  windows := []

def dataCaptureEnd : List UInt8 := ascii "DATA_CAPTURE_END"

def dataCaptureBegin : List UInt8 := ascii "DATA_CAPTURE_BEGIN"

/-- The characters that end a word of `sscanf`. -/
def blanks : List UInt8 := [0x20, 0x09, 0x0a, 0x0b, 0x0c, 0x0d]

def words (nmea : List UInt8) : List (List UInt8) := Tokens.tokens blanks nmea

/-- One `"%s"` into an array of three zeros. Where there is no word the
array is left alone. -/
def scanWord (nmea : List UInt8) (n : Nat) : Option (List UInt8) :=
  let byte := (words nmea).getD n []
  if byte.length < 3 then some byte else none

/-- `strtol` with base 16. Two characters do not saturate it. -/
def strtol16 (text : List UInt8) : Int :=
  match text.dropWhile isSpace with
  | 0x2d :: digits => -(scan 16 0 (dropHexMark digits) : Int)
  | 0x2b :: digits => scan 16 0 (dropHexMark digits)
  | digits => scan 16 0 (dropHexMark digits)

/-- `IHexVal` and `QHexVal` before the conversion. -/
def hexVals (nmea : List UInt8) : Option (Nat × Nat) := do
  let byte1 ← scanWord nmea 0
  let byte2 ← scanWord nmea 1
  let byte3 ← scanWord nmea 2
  let byte4 ← scanWord nmea 3
  let data (byte : List UInt8) : UInt8 := UInt8.ofInt (strtol16 byte)
  return ((data byte2).toNat <<< 8 + (data byte1).toNat,
    (data byte4).toNat <<< 8 + (data byte3).toNat)

/-- `HexVal > 32768 ? HexVal - 65535 : HexVal` -/
def signConversion (hexVal : Nat) : Int := if hexVal > 32768 then hexVal - 65535 else hexVal

/-- `DATA_CAPTURE_END` is looked for while data is captured. -/
def endCapture (s : Capture) (nmea : List UInt8) : Capture :=
  if s.dataCaptureFlag = true ∧ occurs dataCaptureEnd nmea = true then
    { s with dataCaptureFlag := false, dataCount := 0, lineCount := 0 }
  else s

/-- A line that is not skipped. -/
def saveData (s : Capture) (nmea : List UInt8) : Option Capture := do
  let dataCount := s.dataCount + 1
  let (iHexVal, qHexVal) ← hexVals nmea
  let position := dataCount - 1
  let arrWinAdd ← Memory.write s.arrWinAdd position [some position]
  let arrIQData ← Memory.write s.arrIQData (2 * position + 1)
    [.weighted (signConversion iHexVal) position]
  let arrIQData ← Memory.write arrIQData (2 * position + 2)
    [.weighted (signConversion qHexVal * -1) position]
  return { s with dataCount, arrIQData, arrWinAdd }

/-- The test whether the window is full, and the call of `FFT`. -/
def transform (s : Capture) : Capture :=
  if s.dataCount = nDataCount then
    { s with
      dataCount := 0
      windows := s.windows ++ [s.arrIQData.tail]
      arrIQData := s.arrIQData.take 1 ++ List.replicate (2 * nDataCount) .transformed }
  else s

def saveLine (s : Capture) (nmea : List UInt8) : Option Capture :=
  if s.lineCount + 1 = 2 ^ 31 then none
  else do
    let s := { s with lineCount := s.lineCount + 1 }
    let s ← if s.lineCount % 5 ≠ 0 then saveData s nmea else some s
    return transform s

/-- `DATA_CAPTURE_BEGIN` is looked for while no data is captured. -/
def beginCapture (s : Capture) (nmea : List UInt8) : Capture :=
  if s.dataCaptureFlag = false ∧ occurs dataCaptureBegin nmea = true then
    { s with
      dataCaptureFlag := true
      dataCount := 0
      lineCount := 0
      arrIQData := List.replicate (2 * nDataCount + 1) .cleared
      arrWinAdd := List.replicate nDataCount none }
  else s

def cwDataCapture (s : Capture) (nmea : List UInt8) : Option Capture := do
  let s := endCapture s nmea
  let s ← if s.dataCaptureFlag = true then saveLine s nmea else some s
  return beginCapture s nmea

end Gnss
