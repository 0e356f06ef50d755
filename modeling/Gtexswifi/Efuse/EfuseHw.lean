import Gtexswifi.Library.Numerals

/-! The access to the one-time-programmable fuses: `sprd_efuse_hw.c` and
`sprd_tshark_efuse_hw.c`, which differ in the numbers of the blocks. What
the driver makes of a call is given from outside. `char` is unsigned, as on
ARM. -/
namespace Efuse

/-- The file that is built. -/
inductive Source
  | sprd
  | tshark
  deriving DecidableEq, Repr

namespace Source

def hashBlockStart : Source → Nat
  | sprd => 7
  | tshark => 2

def hashBlockEnd : Source → Nat
  | sprd => 11
  | tshark => 6

def hashBlockLen (source : Source) : Nat := source.hashBlockEnd - source.hashBlockStart + 1

def secureBootBlock : Source → Nat
  | sprd => 2
  | tshark => 1

def secureBootBit : Source → Nat
  | sprd => 0
  | tshark => 18

end Source

def uidBlockStart : Nat := 0

def uidBlockEnd : Nat := 1

/-- `HASH_BIT`. -/
def hashBit : UInt32 := 0x80000000

/-- Where `efuse_write` fails in the driver, or what its last `write`
returns. -/
inductive WriteOutcome
  | magicOpenFails
  | magicWriteFails
  | openFails
  | lseekFails
  | write (len : Int)
  deriving DecidableEq, Repr

/-- Where `efuse_read` fails in the driver, or the bytes that its `read`
delivers, if any. -/
inductive ReadOutcome
  | openFails
  | lseekFails
  | read (data : List UInt8)
  deriving DecidableEq, Repr

/-- An access that comes to a block: a word that is written, with the
result, or four bytes that are read. -/
inductive Event
  | wrote (blk : Nat) (val : UInt32) (len : Int)
  | readBack (blk : Nat) (buf : List UInt8)
  deriving DecidableEq, Repr

def efuseWrite (blk : Nat) (val : UInt32) : WriteOutcome → Int × List Event
  | .magicOpenFails => (-1, [])
  | .magicWriteFails => (-2, [])
  | .openFails => (-3, [])
  | .lseekFails => (-4, [])
  | .write len => (if len ≤ 0 then -5 else len, [.wrote blk val len])

/-- `"%02x"` of one byte. -/
def hex2 (b : UInt8) : List UInt8 :=
  [Numerals.digit (b.toNat / 16), Numerals.digit (b.toNat % 16)]

/-- `"%02x%02x%02x%02x"` of the bytes 3, 2, 1 and 0. -/
def hexWord (buf : List UInt8) : List UInt8 := buf.reverse.flatMap hex2

/-- What `read` leaves of the four bytes of a zeroed buffer. -/
def readBuf (data : List UInt8) : List UInt8 :=
  data.take 4 ++ List.replicate (4 - data.length) 0

/-- The result, the text of the block, and the access. -/
def efuseRead (blk : Nat) : ReadOutcome → Int × List UInt8 × List Event
  | .openFails => (-2, [], [])
  | .lseekFails => (-3, [], [])
  | .read data =>
      if data = [] then (-4, [], [])
      else (1, hexWord (readBuf data), [.readBack blk (readBuf data)])

/-- The bytes of a word in memory. -/
def wordBytes (val : UInt32) : List UInt8 :=
  [UInt8.ofNat val.toNat, UInt8.ofNat (val.toNat / 2 ^ 8), UInt8.ofNat (val.toNat / 2 ^ 16),
    UInt8.ofNat (val.toNat / 2 ^ 24)]

/-- The word of eight characters from `hash + i` on, up to a zero. What
stands behind a string that is too short is left open. -/
def hashWord (longBits : Nat) (hash : Nat → UInt8) (i : Nat) : UInt32 :=
  UInt32.ofNat (Numerals.strtoul longBits 16
    (((List.range 8).map fun j => hash (i + j)).takeWhile (· ≠ 0))) &&& 0x7fffffff

/-- The driver's part in one pass of `efuse_hash_write`. -/
structure BlockOutcome where
  program : WriteOutcome
  verify : ReadOutcome
  lock : WriteOutcome

/-- One pass of `efuse_hash_write`: the number of bytes written, or the
negative result. -/
def hashBlock (j : Nat) (value : UInt32) (driver : BlockOutcome) : Int × List Event :=
  let (ret, programmed) := efuseWrite j value driver.program
  if ret ≤ 0 then (-2, programmed)
  else
    let (readRet, readHash, verified) := efuseRead j driver.verify
    if readRet < 0 then (-3, programmed ++ verified)
    else if hexWord (wordBytes value) ≠ readHash then (-4, programmed ++ verified)
    else
      let (lockRet, locked) := efuseWrite j hashBit driver.lock
      if lockRet < 0 then (-5, programmed ++ verified ++ locked)
      else (ret, programmed ++ verified ++ locked)

/-- The loop from pass `k` on: the result, whether it ends with all of its
passes, and the accesses. -/
def hashLoop (source : Source) (longBits : Nat) (hash : Nat → UInt8) (count : Int)
    (driver : Nat → BlockOutcome) : Nat → Nat → Int → Int × Bool × List Event
  | 0, _, len => (len, true, [])
  | passes + 1, k, len =>
      if (8 * k : Int) < count then
        let (ret, events) :=
          hashBlock (source.hashBlockStart + k) (hashWord longBits hash (8 * k)) (driver k)
        if ret < 0 then (ret, false, events)
        else
          let (ret, ok, rest) := hashLoop source longBits hash count driver passes (k + 1) (len + ret)
          (ret, ok, events ++ rest)
      else (len, true, [])

/-- An `efuse_hash_write` that got past its argument check, with its
accesses. -/
structure HashWrite where
  hash : Nat → UInt8
  count : Int
  events : List Event

/-- `write_ok_flag` and the last result. The other fields are history: the
most recent `efuse_hash_write` past its argument check, and what it was
whenever the secure-boot bit was written. -/
structure State where
  writeOkFlag : Bool
  ret : Int
  hashWrite : Option HashWrite
  armed : List (Option HashWrite)

def State.init : State := ⟨false, 0, none, []⟩

def efuseHashWrite (source : Source) (longBits : Nat) (s : State) (hash : Option (Nat → UInt8))
    (count : Int) (driver : Nat → BlockOutcome) : State :=
  match hash with
  | none => { s with ret := -1 }
  | some hash =>
      if count < 1 then { s with ret := -1 }
      else
        let (ret, ok, events) := hashLoop source longBits hash
          (min count (source.hashBlockLen * 8)) driver source.hashBlockLen 0 0
        { s with writeOkFlag := ok, ret := ret, hashWrite := some ⟨hash, count, events⟩ }

def efuseSecureEnable (source : Source) (s : State) (driver : WriteOutcome) : State :=
  if s.writeOkFlag = false then { s with ret := -1 }
  else
    let (ret, events) := efuseWrite source.secureBootBlock (1 <<< source.secureBootBit.toUInt32) driver
    { s with
      ret := if ret ≤ 0 then -2 else 0
      armed := s.armed ++ events.map fun _ => s.hashWrite }

def efuseSecureIsEnabled (source : Source) (longBits : Nat) (driver : ReadOutcome) : Int :=
  let (ret, value, _) := efuseRead source.secureBootBlock driver
  let value := UInt32.ofNat (Numerals.strtoul longBits 16 value)
  if ret ≤ 0 then 0 else if value &&& 1 <<< source.secureBootBit.toUInt32 ≠ 0 then 1 else 0

/-- The texts of blocks, or `none` if one cannot be read. -/
def readBlocks (driver : Nat → ReadOutcome) : List Nat → Option (List (List UInt8))
  | [] => some []
  | blk :: blks =>
      let (ret, value, _) := efuseRead blk (driver blk)
      if ret ≤ 0 then none else (readBlocks driver blks).map (value :: ·)

def hashBlocks (source : Source) : List Nat :=
  List.range' source.hashBlockStart source.hashBlockLen

def efuseHashRead (source : Source) (hash : Bool) (count : Int) (driver : Nat → ReadOutcome) : Int :=
  if hash = false ∨ count < 1 then -1
  else
    match readBlocks driver (hashBlocks source) with
    | none => -2
    | some _ => min count (source.hashBlockLen * 8) - 1

def efuseIsHashWrite (source : Source) (longBits : Nat) (driver : Nat → ReadOutcome) : Int :=
  match readBlocks driver (hashBlocks source) with
  | none => -1
  | some values =>
      if values.all fun value => UInt32.ofNat (Numerals.strtoul longBits 16 value) = 0 then 0 else 1

/-- `sizeof(values)` counts the zero at its end as well. -/
def efuseUidRead (uid : Bool) (count : Int) (driver : Nat → ReadOutcome) : Int :=
  if uid = false ∨ count < 1 then -1
  else
    match readBlocks driver (List.range' uidBlockStart (uidBlockEnd - uidBlockStart + 1)) with
    | none => -2
    | some _ => min count ((uidBlockEnd - uidBlockStart + 1) * 8 + 1) - 1

/-- A call from outside, with the driver's part in it. A pointer that is
only written to is whether it is there. -/
inductive Call
  | hashWrite (hash : Option (Nat → UInt8)) (count : Int) (driver : Nat → BlockOutcome)
  | secureEnable (driver : WriteOutcome)
  | secureIsEnabled (driver : ReadOutcome)
  | isHashWrite (driver : Nat → ReadOutcome)
  | hashRead (hash : Bool) (count : Int) (driver : Nat → ReadOutcome)
  | uidRead (uid : Bool) (count : Int) (driver : Nat → ReadOutcome)

def step (source : Source) (longBits : Nat) (s : State) : Call → Option State
  | .hashWrite hash count driver => some (efuseHashWrite source longBits s hash count driver)
  | .secureEnable driver => some (efuseSecureEnable source s driver)
  | .secureIsEnabled driver => some { s with ret := efuseSecureIsEnabled source longBits driver }
  | .isHashWrite driver => some { s with ret := efuseIsHashWrite source longBits driver }
  | .hashRead hash count driver => some { s with ret := efuseHashRead source hash count driver }
  | .uidRead uid count driver => some { s with ret := efuseUidRead uid count driver }

end Efuse
