import Gtexswifi.Library.Bytes
import Gtexswifi.Library.Numerals
import Gtexswifi.Library.Radix
import Gtexswifi.Library.Tokens

/-! Loading of a configuration file into the pskey structure of an adapter
(`conf.c`). The structure is memory from address zero on, with the words of
a little-endian machine. -/
namespace Bluetooth.Conf

def newline : UInt8 := 0x0a

def confComment : UInt8 := 0x23

/-- `" =\n\r\t"` -/
def confDelimiters : List UInt8 := [0x20, 0x3d, 0x0a, 0x0d, 0x09]

/-- `"=\n\r\t#"` -/
def confValuesDelimiters : List UInt8 := [0x3d, 0x0a, 0x0d, 0x09, 0x23]

/-- `" ,=\n\r\t#"` -/
def confValuesPartition : List UInt8 := [0x20, 0x2c, 0x3d, 0x0a, 0x0d, 0x09, 0x23]

def confMaxLineLen : Nat := 255

def macAddrLen : Nat := 6

/-- A row of the table of an adapter. The name that ends a table is `none`.
No table has an action, and `buf` is the offset in the pskey structure. -/
structure ConfEntry where
  confEntry : Option (List UInt8)
  buf : Nat
  len : Int
  size : Nat
  deriving DecidableEq

/-- What `conf.c` uses of an adapter: its table, and where two members of
its pskey structure are. -/
structure Adapter where
  tab : List ConfEntry
  deviceAddr : Nat
  featureSet : Nat

/-- The value of one token, `strtoul(...) & 0xFFFFFFFF`. -/
def parseValue (longBits : Nat) (subValue : List UInt8) : Nat :=
  match subValue with
  | 0x30 :: x :: rest =>
      if x = 0x78 ∨ x = 0x58 then Numerals.strtoul longBits 16 (0x30 :: x :: rest) % 2 ^ 32
      else Numerals.strtoul longBits 10 (0x30 :: x :: rest) % 2 ^ 32
  | _ => Numerals.strtoul longBits 10 subValue % 2 ^ 32

/-- The loop of `parse_number` over the tokens that `strtok_r` delivers. The
count is looked at behind each pass. -/
def parseValues (longBits size : Nat) : List (List UInt8) → Int → Nat → (Nat → UInt8) → Nat → UInt8
  | [], _, _, mem => mem
  | subValue :: subValues, len, dest, mem =>
      let written := size = 1 ∨ size = 2 ∨ size = 4
      let mem :=
        if written then Bytes.store mem dest (Radix.encode size (parseValue longBits subValue))
        else mem
      let dest := if written then dest + size else dest
      if len - 1 = 0 then mem else parseValues longBits size subValues (len - 1) dest mem

def parseNumber (longBits : Nat) (confValue : List UInt8) (buf : Nat) (len : Int) (size : Nat)
    (mem : Nat → UInt8) : Nat → UInt8 :=
  parseValues longBits size (Tokens.tokens confValuesPartition confValue) len buf mem

/-- How the walk over a table ends. A table whose end is not marked is left. -/
inductive Walk
  | found (entry : ConfEntry)
  | absent
  | overrun
  deriving DecidableEq

def lookup (name : List UInt8) : List ConfEntry → Walk
  | [] => .overrun
  | entry :: tab =>
      match entry.confEntry with
      | none => .absent
      | some confEntry => if confEntry = name then .found entry else lookup name tab

/-- The part of a buffer in front of its zero. -/
def cString (buffer : List UInt8) : List UInt8 := buffer.takeWhile (· ≠ 0)

/-- What one line from `fgets` does to the structure. -/
def loadLine (longBits : Nat) (tab : List ConfEntry) (line : List UInt8) (mem : Nat → UInt8) :
    Option (Nat → UInt8) :=
  if line.head? = some confComment then some mem
  else
    match Tokens.strtokR confDelimiters (cString line) with
    | none => some mem
    | some (name, rest) =>
        match Tokens.strtokR confValuesDelimiters rest with
        | none => some mem
        | some (value, _) =>
            match lookup name tab with
            | .found entry =>
                some (parseNumber longBits value entry.buf entry.len entry.size mem)
            | .absent => some mem
            | .overrun => none

/-- The lines of a file, with at most `n` calls of `fgets`. -/
def loadLines (longBits : Nat) (tab : List ConfEntry) : Nat → List UInt8 → (Nat → UInt8) →
    Option (Nat → UInt8)
  | 0, _, mem => some mem
  | n + 1, file, mem =>
      match Tokens.fgets newline (confMaxLineLen + 1) file with
      | none => some mem
      | some (line, rest) => (loadLine longBits tab line mem).bind (loadLines longBits tab n rest)

/-- What the configuration depends on beside its file. -/
structure Device where
  /-- What `read_mac_address` leaves of the MAC address file, where `access`
  finds one. -/
  macAddress : Option (Vector UInt8 macAddrLen)
  /-- The property `persist.sys.bt.non.ssp` is `open`. -/
  nonSsp : Bool
  /-- The text of the property `persist.sys.bt.dsp.log`, or its default. -/
  dspLog : List UInt8

/-- The two ends change places, and so on to the middle. -/
def macAddressStreamCompose (addr : Vector UInt8 macAddrLen) : Vector UInt8 macAddrLen :=
  (List.range (macAddrLen / 2)).foldl
    (fun addr i => addr.swapIfInBounds i (macAddrLen - 1 - i)) addr

/-- Three exchanges from the ends to the middle turn the six bytes round. -/
theorem macAddressStreamCompose_toList (addr : Vector UInt8 macAddrLen) :
    (macAddressStreamCompose addr).toList = addr.toList.reverse := by
  obtain ⟨⟨bytes⟩, hLength⟩ := addr
  match bytes, hLength with
  | [_, _, _, _, _, _], _ => rfl

def setMacAddress (addr : Nat) (device : Device) (mem : Nat → UInt8) : Nat → UInt8 :=
  match device.macAddress with
  | none => mem
  | some macAddress => Bytes.store mem addr (macAddressStreamCompose macAddress).toList

def sprdVndReload (adapter : Adapter) (device : Device) (mem : Nat → UInt8) : Nat → UInt8 :=
  let mem := setMacAddress adapter.deviceAddr device mem
  if device.nonSsp = true then
    Bytes.store mem (adapter.featureSet + 6) [mem (adapter.featureSet + 6) &&& 0xf7]
  else mem

/-- `none` if the walk over the table leaves it. Each call of `fgets` takes
a character. -/
def vndLoadConf (longBits : Nat) (adapter : Adapter) (file : Option (List UInt8))
    (device : Device) (mem : Nat → UInt8) : Option (Nat → UInt8) :=
  match file with
  | none => some (sprdVndReload adapter device mem)
  | some file =>
      (loadLines longBits adapter.tab file.length file mem).map (sprdVndReload adapter device)

/-- The loop fills the array from its destination on, as far as there are
values and room. -/
theorem parseValues_eq (longBits : Nat) {size : Nat} (hSize : size = 1 ∨ size = 2 ∨ size = 4)
    (subValues : List (List UInt8)) {len : Int} {room : Nat} (hLen : len = room)
    (hRoom : 0 < room) (dest : Nat) (mem : Nat → UInt8) :
    parseValues longBits size subValues len dest mem =
      Bytes.store mem dest ((subValues.take room).map fun subValue =>
        Radix.encode size (parseValue longBits subValue)).flatten := by
  induction subValues generalizing len room dest mem with
  | nil =>
      rw [parseValues, List.take_nil, List.map_nil, List.flatten_nil, Bytes.store_nil]
  | cons subValue subValues ih =>
      obtain ⟨room, rfl⟩ : ∃ n, room = n + 1 := ⟨room - 1, by omega⟩
      rw [parseValues, List.take_succ_cons, List.map_cons, List.flatten_cons,
        ← Bytes.store_append, Radix.length_encode]
      rw [if_pos hSize, if_pos hSize]
      by_cases hLast : room = 0
      · rw [if_pos (by omega), hLast, List.take_zero, List.map_nil, List.flatten_nil,
          Bytes.store_nil]
      · rw [if_neg (by omega), ih (show len - 1 = (room : Int) by omega) (by omega)]

/-- A row without values of its own changes nothing. -/
theorem parseValues_of_size_zero (longBits : Nat) (subValues : List (List UInt8)) (len : Int)
    (dest : Nat) (mem : Nat → UInt8) : parseValues longBits 0 subValues len dest mem = mem := by
  induction subValues generalizing len with
  | nil => rfl
  | cons subValue subValues ih =>
      have hNone : ¬((0 : Nat) = 1 ∨ (0 : Nat) = 2 ∨ (0 : Nat) = 4) := by decide
      rw [parseValues, if_neg hNone, if_neg hNone, ih, ite_self]

end Bluetooth.Conf
