import Gtexswifi.Bluetooth.Sr2351

/-! The Bluetooth address from its file, by the way of `read_mac_address`
and `set_mac_address`. -/
namespace Bluetooth.Conf

open Numerals

def macAddrFileLen : Nat := 25

/-- `strlen("FF:FF:FF:FF:FF:FF")` -/
def macAddrBufLen : Nat := 17

/-- What becomes of the calls of `access`, `open` and `read`. -/
inductive MacAddrFile
  | missing
  | unopened
  | unreadable
  | delivered (bytes : List UInt8) (fits : bytes.length ≤ macAddrBufLen)

/-- What `%02X` makes of a text. -/
inductive Conversion
  | eof
  | mismatch
  | value (value : Nat) (rest : List UInt8)
  deriving DecidableEq

/-- Behind white space, at most two characters are a number: digits, or a
sign and a digit. The mark `0x` without a digit is none. -/
def scanHex (text : List UInt8) : Conversion :=
  match text.dropWhile isSpace with
  | [] => .eof
  | [c] => if digitValue c < 16 then .value (digitValue c) [] else .mismatch
  | c :: d :: rest =>
      if digitValue c < 16 then
        if digitValue d < 16 then .value (16 * digitValue c + digitValue d) rest
        else if c = 0x30 ∧ (d = 0x78 ∨ d = 0x58) then .mismatch
        else .value (digitValue c) (d :: rest)
      else if c = 0x2b ∧ digitValue d < 16 then .value (digitValue d) rest
      else if c = 0x2d ∧ digitValue d < 16 then .value ((2 ^ 32 - digitValue d) % 2 ^ 32) rest
      else .mismatch

/-- The values of at most `n` fields with colons between them. -/
def scanFields : Nat → List UInt8 → List Nat
  | 0, _ => []
  | n + 1, text =>
      match scanHex text with
      | .value value (0x3a :: rest) => value :: scanFields n rest
      | .value value _ => [value]
      | _ => []

/-- `sscanf(..., "%02X:%02X:%02X:%02X:%02X:%02X", ...)`, with `none` for
`EOF`. -/
def scanMacAddress (text : List UInt8) : Option (List Nat) :=
  if scanHex text = .eof then none else some (scanFields macAddrLen text)

/-- The buffer up to its first zero. It is larger than what is read. -/
def macText (bytes : List UInt8) : List UInt8 :=
  cString (bytes ++ List.replicate (macAddrFileLen - bytes.length) 0)

def readMacAddress (file : MacAddrFile) (addr : Vector UInt8 macAddrLen) :
    Vector UInt8 macAddrLen :=
  match file with
  | .missing => addr
  | .unopened => addr
  | .unreadable => addr
  | .delivered bytes _ =>
      match scanMacAddress (macText bytes) with
      | none => addr
      -- a field that is not converted is zero
      | some fields => Vector.ofFn fun i => UInt8.ofNat (fields.getD i 0)

/-- What `set_mac_address` reads, where `access` finds the file. -/
def MacAddrFile.address : MacAddrFile → Option (Vector UInt8 macAddrLen)
  | missing => none
  | file => some (readMacAddress file (Vector.replicate macAddrLen 0))

/-- The file has six fields, and all of them are converted. -/
def MacAddrFile.Complete (file : MacAddrFile) (fields : List Nat) : Prop :=
  ∃ bytes fits, file = delivered bytes fits ∧ scanMacAddress (macText bytes) = some fields ∧
    fields.length = macAddrLen

def deviceAddr (adapter : Adapter) (mem : Nat → UInt8) : List UInt8 :=
  Bytes.fetch mem adapter.deviceAddr macAddrLen

/-- After `sprd_vnd_reload` the address is the one that was loaded, or the
fields of the file in reversed order. -/
def AllOrNothing (adapter : Adapter) (file : MacAddrFile) : Prop :=
  ∀ (device : Device) (mem : Nat → UInt8), device.macAddress = file.address →
    deviceAddr adapter (sprdVndReload adapter device mem) = deviceAddr adapter mem ∨
      ∃ fields, file.Complete fields ∧
        deviceAddr adapter (sprdVndReload adapter device mem) =
          (fields.map UInt8.ofNat).reverse

/-- The fields of a complete address are what is read. -/
theorem readMacAddress_complete {file : MacAddrFile} {fields : List Nat}
    (h : file.Complete fields) (addr : Vector UInt8 macAddrLen) :
    (readMacAddress file addr).toList = fields.map UInt8.ofNat := by
  obtain ⟨bytes, fits, rfl, hScan, hLength⟩ := h
  rw [readMacAddress, hScan]
  apply List.ext_getElem
  · simp [hLength]
  · intro i hi hi'
    have hInside : i < fields.length := by simpa using hi'
    simp [hInside]

/-- What is read of the other files is the same list, whatever has been
loaded. -/
theorem MacAddrFile.address_ne_missing {file : MacAddrFile} (h : file ≠ missing) :
    file.address = some (readMacAddress file (Vector.replicate macAddrLen 0)) := by
  cases file with
  | missing => exact absurd rfl h
  | unopened => rfl
  | unreadable => rfl
  | delivered bytes fits => rfl

section Reload

variable {m : AdapterModule} {device : Device}

/-- The property for simple pairing changes no byte of the address. -/
theorem deviceAddr_reload (m : AdapterModule) (device : Device) (mem : Nat → UInt8) :
    deviceAddr m.adapter (sprdVndReload m.adapter device mem) =
      match device.macAddress with
      | none => deviceAddr m.adapter mem
      | some macAddress => macAddress.toList.reverse := by
  have hApart : m.adapter.deviceAddr + macAddrLen ≤ m.adapter.featureSet + 6 ∨
      m.adapter.featureSet + 6 + 1 ≤ m.adapter.deviceAddr := by
    cases m <;> decide +kernel
  have hSet : deviceAddr m.adapter (setMacAddress m.adapter.deviceAddr device mem) =
      match device.macAddress with
      | none => deviceAddr m.adapter mem
      | some macAddress => macAddress.toList.reverse := by
    rw [setMacAddress]
    cases device.macAddress with
    | none => rfl
    | some macAddress =>
        have hFetch := Bytes.fetch_store mem m.adapter.deviceAddr
          (macAddressStreamCompose macAddress).toList
        rw [Vector.length_toList] at hFetch
        exact hFetch.trans (macAddressStreamCompose_toList macAddress)
  rw [sprdVndReload]
  split
  · rw [deviceAddr, Bytes.fetch_store_of_disjoint _ hApart]
    exact hSet
  · exact hSet

/-- The address is taken as a whole or left as it is exactly if there is no
file, or if the file is read and all its fields are converted. -/
theorem allOrNothing_iff (m : AdapterModule) (file : MacAddrFile) :
    AllOrNothing m.adapter file ↔ file = .missing ∨ ∃ fields, file.Complete fields := by
  constructor
  · intro hAll
    by_contra hNot
    obtain ⟨hFile, hNone⟩ := not_or.mp hNot
    have hAddress := MacAddrFile.address_ne_missing hFile
    generalize readMacAddress file (Vector.replicate macAddrLen 0) = macAddress at hAddress
    let device : Device := ⟨file.address, false, []⟩
    -- what had been loaded differs in the first byte
    let mem : Nat → UInt8 := fun _ => macAddress.toList.reverse.headD 0 + 1
    rcases hAll device mem rfl with hSame | ⟨fields, hFields, -⟩
    · rw [deviceAddr_reload] at hSame
      dsimp only [device] at hSame
      rw [hAddress] at hSame
      have hHead := congrArg (List.headD · 0) hSame
      simp [deviceAddr, Bytes.fetch, mem, macAddrLen] at hHead
    · exact hNone ⟨fields, hFields⟩
  · rintro (rfl | ⟨fields, hFields⟩) device mem hDevice
    · left
      rw [deviceAddr_reload, hDevice]
      rfl
    · right
      refine ⟨fields, hFields, ?_⟩
      have hFile : file ≠ .missing := by
        rintro rfl
        obtain ⟨_, _, hDelivered, _⟩ := hFields
        cases hDelivered
      rw [deviceAddr_reload, hDevice, MacAddrFile.address_ne_missing hFile]
      dsimp only
      rw [readMacAddress_complete hFields]

end Reload

/-- A file that ends behind the third field. -/
def threeFields : MacAddrFile := .delivered (ascii "AA:BB:CC") (by decide)

/-- A file with three fields sets a half of the address and leaves zeros in
the other half. -/
theorem threeFields_mixes : ¬AllOrNothing AdapterModule.marlin2.adapter threeFields := by
  intro hAll
  let device : Device := ⟨threeFields.address, false, []⟩
  have hAddress : threeFields.address =
      some (⟨#[0xaa, 0xbb, 0xcc, 0, 0, 0], rfl⟩ : Vector UInt8 macAddrLen) := by decide +kernel
  have hScan : scanMacAddress (macText (ascii "AA:BB:CC")) = some [0xaa, 0xbb, 0xcc] := by
    decide +kernel
  rcases hAll device (fun _ => 1) rfl with hSame | ⟨fields, ⟨bytes, fits, hBytes, hFields, hSix⟩, -⟩
  · rw [deviceAddr_reload] at hSame
    dsimp only [device] at hSame
    rw [hAddress] at hSame
    exact absurd hSame (by decide)
  · obtain rfl := (MacAddrFile.delivered.inj hBytes)
    rw [hScan] at hFields
    obtain rfl := Option.some.inj hFields
    exact absurd hSix (by decide)

end Bluetooth.Conf
