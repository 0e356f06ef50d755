import Gtexswifi.Library.Numerals

/-! The tokenizer of AT responses, and the hexadecimal form of the payloads.
A cursor is the rest of the line, or `NULL` behind its last token. -/
namespace Agps

/-- The rest of a line, or `NULL`. -/
abbrev Cursor : Type := Option (List UInt8)

/-- `strsep` with one delimiter: the token in front of it, and the rest
behind it. -/
def strsep (cur : Cursor) (delim : UInt8) : Option (List UInt8) × Cursor :=
  match cur with
  | none => (none, none)
  | some text =>
      (some (text.takeWhile (· ≠ delim)),
        if delim ∈ text then some ((text.dropWhile (· ≠ delim)).drop 1) else none)

def strStartsWith : List UInt8 → List UInt8 → Bool
  | c :: line, d :: start => if c ≠ d then false else strStartsWith line start
  | _, start => start.isEmpty

/-- The index of the first `src` in `dst`, or `none` for a negative result. -/
def findString : List UInt8 → List UInt8 → Option Nat
  | [], _ => none
  | c :: dst, src =>
      if (c :: dst).take src.length = src then some 0 else (findString dst src).map (· + 1)

/-- Skip `":"`. -/
def atTokStart (cur : List UInt8) : Option (List UInt8) :=
  (findString cur [0x3a]).map fun ret => cur.drop (ret + 1)

def getCurrentTok (cur : Cursor) : Option (List UInt8) × Cursor :=
  match cur.map (·.dropWhile Numerals.isSpace) with
  | none => (none, none)
  | some text =>
      if strStartsWith text [0x22] = true then
        let (tmp, cur) := strsep (some (text.drop 1)) 0x22
        (tmp, (strsep cur 0x2c).2)
      else if strStartsWith text [0x0a] = true then
        let (tmp, cur) := strsep (some (text.drop 1)) 0x0a
        (tmp, (strsep cur 0x2c).2)
      else strsep (some text) 0x2c

/-- `(int)strtol(..)`, where a `long` has `longBits` bits. -/
def toInt (longBits : Nat) (tok : List UInt8) : Int32 :=
  Int32.ofInt (Numerals.strtol longBits tok)

/-- The integer and the cursor behind it, or the negative result. -/
def parseNextint (longBits : Nat) (cur : Cursor) : Except Int (Int32 × Cursor) :=
  match cur with
  | none => .error (-1)
  | some _ =>
      match getCurrentTok cur with
      | (none, _) => .error (-2)
      | (some pcur, cur) => .ok (toInt longBits pcur, cur)

def parseNextstr (cur : Cursor) : Option (List UInt8) × Cursor := getCurrentTok cur

/-- One half of `SemiByteCharsToByte`. -/
def semiByte (c : UInt8) : UInt8 :=
  if 0x30 ≤ c ∧ c ≤ 0x39 then c - 0x30
  else if c ≤ 0x46 ∧ 0x41 ≤ c then 0x0a + c - 0x41
  else 0x0a + c - 0x61

def semiByteCharsToByte (chHigh chLow : UInt8) : UInt8 := semiByte chHigh <<< 4 ||| semiByte chLow

/-- The loop of `GSMHexToGSM`: the bytes of the pairs of characters, at most
`cbOut`. -/
def hexBytes : List UInt8 → Nat → List UInt8
  | chHigh :: chLow :: sIn, cbOut + 1 => semiByteCharsToByte chHigh chLow :: hexBytes sIn cbOut
  | _, _ => []

/-- The output buffer afterwards, and how many of its bytes were converted.
The number of characters is an `unsigned int`. -/
def gsmHexToGSM (sIn sOut : List UInt8) (cbOut : Nat) : List UInt8 × Nat :=
  let converted := hexBytes (sIn.take (sIn.length % 2 ^ 32)) cbOut
  (converted ++ sOut.drop converted.length, converted.length)

/-- `"%02x"` for every byte of a payload, as
`agps_c_plane_stack_network_ulreq` writes them. -/
def hexText (payload : List UInt8) : List UInt8 :=
  payload.flatMap fun b => [Numerals.digit (b.toNat / 16), Numerals.digit (b.toNat % 16)]

theorem semiByte_digit {d : Nat} (h : d < 16) : semiByte (Numerals.digit d) = UInt8.ofNat d := by
  have hAll : ∀ d < 16, semiByte (Numerals.digit d) = UInt8.ofNat d := by decide
  exact hAll d h

theorem semiByteCharsToByte_digits (b : UInt8) :
    semiByteCharsToByte (Numerals.digit (b.toNat / 16)) (Numerals.digit (b.toNat % 16)) = b := by
  have hAll : ∀ n < 256, UInt8.ofNat (n / 16) <<< 4 ||| UInt8.ofNat (n % 16) = UInt8.ofNat n := by
    decide +kernel
  have hLt : b.toNat < 256 := b.toNat_lt
  rw [semiByteCharsToByte, semiByte_digit (by omega), semiByte_digit (by omega), hAll _ hLt,
    UInt8.ofNat_toNat]

theorem length_hexText (payload : List UInt8) : (hexText payload).length = 2 * payload.length := by
  induction payload with
  | nil => rfl
  | cons b payload ih =>
      have hCons : hexText (b :: payload) =
          Numerals.digit (b.toNat / 16) :: Numerals.digit (b.toNat % 16) :: hexText payload := rfl
      rw [hCons, List.length_cons, List.length_cons, ih, List.length_cons]
      omega

/-- The conversion gives the payload back, as far as the buffer goes. -/
theorem hexBytes_hexText (payload : List UInt8) (cbOut : Nat) :
    hexBytes (hexText payload) cbOut = payload.take cbOut := by
  induction payload generalizing cbOut with
  | nil => cases cbOut <;> rfl
  | cons b payload ih =>
      cases cbOut with
      | zero => rfl
      | succ cbOut =>
          change semiByteCharsToByte _ _ :: hexBytes (hexText payload) cbOut = _
          rw [semiByteCharsToByte_digits, ih]
          rfl

/-- Decoding gives back the payload as far as there is room for it. The rest
of the buffer keeps what it held. -/
theorem gsmHexToGSM_hexText {payload : List UInt8} (hLength : 2 * payload.length < 2 ^ 32)
    (sOut : List UInt8) (cbOut : Nat) :
    gsmHexToGSM (hexText payload) sOut cbOut =
      (payload.take cbOut ++ sOut.drop (payload.take cbOut).length,
        (payload.take cbOut).length) := by
  rw [gsmHexToGSM, length_hexText, Nat.mod_eq_of_lt hLength, ← length_hexText, List.take_length,
    hexBytes_hexText]

end Agps
