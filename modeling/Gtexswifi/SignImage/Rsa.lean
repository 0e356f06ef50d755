import Gtexswifi.SignImage.Pkcs1

/-! `RSA_PubDec`: from the bytes of key and signature to the data of the
block. A pointer is modelled by the cells from it to the end of its object. -/
namespace SignImage

open Radix

/-- The limbs that `count` groups of four bytes lay out in memory. -/
def limbsOfBytes : Nat → List UInt8 → List UInt32
  | 0, _ => []
  | count + 1, bytes =>
      UInt32.ofNat (value (bytes.take 4)) :: limbsOfBytes count (bytes.drop 4)

/-- The bytes of limbs in memory. -/
def bytesOfLimbs (limbs : List UInt32) : List UInt8 := limbs.flatMap fun w => encode 4 w.toNat

def setParameterInt (bytes : List UInt8) (iLength32 : Nat) : Except Fault SBigInt :=
  SBigInt.ofLimbs (limbsOfBytes iLength32 bytes)

/-- `invert_char` turns the bytes around for the copy, and a second time to
recover them. -/
def setParameterCharOpenssl (str : List UInt8) (strLen : Nat) : Except Fault SBigInt := do
  let bytes ← inBounds (Memory.slice str 0 strLen)
  setParameterInt bytes.reverse (strLen / 4)

/-- The return value with `RSA_M` afterwards. -/
def pubDecrypt (rsaM rsaC rsaD rsaN : SBigInt) : Except Fault (Int × SBigInt) := do
  if 0 ≤ (← cmp rsaC rsaN) then return (-1, rsaM)
  else return (1, ← rsaTrans rsaC rsaD rsaN)

/-- A parameter that is set from a pointer unless the pointer is null. -/
def setUnlessNull (str : Option (List UInt8)) (strLen : Nat) : Except Fault SBigInt :=
  match str with
  | none => .ok rsaInitialize
  | some str => setParameterCharOpenssl str strLen

/-- `RSA_M` when it is copied out: its value is used whatever `pub_Decrypt`
returned. -/
def decrypted (pubD modN : Option (List UInt8)) (byteLenN : Nat) (signature : List UInt8) :
    Except Fault SBigInt := do
  let rsaD ← setUnlessNull pubD 4
  let rsaN ← setUnlessNull modN byteLenN
  let rsaC ← setParameterCharOpenssl signature byteLenN
  let (_, rsaM) ← pubDecrypt rsaInitialize rsaC rsaD rsaN
  return rsaM

/-- The array `text[byteLenN]` after the copy of the limbs of `RSA_M` over
what the stack held, turned around. -/
def textBlock (byteLenN : Nat) (stack : Nat → UInt8) (rsaM : SBigInt) :
    Except Fault (List UInt8) := do
  let limbs ← rsaM.limbs rsaM.iLength32
  let text ← inBounds (Memory.write ((List.range byteLenN).map stack) 0 (bytesOfLimbs limbs))
  return text.reverse

/-- The block that the padding check gets. An array of no positive size is
undefined. -/
def rsaBlock (pubD modN : Option (List UInt8)) (bitLenN : Int) (signature : List UInt8)
    (stack : Nat → UInt8) : Except Fault (List UInt8) := do
  if bitLenN / 8 ≤ 0 then .error .outOfBounds
  else
    let byteLenN := (bitLenN / 8).toNat
    textBlock byteLenN stack (← decrypted pubD modN byteLenN signature)

/-- The return value with the contents of `dest` afterwards. -/
def rsaPubDec (pubD modN : Option (List UInt8)) (bitLenN : Int) (signature dest : List UInt8)
    (stack : Nat → UInt8) : Except Fault (Int × List UInt8) := do
  let byteLenN := (bitLenN / 8).toNat
  let text ← rsaBlock pubD modN bitLenN signature stack
  paddingCheckPKCS1Type1 dest byteLenN text.tail (byteLenN - 1) byteLenN

theorem base_uint8_pow : Digit.base UInt8 ^ 4 = Digit.base UInt32 := by decide

@[simp] theorem length_limbsOfBytes (count : Nat) (bytes : List UInt8) :
    (limbsOfBytes count bytes).length = count := by
  induction count generalizing bytes with
  | zero => rfl
  | succ count ih => rw [limbsOfBytes, List.length_cons, ih]

theorem value_limbsOfBytes {count : Nat} {bytes : List UInt8} (h : bytes.length = 4 * count) :
    value (limbsOfBytes count bytes) = value bytes := by
  induction count generalizing bytes with
  | zero =>
      obtain rfl := List.eq_nil_of_length_eq_zero h
      rfl
  | succ count ih =>
      have hTake : (bytes.take 4).length = 4 := by
        rw [List.length_take]
        omega
      have hWord : value (bytes.take 4) < Digit.base UInt32 := by
        rw [← base_uint8_pow]
        simpa only [hTake] using value_lt (bytes.take 4)
      conv_rhs => rw [← List.take_append_drop 4 bytes, value_append, hTake, base_uint8_pow]
      rw [limbsOfBytes, value_cons, ih (by rw [List.length_drop]; omega)]
      congr 1
      exact toNat_ofNat_of_lt (α := UInt32) hWord

@[simp] theorem length_bytesOfLimbs (limbs : List UInt32) :
    (bytesOfLimbs limbs).length = 4 * limbs.length := by
  induction limbs with
  | nil => rfl
  | cons w limbs ih =>
      rw [bytesOfLimbs, List.flatMap_cons, List.length_append, length_encode, List.length_cons]
      change 4 + (bytesOfLimbs limbs).length = _
      omega

theorem value_bytesOfLimbs (limbs : List UInt32) : value (bytesOfLimbs limbs) = value limbs := by
  induction limbs with
  | nil => rfl
  | cons w limbs ih =>
      have hWord : w.toNat < Digit.base UInt8 ^ 4 := w.toNat_lt
      rw [bytesOfLimbs, List.flatMap_cons, value_append, length_encode, value_encode_of_lt hWord,
        base_uint8_pow, value_cons]
      change _ + _ * value (bytesOfLimbs limbs) = _
      rw [ih]
      rfl

/-- What the stack held stays above the bytes of `RSA_M`, and comes first in
the block. -/
theorem textBlock_eq (byteLenN : Nat) (stack : Nat → UInt8) (rsaM : SBigInt) :
    textBlock byteLenN stack rsaM =
      if rsaM.iLength32 ≤ bigintMaxlen ∧ 4 * rsaM.iLength32 ≤ byteLenN then
        .ok (bytesOfLimbs (rsaM.ulValue.take rsaM.iLength32) ++
          ((List.range byteLenN).map stack).drop (4 * rsaM.iLength32)).reverse
      else .error .outOfBounds := by
  unfold textBlock SBigInt.limbs
  by_cases hLimbs : rsaM.iLength32 ≤ bigintMaxlen
  · have hLength : (bytesOfLimbs (rsaM.ulValue.take rsaM.iLength32)).length =
        4 * rsaM.iLength32 := by
      rw [length_bytesOfLimbs, List.length_take, rsaM.size, Nat.min_eq_left hLimbs]
    rw [if_pos hLimbs, ok_bind, Memory.write, hLength, Nat.zero_add, List.length_map,
      List.length_range]
    by_cases hFits : 4 * rsaM.iLength32 ≤ byteLenN
    · rw [if_pos hFits, if_pos ⟨hLimbs, hFits⟩]
      rfl
    · rw [if_neg hFits, if_neg fun h => hFits h.2]
      rfl
  · rw [if_neg hLimbs, if_neg fun h => hLimbs h.1]
    rfl

theorem length_of_textBlock {byteLenN : Nat} {stack : Nat → UInt8} {rsaM : SBigInt}
    {text : List UInt8} (h : textBlock byteLenN stack rsaM = .ok text) :
    text.length = byteLenN := by
  rw [textBlock_eq] at h
  split_ifs at h with hFits
  obtain rfl := Except.ok.inj h
  rw [List.length_reverse, List.length_append, length_bytesOfLimbs, List.length_take, rsaM.size,
    Nat.min_eq_left hFits.1, List.length_drop, List.length_map, List.length_range]
  omega

/-- Fewer than four bytes hold no limb, and the one that `RSA_M` was
initialised with does not fit them. -/
theorem textBlock_short {byteLenN : Nat} (h : byteLenN < 4) {pubD modN signature : List UInt8}
    {stack : Nat → UInt8} {text : List UInt8} :
    decrypted (some pubD) (some modN) byteLenN signature >>= textBlock byteLenN stack ≠
      .ok text := by
  intro hText
  obtain ⟨rsaM, hM, hText⟩ := bind_eq_ok.mp hText
  obtain ⟨rsaD, -, hM⟩ := bind_eq_ok.mp hM
  obtain ⟨rsaN, hN, hM⟩ := bind_eq_ok.mp hM
  obtain ⟨rsaC, hC, hM⟩ := bind_eq_ok.mp hM
  have hEmpty {str : List UInt8} {x : SBigInt}
      (hx : setParameterCharOpenssl str byteLenN = .ok x) : x.iLength32 = 0 := by
    obtain ⟨bytes, -, hx⟩ := bind_eq_ok.mp hx
    rw [setParameterInt, Nat.div_eq_of_lt h] at hx
    obtain rfl := Except.ok.inj hx
    rfl
  have hCmp : cmp rsaC rsaN = .ok 0 := by
    rw [cmp, hEmpty hC, hEmpty hN]
    rfl
  rw [pubDecrypt, hCmp] at hM
  obtain rfl : rsaInitialize = rsaM := Except.ok.inj hM
  have hOne : rsaInitialize.iLength32 = 1 := rfl
  rw [textBlock_eq, if_neg (by rw [hOne]; omega)] at hText
  cases hText

/-- `RSA_PubDec` parses the block and stores its data. -/
theorem rsaPubDec_eq (pubD modN : List UInt8) (bitLenN : Int) (signature dest : List UInt8)
    (stack : Nat → UInt8) :
    rsaPubDec (some pubD) (some modN) bitLenN signature dest stack = do
      let text ← rsaBlock (some pubD) (some modN) bitLenN signature stack
      match payload text with
      | none => .ok (-1, dest)
      | some data => do return ((data.length : Int), ← inBounds (Memory.write dest 0 data)) := by
  unfold rsaPubDec
  cases hBlock : rsaBlock (some pubD) (some modN) bitLenN signature stack with
  | error fault => rfl
  | ok text =>
      unfold rsaBlock at hBlock
      split_ifs at hBlock with hNone
      have hLong : 4 ≤ (bitLenN / 8).toNat := by
        by_contra hShort
        exact textBlock_short (Nat.lt_of_not_le hShort) hBlock
      obtain ⟨rsaM, -, hText⟩ := bind_eq_ok.mp hBlock
      have hLength := length_of_textBlock hText
      rw [ok_bind, ok_bind, ← hLength]
      exact paddingCheck_eq (by omega)

/-- The big-endian notation of a number in a block of bytes. -/
def bigEndian (byteLen v : Nat) : List UInt8 := (encode byteLen v).reverse

@[simp] theorem length_bigEndian (byteLen v : Nat) : (bigEndian byteLen v).length = byteLen := by
  rw [bigEndian, List.length_reverse, length_encode]

/-- The number that bytes stand for, the most significant one first. -/
def bigEndianValue (bytes : List UInt8) : Nat := value bytes.reverse

theorem bigEndianValue_cons (b : UInt8) (bytes : List UInt8) : bigEndianValue (b :: bytes) =
    bigEndianValue bytes + Digit.base UInt8 ^ bytes.length * b.toNat := by
  rw [bigEndianValue, List.reverse_cons, value_append, value_singleton, List.length_reverse]
  rfl

theorem bigEndianValue_lt (bytes : List UInt8) :
    bigEndianValue bytes < Digit.base UInt8 ^ bytes.length := by
  have hValue := value_lt bytes.reverse
  rwa [List.length_reverse] at hValue

theorem bigEndianValue_bigEndian (byteLen v : Nat) :
    bigEndianValue (bigEndian byteLen v) = v % Digit.base UInt8 ^ byteLen := by
  rw [bigEndianValue, bigEndian, List.reverse_reverse, value_encode]

theorem tail_bigEndian (byteLen v : Nat) : (bigEndian (byteLen + 1) v).tail = bigEndian byteLen v := by
  rw [bigEndian, encode_add, List.reverse_append]
  rfl

theorem bigEndian_value {bytes : List UInt8} : bigEndian bytes.length (bigEndianValue bytes) =
    bytes := by
  rw [bigEndian, bigEndianValue, ← List.length_reverse, encode_value, List.reverse_reverse]

/-- The notation of a number is the one of the bytes when the number agrees
with them in as many low bytes. -/
theorem bigEndian_eq_iff {bytes : List UInt8} {v : Nat} :
    bigEndian bytes.length v = bytes ↔
      v % Digit.base UInt8 ^ bytes.length = bigEndianValue bytes := by
  constructor
  · intro hBytes
    rw [← bigEndianValue_bigEndian, hBytes]
  · intro hValue
    have hSame : bigEndian (bigEndian bytes.length v).length
        (bigEndianValue (bigEndian bytes.length v)) = bigEndian bytes.length v := bigEndian_value
    rwa [length_bigEndian, bigEndianValue_bigEndian, hValue, bigEndian_value, eq_comm] at hSame

end SignImage
