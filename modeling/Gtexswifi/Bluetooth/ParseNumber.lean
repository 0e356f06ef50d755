import Gtexswifi.Bluetooth.Assignments
import Gtexswifi.Library.Loops

/-! The loop of `parse_number` pass by pass, with the calls of `strtok_r` in
it, and what it writes: the elements of its field that the text has values
for, and nothing else. -/
namespace Bluetooth.Conf

/-- The variables of the loop. A token comes with the text that `strtok_r`
is to go on with. The count is an `int`, which starts at zero in the row of
`pskey_cmd` and goes below. -/
structure NumberLoop where
  subValue : Option (List UInt8 × List UInt8)
  len : Int32
  dest : Nat
  mem : Nat → UInt8

/-- The `switch` on the size: a store of the low bytes, and the next
destination. -/
def writeElement (size value dest : Nat) (mem : Nat → UInt8) : Nat × (Nat → UInt8) :=
  match size with
  | 1 => (dest + 1, Bytes.store mem dest (Radix.encode 1 (value % 2 ^ 8)))
  | 2 => (dest + 2, Bytes.store mem dest (Radix.encode 2 (value % 2 ^ 16)))
  | 4 => (dest + 4, Bytes.store mem dest (Radix.encode 4 (value % 2 ^ 32)))
  | _ => (dest, mem)

/-- One pass. The next token is taken before the count is lowered and looked
at. -/
def numberPass (longBits size : Nat) (loop : NumberLoop) : NumberLoop ⊕ (Nat → UInt8) :=
  match loop.subValue with
  | none => .inr loop.mem
  | some (subValue, rest) =>
      let (dest, mem) := writeElement size (parseValue longBits subValue) loop.dest loop.mem
      let subValue := Tokens.strtokR confValuesPartition rest
      let len := loop.len - 1
      if len = 0 then .inr mem else .inl { subValue, len, dest, mem }

/-- `parse_number`, given up behind a number of passes. -/
def parseNumberLoop (longBits : Nat) (confValue : List UInt8) (buf : Nat) (len : Int32) (size : Nat)
    (mem : Nat → UInt8) (passes : Nat) : Option (Nat → UInt8) :=
  Loops.run (numberPass longBits size) passes
    { subValue := Tokens.strtokR confValuesPartition confValue, len, dest := buf, mem }

/-- The words of a text, as `strtok_r` delimits them. -/
def valueTokens (value : List UInt8) : List (List UInt8) :=
  (value.splitOnP (· ∈ confValuesPartition)).filter (· ≠ [])

/-- The number that a word stands for: hexadecimal behind `0x` or `0X`, else
decimal. -/
def tokenValue (longBits : Nat) (token : List UInt8) : Nat :=
  Numerals.strtoul longBits
    (if [0x30, 0x78] <+: token ∨ [0x30, 0x58] <+: token then 16 else 10) token

/-- The call ends, with this memory. No more passes are needed than the text
has characters, and one to see that there is no token. -/
def Ends (longBits : Nat) (value : List UInt8) (buf : Nat) (n : Int32) (size : Nat)
    (mem mem' : Nat → UInt8) : Prop :=
  ∀ passes, value.length < passes →
    parseNumberLoop longBits value buf n size mem passes = some mem'

/-- The first elements of a field of `n` elements are the numbers of a text,
as many as there are, and all other memory is as it was. -/
structure WritesField (longBits : Nat) (value : List UInt8) (buf n size : Nat)
    (mem mem' : Nat → UInt8) : Prop where
  written : ∀ (j : Nat) (hj : j < (valueTokens value).length), j < n →
    Bytes.fetch mem' (buf + j * size) size =
      Radix.encode size (tokenValue longBits (valueTokens value)[j] % 2 ^ (8 * size))
  kept : ∀ a, a < buf ∨ buf + min n (valueTokens value).length * size ≤ a → mem' a = mem a

theorem toInt_pred {len : Int32} (h : 0 < len) : (len - 1).toInt = len.toInt - 1 := by
  have hPos : 0 < len.toInt := Int32.lt_iff_toInt_lt.mp h
  have hOne : (1 : Int32) ≤ len := Int32.le_iff_toInt_le.mpr hPos
  exact Int32.toInt_sub_of_le len 1 (by decide) hOne

/-- The value is that of `strtoul`, cut to the 32 bits of the variable that
takes it. -/
theorem parseValue_eq (longBits : Nat) (token : List UInt8) :
    parseValue longBits token = tokenValue longBits token % 2 ^ 32 := by
  unfold parseValue tokenValue
  split
  · next x rest =>
      have hMark : [0x30, 0x78] <+: 0x30 :: x :: rest ∨ [0x30, 0x58] <+: 0x30 :: x :: rest ↔
          x = 0x78 ∨ x = 0x58 := by
        simp [eq_comm]
      split
      · next hHex => rw [if_pos (hMark.mpr hHex)]
      · next hDecimal => rw [if_neg (mt hMark.mp hDecimal)]
  · next hOther =>
      have hNoMark : ∀ x, ¬[0x30, x] <+: token := by
        rintro x ⟨rest, rfl⟩
        exact hOther x rest rfl
      rw [if_neg (not_or.mpr ⟨hNoMark 0x78, hNoMark 0x58⟩)]

/-- The masks leave the bytes that are stored anyway. -/
theorem writeElement_eq {size : Nat} (hSize : size = 1 ∨ size = 2 ∨ size = 4) (value dest : Nat)
    (mem : Nat → UInt8) :
    writeElement size value dest mem =
      (dest + size, Bytes.store mem dest (Radix.encode size value)) := by
  rcases hSize with rfl | rfl | rfl
  · rw [← Radix.encode_mod_two_pow 1 value]
    rfl
  · rw [← Radix.encode_mod_two_pow 2 value]
    rfl
  · rw [← Radix.encode_mod_two_pow 4 value]
    rfl

/-- With a size that is none of 1, 2 and 4 nothing is stored, and the
pointer stays. -/
theorem writeElement_zero (value dest : Nat) (mem : Nat → UInt8) :
    writeElement 0 value dest mem = (dest, mem) := rfl

/-- The tokens that are left, with the one that is taken already. -/
def leftTokens : Option (List UInt8 × List UInt8) → List (List UInt8)
  | none => []
  | some (subValue, rest) => subValue :: Tokens.tokens confValuesPartition rest

/-- The token that `strtok_r` has returned and those behind it are the
tokens of the text. -/
theorem leftTokens_strtokR (text : List UInt8) :
    leftTokens (Tokens.strtokR confValuesPartition text) =
      Tokens.tokens confValuesPartition text := by
  rw [Tokens.tokens_eq]
  cases Tokens.strtokR confValuesPartition text with
  | none => rfl
  | some next => rfl

/-- A bound of the passes that are left, which every token lowers. -/
def leftPasses : Option (List UInt8 × List UInt8) → Nat
  | none => 0
  | some (_, rest) => rest.length + 1

theorem leftPasses_strtokR (text : List UInt8) :
    leftPasses (Tokens.strtokR confValuesPartition text) ≤ text.length := by
  cases hToken : Tokens.strtokR confValuesPartition text with
  | none => exact Nat.zero_le _
  | some next => exact Tokens.length_strtokR hToken

/-- A pass with a token. -/
theorem numberPass_some {longBits size : Nat} {loop : NumberLoop} {subValue rest : List UInt8}
    (h : loop.subValue = some (subValue, rest)) :
    numberPass longBits size loop =
      if loop.len - 1 = 0 then
        .inr (writeElement size (parseValue longBits subValue) loop.dest loop.mem).2
      else .inl {
        subValue := Tokens.strtokR confValuesPartition rest
        len := loop.len - 1
        dest := (writeElement size (parseValue longBits subValue) loop.dest loop.mem).1
        mem := (writeElement size (parseValue longBits subValue) loop.dest loop.mem).2 } := by
  unfold numberPass
  rw [h]

/-- A pass that goes on has had a token, has counted it, and has stored its
value. -/
theorem numberPass_next {longBits size : Nat} {loop next : NumberLoop}
    (h : numberPass longBits size loop = .inl next) :
    ∃ subValue rest, loop.subValue = some (subValue, rest) ∧ loop.len - 1 ≠ 0 ∧
      next = {
        subValue := Tokens.strtokR confValuesPartition rest
        len := loop.len - 1
        dest := (writeElement size (parseValue longBits subValue) loop.dest loop.mem).1
        mem := (writeElement size (parseValue longBits subValue) loop.dest loop.mem).2 } := by
  cases hToken : loop.subValue with
  | none =>
      rw [numberPass, hToken] at h
      cases h
  | some token =>
      obtain ⟨subValue, rest⟩ := token
      rw [numberPass_some hToken] at h
      split at h
      · cases h
      · next hMore => exact ⟨subValue, rest, rfl, hMore, (Sum.inl.inj h).symm⟩

/-- The loop ends where there is no further token, or where the count has
come to zero behind the last store. -/
theorem numberPass_end {longBits size : Nat} {loop : NumberLoop} {mem : Nat → UInt8}
    (h : numberPass longBits size loop = .inr mem) :
    (loop.subValue = none ∧ mem = loop.mem) ∨
      ∃ subValue rest, loop.subValue = some (subValue, rest) ∧ loop.len - 1 = 0 ∧
        mem = (writeElement size (parseValue longBits subValue) loop.dest loop.mem).2 := by
  cases hToken : loop.subValue with
  | none =>
      rw [numberPass, hToken] at h
      exact Or.inl ⟨rfl, (Sum.inr.inj h).symm⟩
  | some token =>
      obtain ⟨subValue, rest⟩ := token
      rw [numberPass_some hToken] at h
      split at h
      · next hLast => exact Or.inr ⟨subValue, rest, rfl, hLast, (Sum.inr.inj h).symm⟩
      · cases h

/-- Every pass that goes on has taken a token from the text. -/
theorem leftPasses_next {longBits size : Nat} {loop next : NumberLoop}
    (h : numberPass longBits size loop = .inl next) :
    leftPasses next.subValue < leftPasses loop.subValue := by
  obtain ⟨subValue, rest, hToken, -, rfl⟩ := numberPass_next h
  rw [hToken]
  exact Nat.lt_succ_of_le (leftPasses_strtokR rest)

/-- The loop ends where every pass keeps an invariant. -/
theorem ends_of_invariant (Inv : NumberLoop → Prop) {longBits size : Nat} {mem' : Nat → UInt8}
    (hNext : ∀ loop next, Inv loop → numberPass longBits size loop = .inl next → Inv next)
    (hEnd : ∀ loop result, Inv loop → numberPass longBits size loop = .inr result → result = mem')
    {value : List UInt8} {buf : Nat} {n : Int32} {mem : Nat → UInt8}
    (hInv : Inv {
      subValue := Tokens.strtokR confValuesPartition value, len := n, dest := buf, mem }) :
    Ends longBits value buf n size mem mem' := by
  intro passes hPasses
  obtain ⟨result, hRun, hResult⟩ := Loops.run_of_invariant Inv (· = mem')
    (fun loop => leftPasses loop.subValue)
    (fun loop next hLoop hPass => ⟨hNext loop next hLoop hPass, leftPasses_next hPass⟩)
    hEnd hInv ((leftPasses_strtokR value).trans_lt hPasses)
  rw [parseNumberLoop, hRun, hResult]

/-- A row without a size of its own leaves the memory alone, with any count. -/
theorem ends_of_size_zero (longBits : Nat) (value : List UInt8) (buf : Nat) (n : Int32)
    (mem : Nat → UInt8) : Ends longBits value buf n 0 mem mem := by
  apply ends_of_invariant fun loop => loop.mem = mem
  · intro loop next hMem hPass
    obtain ⟨subValue, rest, -, -, rfl⟩ := numberPass_next hPass
    rw [← hMem, writeElement_zero]
  · intro loop result hMem hPass
    rcases numberPass_end hPass with ⟨-, rfl⟩ | ⟨subValue, rest, -, -, rfl⟩
    · exact hMem
    · exact hMem
  · rfl

/-- The loop does what the walk over the list of tokens does. -/
theorem ends_parseNumber {size : Nat} (hSize : size = 1 ∨ size = 2 ∨ size = 4) {n : Int32}
    (hn : 0 < n) (longBits : Nat) (value : List UInt8) (buf : Nat) (mem : Nat → UInt8) :
    Ends longBits value buf n size mem (parseNumber longBits value buf n.toInt size mem) := by
  apply ends_of_invariant fun loop => 0 < loop.len ∧
    parseValues longBits size (leftTokens loop.subValue) loop.len.toInt loop.dest loop.mem =
      parseNumber longBits value buf n.toInt size mem
  · rintro loop next ⟨hLen, hWalk⟩ hPass
    obtain ⟨subValue, rest, hToken, hMore, rfl⟩ := numberPass_next hPass
    have hPred := toInt_pred hLen
    have hNonzero : ¬loop.len.toInt - 1 = 0 := fun hZero =>
      hMore (Int32.toInt_inj.mp (hPred.trans hZero))
    rw [hToken, leftTokens, parseValues, if_pos hSize, if_pos hSize, if_neg hNonzero] at hWalk
    constructor
    · have hPos : 0 < loop.len.toInt := Int32.lt_iff_toInt_lt.mp hLen
      exact Int32.lt_iff_toInt_lt.mpr (show 0 < (loop.len - 1).toInt by omega)
    · rw [leftTokens_strtokR, hPred, writeElement_eq hSize]
      exact hWalk
  · rintro loop result ⟨hLen, hWalk⟩ hPass
    rcases numberPass_end hPass with ⟨hNone, rfl⟩ | ⟨subValue, rest, hToken, hLast, rfl⟩
    · rwa [hNone, leftTokens, parseValues] at hWalk
    · have hZero : loop.len.toInt - 1 = 0 := (toInt_pred hLen).symm.trans (congrArg _ hLast)
      rw [hToken, leftTokens, parseValues, if_pos hSize, if_pos hSize, if_pos hZero] at hWalk
      rw [writeElement_eq hSize]
      exact hWalk
  · exact ⟨hn, by rw [leftTokens_strtokR]; rfl⟩

/-- The tokens of the specification, which cuts at all the delimiters and
drops what is empty, are those of `strtok_r`. -/
theorem valueTokens_eq (value : List UInt8) :
    valueTokens value = Tokens.tokens confValuesPartition value :=
  Tokens.filter_splitOnP confValuesPartition value

/-- An element takes the low bytes of the number. -/
theorem encode_parseValue {size : Nat} (hSize : size = 1 ∨ size = 2 ∨ size = 4) (longBits : Nat)
    (token : List UInt8) :
    (Radix.encode size (parseValue longBits token) : List UInt8) =
      Radix.encode size (tokenValue longBits token % 2 ^ (8 * size)) := by
  have hBytes : size ≤ 4 := by omega
  rw [parseValue_eq, Radix.encode_mod_two_pow]
  exact Radix.encode_mod_of_le hBytes _

/-- The loop writes the field element by element, up to the shorter of the
list of values and the row. -/
theorem writesField_parseNumber {size : Nat} (hSize : size = 1 ∨ size = 2 ∨ size = 4) {len : Int}
    (hLen : 0 < len) (longBits : Nat) (value : List UInt8) (buf : Nat) (mem : Nat → UInt8) :
    WritesField longBits value buf len.toNat size mem
      (parseNumber longBits value buf len size mem) := by
  have hEntry : AdapterModule.TakesValues ⟨none, buf, len, size⟩ := Or.inl ⟨hLen, hSize⟩
  have hStored : parseNumber longBits value buf len size mem = Bytes.store mem buf _ :=
    parseNumber_eq hEntry longBits value mem
  constructor
  · intro j hj hRoom
    have hElements : ∀ element ∈ ((valueTokens value).take len.toNat).map fun token =>
        (Radix.encode size (parseValue longBits token) : List UInt8), element.length = size := by
      intro element hElement
      obtain ⟨token, -, rfl⟩ := List.mem_map.mp hElement
      exact Radix.length_encode size _
    have hFetch := Bytes.fetch_store_array mem buf hElements j
    rw [List.getD_eq_getElem _ _ (by simp; omega), List.getElem_map, List.getElem_take,
      encode_parseValue hSize] at hFetch
    rw [hStored, ← hFetch, valueTokens_eq]
    rfl
  · intro a ha
    rw [hStored]
    rcases ha with hBefore | hBehind
    · exact Bytes.store_before mem _ hBefore
    · apply Bytes.store_behind
      rw [length_cells, ← valueTokens_eq]
      exact hBehind

/-- `parse_number` writes the elements of its field that the text has values
for, and nothing else. With the row of `pskey_cmd` it writes nothing. -/
theorem parse_number_writes_field (longBits : Nat) (value : List UInt8) (buf : Nat) (n : Int32)
    (size : Nat) (mem : Nat → UInt8) :
    (0 < n → size = 1 ∨ size = 2 ∨ size = 4 → ∃ mem', Ends longBits value buf n size mem mem' ∧
      WritesField longBits value buf n.toInt.toNat size mem mem') ∧
    (n = 0 → size = 0 → Ends longBits value buf n size mem mem) := by
  constructor
  · intro hn hSize
    exact ⟨_, ends_parseNumber hSize hn longBits value buf mem,
      writesField_parseNumber hSize (Int32.lt_iff_toInt_lt.mp hn) longBits value buf mem⟩
  · rintro - rfl
    exact ends_of_size_zero longBits value buf n mem

example : (parseNumberLoop 32 (Numerals.ascii "7,0x1ff") 8 3 1 (fun _ => 0) 8).map
    (fun mem => [mem 7, mem 8, mem 9, mem 10]) = some [0, 7, 0xff, 0] := by decide +kernel

/-- Two values for a field of three bytes, and for the row of `pskey_cmd`. -/
theorem parse_number_short_value :
    (∃ mem', Ends 32 (Numerals.ascii "7,0x1ff") 8 3 1 (fun _ => 0) mem' ∧
      WritesField 32 (Numerals.ascii "7,0x1ff") 8 (3 : Int32).toInt.toNat 1 (fun _ => 0) mem') ∧
    Ends 32 (Numerals.ascii "7,0x1ff") 0 0 0 (fun _ => 0) (fun _ => 0) :=
  ⟨(parse_number_writes_field 32 (Numerals.ascii "7,0x1ff") 8 3 1 fun _ => 0).1 (by decide)
      (Or.inl rfl),
    (parse_number_writes_field 32 (Numerals.ascii "7,0x1ff") 0 0 0 fun _ => 0).2 rfl rfl⟩

end Bluetooth.Conf
