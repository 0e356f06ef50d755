import Mathlib.Data.Nat.Digits.Lemmas
import Mathlib.Tactic.Ring

/-! Numbers as text, the way C writes and reads them. -/
namespace Numerals

/-- The characters of an ASCII text. -/
def ascii (s : String) : List UInt8 := s.toList.map fun c => UInt8.ofNat c.toNat

/-- `isspace` in the C locale. -/
def isSpace (c : UInt8) : Bool := c = 0x20 ∨ 0x09 ≤ c ∧ c ≤ 0x0d

/-- The value of a digit or letter. Nothing else is below any base. -/
def digitValue (c : UInt8) : Nat :=
  if 0x30 ≤ c ∧ c ≤ 0x39 then c.toNat - 0x30
  else if 0x61 ≤ c ∧ c ≤ 0x7a then c.toNat - 0x61 + 10
  else if 0x41 ≤ c ∧ c ≤ 0x5a then c.toNat - 0x41 + 10
  else 36

/-- The digits from the start of a text on, after those that make up `acc`. -/
def scan (base : Nat) : Nat → List UInt8 → Nat
  | acc, [] => acc
  | acc, c :: text =>
      if digitValue c < base then scan base (acc * base + digitValue c) text else acc

/-- A digit, with a lower-case letter from ten on. -/
def digit (d : Nat) : UInt8 := if d < 10 then UInt8.ofNat (0x30 + d) else UInt8.ofNat (0x57 + d)

/-- A number without leading zeros. -/
def write (base n : Nat) : List UInt8 :=
  if n = 0 then [digit 0] else (base.digits n).reverse.map digit

/-- `strtol` with base ten, saturated. -/
def strtol (longBits : Nat) (text : List UInt8) : Int :=
  match text.dropWhile isSpace with
  | 0x2d :: digits => max (-(scan 10 0 digits : Int)) (-2 ^ (longBits - 1))
  | 0x2b :: digits => min (scan 10 0 digits : Int) (2 ^ (longBits - 1) - 1)
  | digits => min (scan 10 0 digits : Int) (2 ^ (longBits - 1) - 1)

/-- The mark that `strtoul` skips in front of hexadecimal digits. -/
def dropHexMark : List UInt8 → List UInt8
  | 0x30 :: x :: rest => if x = 0x78 ∨ x = 0x58 then rest else 0x30 :: x :: rest
  | text => text

/-- `strtoul` with a base from two on, saturated, and negated behind a minus
sign. -/
def strtoul (longBits base : Nat) (text : List UInt8) : Nat :=
  let (negative, text) := match text.dropWhile isSpace with
    | 0x2d :: rest => (true, rest)
    | 0x2b :: rest => (false, rest)
    | rest => (false, rest)
  let value := scan base 0 (if base = 16 then dropHexMark text else text)
  if 2 ^ longBits ≤ value then 2 ^ longBits - 1
  else if negative = true then (2 ^ longBits - value) % 2 ^ longBits
  else value

/-- The text of `%d`. -/
def decimal (n : Int) : List UInt8 :=
  if n < 0 then 0x2d :: write 10 n.natAbs else write 10 n.natAbs

theorem digitValue_digit {d : Nat} (h : d < 36) : digitValue (digit d) = d := by
  have hAll : ∀ d < 36, digitValue (digit d) = d := by decide
  exact hAll d h

/-- A character that is no digit is none of the digits that are written. -/
theorem digit_ne {d : Nat} (h : d < 36) {c : UInt8} (hc : 36 ≤ digitValue c) : digit d ≠ c := by
  intro hEqual
  have hValue := digitValue_digit h
  rw [hEqual] at hValue
  omega

/-- Digits are read one after the other. -/
theorem scan_map_digit {base : Nat} (hBase : base ≤ 36) {digits : List Nat}
    (hDigits : ∀ d ∈ digits, d < base) (acc : Nat) {rest : List UInt8}
    (hRest : ∀ c ∈ rest.head?, base ≤ digitValue c) :
    scan base acc (digits.map digit ++ rest) =
      digits.foldl (fun acc d => acc * base + d) acc := by
  induction digits generalizing acc with
  | nil =>
      cases rest with
      | nil => rfl
      | cons c rest =>
          have hc : ¬digitValue c < base := Nat.not_lt.mpr (hRest c rfl)
          rw [List.map_nil, List.nil_append, scan, if_neg hc]
          rfl
  | cons d digits ih =>
      have hd : d < base := hDigits d List.mem_cons_self
      have hValue := digitValue_digit (hd.trans_le hBase)
      rw [List.map_cons, List.cons_append, scan, hValue, if_pos hd,
        ih fun x hx => hDigits x (List.mem_cons_of_mem d hx)]
      rfl

/-- Reading the digits from the first to the last gives back the number. -/
theorem foldl_reverse_digits (base n : Nat) :
    (base.digits n).reverse.foldl (fun acc d => acc * base + d) 0 = n := by
  rw [List.foldl_reverse]
  conv_rhs => rw [← Nat.ofDigits_digits base n, Nat.ofDigits_eq_foldr]
  congr 1
  funext d acc
  rw [Nat.mul_comm, Nat.add_comm]
  rfl

/-- A number that is written is read again, with what follows left alone. -/
theorem scan_write {base : Nat} (hTwo : 1 < base) (hBase : base ≤ 36) (n : Nat)
    {rest : List UInt8} (hRest : ∀ c ∈ rest.head?, base ≤ digitValue c) :
    scan base 0 (write base n ++ rest) = n := by
  unfold write
  split
  · next hZero =>
      have hBelow : ∀ d ∈ [0], d < base := fun d hd => by
        rw [List.mem_singleton.mp hd]
        omega
      have hSingle := scan_map_digit hBase hBelow 0 hRest
      rw [hZero]
      simpa using hSingle
  · rw [scan_map_digit hBase _ 0 hRest, foldl_reverse_digits]
    intro d hd
    exact Nat.digits_lt_base hTwo (List.mem_reverse.mp hd)

theorem write_ne_nil (base n : Nat) : write base n ≠ [] := by
  unfold write
  split
  · exact List.cons_ne_nil _ _
  · next hNonzero =>
      intro hNil
      rw [List.map_eq_nil_iff, List.reverse_eq_nil_iff, Nat.digits_eq_nil_iff_eq_zero] at hNil
      exact hNonzero hNil

/-- A number below a power of the base has not more digits than the exponent
says. -/
theorem length_write_le {base n k : Nat} (hBase : 1 < base) (hk : 0 < k) (h : n < base ^ k) :
    (write base n).length ≤ k := by
  unfold write
  split
  · exact hk
  · simpa using (Nat.digits_length_le_iff hBase n).mpr h

/-- Every character that is written is a digit. -/
theorem exists_digit {base n : Nat} (hTwo : 1 < base) {c : UInt8} (h : c ∈ write base n) :
    ∃ d < base, c = digit d := by
  unfold write at h
  split at h
  · exact ⟨0, by omega, List.mem_singleton.mp h⟩
  · obtain ⟨d, hd, rfl⟩ := List.mem_map.mp h
    exact ⟨d, Nat.digits_lt_base hTwo (List.mem_reverse.mp hd), rfl⟩

/-- Blanks in front of a number are skipped, and a number has none. -/
theorem isSpace_eq_false {c : UInt8} (h : digitValue c < 36) : isSpace c = false := by
  cases hSpace : isSpace c with
  | false => rfl
  | true =>
      have hAll : ∀ n < 256, isSpace (UInt8.ofNat n) = true → digitValue (UInt8.ofNat n) = 36 := by
        decide +kernel
      have hc := hAll c.toNat c.toNat_lt
      rw [UInt8.ofNat_toNat] at hc
      exact absurd (hc hSpace) h.ne

/-- `strtol` reads the number that `%d` writes, where a `long` holds it. -/
theorem strtol_decimal {longBits : Nat} {n : Int} (hLow : -2 ^ (longBits - 1) ≤ n)
    (hHigh : n < 2 ^ (longBits - 1)) : strtol longBits (decimal n) = n := by
  have hScan : scan 10 0 (write 10 n.natAbs) = n.natAbs := by
    have hRead : scan 10 0 (write 10 n.natAbs ++ []) = n.natAbs :=
      scan_write (by decide) (by decide) n.natAbs (by simp)
    rwa [List.append_nil] at hRead
  unfold strtol decimal
  by_cases hNegative : n < 0
  · rw [if_pos hNegative]
    change max (-(scan 10 0 (write 10 n.natAbs) : Int)) _ = n
    rw [hScan]
    omega
  · rw [if_neg hNegative]
    obtain ⟨c, text, hText⟩ := List.exists_cons_of_ne_nil (write_ne_nil 10 n.natAbs)
    obtain ⟨d, hd, hc⟩ := exists_digit (c := c) (by decide) (hText ▸ List.mem_cons_self)
    have hDigit : digitValue c < 36 := by
      rw [hc, digitValue_digit (by omega)]
      omega
    have hSigns : c ≠ 0x2d ∧ c ≠ 0x2b := by
      rw [hc]
      exact ⟨digit_ne (by omega) (by decide), digit_ne (by omega) (by decide)⟩
    have hDrop : (c :: text).dropWhile isSpace = c :: text := by
      rw [List.dropWhile_cons_of_neg (by rw [isSpace_eq_false hDigit]; decide)]
    rw [hText, hDrop]
    rw [hText] at hScan
    split
    · next hMinus => exact absurd (List.cons.inj hMinus).1 hSigns.1
    · next hPlus => exact absurd (List.cons.inj hPlus).1 hSigns.2
    · rw [hScan]
      omega

/-- The value of a text of digits. -/
def valueOf (base : Nat) (digits : List UInt8) : Nat :=
  Nat.ofDigits base (digits.map digitValue).reverse

/-- Digits are read behind those that have been read. By induction on the
text. -/
theorem scan_digits {base : Nat} {digits : List UInt8} (hDigits : ∀ c ∈ digits, digitValue c < base)
    (acc : Nat) : scan base acc digits = acc * base ^ digits.length + valueOf base digits := by
  induction digits generalizing acc with
  | nil => simp [scan, valueOf]
  | cons c digits ih =>
      have hc := hDigits c List.mem_cons_self
      rw [scan, if_pos hc, ih fun x hx => hDigits x (List.mem_cons_of_mem c hx)]
      simp only [valueOf, List.map_cons, List.reverse_cons, Nat.ofDigits_append,
        Nat.ofDigits_singleton, List.length_reverse, List.length_map, List.length_cons]
      ring

/-- A number of so many digits is below that power of the base. -/
theorem valueOf_lt {base : Nat} (hBase : 1 < base) {digits : List UInt8}
    (hDigits : ∀ c ∈ digits, digitValue c < base) : valueOf base digits < base ^ digits.length := by
  have hBound := Nat.ofDigits_lt_base_pow_length (l := (digits.map digitValue).reverse) hBase
    (by simpa using hDigits)
  simpa [valueOf] using hBound

/-- No digit is the mark of hexadecimal digits. -/
theorem dropHexMark_digits {digits : List UInt8} (hDigits : ∀ c ∈ digits, digitValue c < 16) :
    dropHexMark digits = digits := by
  unfold dropHexMark
  split
  · next x rest =>
      have hx : digitValue x < 16 := hDigits x (by simp)
      have hNoMark : ¬(x = 0x78 ∨ x = 0x58) := by
        rintro (rfl | rfl)
        · exact absurd hx (by decide)
        · exact absurd hx (by decide)
      rw [if_neg hNoMark]
  · rfl

/-- Hexadecimal digits are read to their value, also where the first of them
look like a mark of the base. -/
theorem scan_hexDigits {digits : List UInt8} (hDigits : ∀ c ∈ digits, digitValue c < 16) :
    scan 16 0 (dropHexMark digits) = valueOf 16 digits := by
  rw [dropHexMark_digits hDigits, scan_digits hDigits, Nat.zero_mul, Nat.zero_add]

/-- A number without a blank or a sign in front of it. -/
theorem strtoul_of_digit {longBits base : Nat} {c : UInt8} (hc : digitValue c < 36)
    (text : List UInt8)
    (hBound : scan base 0 (if base = 16 then dropHexMark (c :: text) else c :: text) < 2 ^ longBits) :
    strtoul longBits base (c :: text) =
      scan base 0 (if base = 16 then dropHexMark (c :: text) else c :: text) := by
  have hDrop : (c :: text).dropWhile isSpace = c :: text := by
    rw [List.dropWhile_cons_of_neg (by rw [isSpace_eq_false hc]; decide)]
  have hSigns : c ≠ 0x2d ∧ c ≠ 0x2b := by
    constructor
    · rintro rfl
      exact absurd hc (by decide)
    · rintro rfl
      exact absurd hc (by decide)
  unfold strtoul
  rw [hDrop]
  split
  next negative rest hSplit =>
    split at hSplit
    · next hMinus => exact absurd (List.cons.inj hMinus).1 hSigns.1
    · next hPlus => exact absurd (List.cons.inj hPlus).1 hSigns.2
    · obtain ⟨rfl, rfl⟩ := Prod.mk.inj hSplit
      rw [if_neg (Nat.not_le.mpr hBound), if_neg Bool.false_ne_true]

end Numerals
