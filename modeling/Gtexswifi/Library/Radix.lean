import Mathlib.Data.Nat.Digits.Lemmas
import Mathlib.Tactic.Ring

/-! Positional notation: lists of fixed-width machine words, least
significant first, as natural numbers. -/
namespace Radix

/-- A machine word that holds exactly the numbers below its base. -/
class Digit (α : Type) where
  base : Nat
  one_lt_base : 1 < base
  toNat : α → Nat
  ofNat : Nat → α
  toNat_lt : ∀ d, toNat d < base
  toNat_ofNat : ∀ n, toNat (ofNat n) = n % base
  ofNat_toNat : ∀ d, ofNat (toNat d) = d

attribute [simp] Digit.toNat_ofNat Digit.ofNat_toNat

instance : Digit UInt8 where
  base := 2 ^ 8
  one_lt_base := by decide
  toNat := UInt8.toNat
  ofNat := UInt8.ofNat
  toNat_lt := UInt8.toNat_lt
  toNat_ofNat _ := UInt8.toNat_ofNat'
  ofNat_toNat _ := UInt8.ofNat_toNat

instance : Digit UInt32 where
  base := 2 ^ 32
  one_lt_base := by decide
  toNat := UInt32.toNat
  ofNat := UInt32.ofNat
  toNat_lt := UInt32.toNat_lt
  toNat_ofNat _ := UInt32.toNat_ofNat'
  ofNat_toNat _ := UInt32.ofNat_toNat

variable {α : Type} [Digit α]

open Digit

theorem base_pos : 0 < base α := Nat.lt_trans Nat.zero_lt_one one_lt_base

theorem toNat_injective {a b : α} (h : toNat a = toNat b) : a = b := by
  rw [← ofNat_toNat a, h, ofNat_toNat]

theorem toNat_ofNat_of_lt {n : Nat} (h : n < base α) : toNat (ofNat n : α) = n := by
  rw [toNat_ofNat, Nat.mod_eq_of_lt h]

/-- The number that the digits stand for. -/
def value (digits : List α) : Nat := Nat.ofDigits (base α) (digits.map Digit.toNat)

@[simp] theorem value_nil : value ([] : List α) = 0 := rfl

@[simp] theorem value_cons (d : α) (digits : List α) :
    value (d :: digits) = toNat d + base α * value digits := by
  rw [value, List.map_cons, Nat.ofDigits_cons]
  rfl

/-- The digits of the higher part count for more by the power of the base. -/
theorem value_append (low high : List α) :
    value (low ++ high) = value low + base α ^ low.length * value high := by
  simp only [value, List.map_append, Nat.ofDigits_append, List.length_map]

theorem value_singleton (d : α) : value [d] = toNat d := by
  rw [value_cons, value_nil, Nat.mul_zero, Nat.add_zero]

theorem value_lt (digits : List α) : value digits < base α ^ digits.length := by
  have hDigits : ∀ n ∈ digits.map Digit.toNat, n < base α := by
    intro n hMem
    obtain ⟨d, _, rfl⟩ := List.mem_map.mp hMem
    exact toNat_lt d
  simpa only [value, List.length_map] using
    Nat.ofDigits_lt_base_pow_length one_lt_base hDigits

theorem value_replicate {zero : α} (hZero : toNat zero = 0) (n : Nat) :
    value (List.replicate n zero) = 0 := by
  induction n with
  | zero => rfl
  | succ n ih => rw [List.replicate_succ, value_cons, ih, hZero, Nat.mul_zero]

/-- The `width` low digits of `n`. -/
def encode : Nat → Nat → List α
  | 0, _ => []
  | width + 1, n => ofNat n :: encode width (n / base α)

@[simp] theorem encode_zero (n : Nat) : (encode 0 n : List α) = [] := rfl

/-- The lowest digit comes first, and the others are those of the quotient. -/
theorem encode_succ (width n : Nat) :
    (encode (width + 1) n : List α) = ofNat n :: encode width (n / base α) := rfl

@[simp] theorem length_encode (width n : Nat) : (encode width n : List α).length = width := by
  induction width generalizing n with
  | zero => rfl
  | succ width ih => rw [encode_succ, List.length_cons, ih]

/-- What is encoded is the number, up to the power that the width allows. -/
theorem value_encode (width n : Nat) : value (encode width n : List α) = n % base α ^ width := by
  induction width generalizing n with
  | zero => rw [encode_zero, value_nil, Nat.pow_zero, Nat.mod_one]
  | succ width ih => rw [encode_succ, value_cons, ih, toNat_ofNat, Nat.pow_succ', Nat.mod_mul]

theorem value_encode_of_lt {width n : Nat} (h : n < base α ^ width) :
    value (encode width n : List α) = n := by
  rw [value_encode, Nat.mod_eq_of_lt h]

theorem ofNat_toNat_add (d : α) (n : Nat) : (ofNat (toNat d + base α * n) : α) = d := by
  apply toNat_injective
  rw [toNat_ofNat, Nat.add_mul_mod_self_left, Nat.mod_eq_of_lt (toNat_lt d)]

theorem toNat_add_div (d : α) (n : Nat) : (toNat d + base α * n) / base α = n := by
  rw [Nat.add_mul_div_left _ _ base_pos, Nat.div_eq_of_lt (toNat_lt d), Nat.zero_add]

/-- Digits are the encoding of their value, at their own width. -/
theorem encode_value (digits : List α) : encode digits.length (value digits) = digits := by
  induction digits with
  | nil => rfl
  | cons d digits ih =>
      rw [List.length_cons, encode_succ, value_cons, ofNat_toNat_add, toNat_add_div, ih]

theorem eq_encode {digits : List α} {width n : Nat} (hLength : digits.length = width)
    (hValue : value digits = n) : digits = encode width n := by
  rw [← hLength, ← hValue, encode_value]

/-- The digits of a number are the lower ones and those of the quotient. -/
theorem encode_add (low high n : Nat) :
    (encode (low + high) n : List α) = encode low n ++ encode high (n / base α ^ low) := by
  induction low generalizing n with
  | zero => rw [Nat.zero_add, Nat.pow_zero, Nat.div_one, encode_zero, List.nil_append]
  | succ low ih =>
      rw [Nat.add_right_comm, encode_succ, ih, encode_succ, List.cons_append, Nat.pow_succ',
        Nat.div_div_eq_div_mul]

theorem take_encode {low width : Nat} (n : Nat) (h : low ≤ width) :
    (encode width n : List α).take low = encode low n := by
  obtain ⟨high, rfl⟩ := Nat.exists_eq_add_of_le h
  rw [encode_add, List.take_left' (length_encode low n)]

/-- The low digits of a number are those of its remainder. -/
theorem encode_mod_of_le {low width : Nat} (h : low ≤ width) (n : Nat) :
    (encode low (n % base α ^ width) : List α) = encode low n := by
  have hSame : (encode width n : List α) = encode width (n % base α ^ width) :=
    eq_encode (length_encode width n) (value_encode width n)
  rw [← take_encode _ h, ← take_encode _ h, hSame]

/-- The bytes of a number that is cut off to as many bits. -/
theorem encode_mod_two_pow (width n : Nat) :
    (encode width (n % 2 ^ (8 * width)) : List UInt8) = encode width n := by
  rw [Nat.pow_mul]
  exact encode_mod_of_le (Nat.le_refl width) n

theorem drop_encode {low width : Nat} (n : Nat) (h : low ≤ width) :
    (encode width n : List α).drop low = encode (width - low) (n / base α ^ low) := by
  obtain ⟨high, rfl⟩ := Nat.exists_eq_add_of_le h
  rw [encode_add, List.drop_left' (length_encode low n), Nat.add_sub_cancel_left]

theorem getElem?_encode {i width : Nat} (n : Nat) (h : i < width) :
    (encode width n : List α)[i]? = some (ofNat (n / base α ^ i)) := by
  obtain ⟨rest, rfl⟩ := Nat.exists_eq_add_of_lt h
  rw [Nat.add_assoc, encode_add, List.getElem?_append_right (by rw [length_encode]),
    length_encode, Nat.sub_self, encode_succ]
  rfl

theorem encode_zero_right (width : Nat) :
    (encode width 0 : List α) = List.replicate width (ofNat 0) := by
  induction width with
  | zero => rfl
  | succ width ih => rw [encode_succ, Nat.zero_div, ih, List.replicate_succ]

/-- The last digit decides: a list with the greater last digit has the
greater value. -/
theorem value_concat_lt {low low' : List α} {d d' : α} (hLength : low.length = low'.length)
    (h : toNat d < toNat d') : value (low ++ [d]) < value (low' ++ [d']) := by
  rw [value_append, value_append, value_singleton, value_singleton, ← hLength]
  have hLow := value_lt low
  calc
    _ < base α ^ low.length + base α ^ low.length * toNat d := Nat.add_lt_add_right hLow _
    _ = base α ^ low.length * (toNat d + 1) := by ring
    _ ≤ base α ^ low.length * toNat d' := Nat.mul_le_mul_left _ h
    _ ≤ _ := Nat.le_add_left _ _

/-- One step of a carry chain: the low digit of `s` is stored, the rest of
it is carried. -/
theorem value_carry {s total carry length : Nat} {digits : List α}
    (h : value digits + base α ^ length * carry = total + s / base α) :
    value (ofNat s :: digits) + base α ^ (length + 1) * carry = s + base α * total := by
  calc
    _ = s % base α + base α * (value digits + base α ^ length * carry) := by
      rw [value_cons, toNat_ofNat]
      ring
    _ = s % base α + base α * (s / base α) + base α * total := by
      rw [h]
      ring
    _ = _ := by rw [Nat.mod_add_div]

/-- One is taken from a digit above a run of zeros, which become full. -/
theorem value_borrow {zero full d d' : α} (hZero : toNat zero = 0) (hFull : toNat full + 1 = base α)
    (hPred : toNat d' + 1 = toNat d) (k : Nat) (rest : List α) :
    value (List.replicate k full ++ d' :: rest) + 1 =
      value (List.replicate k zero ++ d :: rest) := by
  induction k with
  | zero =>
      rw [List.replicate_zero, List.replicate_zero, List.nil_append, List.nil_append, value_cons,
        value_cons, ← hPred]
      exact Nat.add_right_comm _ _ _
  | succ k ih =>
      rw [List.replicate_succ, List.replicate_succ, List.cons_append, List.cons_append, value_cons,
        value_cons, ← ih, hZero]
      calc
        _ = (toNat full + 1) + base α * value (List.replicate k full ++ d' :: rest) :=
          Nat.add_right_comm _ _ _
        _ = _ := by
          rw [hFull]
          ring

/-- The number of digits in the shortest notation of `n`, with one for zero. -/
def width (α : Type) [Digit α] (n : Nat) : Nat := Nat.log (base α) n + 1

theorem lt_base_pow_width (n : Nat) : n < base α ^ width α n :=
  Nat.lt_pow_succ_log_self one_lt_base n

/-- No number of digits that is enough is smaller than the width. -/
theorem width_le {n digits : Nat} (hPos : 0 < digits) (h : n < base α ^ digits) :
    width α n ≤ digits := by
  rcases Nat.eq_zero_or_pos n with rfl | hn
  · rw [width, Nat.log_zero_right]
    exact hPos
  · exact Nat.log_lt_of_lt_pow (Nat.pos_iff_ne_zero.mp hn) h

theorem base_pow_le_of_width {n : Nat} (hPos : 0 < n) : base α ^ (width α n - 1) ≤ n :=
  Nat.pow_log_le_self _ (Nat.pos_iff_ne_zero.mp hPos)

end Radix
