import Gtexswifi.Library.Radix
import Mathlib.Data.Nat.ModEq
import Mathlib.Tactic.Ring

/-! Numbers written with a chosen number of limbs, and modular
exponentiation on them. A numeral may have zero limbs at its top, and the
length decides which reductions are carried out. -/
namespace SignImage

open Radix

/-- The number of values of one limb. -/
def limbBase : Nat := 2 ^ 32

theorem base_uint32 : Digit.base UInt32 = limbBase := rfl

@[simp] theorem toNat_uint32 (d : UInt32) : Digit.toNat d = d.toNat := rfl

theorem limbBase_pos : 0 < limbBase := by decide

@[ext] structure Numeral where
  value : Nat
  length : Nat
  bounded : value < limbBase ^ length

/-- A modulus has a non-zero top limb. -/
structure Modulus extends Numeral where
  length_pos : 0 < length
  top_ne_zero : limbBase ^ (length - 1) ≤ value

theorem Modulus.value_pos (n : Modulus) : 0 < n.value :=
  Nat.lt_of_lt_of_le (Nat.pow_pos limbBase_pos) n.top_ne_zero

namespace Numeral

/-- The limbs, the least significant one first. -/
def limbs (x : Numeral) : List UInt32 := encode x.length x.value

@[simp] theorem length_limbs (x : Numeral) : x.limbs.length = x.length := length_encode _ _

@[simp] theorem value_limbs (x : Numeral) : Radix.value x.limbs = x.value :=
  value_encode_of_lt x.bounded

/-- The numeral of a number without zero limbs at its top. Zero has one
limb. -/
def normal (v : Nat) : Numeral where
  value := v
  length := Radix.width UInt32 v
  bounded := lt_base_pow_width v

/-- The numeral with `length` limbs, or with one more when the number needs
it. -/
def fit (v length : Nat) (h : v < limbBase ^ (length + 1)) : Numeral where
  value := v
  length := if v < limbBase ^ length then length else length + 1
  bounded := by split <;> assumption

@[simp] theorem value_normal (v : Nat) : (normal v).value = v := rfl

theorem length_normal_pos (v : Nat) : 0 < (normal v).length := Nat.succ_pos _

theorem length_normal_mono {a b : Nat} (h : a ≤ b) : (normal a).length ≤ (normal b).length :=
  Nat.succ_le_succ (Nat.log_mono_right h)

theorem length_normal_limb {v : Nat} (h : v < limbBase) : (normal v).length = 1 :=
  Nat.le_antisymm (width_le (α := UInt32) Nat.one_pos (by rwa [Nat.pow_one, base_uint32]))
    (length_normal_pos v)

/-- A numeral whose top limb is not zero has no zero limbs to leave out. -/
theorem eq_normal {x : Numeral} (hPos : 0 < x.length) (h : limbBase ^ (x.length - 1) ≤ x.value) :
    x = normal x.value := by
  have hLog : x.length - 1 ≤ Nat.log limbBase x.value := Nat.le_log_of_pow_le (by decide) h
  have hWidth : (normal x.value).length ≤ x.length := width_le (α := UInt32) hPos x.bounded
  have hLength : (normal x.value).length = Nat.log limbBase x.value + 1 := rfl
  apply Numeral.ext
  · rfl
  · omega

theorem pow_le_normal {v : Nat} (h : 0 < v) : limbBase ^ ((normal v).length - 1) ≤ v :=
  base_pow_le_of_width (α := UInt32) h

/-- A number between two powers of the base has the length of the larger
one. -/
theorem length_normal_eq {v length : Nat} (hLow : limbBase ^ length ≤ v)
    (hHigh : v < limbBase ^ (length + 1)) : (normal v).length = length + 1 := by
  have hLog : Nat.log limbBase v = length :=
    Nat.log_eq_of_pow_le_of_lt_pow hLow hHigh
  exact congrArg (· + 1) hLog

/-- The modulus of a number without zero limbs at its top. -/
def modulus {v : Nat} (h : 0 < v) : Modulus where
  toNumeral := normal v
  length_pos := length_normal_pos v
  top_ne_zero := pow_le_normal h

/-- A number that reaches the top limb is normal when it is fitted. -/
theorem fit_eq_normal {v length : Nat} (h) (hPos : 0 < length) (hTop : limbBase ^ (length - 1) ≤ v) :
    fit v length h = normal v := by
  apply eq_normal
  · unfold fit
    dsimp only
    split <;> omega
  · unfold fit
    dsimp only
    split
    · exact hTop
    · next hOver => exact Nat.not_lt.mp hOver

/-- The comparison that looks at the lengths first. -/
def cmp (x y : Numeral) : Int :=
  if y.length < x.length then 1
  else if x.length < y.length then -1
  else if y.value < x.value then 1
  else if x.value < y.value then -1
  else 0

/-- A numeral that is longer, or as long and larger, compares as greater. -/
theorem cmp_eq_one {x y : Numeral}
    (h : y.length < x.length ∨ y.length = x.length ∧ y.value < x.value) : x.cmp y = 1 := by
  unfold cmp
  split_ifs <;> first | rfl | omega

/-- Numerals without zero limbs at their tops are compared as numbers. -/
theorem cmp_normal {a b : Nat} (h : b < a) : (normal a).cmp (normal b) = 1 := by
  apply cmp_eq_one
  rcases Nat.lt_or_eq_of_le (show (normal b).length ≤ (normal a).length from
    Nat.succ_le_succ (Nat.log_mono_right h.le)) with hLess | hSame
  · exact Or.inl hLess
  · exact Or.inr ⟨hSame, h⟩

theorem cmp_normal_neg {a b : Nat} (h : a < b) : (normal a).cmp (normal b) = -1 := by
  have hLength : (normal a).length ≤ (normal b).length :=
    Nat.succ_le_succ (Nat.log_mono_right h.le)
  unfold cmp
  simp only [value_normal]
  split_ifs <;> first | rfl | omega

def scale (x : Numeral) (d : UInt32) : Numeral :=
  fit (x.value * d.toNat) x.length (by
    rw [Nat.pow_succ]
    exact Nat.mul_lt_mul'' x.bounded d.toNat_lt)

/-- The numeral with `len` zero limbs put below. -/
def shift (x : Numeral) (len : Nat) : Numeral where
  value := limbBase ^ len * x.value
  length := x.length + len
  bounded := by
    rw [Nat.add_comm, Nat.pow_add]
    exact Nat.mul_lt_mul_of_pos_left x.bounded (Nat.pow_pos limbBase_pos)

theorem value_lt_of_length_le {x : Numeral} {length : Nat} (h : x.length ≤ length) :
    x.value < limbBase ^ length :=
  Nat.lt_of_lt_of_le x.bounded (Nat.pow_le_pow_right limbBase_pos h)

def add (x y : Numeral) : Numeral :=
  fit (x.value + y.value) (max x.length y.length) (by
    have hx := value_lt_of_length_le (Nat.le_max_left x.length y.length)
    have hy := value_lt_of_length_le (Nat.le_max_right x.length y.length)
    rw [Nat.pow_succ]
    have hTwo : limbBase ^ max x.length y.length * 2 ≤
        limbBase ^ max x.length y.length * limbBase := Nat.mul_le_mul_left _ (by decide)
    omega)

@[simp] theorem value_fit (v length : Nat) (h) : (fit v length h).value = v := rfl

@[simp] theorem value_scale (x : Numeral) (d : UInt32) :
    (x.scale d).value = x.value * d.toNat := rfl

@[simp] theorem value_shift (x : Numeral) (len : Nat) :
    (x.shift len).value = limbBase ^ len * x.value := rfl

@[simp] theorem length_shift (x : Numeral) (len : Nat) :
    (x.shift len).length = x.length + len := rfl

@[simp] theorem value_add (x y : Numeral) : (x.add y).value = x.value + y.value := rfl

theorem add_normal {a : Nat} (h : 0 < a) (b : Nat) : (normal a).add (normal b) = normal (a + b) := by
  apply fit_eq_normal
  · exact Nat.lt_of_lt_of_le (length_normal_pos a) (Nat.le_max_left _ _)
  · rw [value_normal, value_normal]
    rcases Nat.le_total (normal b).length (normal a).length with hLonger | hShorter
    · rw [Nat.max_eq_left hLonger]
      exact (pow_le_normal h).trans (Nat.le_add_right a b)
    · rw [Nat.max_eq_right hShorter]
      rcases Nat.eq_zero_or_pos b with hNone | hPos
      · rw [hNone]
        exact Nat.succ_le_of_lt h
      · exact (pow_le_normal hPos).trans (Nat.le_add_left b a)

theorem length_fit_le (v length : Nat) (h) : (fit v length h).length ≤ length + 1 := by
  unfold fit
  dsimp only
  split <;> omega

theorem le_length_fit (v length : Nat) (h) : length ≤ (fit v length h).length := by
  unfold fit
  dsimp only
  split <;> omega

theorem length_fit_of_lt {v length : Nat} (h) (hFits : v < limbBase ^ length) :
    (fit v length h).length = length := if_pos hFits

/-- The numeral is written as one that is smaller than the modulus. -/
def Below (x : Numeral) (n : Modulus) : Prop :=
  x.length < n.length ∨ x.length = n.length ∧ x.value < n.value

instance (x : Numeral) (n : Modulus) : Decidable (x.Below n) :=
  inferInstanceAs (Decidable (_ ∨ _ ∧ _))

theorem Below.length_le {x : Numeral} {n : Modulus} (h : x.Below n) : x.length ≤ n.length :=
  h.elim Nat.le_of_lt fun hEq => hEq.1.le

theorem Below.value_lt {x : Numeral} {n : Modulus} (h : x.Below n) : x.value < n.value := by
  rcases h with hLength | ⟨_, hValue⟩
  · calc
      x.value < limbBase ^ (n.length - 1) := value_lt_of_length_le (by omega)
      _ ≤ n.value := n.top_ne_zero
  · exact hValue

/-- The remainder, for a numeral that is not below the modulus already.
There is none for a zero with more limbs than the modulus. -/
def reduce (n : Modulus) (x : Numeral) : Option Numeral :=
  if x.Below n then some x else if x.value = 0 then none else some (normal (x.value % n.value))

theorem below_normal_mod (n : Modulus) (v : Nat) : (normal (v % n.value)).Below n := by
  have hLt : v % n.value < n.value := Nat.mod_lt _ n.value_pos
  have hWidth : (normal (v % n.value)).length ≤ n.length :=
    width_le n.length_pos (Nat.lt_trans hLt n.bounded)
  rcases Nat.lt_or_eq_of_le hWidth with hLess | hEq
  · exact Or.inl hLess
  · exact Or.inr ⟨hEq, hLt⟩

/-- A normal numeral is reduced to the normal form of the remainder. -/
theorem reduce_normal (n : Modulus) (v : Nat) :
    reduce n (normal v) = some (normal (v % n.value)) := by
  unfold reduce
  split
  · next hBelow =>
      have hLess : v < n.value := hBelow.value_lt
      rw [Nat.mod_eq_of_lt hLess]
  · next hBelow =>
      rw [if_neg]
      · rfl
      · intro hZero
        apply hBelow
        have hMod := below_normal_mod n 0
        rwa [Nat.zero_mod, ← show v = 0 from hZero] at hMod

/-- A reduction leaves the remainder, written below the modulus. -/
theorem reduce_spec {n : Modulus} {x y : Numeral} (h : reduce n x = some y) :
    y.Below n ∧ y.value = x.value % n.value := by
  unfold reduce at h
  split at h
  · next hBelow =>
      obtain rfl := Option.some.inj h
      exact ⟨hBelow, (Nat.mod_eq_of_lt hBelow.value_lt).symm⟩
  · split at h
    · cases h
    · obtain rfl := Option.some.inj h
      exact ⟨below_normal_mod n x.value, rfl⟩

/-- One limb of a product: move the partial product up and add `x` times the
limb. -/
def mulModPass (n : Modulus) (x t : Numeral) (d : UInt32) : Option Numeral :=
  reduce n ((t.shift 1).add (x.scale d))

/-- The product modulo `n`, limb by limb of `y` from the top. -/
def mulMod (n : Modulus) (x y : Numeral) : Option Numeral :=
  match y.limbs.reverse with
  | [] => none
  | top :: rest => (reduce n (x.scale top)).bind fun t => rest.foldlM (mulModPass n x) t

/-- By induction on the limbs of the second factor. What has been folded is
the product with those, reduced. -/
theorem foldlM_mulModPass {n : Modulus} {x : Numeral} (rest : List UInt32) {t z : Numeral}
    {high : List UInt32} (hBelow : t.Below n)
    (hValue : t.value = x.value * Radix.value high % n.value)
    (hFold : rest.foldlM (mulModPass n x) t = some z) :
    z.Below n ∧ z.value = x.value * Radix.value (rest.reverse ++ high) % n.value := by
  induction rest generalizing t high with
  | nil =>
      obtain rfl := Option.some.inj hFold
      exact ⟨hBelow, hValue⟩
  | cons d rest ih =>
      rw [List.foldlM_cons] at hFold
      obtain ⟨next, hPass, hFold⟩ := Option.bind_eq_some_iff.mp hFold
      obtain ⟨hNext, hNextValue⟩ := reduce_spec hPass
      have hPrefix : next.value = x.value * Radix.value (d :: high) % n.value := by
        rw [hNextValue, value_add, value_shift, value_scale, hValue, Radix.value_cons, base_uint32,
          Nat.pow_one, Nat.add_mod, Nat.mul_mod_mod, ← Nat.add_mod]
        congr 1
        change _ = x.value * (d.toNat + _)
        ring
      simpa using ih hNext hPrefix hFold

/-- A product that is carried out is the product modulo `n`. -/
theorem mulMod_spec {n : Modulus} {x y z : Numeral} (h : mulMod n x y = some z) :
    z.Below n ∧ z.value = x.value * y.value % n.value := by
  unfold mulMod at h
  split at h
  · cases h
  · next top rest hLimbs =>
      obtain ⟨t, hTop, hFold⟩ := Option.bind_eq_some_iff.mp h
      obtain ⟨hBelow, hValue⟩ := reduce_spec hTop
      rw [value_scale, ← show Radix.value [top] = top.toNat from value_singleton top] at hValue
      have hDigits : rest.reverse ++ [top] = y.limbs := by
        rw [← List.reverse_cons, ← hLimbs, List.reverse_reverse]
      have hSpec := foldlM_mulModPass rest hBelow hValue hFold
      rwa [hDigits, value_limbs] at hSpec

/-- Square-and-multiply over the bits of `e` below `count`. -/
def ladder (n : Modulus) (c : Numeral) (e : Nat) : Nat → Numeral → Option Numeral
  | 0, x => some x
  | count + 1, x =>
      (mulMod n x x).bind fun s =>
        (if e.testBit count then mulMod n c s else some s).bind (ladder n c e count)

/-- A ladder that is carried out to its end raises `x` and `c` to the powers
the bits stand for. -/
theorem ladder_spec {n : Modulus} {c : Numeral} {e : Nat} (count : Nat) {x z : Numeral}
    (hBelow : x.Below n) (h : ladder n c e count x = some z) :
    z.Below n ∧ z.value ≡ x.value ^ 2 ^ count * c.value ^ (e % 2 ^ count) [MOD n.value] := by
  induction count generalizing x with
  | zero =>
      obtain rfl := Option.some.inj h
      refine ⟨hBelow, ?_⟩
      rw [Nat.pow_zero, Nat.pow_one, Nat.mod_one, Nat.pow_zero, Nat.mul_one]
  | succ count ih =>
      obtain ⟨s, hSquare, h⟩ := Option.bind_eq_some_iff.mp h
      obtain ⟨t, hMultiply, h⟩ := Option.bind_eq_some_iff.mp h
      obtain ⟨hsBelow, hsValue⟩ := mulMod_spec hSquare
      have hs : s.value ≡ x.value ^ 2 [MOD n.value] := by
        rw [hsValue, Nat.pow_two]
        exact Nat.mod_modEq _ _
      have hBits : e % 2 ^ (count + 1) = e % 2 ^ count + 2 ^ count * (e.testBit count).toNat := by
        rw [Nat.mod_pow_succ, Nat.toNat_testBit]
      rw [hBits]
      split at hMultiply
      · next hSet =>
          obtain ⟨htBelow, htValue⟩ := mulMod_spec hMultiply
          have ht : t.value ≡ c.value * x.value ^ 2 [MOD n.value] := by
            rw [htValue]
            exact (Nat.mod_modEq _ _).trans (hs.mul_left _)
          obtain ⟨hzBelow, hzValue⟩ := ih htBelow h
          refine ⟨hzBelow, hzValue.trans ?_⟩
          rw [hSet, Bool.toNat_true]
          calc
            _ ≡ (c.value * x.value ^ 2) ^ 2 ^ count * c.value ^ (e % 2 ^ count) [MOD n.value] :=
              (ht.pow _).mul_right _
            _ = _ := by ring
      · next hClear =>
          obtain rfl := Option.some.inj hMultiply
          obtain ⟨hzBelow, hzValue⟩ := ih hsBelow h
          refine ⟨hzBelow, hzValue.trans ?_⟩
          rw [Bool.eq_false_of_not_eq_true hClear, Bool.toNat_false]
          calc
            _ ≡ (x.value ^ 2) ^ 2 ^ count * c.value ^ (e % 2 ^ count) [MOD n.value] :=
              (hs.pow _).mul_right _
            _ = _ := by ring

/-- The ladder for the exponent `e`, which starts below its highest bit. -/
def power (n : Modulus) (c : Numeral) (e : Nat) : Option Numeral := ladder n c e (Nat.log 2 e) c

/-- A ladder that is carried out opens `c` to its power modulo `n`. -/
theorem power_spec {n : Modulus} {c z : Numeral} {e : Nat} (he : e ≠ 0) (hBelow : c.Below n)
    (h : power n c e = some z) : z.Below n ∧ z.value = c.value ^ e % n.value := by
  obtain ⟨hzBelow, hzValue⟩ := ladder_spec (Nat.log 2 e) hBelow h
  have hLow : 2 ^ Nat.log 2 e ≤ e := Nat.pow_log_le_self 2 he
  have hHigh : e < 2 ^ (Nat.log 2 e + 1) := Nat.lt_pow_succ_log_self (by decide) e
  have hBits : 2 ^ Nat.log 2 e + e % 2 ^ Nat.log 2 e = e := by
    rw [Nat.mod_eq_sub_mod hLow, Nat.mod_eq_of_lt (by rw [Nat.pow_succ] at hHigh; omega)]
    omega
  rw [← Nat.pow_add, hBits] at hzValue
  refine ⟨hzBelow, ?_⟩
  rw [← Nat.mod_eq_of_lt hzBelow.value_lt]
  exact hzValue

theorem power_one (n : Modulus) (c : Numeral) : power n c 1 = some c := by
  rw [power, Nat.log_one_right]
  rfl

/-- A first factor of value zero stays zero at full length, and the second
zero limb makes it longer than the modulus. -/
theorem mulMod_eq_none {n : Modulus} {x y : Numeral} {low : List UInt32}
    (hLimbs : y.limbs = low ++ [0, 0]) (hLength : x.length = n.length) :
    mulMod n x y = none := by
  have hFirst : x.scale 0 = ⟨0, n.length, n.value_pos.trans n.bounded⟩ := by
    apply Numeral.ext
    · simp
    · exact (length_fit_of_lt _ (by simpa using Nat.pow_pos limbBase_pos)).trans hLength
  have hReduce : reduce n (x.scale 0) = some (x.scale 0) := by
    rw [hFirst]
    exact if_pos (Or.inr ⟨rfl, n.value_pos⟩)
  have hPass : mulModPass n x (x.scale 0) 0 = none := by
    have hLonger : ¬(((x.scale 0).shift 1).add (x.scale 0)).Below n := by
      intro hBelow
      have hAdd := hBelow.length_le
      rw [add, length_fit_of_lt _ (by simpa using Nat.pow_pos limbBase_pos), hFirst,
        length_shift] at hAdd
      dsimp only at hAdd
      omega
    rw [mulModPass, reduce, if_neg hLonger, if_pos (by simp)]
  have hReverse : y.limbs.reverse = 0 :: 0 :: low.reverse := by
    rw [hLimbs]
    simp
  rw [mulMod, hReverse]
  change (reduce n (x.scale 0)).bind _ = none
  rw [hReduce, Option.bind_some, List.foldlM_cons, hPass]
  rfl

end Numeral

end SignImage
