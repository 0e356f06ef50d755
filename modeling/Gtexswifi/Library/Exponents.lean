import Mathlib.Algebra.BigOperators.Associated
import Mathlib.FieldTheory.Finite.Basic
import Mathlib.NumberTheory.LucasPrimality

/-! Exponents that are inverse to each other modulo a product of two primes,
square roots of one modulo a prime, and the tests of Lucas and Proth. -/
namespace Exponents

/-- Fermat's little theorem for every base and every exponent congruent to
one. -/
theorem pow_modEq_self {p k : Nat} (hp : p.Prime) (hk : 0 < k) (h : k ≡ 1 [MOD p - 1]) (x : Nat) :
    x ^ k ≡ x [MOD p] := by
  have hDvd : p - 1 ∣ k - 1 := (Nat.modEq_iff_dvd' hk).mp h.symm
  have hPow := Int.ModEq.pow_eq_pow hp hDvd hk Nat.one_pos x
  rw [pow_one] at hPow
  exact Int.natCast_modEq_iff.mp (by rwa [Nat.cast_pow])

/-- The exponents congruent to one modulo the least common multiple keep
every number modulo the product. -/
theorem pow_modEq_self_mul {p q k : Nat} (hp : p.Prime) (hq : q.Prime) (hpq : p ≠ q) (hk : 0 < k)
    (h : k ≡ 1 [MOD Nat.lcm (p - 1) (q - 1)]) (x : Nat) : x ^ k ≡ x [MOD p * q] := by
  have hCoprime : p.Coprime q := (Nat.coprime_primes hp hq).mpr hpq
  apply (Nat.modEq_and_modEq_iff_modEq_mul hCoprime).mp
  constructor
  · exact pow_modEq_self hp hk (h.of_dvd (Nat.dvd_lcm_left _ _)) x
  · exact pow_modEq_self hq hk (h.of_dvd (Nat.dvd_lcm_right _ _)) x

/-- Raising to `d` and then to `e` gives every number back modulo `n`. -/
def Inverse (n d e : Nat) : Prop := ∀ x, x ^ (d * e) ≡ x [MOD n]

namespace Inverse

variable {n d e : Nat}

/-- Exponents that are inverse modulo the least common multiple are inverse
as exponents, also for the multiples of the primes. -/
theorem of_primes {p q : Nat} (hp : p.Prime) (hq : q.Prime) (hpq : p ≠ q) (hd : 0 < d)
    (he : 0 < e) (h : d * e ≡ 1 [MOD Nat.lcm (p - 1) (q - 1)]) : Inverse (p * q) d e :=
  pow_modEq_self_mul hp hq hpq (Nat.mul_pos hd he) h

theorem pow_pow (h : Inverse n d e) (x : Nat) : (x ^ e) ^ d ≡ x [MOD n] := by
  rw [← pow_mul, Nat.mul_comm]
  exact h x

/-- Numbers with congruent powers are congruent. -/
theorem pow_injective (h : Inverse n d e) {x y : Nat} (hPow : x ^ d ≡ y ^ d [MOD n]) :
    x ≡ y [MOD n] := by
  calc
    x ≡ (x ^ d) ^ e [MOD n] := by
      rw [← pow_mul]
      exact (h x).symm
    _ ≡ (y ^ d) ^ e [MOD n] := hPow.pow e
    _ ≡ y [MOD n] := by
      rw [← pow_mul]
      exact h y

end Inverse

/-- A base whose order is `p - 1` makes `p` prime. The order is tested at
the prime factors. -/
theorem prime_of_factors {p : Nat} (a : ZMod p) (factors : List Nat)
    (hFactors : factors.prod = p - 1) (hPrime : ∀ r ∈ factors, r.Prime)
    (hOne : a ^ (p - 1) = 1) (hOrder : ∀ r ∈ factors, a ^ ((p - 1) / r) ≠ 1) : p.Prime := by
  apply lucas_primality p a hOne
  intro r hr hDvd
  rw [← hFactors] at hDvd
  obtain ⟨s, hs, hrs⟩ := hr.prime.dvd_prod_iff.mp hDvd
  obtain rfl := (Nat.prime_dvd_prime_iff_eq hr (hPrime s hs)).mp hrs
  exact hOrder r hs

/-- One has two square roots modulo a prime. -/
theorem sqrt_one {p x : Nat} (hp : p.Prime) (h : x ^ 2 ≡ 1 [MOD p]) :
    x % p = 1 ∨ x % p = p - 1 := by
  have := Fact.mk hp
  have hSquare : (x : ZMod p) * x = 1 := by
    have hCast := (ZMod.natCast_eq_natCast_iff _ _ p).mpr h
    rwa [Nat.cast_pow, Nat.cast_one, pow_two] at hCast
  rcases mul_self_eq_one_iff.mp hSquare with hOne | hMinus
  · left
    rw [← Nat.cast_one, ZMod.natCast_eq_natCast_iff'] at hOne
    rwa [Nat.mod_eq_of_lt hp.one_lt] at hOne
  · right
    have hNext : ((x + 1 : Nat) : ZMod p) = 0 := by
      rw [Nat.cast_add, Nat.cast_one, hMinus, neg_add_cancel]
    obtain ⟨k, hk⟩ := (ZMod.natCast_eq_zero_iff _ p).mp hNext
    cases k with
    | zero => cases hk
    | succ k =>
        have hPos := hp.pos
        have hx : x = p - 1 + p * k := by
          rw [Nat.mul_succ] at hk
          omega
        rw [hx, Nat.add_mul_mod_self_left, Nat.mod_eq_of_lt (Nat.sub_one_lt_of_lt hPos)]

/-- The power of half the exponent is a square root. -/
theorem pow_half {p a t : Nat} (hp : p.Prime) (h : a ^ (2 * t) ≡ 1 [MOD p]) :
    a ^ t % p = 1 ∨ a ^ t % p = p - 1 := by
  apply sqrt_one hp
  rwa [← pow_mul, Nat.mul_comm]

/-- Proth's test: minus one as a power whose exponent has many factors two. -/
theorem prime_of_proth {k n a : Nat} (hk : 0 < k) (hLess : k < 2 ^ (n + 1))
    (h : a ^ (k * 2 ^ n) % (k * 2 ^ (n + 1) + 1) = k * 2 ^ (n + 1)) :
    (k * 2 ^ (n + 1) + 1).Prime := by
  have hFactor := Nat.mul_pos hk (Nat.two_pow_pos (n + 1))
  by_contra hComposite
  -- the least prime factor is too large
  have hPrime := Nat.minFac_prime (show k * 2 ^ (n + 1) + 1 ≠ 1 by omega)
  have hDvd := Nat.minFac_dvd (k * 2 ^ (n + 1) + 1)
  have hSquare := Nat.minFac_sq_le_self (Nat.succ_pos _) hComposite
  generalize (k * 2 ^ (n + 1) + 1).minFac = p at *
  have := Fact.mk hPrime
  have hOdd : p ≠ 2 := by
    rintro rfl
    have hEven : 2 ∣ k * 2 ^ (n + 1) := ⟨k * 2 ^ n, by ring⟩
    omega
  have := Fact.mk (lt_of_le_of_ne hPrime.two_le hOdd.symm)
  have hPower : ((a : ZMod p) ^ k) ^ 2 ^ n = -1 := by
    have hSum : k * 2 ^ (n + 1) + 1 ∣ a ^ (k * 2 ^ n) + 1 := by
      rw [← Nat.div_add_mod (a ^ (k * 2 ^ n)) (k * 2 ^ (n + 1) + 1), h, Nat.add_assoc]
      exact (Nat.dvd_mul_right _ _).add (dvd_refl _)
    have hZero := (ZMod.natCast_eq_zero_iff _ p).mpr (hDvd.trans hSum)
    rw [Nat.cast_add, Nat.cast_pow, Nat.cast_one, pow_mul] at hZero
    exact eq_neg_of_add_eq_zero_left hZero
  have hOrder : orderOf ((a : ZMod p) ^ k) = 2 ^ (n + 1) := by
    apply orderOf_eq_prime_pow
    · rw [hPower]
      exact ZMod.neg_one_ne_one
    · rw [pow_succ, pow_mul, hPower, neg_one_sq]
  have hNonzero : (a : ZMod p) ^ k ≠ 0 := by
    intro hZero
    rw [hZero, zero_pow (Nat.two_pow_pos n).ne'] at hPower
    exact neg_ne_zero.mpr one_ne_zero hPower.symm
  have hCard := ZMod.orderOf_dvd_card_sub_one hNonzero
  rw [hOrder] at hCard
  have hLarge : 2 ^ (n + 1) < p := by
    have hLe := Nat.le_of_dvd (Nat.sub_pos_of_lt hPrime.one_lt) hCard
    have hPos := hPrime.pos
    omega
  have hProduct : (k + 1) * 2 ^ (n + 1) ≤ 2 ^ (n + 1) * 2 ^ (n + 1) :=
    Nat.mul_le_mul_right _ hLess
  have hSquares : 2 ^ (n + 1) * 2 ^ (n + 1) < p ^ 2 := by
    rw [pow_two]
    exact Nat.mul_lt_mul'' hLarge hLarge
  rw [Nat.add_mul, Nat.one_mul] at hProduct
  omega

/-- `n` squarings modulo `m`. -/
def squarings (m : Nat) : Nat → Nat → Nat
  | 0, x => x
  | n + 1, x => squarings m n (x * x % m)

/-- Squaring n times and reducing each time is the power, up to the modulus. -/
theorem squarings_modEq (m n x : Nat) : squarings m n x ≡ x ^ 2 ^ n [MOD m] := by
  induction n generalizing x with
  | zero =>
      rw [pow_zero, pow_one]
      exact Nat.ModEq.refl x
  | succ n ih =>
      calc
        squarings m n (x * x % m) ≡ (x * x % m) ^ 2 ^ n [MOD m] := ih _
        _ ≡ (x * x) ^ 2 ^ n [MOD m] := (Nat.mod_modEq _ m).pow _
        _ = x ^ 2 ^ (n + 1) := by rw [← pow_two, ← pow_mul, ← pow_succ']

/-- Proth's test, carried out. -/
theorem prime_of_squarings {k n a : Nat} (hk : 0 < k) (hLess : k < 2 ^ (n + 1))
    (h : squarings (k * 2 ^ (n + 1) + 1) n (a ^ k) = k * 2 ^ (n + 1)) :
    (k * 2 ^ (n + 1) + 1).Prime := by
  apply prime_of_proth hk hLess (a := a)
  have hMod := squarings_modEq (k * 2 ^ (n + 1) + 1) n (a ^ k)
  rw [h, ← pow_mul, Nat.ModEq, Nat.mod_eq_of_lt (Nat.lt_succ_self _)] at hMod
  exact hMod.symm

end Exponents
