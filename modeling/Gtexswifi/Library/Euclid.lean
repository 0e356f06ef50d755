import Mathlib.Data.Int.ModEq
import Mathlib.Data.Nat.Prime.Basic
import Mathlib.Tactic.Ring

/-! The extended Euclidean algorithm with the magnitudes of the cofactors:
their signs alternate, and the magnitudes stay below the modulus. -/
namespace Euclid

/-- A number with a sign. -/
def signed (positive : Bool) (u : Nat) : Int := if positive then u else -u

theorem signed_not (positive : Bool) (u : Nat) : signed (!positive) u = -signed positive u := by
  cases positive
  · exact (neg_neg (u : Int)).symm
  · rfl

/-- A state of the algorithm for `d` modulo `m`: two remainders and the
magnitudes of their cofactors. The cofactor of the first has the given sign
and that of the second the other one. -/
structure State (m d : Nat) where
  a : Nat
  b : Nat
  u : Nat
  v : Nat
  positive : Bool
  lt : b < a
  v_pos : 0 < v
  total : u * b + v * a = m
  cofactor_a : signed positive u * d ≡ a [ZMOD m]
  cofactor_b : signed (!positive) v * d ≡ b [ZMOD m]
  half : 2 * u ≤ m
  gcd : Nat.gcd a b = Nat.gcd m d

namespace State

variable {m d : Nat}

def start (h : d < m) : State m d where
  a := m
  b := d
  u := 0
  v := 1
  positive := false
  lt := h
  v_pos := Nat.one_pos
  total := by rw [Nat.zero_mul, Nat.zero_add, Nat.one_mul]
  cofactor_a := by
    apply Int.modEq_iff_dvd.mpr
    simp [signed]
  cofactor_b := by simp [signed]
  half := Nat.zero_le m
  gcd := rfl

/-- One division with remainder. -/
def next (z : State m d) (h : z.b ≠ 0) : State m d where
  a := z.b
  b := z.a % z.b
  u := z.v
  v := z.u + z.v * (z.a / z.b)
  positive := !z.positive
  lt := Nat.mod_lt _ (Nat.pos_of_ne_zero h)
  v_pos := Nat.add_pos_right _
    (Nat.mul_pos z.v_pos (Nat.div_pos z.lt.le (Nat.pos_of_ne_zero h)))
  total := by
    calc
      z.v * (z.a % z.b) + (z.u + z.v * (z.a / z.b)) * z.b =
          z.u * z.b + z.v * (z.b * (z.a / z.b) + z.a % z.b) := by ring
      _ = m := by rw [Nat.div_add_mod, z.total]
  cofactor_a := z.cofactor_b
  cofactor_b := by
    have hQuotient : (z.a : Int) - (z.b : Int) * ((z.a / z.b : Nat) : Int) = (z.a % z.b : Nat) := by
      have hSplit : ((z.b * (z.a / z.b) + z.a % z.b : Nat) : Int) = z.a := by
        rw [Nat.div_add_mod]
      rw [← hSplit]
      push_cast
      ring
    have hSigned : signed (!!z.positive) (z.u + z.v * (z.a / z.b)) =
        signed z.positive z.u - signed (!z.positive) z.v * ((z.a / z.b : Nat) : Int) := by
      rw [Bool.not_not, signed_not]
      cases z.positive
      · simp only [signed]
        push_cast
        ring
      · simp only [signed]
        push_cast
        ring
    rw [hSigned, ← hQuotient, sub_mul]
    apply z.cofactor_a.sub
    calc
      signed (!z.positive) z.v * ((z.a / z.b : Nat) : Int) * d =
          signed (!z.positive) z.v * d * ((z.a / z.b : Nat) : Int) := by ring
      _ ≡ z.b * ((z.a / z.b : Nat) : Int) [ZMOD m] := z.cofactor_b.mul_right _
  half := by
    have hLess := z.lt
    have hTotal := z.total
    have hPos := Nat.pos_of_ne_zero h
    calc
      2 * z.v ≤ z.a * z.v := Nat.mul_le_mul_right _ (by omega)
      _ = z.v * z.a := Nat.mul_comm _ _
      _ ≤ m := by omega
  gcd := by rw [Nat.gcd_comm, ← Nat.gcd_rec, Nat.gcd_comm, z.gcd]

/-- The divisions up to the remainder zero. -/
def run (z : State m d) : State m d := if h : z.b = 0 then z else (z.next h).run
termination_by z.b
decreasing_by exact Nat.mod_lt _ (Nat.pos_of_ne_zero h)

theorem run_of_eq_zero {z : State m d} (h : z.b = 0) : z.run = z := by
  rw [run, dif_pos h]

theorem run_next {z : State m d} (h : z.b ≠ 0) : z.run = (z.next h).run := by
  rw [run, dif_neg h]

theorem b_run (z : State m d) : z.run.b = 0 := by
  induction hb : z.b using Nat.strong_induction_on generalizing z with
  | h b ih =>
      by_cases hZero : z.b = 0
      · rw [run_of_eq_zero hZero, hZero]
      · rw [run_next hZero]
        exact ih _ (hb ▸ Nat.mod_lt _ (Nat.pos_of_ne_zero hZero)) _ rfl

/-- The first remainder of a finished run is the greatest common divisor. -/
theorem a_run (z : State m d) : z.run.a = Nat.gcd m d := by
  rw [← z.run.gcd, z.b_run, Nat.gcd_zero_right]

/-- The cofactor of the first remainder as a number modulo `m`. -/
def residue (z : State m d) : Nat := if z.positive then z.u else m - z.u

/-- The residue that stands for a signed coefficient is at most the modulus. -/
theorem residue_le (z : State m d) : z.residue ≤ m := by
  have hHalf := z.half
  unfold residue
  split <;> omega

/-- The coefficient times the second number is the first one, modulo the
modulus. That is the invariant of the run. -/
theorem residue_modEq (z : State m d) : d * z.residue ≡ z.a [MOD m] := by
  have hResidue : (z.residue : Int) ≡ signed z.positive z.u [ZMOD m] := by
    unfold residue signed
    cases z.positive
    · have hLe : z.u ≤ m := by
        have := z.half
        omega
      change ((m - z.u : Nat) : Int) ≡ -z.u [ZMOD m]
      rw [Nat.cast_sub hLe]
      exact Int.modEq_iff_dvd.mpr ⟨-1, by ring⟩
    · exact Int.ModEq.rfl
  apply Int.natCast_modEq_iff.mp
  push_cast
  rw [mul_comm]
  exact (hResidue.mul_right d).trans z.cofactor_a

end State

/-- What the algorithm gives for the inverse of `d` modulo `m`. -/
def inverse {m d : Nat} (h : d < m) : Nat := (State.start h).run.residue

theorem inverse_le {m d : Nat} (h : d < m) : inverse h ≤ m := State.residue_le _

theorem mul_inverse {m d : Nat} (h : d < m) (hCoprime : Nat.gcd m d = 1) :
    d * inverse h ≡ 1 [MOD m] := by
  have hRun := (State.start h).run.residue_modEq
  rwa [State.a_run, hCoprime] at hRun

/-- A divisor of the modulus has the cofactor one after a single division. -/
theorem inverse_of_dvd {m d : Nat} (h : d < m) (hPos : d ≠ 0) (hDvd : d ∣ m) : inverse h = 1 := by
  have hNone : ((State.start h).next hPos).b = 0 := Nat.mod_eq_zero_of_dvd hDvd
  rw [inverse, State.run_next hPos, State.run_of_eq_zero hNone]
  rfl

end Euclid
