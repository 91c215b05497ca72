import Mathlib.Algebra.Field.ZMod
import Mathlib.Data.Nat.GCD.Basic
import Mathlib.Tactic.Ring
import Mathlib.Tactic.LinearCombination

/-! Extended Euclid with natural cofactors. The two remainders and their
cofactors are carried together; a parity bit records which of the cofactors is to
be read negatively, so that no signed number is needed. -/
namespace MyTools.Library.Inverse

structure State where
  upper : ℕ
  lower : ℕ
  upperCofactor : ℕ
  lowerCofactor : ℕ
  odd : Bool

def State.step (s : State) : State where
  upper := s.lower
  lower := s.upper % s.lower
  upperCofactor := s.lowerCofactor
  lowerCofactor := s.upperCofactor + s.lowerCofactor * (s.upper / s.lower)
  odd := !s.odd

/-- Euclid's loop: it stops when the lower remainder is zero. -/
def run : (fuel : ℕ) → State → State
  | 0, s => s
  | fuel + 1, s => if s.lower = 0 then s else run fuel s.step

/-- The cofactor of `x` in the greatest common divisor of `x` and `y`, taken positive. -/
def cofactor (x y : ℕ) : ℕ :=
  let s := run (y + 1) ⟨x, y, 1, 0, false⟩
  if s.odd then y - s.upperCofactor else s.upperCofactor

/-- What Euclid's loop keeps: the determinant of the cofactors, the greatest common
divisor, and that each cofactor leads to its remainder with alternating signs. -/
structure Invariant (x y : ℕ) (s : State) : Prop where
  positive : 0 < s.upper
  bounded : s.upperCofactor ≤ y
  determinant : s.upperCofactor * s.lower + s.lowerCofactor * s.upper = y
  divisor : Nat.gcd s.upper s.lower = Nat.gcd x y
  upper_value : (x * s.upperCofactor : ZMod y) = if s.odd then -(s.upper : ZMod y) else s.upper
  lower_value : (x * s.lowerCofactor : ZMod y) = if s.odd then (s.lower : ZMod y) else -s.lower

theorem Invariant.initial (x y : ℕ) (hx : 0 < x) (hy : 0 < y) : Invariant x y ⟨x, y, 1, 0, false⟩ where
  positive := hx
  bounded := hy
  determinant := by simp
  divisor := rfl
  upper_value := by simp
  lower_value := by simp

theorem Invariant.step {x y : ℕ} {s : State} (inv : Invariant x y s) (more : s.lower ≠ 0) :
    Invariant x y s.step where
  positive := Nat.pos_of_ne_zero more
  bounded := by
    have product : s.lowerCofactor * s.upper ≤ y := inv.determinant ▸ Nat.le_add_left _ _
    exact (Nat.le_mul_of_pos_right _ inv.positive).trans product
  determinant := by
    have division := Nat.mod_add_div s.upper s.lower
    calc s.lowerCofactor * (s.upper % s.lower) +
          (s.upperCofactor + s.lowerCofactor * (s.upper / s.lower)) * s.lower
        = s.upperCofactor * s.lower +
          s.lowerCofactor * (s.upper % s.lower + s.lower * (s.upper / s.lower)) := by ring
      _ = y := by rw [division, inv.determinant]
  divisor := by
    rw [← inv.divisor, Nat.gcd_comm s.upper, Nat.gcd_rec s.lower s.upper, Nat.gcd_comm]
    rfl
  upper_value := by
    have value := inv.lower_value
    cases parity : s.odd <;> simpa [State.step, parity] using value
  lower_value := by
    have division := congrArg (Nat.cast (R := ZMod y)) (Nat.mod_add_div s.upper s.lower)
    have upper := inv.upper_value
    have lower := inv.lower_value
    push_cast at division
    cases parity : s.odd <;> simp only [parity, State.step, Bool.not_true, Bool.not_false,
      Bool.false_eq_true, if_true, if_false] at upper lower ⊢ <;> push_cast
    · linear_combination upper + (s.upper / s.lower : ℕ) * lower - division
    · linear_combination upper + (s.upper / s.lower : ℕ) * lower + division

theorem Invariant.run {x y : ℕ} (fuel : ℕ) (s : State) (inv : Invariant x y s) (enough : s.lower < fuel) :
    Invariant x y (run fuel s) ∧ (Inverse.run fuel s).lower = 0 := by
  induction fuel generalizing s with
  | zero => omega
  | succ fuel ih =>
    unfold Inverse.run
    split
    · exact ⟨inv, by assumption⟩
    · rename_i more
      have smaller : s.step.lower < s.lower := Nat.mod_lt _ (Nat.pos_of_ne_zero more)
      exact ih s.step (inv.step more) (by omega)

theorem mul_cofactor (x y : ℕ) (hx : 0 < x) (hy : 0 < y) :
    (x * cofactor x y : ZMod y) = Nat.gcd x y := by
  obtain ⟨inv, done⟩ := Invariant.run (y + 1) _ (Invariant.initial x y hx hy) (Nat.lt_succ_self y)
  have gcd : (run (y + 1) ⟨x, y, 1, 0, false⟩).upper = Nat.gcd x y := by
    rw [← inv.divisor, done, Nat.gcd_zero_right]
  have value := inv.upper_value
  simp only [cofactor, ← gcd]
  split
  · rename_i odd
    rw [odd, if_pos rfl] at value
    rw [Nat.cast_sub inv.bounded, ZMod.natCast_self, zero_sub, mul_neg, value, neg_neg]
  · rename_i even
    rwa [if_neg even] at value

theorem mul_cofactor_of_coprime (x y : ℕ) (hy : 1 < y) (coprime : Nat.Coprime x y) :
    (x * cofactor x y : ZMod y) = 1 := by
  have hx : 0 < x := Nat.pos_of_ne_zero fun zero => by
    rw [zero, Nat.coprime_zero_left] at coprime; omega
  rw [mul_cofactor x y hx (by omega), coprime, Nat.cast_one]

theorem cofactor_eq_inv (p x : ℕ) [Fact p.Prime] (unit : (x : ZMod p) ≠ 0) :
    (cofactor x p : ZMod p) = (x : ZMod p)⁻¹ := by
  have prime : p.Prime := Fact.out
  have coprime : Nat.Coprime x p :=
    ((Nat.Prime.coprime_iff_not_dvd prime).mpr fun divides =>
      unit ((ZMod.natCast_eq_zero_iff x p).mpr divides)).symm
  rw [← mul_right_inj' unit, mul_cofactor_of_coprime x p prime.one_lt coprime, mul_inv_cancel₀ unit]

end MyTools.Library.Inverse
