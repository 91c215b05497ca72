import Mathlib.Data.ZMod.Basic
import Mathlib.Algebra.Group.Basic
import Mathlib.Tactic.LinearCombination
import Mathlib.Tactic.Ring
import Mathlib.Tactic.Abel

/-! Public key identities in a commutative group: scalars act on the multiples of a
point of order `n` as residues modulo `n`. -/
namespace MyTools.Library.Exchange
variable {M : Type*} [AddCommGroup M] {G : M} {n : ℕ}

theorem nsmul_eq_of_cast_eq (order : n • G = 0) {k l : ℕ} (same : (k : ZMod n) = l) : k • G = l • G := by
  have reduce (m : ℕ) : m • G = (m % n) • G := by
    conv_lhs => rw [← Nat.mod_add_div m n]
    rw [add_nsmul, mul_nsmul, order, nsmul_zero, add_zero]
  rw [reduce k, reduce l, (ZMod.natCast_eq_natCast_iff' k l n).mp same]

theorem shared (d k : ℕ) : d • k • G = k • d • G := smul_comm d k G

theorem signature (order : n • G = 0) {s r d k t : ℕ} (total : (t : ZMod n) = s + r)
    (equation : (s * (1 + d) : ZMod n) = k - r * d) : s • G + t • d • G = k • G := by
  rw [← mul_nsmul', ← add_nsmul]
  apply nsmul_eq_of_cast_eq order
  push_cast
  linear_combination equation + d * total

/-- Key agreement with implicit signatures: the static scalars `d₁`, `d₂`, the ephemeral
scalars `r₁`, `r₂` and the truncated abscissas `x₁`, `x₂` give both sides the same point. -/
theorem agreement (order : n • G = 0) {d₁ d₂ r₁ r₂ x₁ x₂ t₁ t₂ : ℕ}
    (first : (t₁ : ZMod n) = x₁ * r₁ + d₁) (second : (t₂ : ZMod n) = x₂ * r₂ + d₂) :
    t₁ • (d₂ • G + x₂ • r₂ • G) = t₂ • (d₁ • G + x₁ • r₁ • G) := by
  simp only [← mul_nsmul', ← add_nsmul]
  apply nsmul_eq_of_cast_eq order
  push_cast
  rw [first, second]
  ring

end MyTools.Library.Exchange
