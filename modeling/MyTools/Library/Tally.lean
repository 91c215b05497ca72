import Mathlib.Algebra.BigOperators.Group.Finset.Basic
import Mathlib.Algebra.Order.BigOperators.Group.Finset
import Mathlib.Data.UInt

/-! Sums of the shares of a group of members, when one member changes its state. -/
namespace MyTools.Library
variable {ι σ M : Type*}

theorem sum_change [DecidableEq ι] [AddCommMonoid M] (group : Finset ι) (share : σ → M) (state : ι → σ) {i : ι} (inside : i ∈ group)
    (v : σ) : ∑ j ∈ group, share (Function.update state i v j) + share (state i) =
      ∑ j ∈ group, share (state j) + share v := by
  rw [← Finset.sum_erase_add _ _ inside, ← Finset.sum_erase_add group (fun j => share (state j)) inside,
    Function.update_self]
  have others : ∑ j ∈ group.erase i, share (Function.update state i v j) = ∑ j ∈ group.erase i, share (state j) := by
    apply Finset.sum_congr rfl
    intro j member
    rw [Function.update_of_ne (Finset.ne_of_mem_erase member)]
  rw [others, add_assoc, add_comm (share v), add_assoc]

/-- A member whose share stays leaves the sum as it is, and so does one outside the group. -/
theorem sum_unchanged [DecidableEq ι] [AddCommMonoid M] (group : Finset ι) (share : σ → M) (state : ι → σ) (i : ι) (v : σ)
    (same : i ∈ group → share v = share (state i)) :
    ∑ j ∈ group, share (Function.update state i v j) = ∑ j ∈ group, share (state j) := by
  apply Finset.sum_congr rfl
  intro j member
  by_cases changed : j = i
  · subst changed
    rw [Function.update_self, same member]
  · rw [Function.update_of_ne changed]

theorem all_of_sum_eq_card (group : Finset ι) (share : ι → ℕ) (most : ∀ i, share i ≤ 1)
    (full : ∑ i ∈ group, share i = group.card) {i : ι} (inside : i ∈ group) : share i = 1 := by
  rw [Finset.card_eq_sum_ones] at full
  exact (Finset.sum_eq_sum_iff_of_le fun i _ => most i).mp full i inside

theorem toNat_sum [DecidableEq ι] (group : Finset ι) (share : ι → UInt64) :
    (∑ i ∈ group, share i).toNat = (∑ i ∈ group, (share i).toNat) % 2 ^ 64 := by
  induction group using Finset.induction_on with
  | empty => rfl
  | insert i group fresh ih =>
    rw [Finset.sum_insert fresh, Finset.sum_insert fresh, UInt64.toNat_add, ih, Nat.add_mod_mod]

end MyTools.Library
