import MyTools.Mpi.Exact

/-! The comparisons against the order of the integers. The test for equality does not look at the signs, and
two negative numbers are compared by their magnitudes the wrong way round. -/
namespace MyTools.Mpi
open Library

namespace CMpi

/-- The three routines say what the order of the integers is. -/
structure OrderHolds (a b : CMpi) : Prop where
  comparesTo : a.comparesTo b = some (if b.toInt < a.toInt then 1 else if a.toInt = b.toInt then 0 else -1)
  largerThan : a.largerThan b = some (decide (b.toInt < a.toInt))
  equalsTo : a.equalsTo b = some (decide (a.toInt = b.toInt))

def Comparable (a b : CMpi) : Prop :=
  match a.sign, b.sign with
  | .positive, .positive => True
  | .positive, .negtive => a.abs ≠ b.abs
  | .negtive, .positive => a.abs = b.abs → a.abs = 0
  | .negtive, .negtive => a.abs = b.abs

theorem largerThan_run (a b : CMpi) (a_bounded : a.length ≤ 8) (b_bounded : b.length ≤ 8) :
    a.largerThan b = some (match a.sign, b.sign with
      | .positive, .negtive => true
      | .negtive, .positive => false
      | _, _ => decide (b.abs < a.abs)) := by
  unfold largerThan
  cases a.sign with
  | positive =>
    cases b.sign with
    | positive => exact largerThanAbs_run a b a_bounded b_bounded
    | negtive => rfl
  | negtive =>
    cases b.sign with
    | positive => rfl
    | negtive => exact largerThanAbs_run a b a_bounded b_bounded

theorem comparesTo_eq {a b : CMpi} {equal larger : Bool} (equals : a.equalsTo b = some equal)
    (greater : a.largerThan b = some larger) :
    a.comparesTo b = some (if equal then 0 else if larger then 1 else -1) := by
  rw [comparesTo, equals, greater, Option.bind_eq_bind, Option.bind_some, Option.bind_some]
  cases equal with
  | true => rfl
  | false =>
    cases larger with
    | true => rfl
    | false => rfl

theorem orderHolds_iff (a b : CMpi) (a_bounded : a.length ≤ 8) (b_bounded : b.length ≤ 8) :
    OrderHolds a b ↔ Comparable a b := by
  have equals := equalsTo_run a b a_bounded b_bounded
  have greater := largerThan_run a b a_bounded b_bounded
  have compares := comparesTo_eq equals greater
  have outcome : OrderHolds a b ↔
      (a.abs = b.abs ↔ a.toInt = b.toInt) ∧
      ((match a.sign, b.sign with
        | .positive, .negtive => true
        | .negtive, .positive => false
        | _, _ => decide (b.abs < a.abs)) = true ↔ b.toInt < a.toInt) := by
    constructor
    · intro holds
      have same := equals.symm.trans holds.equalsTo
      have larger := greater.symm.trans holds.largerThan
      rw [Option.some.injEq, decide_eq_decide] at same
      rw [Option.some.injEq] at larger
      exact ⟨same, by rw [larger, decide_eq_true_iff]⟩
    · rintro ⟨same, larger⟩
      have flag := Bool.eq_iff_iff.mpr (larger.trans decide_eq_true_iff.symm)
      rw [flag] at greater compares
      refine ⟨?_, greater, by rw [equals, Option.some.injEq, decide_eq_decide, same]⟩
      rw [compares, Option.some.injEq]
      simp only [decide_eq_true_eq, same]
      rcases lt_trichotomy a.toInt b.toInt with less | equal | more
      · rw [if_neg less.ne, if_neg less.asymm, if_neg less.asymm, if_neg less.ne]
      · rw [if_pos equal, if_neg equal.not_gt, if_pos equal]
      · rw [if_neg more.ne', if_pos more, if_pos more]
  rw [outcome, Comparable, a.toInt_eq, b.toInt_eq]
  cases a.sign with
  | positive =>
    cases b.sign with
    | positive =>
      simp only [Sign.signed, decide_eq_true_eq, iff_true]
      exact ⟨Nat.cast_inj.symm, Nat.cast_lt.symm⟩
    | negtive =>
      simp only [Sign.signed, true_iff]
      omega
  | negtive =>
    cases b.sign with
    | positive =>
      simp only [Sign.signed, Bool.false_eq_true, false_iff]
      omega
    | negtive =>
      simp only [Sign.signed, decide_eq_true_eq]
      omega

theorem orderHolds_iff_stale : OrderHolds stale (padded .negtive) ↔ Comparable stale (padded .negtive) :=
  orderHolds_iff stale (padded .negtive) (by decide) (by decide)

/-- Minus five comes out larger than minus three, and three equal to minus three. -/
theorem not_orderHolds :
    CMpi.comparesTo { stale with sign := .negtive } (padded .negtive) = some 1 ∧
      ¬ OrderHolds { stale with sign := .negtive } (padded .negtive) ∧
      (padded .positive).comparesTo (padded .negtive) = some 0 ∧ ¬ OrderHolds (padded .positive) (padded .negtive) := by
  have negtive : CMpi.comparesTo { stale with sign := .negtive } (padded .negtive) = some 1 := by decide +kernel
  have mixed : (padded .positive).comparesTo (padded .negtive) = some 0 := by decide +kernel
  refine ⟨negtive, fun holds => ?_, mixed, fun holds => ?_⟩
  · exact absurd (negtive.symm.trans holds.comparesTo) (by decide +kernel)
  · exact absurd (mixed.symm.trans holds.comparesTo) (by decide +kernel)

end CMpi
end MyTools.Mpi
