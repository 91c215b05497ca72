import MyTools.Mpi.Addition

/-! When the signed addition and subtraction are exact. Where the magnitudes are subtracted, as many
words of the larger one are read as the longer operand has, so that its words above its own length
count as well. -/
namespace MyTools.Mpi
open Library

def Sign.signed : Sign → ℕ → ℤ
  | .positive, n => n
  | .negtive, n => -n

namespace Sign

theorem signed_opposite (s : Sign) (n : ℕ) : s.opposite.signed n = -s.signed n := by
  cases s with
  | positive => rfl
  | negtive => exact (neg_neg _).symm

theorem signed_add (s : Sign) (m n : ℕ) : s.signed (m + n) = s.signed m + s.signed n := by
  cases s with
  | positive => exact Nat.cast_add m n
  | negtive => simp only [signed, Nat.cast_add, neg_add]

theorem natAbs_signed (s : Sign) (n : ℕ) : (s.signed n).natAbs = n := by
  cases s with
  | positive => exact Int.natAbs_natCast n
  | negtive => exact (Int.natAbs_neg _).trans (Int.natAbs_natCast n)

theorem signed_inj (s : Sign) {m n : ℕ} : s.signed m = s.signed n ↔ m = n := by
  cases s with
  | positive => exact Nat.cast_inj
  | negtive => exact neg_inj.trans Nat.cast_inj

end Sign

namespace CMpi

theorem toInt_eq (a : CMpi) : a.toInt = a.sign.signed a.abs := by
  unfold toInt
  cases a.sign with
  | positive => rfl
  | negtive => rfl

/-- The signed value with the carry as word eight. -/
def total (r : CMpi) : ℤ := r.sign.signed (r.abs + r.carry.toNat * radix ^ 8)

/-- The routine returns and leaves `x` in its first operand. -/
def Leaves (result : Option CMpi) (x : ℤ) : Prop := ∃ r, result = some r ∧ r.total = x

/-- The words from `low` on and below `high` are zero. -/
def Zeros (a : CMpi) (low high : ℕ) : Prop := ∀ k, low ≤ k → k < high → a.wordAt k = 0

instance (a : CMpi) (low high : ℕ) : Decidable (a.Zeros low high) :=
  decidable_of_iff (∀ k, k < high → low ≤ k → a.wordAt k = 0)
    ⟨fun zeros k above below => zeros k below above, fun zeros k below above => zeros k above below⟩

theorem leaves_iff {result : Option CMpi} {r : CMpi} (run : result = some r) {x : ℤ} : Leaves result x ↔ r.total = x := by
  constructor
  · rintro ⟨other, same, left⟩
    rw [run, Option.some.injEq] at same
    rwa [same]
  · exact fun left => ⟨r, run, left⟩

theorem value_minuend_iff (a b : CMpi) :
    Limbs.value radix (minuend a b).digit (max a.length b.length) = max a.abs b.abs ↔
      (minuend a b).Zeros (minuend a b).length (max a.length b.length) := by
  rw [← abs_minuend, abs, Limbs.value_eq_iff radix_pos (length_minuend_le a b)]
  exact forall_congr' fun k => forall_congr' fun _ => forall_congr' fun _ => wordAt_eq_zero.symm

theorem Remainder.total_iff {a b r : CMpi} (remainder : Remainder a b r) (same : a.sign = b.sign) (clear : a.carry = 0) :
    r.total = a.toInt - b.toInt ↔ (minuend a b).Zeros (minuend a b).length (max a.length b.length) := by
  have carry : r.carry.toNat = 0 := by
    rw [remainder.carry, clear]
    rfl
  have value := remainder.value
  rw [← value_minuend_iff, ← value, total, carry, Nat.zero_mul, Nat.add_zero, remainder.sign, a.toInt_eq, b.toInt_eq, same]
  by_cases less : a.abs < b.abs
  · rw [if_pos less, Nat.min_eq_left less.le, Nat.max_eq_right less.le, ← Sign.signed_inj b.sign, Sign.signed_add,
      Sign.signed_opposite]
    constructor
    · intro exact_
      linarith
    · intro exact_
      linarith
  · have more := Nat.not_lt.mp less
    rw [if_neg less, Nat.min_eq_right more, Nat.max_eq_left more, ← Sign.signed_inj b.sign, Sign.signed_add]
    exact eq_sub_iff_add_eq

theorem Sum.total_eq {a b r : CMpi} (sum : Sum a b r) (same : a.sign = b.sign) : r.total = a.toInt + b.toInt := by
  rw [total, sum.value, sum.sign, Sign.signed_add, a.toInt_eq, b.toInt_eq, same]

/-- What `CMpi_Substract` needs: for operands of one sign, the one with the larger magnitude has zeros
above its length, as far as the other one reaches. -/
def SubstractReadsZeros (a b : CMpi) : Prop :=
  a.sign = b.sign → if a.abs < b.abs then b.Zeros b.length a.length else a.Zeros a.length b.length

/-- What `CMpi_Add` needs for operands of different signs. The negated copy of an operand is made in the
local variable `temp` and keeps the words that were there before. -/
def AddReadsZeros (a b temp : CMpi) : Prop :=
  a.sign ≠ b.sign →
    if a.sign = .positive then
      if a.abs < b.abs then temp.Zeros b.length a.length else a.Zeros a.length b.length
    else b.abs < a.abs → temp.Zeros a.length b.length

instance (a b temp : CMpi) : Decidable (a.AddReadsZeros b temp) :=
  inferInstanceAs (Decidable (a.sign ≠ b.sign →
    if a.sign = .positive then
      if a.abs < b.abs then temp.Zeros b.length a.length else a.Zeros a.length b.length
    else b.abs < a.abs → temp.Zeros a.length b.length))

theorem zeros_minuend_iff (a b : CMpi) :
    (minuend a b).Zeros (minuend a b).length (max a.length b.length) ↔
      if a.abs < b.abs then b.Zeros b.length a.length else a.Zeros a.length b.length := by
  unfold minuend
  split
  · constructor
    · exact fun zeros k low high => zeros k low (lt_max_of_lt_left high)
    · exact fun zeros k low high => zeros k low ((lt_max_iff.mp high).resolve_right (Nat.not_lt.mpr low))
  · constructor
    · exact fun zeros k low high => zeros k low (lt_max_of_lt_right high)
    · exact fun zeros k low high => zeros k low ((lt_max_iff.mp high).resolve_left (Nat.not_lt.mpr low))

theorem Zeros.congr {a b : CMpi} {low high : ℕ} (same : ∀ k, low ≤ k → a.wordAt k = b.wordAt k) :
    a.Zeros low high ↔ b.Zeros low high := by
  constructor
  · exact fun zeros k above below => (same k above).symm.trans (zeros k above below)
  · exact fun zeros k above below => (same k above).trans (zeros k above below)

theorem zeros_of_abs_lt {a : CMpi} {n : ℕ} (small : a.abs < radix ^ n) : a.Zeros n a.length := by
  intro k above below
  apply wordAt_eq_zero.mpr
  by_contra nonzero
  have most : Limbs.value radix a.digit (k + 1) ≤ a.abs := Limbs.value_mono below
  have least : radix ^ n ≤ radix ^ k := Nat.pow_le_pow_right radix_pos above
  have digit := Nat.le_mul_of_pos_left (radix ^ k) (Nat.pos_of_ne_zero nonzero)
  rw [Limbs.value_succ] at most
  omega

theorem substract_iff (a b temp : CMpi) (a_bounded : a.length ≤ 8) (b_bounded : b.length ≤ 8) :
    Leaves (a.substract b temp) (a.toInt - b.toInt) ↔ SubstractReadsZeros a b := by
  by_cases same : a.sign = b.sign
  · obtain ⟨r, run, remainder⟩ := substract_words a b temp a_bounded b_bounded same
    rw [leaves_iff run, SubstractReadsZeros]
    exact (remainder.total_iff same rfl).trans
      ((zeros_minuend_iff _ _).trans (imp_iff_right same).symm)
  · obtain ⟨minus, r, copied, run, sum⟩ := substract_apart a b temp a_bounded b_bounded same
    have opposite : a.sign = b.sign.opposite := opposite_of_ne (Ne.symm same)
    rw [leaves_iff run, sum.total_eq (opposite.trans copied.sign.symm), minus.toInt_eq, copied.sign, copied.abs,
      Sign.signed_opposite, ← sub_eq_add_neg, b.toInt_eq]
    exact iff_of_true rfl fun equal => absurd equal same

theorem add_iff (a b temp : CMpi) (a_bounded : a.length ≤ 8) (b_bounded : b.length ≤ 8) :
    Leaves (a.add b temp) (a.toInt + b.toInt) ↔ AddReadsZeros a b temp := by
  by_cases same : a.sign = b.sign
  · obtain ⟨r, run, sum⟩ := add_same a b temp a_bounded b_bounded same
    rw [leaves_iff run]
    exact iff_of_true (sum.total_eq same) fun apart => absurd same apart
  · have signs : ¬ ({ a with carry := 0 } : CMpi).sign = b.sign := same
    have other := opposite_of_ne same
    rw [AddReadsZeros, imp_iff_right same]
    by_cases positive : a.sign = .positive
    · obtain ⟨minus, run, sign, length, -, words, above⟩ := negate_run b temp b_bounded
      have copied : minus.Same { b with sign := b.sign.opposite } := ⟨sign, length, words⟩
      have abs : minus.abs = b.abs := copied.abs
      have aligned : a.sign = minus.sign := by
        rw [sign, other, positive]
        rfl
      obtain ⟨r, subtracted, remainder⟩ := substractAligned_words { a with carry := 0 } minus a_bounded
        (Nat.le_trans (Nat.le_of_eq length) b_bounded)
      have left : a.add b temp = some r := by
        simp only [add, if_neg signs, if_pos positive, run, Option.bind_eq_bind, Option.bind_some]
        exact subtracted
      have exact_ := (remainder.total_iff aligned rfl).trans (zeros_minuend_iff _ _)
      rw [abs, length, Zeros.congr above, minus.toInt_eq, sign, abs, Sign.signed_opposite, sub_neg_eq_add, ← b.toInt_eq]
        at exact_
      rw [leaves_iff left, if_pos positive]
      exact exact_
    · have b_positive : b.sign = .positive := by
        cases sign : a.sign with
        | positive => exact absurd sign positive
        | negtive => rw [other, sign]; rfl
      obtain ⟨minus, run, sign, length, -, words, above⟩ := negate_run { a with carry := 0 } temp a_bounded
      have negated : minus.Same { a with carry := 0, sign := a.sign.opposite } := ⟨sign, length, words⟩
      have abs : minus.abs = a.abs := negated.abs
      obtain ⟨copy, copied, copy_same, clear, outside⟩ := assign_run b { a with carry := 0 } b_bounded
      have aligned : copy.sign = minus.sign := by
        rw [copy_same.sign, sign]
        exact other
      obtain ⟨r, subtracted, remainder⟩ := substractAligned_words copy minus
        (Nat.le_trans (Nat.le_of_eq copy_same.length) b_bounded) (Nat.le_trans (Nat.le_of_eq length) a_bounded)
      have left : a.add b temp = some r := by
        simp only [add, if_neg signs, if_neg positive, run, copied, Option.bind_eq_bind, Option.bind_some]
        exact subtracted
      have exact_ := (remainder.total_iff aligned clear).trans (zeros_minuend_iff _ _)
      have copy_int : copy.toInt = b.toInt := by rw [copy.toInt_eq, b.toInt_eq, copy_same.sign, copy_same.abs]
      have minus_int : minus.toInt = -a.toInt := by
        rw [minus.toInt_eq, a.toInt_eq, sign, abs]
        exact Sign.signed_opposite a.sign a.abs
      rw [copy_int, minus_int, sub_neg_eq_add, add_comm, abs, copy_same.abs, length, copy_same.length] at exact_
      rw [leaves_iff left, if_neg positive]
      refine exact_.trans ?_
      split
      · next less => exact (Zeros.congr above).trans (imp_iff_right less).symm
      · next more =>
        refine iff_of_true ?_ fun less => absurd less more
        have small : a.abs < radix ^ b.length := Nat.lt_of_le_of_lt (Nat.not_lt.mp more) b.abs_lt
        exact (Zeros.congr outside).mpr (zeros_of_abs_lt (a := { a with carry := 0 }) small)

/-- Both routines are exact just where the words they read above an operand's length are zero. -/
theorem add_substract_exact_iff (a b temp : CMpi) (a_bounded : a.length ≤ 8) (b_bounded : b.length ≤ 8) :
    (Leaves (a.add b temp) (a.toInt + b.toInt) ↔ AddReadsZeros a b temp) ∧
      (Leaves (a.substract b temp) (a.toInt - b.toInt) ↔ SubstractReadsZeros a b) :=
  ⟨add_iff a b temp a_bounded b_bounded, substract_iff a b temp a_bounded b_bounded⟩

/-- The number five in one word, with a word of an earlier number above it. -/
def stale : CMpi := ⟨#v[5, 7, 0, 0, 0, 0, 0, 0], 0, .positive, 1⟩

/-- The number three in two words, as it is imported from eight octets. -/
def padded (sign : Sign) : CMpi := ⟨#v[3, 0, 0, 0, 0, 0, 0, 0], 0, sign, 2⟩

theorem add_substract_exact_stale :
    (Leaves (stale.add (padded .positive) stale) 8 ↔ AddReadsZeros stale (padded .positive) stale) ∧
      (Leaves (stale.substract (padded .positive) stale) 2 ↔ SubstractReadsZeros stale (padded .positive)) :=
  add_substract_exact_iff stale (padded .positive) stale (by decide) (by decide)

/-- Five less three, by either routine, comes out as `7 * 2 ^ 32 + 2`. -/
theorem not_add_substract_exact :
    (stale.substract (padded .positive) stale).map total = some (7 * radix + 2) ∧
      ¬ Leaves (stale.substract (padded .positive) stale) (stale.toInt - (padded .positive).toInt) ∧
      (stale.add (padded .negtive) stale).map total = some (7 * radix + 2) ∧
      ¬ Leaves (stale.add (padded .negtive) stale) (stale.toInt + (padded .negtive).toInt) := by
  have subtracted : (stale.substract (padded .positive) stale).map total = some (7 * radix + 2) := by decide +kernel
  have added : (stale.add (padded .negtive) stale).map total = some (7 * radix + 2) := by decide +kernel
  refine ⟨subtracted, ?_, added, ?_⟩
  · rintro ⟨r, run, exact_⟩
    rw [run, Option.map_some, exact_] at subtracted
    exact absurd subtracted (by decide)
  · rintro ⟨r, run, exact_⟩
    rw [run, Option.map_some, exact_] at added
    exact absurd added (by decide)

end CMpi
end MyTools.Mpi
