import MyTools.Mpi.Exact
import MyTools.Mpi.Subtraction
import MyTools.Mpi.Multiplication
import MyTools.Mpi.ShiftLeft

/-! The addition and subtraction of numbers of two halves with any signs. The halves are added apart, as
signed numbers, and brought together afterwards. -/
namespace MyTools.Mpi
open Library CMpi

namespace CMpi

theorem Apart.toInt_iff {a b r : CMpi} (left : Apart a b r) (apart : a.sign ≠ b.sign) :
    r.toInt = a.toInt + b.toInt ↔ r.abs + min a.abs b.abs = max a.abs b.abs := by
  have sign := left.sign
  have other := opposite_of_ne apart
  rw [r.toInt_eq, a.toInt_eq, b.toInt_eq]
  rcases Nat.lt_trichotomy a.abs b.abs with less | equal | more
  · rw [if_pos less] at sign
    rw [sign, Nat.min_eq_left less.le, Nat.max_eq_right less.le, other, Sign.signed_opposite, Sign.signed_opposite,
      ← Sign.signed_inj a.sign, Sign.signed_add]
    constructor <;> intro <;> linarith
  · rw [equal, other, Sign.signed_opposite, add_neg_cancel, Nat.min_self, Nat.max_self, ← r.toInt_eq, ← Int.natAbs_eq_zero,
      r.natAbs_toInt]
    omega
  · rw [if_neg (Nat.not_lt.mpr more.le), if_pos more] at sign
    rw [sign, Nat.min_eq_right more.le, Nat.max_eq_left more.le, other, Sign.signed_opposite, ← Sign.signed_inj a.sign,
      Sign.signed_add]
    constructor <;> intro <;> linarith

/-- A sum of different signs is exact just where the words that are read above a length are zero. -/
theorem Apart.exact_iff {a b temp r : CMpi} (left : Apart a b r) (run : a.add b temp = some r) (a_bounded : a.length ≤ 8)
    (b_bounded : b.length ≤ 8) : r.toInt = a.toInt + b.toInt ↔ a.AddReadsZeros b temp := by
  have whole : r.total = r.toInt := by
    have nothing : (0 : UInt32).toNat = 0 := rfl
    rw [total, left.carry, nothing, Nat.zero_mul, Nat.add_zero, r.toInt_eq]
  rw [← add_iff a b temp a_bounded b_bounded, leaves_iff run, whole]

theorem add_opposite_toInt {a b r : CMpi} (cancelled : Cancelled a b r) (apart : a.sign ≠ b.sign) :
    r.toInt = a.toInt + b.toInt := by
  have left : Apart a b r := ⟨cancelled.sign, cancelled.bounded, Nat.le_of_eq cancelled.value.symm, cancelled.carry,
    cancelled.trimmed, cancelled.zeros, cancelled.above, fun _ => cancelled.value⟩
  exact (left.toInt_iff apart).mpr cancelled.value

theorem Trimmed.abs_eq_zero_iff {a : CMpi} (trimmed : a.Trimmed) : a.abs = 0 ↔ a.length = 0 := by
  constructor
  · exact trimmed.length_eq_zero
  · intro empty
    exact CMpi.abs_eq_zero.mpr fun i inside => absurd inside (by omega)

end CMpi

namespace CMpl

/-- Halves of one sign, the low one in eight words below a high one, without leading zero words. -/
structure Canonical (a : CMpl) : Prop extends Normal a where
  common : a.h.sign = a.l.sign

/-- Halves of one sign, where a low half of eight words may have leading zero words. -/
structure Balanced (a : CMpl) : Prop extends Loose a where
  common : a.h.sign = a.l.sign

theorem Canonical.balanced {a : CMpl} (canonical : a.Canonical) : a.Balanced :=
  ⟨⟨canonical.toPacked, canonical.h_trimmed, canonical.full.imp_right canonical.l_trimmed⟩, canonical.common⟩

theorem Balanced.canonical {a : CMpl} (balanced : a.Balanced) (l_trimmed : a.h.length = 0 → a.l.Trimmed) : a.Canonical :=
  ⟨⟨balanced.toPacked, balanced.h_trimmed, l_trimmed⟩, balanced.common⟩

/-- The routine returns, and leaves `x` in a number that keeps the representation. -/
def Yields (result : Option CMpl) (x : ℤ) : Prop := ∃ r, result = some r ∧ r.Canonical ∧ r.signed = x

theorem yields_iff {result : Option CMpl} {r : CMpl} (run : result = some r) {x : ℤ} :
    Yields result x ↔ r.Canonical ∧ r.signed = x := by
  constructor
  · rintro ⟨other, same, left⟩
    rw [run, Option.some.injEq] at same
    rwa [same]
  · exact fun left => ⟨r, run, left⟩

theorem radix_half : ((radix ^ 8 : ℕ) : ℤ) = 2 ^ 256 := by decide

theorem signed_common {a : CMpl} (common : a.h.sign = a.l.sign) : a.signed = a.l.sign.signed a.abs := by
  rw [signed, a.h.toInt_eq, a.l.toInt_eq, common, abs, Sign.signed_add, ← radix_half]
  cases a.l.sign with
  | positive =>
    simp only [Sign.signed, Nat.cast_mul]
    ring
  | negtive =>
    simp only [Sign.signed, Nat.cast_mul]
    ring

theorem Reconciled.canonical {h l : CMpi} {r : CMpl} (result : Reconciled h l r) : r.Canonical where
  l_bounded := result.l_bounded
  h_bounded := result.h_bounded
  full := result.full.symm.imp_right result.h_trimmed.length_eq_zero
  h_trimmed := result.h_trimmed
  l_trimmed empty := result.l_trimmed (result.h_trimmed.abs_eq_zero_iff.mpr empty)
  common := result.h_sign

theorem Reconciled.signed {h l : CMpi} {r : CMpl} (result : Reconciled h l r) (l_bounded : l.length ≤ 8) :
    r.signed = (CMpl.mk h l).signed := by
  have value := result.value
  have sign := result.l_sign
  rw [signed_common result.h_sign, sign]
  by_cases empty : h.abs = 0
  · have nothing : h.toInt = 0 := Int.natAbs_eq_zero.mp (h.natAbs_toInt.trans empty)
    rw [if_pos (.inl empty), empty, Nat.zero_mul, Nat.add_zero] at value
    rw [if_pos empty, value, CMpl.signed, nothing, zero_mul, zero_add, l.toInt_eq]
  · rw [if_neg empty]
    by_cases same : l.sign = h.sign
    · rw [if_pos (.inr same)] at value
      have common : (CMpl.mk h l).h.sign = (CMpl.mk h l).l.sign := same.symm
      rw [signed_common common, value, abs]
      exact congrArg (Sign.signed · _) same.symm
    · rw [if_neg (not_or.mpr ⟨empty, same⟩)] at value
      have limit := Nat.lt_of_lt_of_le l.abs_lt (Nat.pow_le_pow_right radix_pos l_bounded)
      have large := Nat.le_mul_of_pos_left (radix ^ 8) (Nat.pos_of_ne_zero empty)
      have whole : r.abs + l.abs = h.abs * radix ^ 8 := by omega
      have split := congrArg h.sign.signed whole
      rw [Sign.signed_add] at split
      rw [CMpl.signed, h.toInt_eq, l.toInt_eq, opposite_of_ne (Ne.symm same), Sign.signed_opposite, ← radix_half]
      have product : h.sign.signed (h.abs * radix ^ 8) = h.sign.signed h.abs * (radix ^ 8 : ℕ) := by
        cases h.sign with
        | positive => exact Nat.cast_mul _ _
        | negtive =>
          simp only [Sign.signed, Nat.cast_mul]
          ring
      rw [product] at split
      linarith

/-- Halves of different signs come together, unless the low one is zero and the high one is not. -/
theorem reconcile_iff {h l : CMpi} (junk : CMpi) (x : ℤ) (h_bounded : h.length ≤ 8) (l_bounded : l.length ≤ 8)
    (carry : l.carry = 0) (h_trimmed : h.Trimmed) (l_trimmed : l.Trimmed)
    (zeros : h.abs ≠ 0 → ∀ k, l.length ≤ k → k < 8 → l.wordAt k = 0)
    (exact_ : l.abs = 0 → (CMpl.mk h l).signed = x) :
    Yields (reconcile ⟨h, l⟩ junk) x ↔ (CMpl.mk h l).signed = x ∧ ¬ (h.abs ≠ 0 ∧ l.sign ≠ h.sign ∧ l.abs = 0) := by
  by_cases lost : h.abs ≠ 0 ∧ l.sign ≠ h.sign ∧ l.abs = 0
  · obtain ⟨some_, apart, zero⟩ := lost
    obtain ⟨r, run, l_sign, h_sign, value⟩ := reconcile_lost junk h_bounded l_bounded some_ apart zero
    have nothing : l.toInt = 0 := Int.natAbs_eq_zero.mp (l.natAbs_toInt.trans zero)
    rw [yields_iff run]
    refine iff_of_false ?_ fun both => both.2 ⟨some_, apart, zero⟩
    rintro ⟨-, same⟩
    have whole := congrArg Int.natAbs (same.trans (exact_ zero).symm)
    rw [signed_common (h_sign.trans l_sign.symm), l_sign, CMpl.signed, nothing, add_zero, ← radix_half, Int.natAbs_mul,
      Int.natAbs_natCast, h.natAbs_toInt] at whole
    have room : 0 < radix ^ 8 := Nat.pow_pos radix_pos
    rw [Sign.natAbs_signed] at whole
    omega
  · obtain ⟨r, run, result⟩ := reconcile_run junk h_bounded l_bounded carry h_trimmed l_trimmed zeros
      fun some_ apart zero => lost ⟨some_, apart, zero⟩
    rw [yields_iff run, result.signed l_bounded, and_iff_right result.canonical, and_iff_left lost]

/-! Low halves that have been added, with the sum `h` of the high ones. -/

private theorem aligned_run {a b l h : CMpi} (junk : CMpi) (sum : Sum { a with carry := 0 } b l)
    (h_sign : h.sign = a.sign) (h_bounded : h.length ≤ 8) (h_trimmed : h.Trimmed)
    (wide : h.abs = 0 ∨ max a.length b.length = 8) (a_loose : a.length = 8 ∨ a.Trimmed)
    (b_loose : b.length = 8 ∨ b.Trimmed) (fits : a.abs + b.abs + h.abs * radix ^ 8 < radix ^ 16) :
    ∃ r, reconcile ⟨h, l⟩ junk = some r ∧ r.Balanced ∧
      r.signed = a.sign.signed (a.abs + b.abs + h.abs * radix ^ 8) ∧
      ((h.abs = 0 → a.Trimmed ∧ b.Trimmed) → r.h.length = 0 → r.l.Trimmed) := by
  have value : l.abs + l.carry.toNat * radix ^ 8 = a.abs + b.abs := sum.value
  have l_sign : l.sign = a.sign := sum.sign
  have bounded := sum.bounded
  have longer : max a.length b.length ≤ l.length := sum.longer
  have room : l.length = 8 ∨ l.carry = 0 ∧ h.abs = 0 := by
    rcases wide with empty | full
    · by_cases full : l.length = 8
      · exact .inl full
      · exact .inr ⟨sum.carried (Nat.lt_of_le_of_ne bounded full), empty⟩
    · exact .inl (by omega)
  have whole : (CMpl.mk h l).abs + l.carry.toNat * radix ^ 8 = a.abs + b.abs + h.abs * radix ^ 8 := by
    rw [abs]
    dsimp only
    omega
  obtain ⟨h', run, sign, h'_bounded, -, high, trimmed⟩ := reconcile_aligned ⟨h, l⟩ junk (h_sign.trans l_sign.symm) h_bounded
    room (whole ▸ fits)
  dsimp only at run sign high trimmed
  have h'_trimmed := trimmed h_trimmed
  have common : h'.sign = l.sign := sign.trans (h_sign.trans l_sign.symm)
  have empty_of_short (short : l.length ≠ 8) : h'.length = 0 := by
    obtain ⟨clear, empty⟩ := room.resolve_left short
    apply h'_trimmed.length_eq_zero
    rw [high, clear, empty]
    rfl
  have l_trimmed (empty : h'.length = 0) (a_trimmed : a.Trimmed) (b_trimmed : b.Trimmed) : l.Trimmed := by
    have nothing := h'_trimmed.abs_eq_zero_iff.mpr empty
    exact sum.trimmed (UInt32.toNat_inj.mp (Nat.add_eq_zero_iff.mp (high.symm.trans nothing)).2) a_trimmed b_trimmed
  have loose : l.length = 8 ∨ l.Trimmed := by
    by_cases full : l.length = 8
    · exact .inl full
    · exact .inr (l_trimmed (empty_of_short full) (a_loose.resolve_left (by omega)) (b_loose.resolve_left (by omega)))
  have packed : (CMpl.mk h' { l with carry := 0 }).Packed :=
    ⟨bounded, h'_bounded, (em (l.length = 8)).imp_right empty_of_short⟩
  refine ⟨_, run, ⟨⟨packed, h'_trimmed, loose⟩, common⟩, ?_, fun both empty => ?_⟩
  · have low : ({ l with carry := 0 } : CMpi).abs = l.abs := rfl
    rw [signed_common common, ← whole, abs, abs, low, high, Nat.add_mul, Nat.add_assoc]
    exact congrArg (Sign.signed · _) l_sign
  · have nothing := h'_trimmed.abs_eq_zero_iff.mpr empty
    obtain ⟨a_trimmed, b_trimmed⟩ := both (Nat.add_eq_zero_iff.mp (high.symm.trans nothing)).1
    exact l_trimmed empty a_trimmed b_trimmed

private theorem apart_iff {a b temp l h : CMpi} (junk : CMpi) (run : a.add b temp = some l) (apart : a.sign ≠ b.sign)
    (a_bounded : a.length ≤ 8) (b_bounded : b.length ≤ 8) (h_bounded : h.length ≤ 8) (h_trimmed : h.Trimmed)
    (wide : h.abs = 0 ∨ max a.length b.length = 8) :
    Yields (reconcile ⟨h, l⟩ junk) (h.toInt * 2 ^ 256 + (a.toInt + b.toInt)) ↔
      a.AddReadsZeros b temp ∧ ¬ (a.abs = b.abs ∧ h.abs ≠ 0 ∧ h.sign = .negtive) := by
  obtain ⟨r, r_run, left⟩ := add_apart a b temp a_bounded b_bounded apart
  obtain rfl : r = l := Option.some.inj (r_run.symm.trans run)
  have exact_ := left.exact_iff run a_bounded b_bounded
  have bounded := Nat.le_trans left.bounded (Nat.max_le.mpr ⟨a_bounded, b_bounded⟩)
  have same : (CMpl.mk h r).signed = h.toInt * 2 ^ 256 + (a.toInt + b.toInt) ↔ r.toInt = a.toInt + b.toInt :=
    add_right_inj _
  have least := left.least
  have equal_of_zero (zero : r.abs = 0) : a.abs = b.abs := by omega
  rw [reconcile_iff junk _ h_bounded bounded left.carry h_trimmed left.trimmed, same, exact_]
  · refine and_congr_right fun zeros => not_congr ?_
    have value := (left.toInt_iff apart).mp (exact_.mpr zeros)
    have sign := left.sign
    constructor
    · rintro ⟨some_, other, zero⟩
      have equal := equal_of_zero zero
      rw [equal, if_neg (Nat.lt_irrefl _), if_neg (Nat.lt_irrefl _)] at sign
      refine ⟨equal, some_, ?_⟩
      rw [opposite_of_ne other, sign]
      rfl
    · rintro ⟨equal, some_, negtive⟩
      rw [equal, if_neg (Nat.lt_irrefl _), if_neg (Nat.lt_irrefl _)] at sign
      refine ⟨some_, ?_, by omega⟩
      rw [sign, negtive]
      decide
  · intro some_ k outside below
    exact left.zeros k outside ((wide.resolve_left some_).symm ▸ below)
  · intro zero
    have equal := equal_of_zero zero
    rw [same, left.toInt_iff apart]
    omega

private theorem apart_total {a b temp l h : CMpi} (junk : CMpi) (run : a.add b temp = some l) (apart : a.sign ≠ b.sign)
    (a_bounded : a.length ≤ 8) (b_bounded : b.length ≤ 8) (h_bounded : h.length ≤ 8) (h_trimmed : h.Trimmed)
    (wide : h.abs = 0 ∨ max a.length b.length = 8) : ∃ r, reconcile ⟨h, l⟩ junk = some r := by
  obtain ⟨r, r_run, left⟩ := add_apart a b temp a_bounded b_bounded apart
  obtain rfl : r = l := Option.some.inj (r_run.symm.trans run)
  have bounded := Nat.le_trans left.bounded (Nat.max_le.mpr ⟨a_bounded, b_bounded⟩)
  have zeros (some_ : h.abs ≠ 0) : ∀ k, r.length ≤ k → k < 8 → r.wordAt k = 0 := fun k outside below =>
    left.zeros k outside ((wide.resolve_left some_).symm ▸ below)
  by_cases lost : h.abs ≠ 0 ∧ r.sign ≠ h.sign ∧ r.abs = 0
  · obtain ⟨some_, other, zero⟩ := lost
    obtain ⟨s, s_run, -⟩ := reconcile_lost junk h_bounded bounded some_ other zero
    exact ⟨s, s_run⟩
  · obtain ⟨s, s_run, -⟩ := reconcile_run junk h_bounded bounded left.carry h_trimmed left.trimmed zeros
      fun some_ other zero => lost ⟨some_, other, zero⟩
    exact ⟨s, s_run⟩

/-- The low halves cancel, and 2 ^ 256 is to be lent by a high half that is less than zero. A zero is
positive, so that its sign is not that of the high half. -/
def BorrowLost (a b : CMpl) : Prop :=
  a.l.sign ≠ b.l.sign ∧ a.l.abs = b.l.abs ∧ if a.l.sign = .positive then a.h.abs < b.h.abs else b.h.abs < a.h.abs

/-- What `CMpl_Add` needs; `temp` is the local variable of the addition of the low halves. -/
def AddExact (a b : CMpl) (temp : CMpi) : Prop := a.l.AddReadsZeros b.l temp ∧ ¬ BorrowLost a b

instance (a b : CMpl) : Decidable (BorrowLost a b) :=
  inferInstanceAs (Decidable (a.l.sign ≠ b.l.sign ∧ a.l.abs = b.l.abs ∧
    if a.l.sign = .positive then a.h.abs < b.h.abs else b.h.abs < a.h.abs))

instance (a b : CMpl) (temp : CMpi) : Decidable (a.AddExact b temp) :=
  inferInstanceAs (Decidable (a.l.AddReadsZeros b.l temp ∧ ¬ BorrowLost a b))

theorem Loose.wide {a : CMpl} (loose : a.Loose) : a.h.abs = 0 ∨ a.l.length = 8 :=
  loose.full.symm.imp_left loose.h_trimmed.abs_eq_zero_iff.mpr

theorem Canonical.low_trimmed {a : CMpl} (canonical : a.Canonical) (empty : a.h.abs = 0) : a.l.Trimmed :=
  canonical.l_trimmed (canonical.h_trimmed.length_eq_zero empty)

private theorem cancelled_high {a b h : CMpi} (cancelled : Cancelled a b h) (apart : a.sign ≠ b.sign) :
    h.abs ≠ 0 ∧ h.sign = .negtive ↔ if a.sign = .positive then a.abs < b.abs else b.abs < a.abs := by
  have value := cancelled.value
  have sign := cancelled.sign
  have other := opposite_of_ne apart
  rcases Nat.lt_trichotomy a.abs b.abs with less | equal | more
  · rw [if_pos less, other] at sign
    have some_ : h.abs ≠ 0 := by omega
    rw [sign, and_iff_right some_]
    cases a.sign with
    | positive => exact iff_of_true rfl less
    | negtive => exact iff_of_false (by decide) (Nat.not_lt.mpr less.le)
  · have nothing : h.abs = 0 := by omega
    refine iff_of_false (fun both => both.1 nothing) ?_
    rw [equal, ite_self]
    exact Nat.lt_irrefl _
  · rw [if_neg (Nat.not_lt.mpr more.le), if_pos more] at sign
    have some_ : h.abs ≠ 0 := by omega
    rw [sign, and_iff_right some_]
    cases a.sign with
    | positive => exact iff_of_false (by decide) (Nat.not_lt.mpr more.le)
    | negtive => exact iff_of_true rfl more

private theorem wide_of_halves {a b : CMpl} (a_loose : a.Loose) (b_loose : b.Loose) {h : ℕ}
    (empty : a.h.abs = 0 → b.h.abs = 0 → h = 0) : h = 0 ∨ max a.l.length b.l.length = 8 := by
  have a_bounded := a_loose.l_bounded
  have b_bounded := b_loose.l_bounded
  rcases a_loose.wide with a_empty | full
  · rcases b_loose.wide with b_empty | full
    · exact .inl (empty a_empty b_empty)
    · exact .inr (by omega)
  · exact .inr (by omega)

private theorem add_run (a b : CMpl) (junk : CMpi) (a_balanced : a.Balanced) (b_balanced : b.Balanced)
    (same : a.l.sign = b.l.sign) (fits : (a.signed + b.signed).natAbs < radix ^ 16) :
    ∃ r, a.add b junk = some r ∧ r.Balanced ∧ r.signed = a.signed + b.signed ∧
      ((a.h.abs = 0 → a.l.Trimmed) → (b.h.abs = 0 → b.l.Trimmed) → r.h.length = 0 → r.l.Trimmed) := by
  have whole : a.signed + b.signed = a.l.sign.signed (a.abs + b.abs) := by
    rw [signed_common a_balanced.common, signed_common b_balanced.common, same, Sign.signed_add]
  rw [whole, Sign.natAbs_signed] at fits
  have h_same : a.h.sign = b.h.sign := a_balanced.common.trans (same.trans b_balanced.common.symm)
  obtain ⟨l, l_run, l_sum⟩ := add_same a.l b.l junk a_balanced.l_bounded b_balanced.l_bounded same
  obtain ⟨h, h_run, h_sum⟩ := add_same a.h b.h junk a_balanced.h_bounded b_balanced.h_bounded h_same
  have value : h.abs + h.carry.toNat * radix ^ 8 = a.h.abs + b.h.abs := h_sum.value
  have clear : h.carry.toNat = 0 := by
    by_contra some_
    have more := Nat.mul_le_mul_right (radix ^ 8) (Nat.pos_of_ne_zero some_)
    have large := Nat.mul_le_mul_right (radix ^ 8) (show radix ^ 8 ≤ a.h.abs + b.h.abs by omega)
    rw [Nat.add_mul] at large
    rw [abs, abs, radix_double] at fits
    omega
  rw [clear, Nat.zero_mul, Nat.add_zero] at value
  have total : a.l.abs + b.l.abs + h.abs * radix ^ 8 = a.abs + b.abs := by
    rw [value, abs, abs, Nat.add_mul]
    omega
  obtain ⟨r, run, r_balanced, exact_, trimmed⟩ := aligned_run junk l_sum (h_sum.sign.trans a_balanced.common)
    h_sum.bounded (h_sum.trimmed (UInt32.toNat_inj.mp clear) a_balanced.h_trimmed b_balanced.h_trimmed)
    (wide_of_halves a_balanced.toLoose b_balanced.toLoose fun a_empty b_empty => by omega) a_balanced.loose b_balanced.loose
    (total ▸ fits)
  refine ⟨r, ?_, r_balanced, ?_, fun a_trimmed b_trimmed => trimmed fun empty => ?_⟩
  · rw [add, l_run, Option.bind_eq_bind, Option.bind_some, h_run, Option.bind_some, run]
  · rw [exact_, whole, total]
  · exact ⟨a_trimmed (by omega), b_trimmed (by omega)⟩

private theorem halves_apart (a b : CMpl) (junk : CMpi) (a_balanced : a.Balanced) (b_balanced : b.Balanced)
    (apart : a.h.sign ≠ b.h.sign) : ∃ l h, a.l.add b.l junk = some l ∧ a.h.add b.h junk = some h ∧ Cancelled a.h b.h h ∧
      h.length ≤ 8 ∧ (h.abs = 0 ∨ max a.l.length b.l.length = 8) := by
  have l_apart : a.l.sign ≠ b.l.sign := by rwa [← a_balanced.common, ← b_balanced.common]
  have ordered : if a.h.sign = .positive then Ordered a.h b.h else Ordered b.h a.h := by
    split
    · exact ordered_of_trimmed a_balanced.h_trimmed b_balanced.h_trimmed
    · exact ordered_of_trimmed b_balanced.h_trimmed a_balanced.h_trimmed
  obtain ⟨l, l_run, -⟩ := add_apart a.l b.l junk a_balanced.l_bounded b_balanced.l_bounded l_apart
  obtain ⟨h, h_run, cancelled⟩ := add_opposite a.h b.h junk a_balanced.h_bounded b_balanced.h_bounded apart ordered
  have value := cancelled.value
  refine ⟨l, h, l_run, h_run, cancelled, ?_, ?_⟩
  · exact Nat.le_trans cancelled.bounded (Nat.max_le.mpr ⟨a_balanced.h_bounded, b_balanced.h_bounded⟩)
  · exact wide_of_halves a_balanced.toLoose b_balanced.toLoose fun a_empty b_empty => by omega

private theorem add_apart_iff (a b : CMpl) (junk : CMpi) (a_balanced : a.Balanced) (b_balanced : b.Balanced)
    (apart : a.l.sign ≠ b.l.sign) : Yields (a.add b junk) (a.signed + b.signed) ↔ a.AddExact b junk := by
  have h_apart : a.h.sign ≠ b.h.sign := by rwa [a_balanced.common, b_balanced.common]
  obtain ⟨l, h, l_run, h_run, cancelled, bounded, wide⟩ := halves_apart a b junk a_balanced b_balanced h_apart
  have whole : a.signed + b.signed = h.toInt * 2 ^ 256 + (a.l.toInt + b.l.toInt) := by
    rw [signed, signed, add_opposite_toInt cancelled h_apart]
    ring
  rw [whole, add, l_run, Option.bind_eq_bind, Option.bind_some, h_run, Option.bind_some,
    apart_iff junk l_run apart a_balanced.l_bounded b_balanced.l_bounded bounded cancelled.trimmed wide,
    cancelled_high cancelled h_apart, a_balanced.common, AddExact, BorrowLost, and_iff_right apart]

private theorem add_yields_iff (a b : CMpl) (junk : CMpi) (a_canonical : a.Canonical) (b_canonical : b.Canonical)
    (fits : (a.signed + b.signed).natAbs < radix ^ 16) :
    Yields (a.add b junk) (a.signed + b.signed) ↔ a.AddExact b junk := by
  by_cases same : a.l.sign = b.l.sign
  · obtain ⟨r, run, balanced, exact_, trimmed⟩ := add_run a b junk a_canonical.balanced b_canonical.balanced same fits
    refine iff_of_true ⟨r, run, balanced.canonical ?_, exact_⟩
      ⟨fun apart => absurd same apart, fun lost => lost.1 same⟩
    exact trimmed a_canonical.low_trimmed b_canonical.low_trimmed
  · exact add_apart_iff a b junk a_canonical.balanced b_canonical.balanced same

theorem add_balanced (a b : CMpl) (junk : CMpi) (a_balanced : a.Balanced) (b_balanced : b.Balanced)
    (fits : (a.signed + b.signed).natAbs < radix ^ 16) (exact_ : a.AddExact b junk) :
    ∃ r, a.add b junk = some r ∧ r.Balanced ∧ r.signed = a.signed + b.signed := by
  by_cases same : a.l.sign = b.l.sign
  · obtain ⟨r, run, balanced, exact_, -⟩ := add_run a b junk a_balanced b_balanced same fits
    exact ⟨r, run, balanced, exact_⟩
  · obtain ⟨r, run, canonical, exact_⟩ := (add_apart_iff a b junk a_balanced b_balanced same).mpr exact_
    exact ⟨r, run, canonical.balanced, exact_⟩

theorem add_total (a b : CMpl) (junk : CMpi) (a_balanced : a.Balanced) (b_balanced : b.Balanced)
    (fits : (a.signed + b.signed).natAbs < radix ^ 16) : ∃ r, a.add b junk = some r := by
  by_cases same : a.l.sign = b.l.sign
  · obtain ⟨r, run, -⟩ := add_run a b junk a_balanced b_balanced same fits
    exact ⟨r, run⟩
  · have h_apart : a.h.sign ≠ b.h.sign := by rwa [a_balanced.common, b_balanced.common]
    obtain ⟨l, h, l_run, h_run, cancelled, bounded, wide⟩ := halves_apart a b junk a_balanced b_balanced h_apart
    rw [add, l_run, Option.bind_eq_bind, Option.bind_some, h_run, Option.bind_some]
    exact apart_total junk l_run same a_balanced.l_bounded b_balanced.l_bounded bounded cancelled.trimmed wide

/-- A number of one half that is less than zero, and may have leading zero words, is added to a larger one. -/
theorem add_larger (a b : CMpl) (junk : CMpi) (a_empty : a.h.length = 0) (b_empty : b.h.length = 0)
    (a_bounded : a.l.length ≤ 8) (b_bounded : b.l.length ≤ 8) (h_apart : a.h.sign ≠ b.h.sign) (a_sign : a.l.sign = .negtive)
    (b_sign : b.l.sign = .positive) (less : a.l.abs < b.l.abs) : Yields (a.add b junk) (a.l.toInt + b.l.toInt) := by
  have apart : a.l.sign ≠ b.l.sign := by
    rw [a_sign, b_sign]
    decide
  have empty_abs {n : CMpi} (empty : n.length = 0) : n.abs = 0 := by rw [CMpi.abs, empty, Limbs.value_zero]
  have ordered : if a.h.sign = .positive then Ordered a.h b.h else Ordered b.h a.h := by
    rw [Ordered, Ordered, a_empty, b_empty, ite_self, ite_self, ite_self]
  obtain ⟨l, l_run, -⟩ := add_apart a.l b.l junk a_bounded b_bounded apart
  obtain ⟨h, h_run, cancelled⟩ := add_opposite a.h b.h junk (by omega) (by omega) h_apart ordered
  have value := cancelled.value
  have bounded := cancelled.bounded
  rw [empty_abs a_empty, empty_abs b_empty, Nat.min_self, Nat.max_self, Nat.add_zero] at value
  rw [a_empty, b_empty, Nat.max_self] at bounded
  have nothing : h.toInt = 0 := Int.natAbs_eq_zero.mp (h.natAbs_toInt.trans value)
  have exact_ := apart_iff junk l_run apart a_bounded b_bounded (by omega) cancelled.trimmed (.inl value)
  rw [nothing, zero_mul, zero_add] at exact_
  rw [add, l_run, Option.bind_eq_bind, Option.bind_some, h_run, Option.bind_some, exact_]
  refine ⟨fun _ => ?_, fun lost => lost.2.1 value⟩
  rw [a_sign, if_neg (by decide)]
  exact fun more => absurd more (Nat.not_lt.mpr less.le)

def low (n : CMpi) : CMpl := ⟨{ n with length := 0 }, n⟩

private theorem addi_yields_iff (a : CMpl) (n junk : CMpi) (canonical : a.Canonical) (bounded : n.length ≤ 8)
    (trimmed : n.Trimmed) (fits : (a.signed + n.toInt).natAbs < radix ^ 16) :
    Yields (a.addi n junk) (a.signed + n.toInt) ↔ a.AddExact (low n) junk := by
  have n_bounded : (low n).l.length ≤ 8 := bounded
  have wide : a.h.abs = 0 ∨ max a.l.length n.length = 8 := by
    have a_bounded := canonical.l_bounded
    exact canonical.balanced.wide.imp_right fun full => by omega
  by_cases same : a.l.sign = n.sign
  · obtain ⟨l, run, sum⟩ := add_same a.l n junk canonical.l_bounded bounded same
    have total : a.l.abs + n.abs + a.h.abs * radix ^ 8 = a.abs + n.abs := by
      rw [abs]
      omega
    have whole : a.signed + n.toInt = a.l.sign.signed (a.abs + n.abs) := by
      rw [signed_common canonical.common, n.toInt_eq, ← same, Sign.signed_add]
    rw [whole, Sign.natAbs_signed] at fits
    obtain ⟨r, r_run, balanced, exact_, low_trimmed⟩ := aligned_run junk sum canonical.common canonical.h_bounded
      canonical.h_trimmed wide canonical.balanced.loose (.inr trimmed) (total ▸ fits)
    have l_trimmed := low_trimmed fun empty => ⟨canonical.low_trimmed empty, trimmed⟩
    rw [whole, ← total, addi, run, Option.bind_eq_bind, Option.bind_some]
    exact iff_of_true ⟨r, r_run, balanced.canonical l_trimmed, exact_⟩
      ⟨fun apart => absurd same apart, fun lost => lost.1 same⟩
  · obtain ⟨l, run, -⟩ := add_apart a.l n junk canonical.l_bounded bounded same
    have whole : a.signed + n.toInt = a.h.toInt * 2 ^ 256 + (a.l.toInt + n.toInt) := add_assoc _ _ _
    have nothing : (low n).h.abs = 0 := rfl
    rw [whole, addi, run, Option.bind_eq_bind, Option.bind_some,
      apart_iff junk run same canonical.l_bounded bounded canonical.h_bounded canonical.h_trimmed wide, AddExact,
      BorrowLost, nothing]
    refine and_congr_right fun _ => not_congr ?_
    have borrowed : a.h.abs ≠ 0 ∧ a.h.sign = .negtive ↔
        if a.l.sign = .positive then a.h.abs < 0 else 0 < a.h.abs := by
      rw [canonical.common]
      cases a.l.sign with
      | positive =>
        refine iff_of_false ?_ (Nat.not_lt_zero _)
        rintro ⟨-, turned⟩
        cases turned
      | negtive => exact (and_iff_left rfl).trans Nat.pos_iff_ne_zero.symm
    rw [borrowed]
    exact (and_iff_right same).symm

def negated (a : CMpl) : CMpl :=
  ⟨{ a.h with sign := a.l.sign.opposite }, { a.l with sign := a.l.sign.opposite }⟩

/-- Another copy of a number: the words above the lengths may differ. -/
private structure Copied (a b : CMpl) : Prop where
  h : a.h.Same b.h
  l : a.l.Same b.l

private theorem Copied.balanced {a b : CMpl} (copied : Copied a b) (balanced : b.Balanced) : a.Balanced where
  l_bounded := Nat.le_trans (Nat.le_of_eq copied.l.length) balanced.l_bounded
  h_bounded := Nat.le_trans (Nat.le_of_eq copied.h.length) balanced.h_bounded
  full := balanced.full.imp copied.l.length.trans copied.h.length.trans
  h_trimmed := copied.h.trimmed balanced.h_trimmed
  loose := balanced.loose.imp copied.l.length.trans copied.l.trimmed
  common := copied.h.sign.trans (balanced.common.trans copied.l.sign.symm)

private theorem Copied.canonical {a b : CMpl} (copied : Copied a b) (canonical : b.Canonical) : a.Canonical :=
  (copied.balanced canonical.balanced).canonical fun empty =>
    copied.l.trimmed (canonical.l_trimmed (copied.h.length.symm.trans empty))

private theorem Copied.signed {a b : CMpl} (copied : Copied a b) : a.signed = b.signed := by
  rw [CMpl.signed, CMpl.signed, CMpi.toInt_eq, CMpi.toInt_eq, CMpi.toInt_eq, CMpi.toInt_eq, copied.h.sign, copied.l.sign,
    copied.h.abs, copied.l.abs]

private theorem Copied.addExact {a b : CMpl} (copied : Copied a b) (c : CMpl) (temp : CMpi) :
    c.AddExact a temp ↔ c.AddExact b temp := by
  rw [AddExact, AddExact, AddReadsZeros, AddReadsZeros, BorrowLost, BorrowLost, copied.l.sign, copied.l.abs, copied.l.length,
    copied.h.abs]

theorem Balanced.negated {a : CMpl} (balanced : a.Balanced) : a.negated.Balanced where
  l_bounded := balanced.l_bounded
  h_bounded := balanced.h_bounded
  full := balanced.full
  h_trimmed := balanced.h_trimmed
  loose := balanced.loose
  common := rfl

theorem Canonical.negated {a : CMpl} (canonical : a.Canonical) : a.negated.Canonical :=
  canonical.balanced.negated.canonical canonical.l_trimmed

theorem signed_negated {a : CMpl} (common : a.h.sign = a.l.sign) : a.negated.signed = -a.signed := by
  rw [signed_common (show a.negated.h.sign = a.negated.l.sign from rfl), signed_common common, ← Sign.signed_opposite]
  rfl

private theorem substract_eq_add (a b junk : CMpl) (packed : b.Packed) :
    ∃ c, a.substract b junk = a.add c junk.l ∧ Copied c b.negated := by
  obtain ⟨h, h_run, h_same, -, -⟩ := assign_run b.h junk.h packed.h_bounded
  obtain ⟨l, l_run, l_same, -, -⟩ := assign_run b.l junk.l packed.l_bounded
  refine ⟨⟨{ h with sign := b.l.sign.opposite }, { l with sign := b.l.sign.opposite }⟩, ?_,
    ⟨rfl, h_same.length, h_same.words⟩, ⟨rfl, l_same.length, l_same.words⟩⟩
  rw [substract, h_run, Option.bind_eq_bind, Option.bind_some, l_run, Option.bind_some]
  cases b.l.sign with
  | positive => rfl
  | negtive => rfl

private theorem substract_yields_iff (a b junk : CMpl) (a_canonical : a.Canonical) (b_canonical : b.Canonical)
    (fits : (a.signed - b.signed).natAbs < radix ^ 16) :
    Yields (a.substract b junk) (a.signed - b.signed) ↔ a.AddExact b.negated junk.l := by
  obtain ⟨c, run, copied⟩ := a.substract_eq_add b junk b_canonical.toPacked
  have whole := copied.signed.trans (signed_negated b_canonical.common)
  rw [sub_eq_add_neg, ← whole] at fits ⊢
  rw [run, ← copied.addExact, add_yields_iff a c junk.l a_canonical (copied.canonical b_canonical.negated) fits]

theorem substract_balanced (a b junk : CMpl) (a_balanced : a.Balanced) (b_balanced : b.Balanced)
    (fits : (a.signed - b.signed).natAbs < radix ^ 16) (exact_ : a.AddExact b.negated junk.l) :
    ∃ r, a.substract b junk = some r ∧ r.Balanced ∧ r.signed = a.signed - b.signed := by
  obtain ⟨c, run, copied⟩ := a.substract_eq_add b junk b_balanced.toPacked
  have whole := copied.signed.trans (signed_negated b_balanced.common)
  rw [sub_eq_add_neg, ← whole] at fits ⊢
  rw [run]
  exact add_balanced a c junk.l a_balanced (copied.balanced b_balanced.negated) fits ((copied.addExact a junk.l).mpr exact_)

theorem substract_total (a b junk : CMpl) (a_balanced : a.Balanced) (b_balanced : b.Balanced)
    (fits : (a.signed - b.signed).natAbs < radix ^ 16) : ∃ r, a.substract b junk = some r := by
  obtain ⟨c, run, copied⟩ := a.substract_eq_add b junk b_balanced.toPacked
  have whole := copied.signed.trans (signed_negated b_balanced.common)
  rw [sub_eq_add_neg, ← whole] at fits
  rw [run]
  exact add_total a c junk.l a_balanced (copied.balanced b_balanced.negated) fits

/-- The three routines are exact just where the addition of the low halves reads zeros above an operand's
length, and no high half has to lend to a zero. -/
theorem sums_exact_iff (a b junk : CMpl) (n temp : CMpi) (a_canonical : a.Canonical) (b_canonical : b.Canonical)
    (n_bounded : n.length ≤ 8) (n_trimmed : n.Trimmed) :
    ((a.signed + b.signed).natAbs < 2 ^ 512 → (Yields (a.add b temp) (a.signed + b.signed) ↔ a.AddExact b temp)) ∧
      ((a.signed + n.toInt).natAbs < 2 ^ 512 →
        (Yields (a.addi n temp) (a.signed + n.toInt) ↔ a.AddExact (low n) temp)) ∧
      ((a.signed - b.signed).natAbs < 2 ^ 512 →
        (Yields (a.substract b junk) (a.signed - b.signed) ↔ a.AddExact b.negated junk.l)) := by
  have base : radix = 2 ^ 32 := rfl
  have double : radix ^ 16 = 2 ^ 512 := by rw [base, ← pow_mul]
  rw [← double]
  exact ⟨add_yields_iff a b temp a_canonical b_canonical, addi_yields_iff a n temp a_canonical n_bounded n_trimmed,
    substract_yields_iff a b junk a_canonical b_canonical⟩

/-- `h * 2 ^ 256 + 5` with either sign. -/
def highFive (sign : Sign) (h : UInt32) : CMpl :=
  ⟨⟨#v[h, 0, 0, 0, 0, 0, 0, 0], 0, sign, 1⟩, ⟨#v[5, 0, 0, 0, 0, 0, 0, 0], 0, sign, 8⟩⟩

theorem highFive_canonical (sign : Sign) {h : UInt32} (some_ : h ≠ 0) : (highFive sign h).Canonical where
  l_bounded := Nat.le_refl 8
  h_bounded := show 1 ≤ 8 by decide
  full := .inl rfl
  h_trimmed := fun i length zero => by
    obtain rfl : 0 = i := Nat.succ.inj length
    exact some_ (UInt32.toNat_inj.mp zero)
  l_trimmed := fun empty => nomatch empty
  common := rfl

theorem sums_exact_iff_highFive :
    (Yields ((highFive .negtive 3).add (highFive .positive 1) stale)
        ((highFive .negtive 3).signed + (highFive .positive 1).signed) ↔
        (highFive .negtive 3).AddExact (highFive .positive 1) stale) ∧
      (Yields ((highFive .negtive 3).addi stale stale) ((highFive .negtive 3).signed + stale.toInt) ↔
        (highFive .negtive 3).AddExact (low stale) stale) ∧
      (Yields ((highFive .negtive 3).substract (highFive .positive 1) lowFive)
        ((highFive .negtive 3).signed - (highFive .positive 1).signed) ↔
        (highFive .negtive 3).AddExact (highFive .positive 1).negated lowFive.l) := by
  obtain ⟨added, addedi, substracted⟩ := sums_exact_iff (highFive .negtive 3) (highFive .positive 1) lowFive stale stale
    (highFive_canonical _ (by decide)) (highFive_canonical _ (by decide)) (by decide) (lowFive_normal.l_trimmed rfl)
  exact ⟨added (by decide +kernel), addedi (by decide +kernel), substracted (by decide +kernel)⟩

/-- `-(3 * 2 ^ 256 + 5)` and `2 ^ 256 + 5` make `-2 ^ 256`, and with five alone or by the subtraction of a negative
number 2 ^ 256 is lost as well. -/
theorem not_sums_exact :
    ¬ Yields ((highFive .negtive 3).add (highFive .positive 1) stale)
        ((highFive .negtive 3).signed + (highFive .positive 1).signed) ∧
      ¬ Yields ((highFive .negtive 3).addi stale stale) ((highFive .negtive 3).signed + stale.toInt) ∧
      ¬ Yields ((highFive .negtive 3).substract (highFive .negtive 1) lowFive)
        ((highFive .negtive 3).signed - (highFive .negtive 1).signed) := by
  have added : ((highFive .negtive 3).add (highFive .positive 1) stale).map signed = some (-1 * 2 ^ 256) := by
    decide +kernel
  have addedi : ((highFive .negtive 3).addi stale stale).map signed = some (-2 * 2 ^ 256) := by decide +kernel
  have substracted : ((highFive .negtive 3).substract (highFive .negtive 1) lowFive).map signed = some (-1 * 2 ^ 256) := by
    decide +kernel
  refine ⟨?_, ?_, ?_⟩
  · rintro ⟨r, run, -, exact_⟩
    rw [run, Option.map_some, exact_] at added
    exact absurd added (by decide)
  · rintro ⟨r, run, -, exact_⟩
    rw [run, Option.map_some, exact_] at addedi
    exact absurd addedi (by decide)
  · rintro ⟨r, run, -, exact_⟩
    rw [run, Option.map_some, exact_] at substracted
    exact absurd substracted (by decide)

end CMpl
end MyTools.Mpi
