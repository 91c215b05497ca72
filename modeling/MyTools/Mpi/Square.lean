import MyTools.Mpi.Multiplication

/-! Squares: the columns are summed up in three registers, each product off the middle once and doubled. -/
namespace MyTools.Mpi
open Library CMpi

structure Registers where
  r0 : UInt32
  r1 : UInt32
  r2 : UInt32

namespace Registers

/-- The product `uv` of words `i` and `j` is added. -/
def addProduct (s : Registers) (i j uv : ℕ) : Registers :=
  let r2 := if i < j ∧ 0x8000000000000000 ≤ uv then s.r2 + 1 else s.r2
  let uv := if i < j then uv * 2 % 2 ^ 64 else uv
  let sum := s.r0.toNat + uv % radix
  let carry := sum / radix + s.r1.toNat + uv / radix
  ⟨.ofNat sum, .ofNat carry, r2 + .ofNat (carry / radix)⟩

def value (s : Registers) : ℕ := s.r0.toNat + s.r1.toNat * radix + s.r2.toNat * radix ^ 2

private theorem registers_value {B r0 r1 r2 l h : ℕ} (fits : r0 + l + (r1 + h) * B + r2 * B ^ 2 < B ^ 3) :
    (r0 + l) % B + ((r0 + l) / B + r1 + h) % B * B + (r2 + ((r0 + l) / B + r1 + h) / B) % B * B ^ 2 =
      r0 + l + (r1 + h) * B + r2 * B ^ 2 := by
  have low := Nat.div_add_mod (r0 + l) B
  have high := Nat.div_add_mod ((r0 + l) / B + r1 + h) B
  have total : (r0 + l) % B + ((r0 + l) / B + r1 + h) % B * B + (r2 + ((r0 + l) / B + r1 + h) / B) * B ^ 2 =
      r0 + l + (r1 + h) * B + r2 * B ^ 2 := by
    calc _ = (r0 + l) % B + (B * (((r0 + l) / B + r1 + h) / B) + ((r0 + l) / B + r1 + h) % B) * B + r2 * B ^ 2 := by ring
      _ = (B * ((r0 + l) / B) + (r0 + l) % B) + (r1 + h) * B + r2 * B ^ 2 := by rw [high]; ring
      _ = _ := by rw [low]
  have small : r2 + ((r0 + l) / B + r1 + h) / B < B := by
    by_contra large
    have more := Nat.mul_le_mul_right (B ^ 2) (Nat.not_lt.mp large)
    have cube : B * B ^ 2 = B ^ 3 := (pow_succ' B 2).symm
    rw [← total, ← cube] at fits
    omega
  rw [Nat.mod_eq_of_lt small, total]

theorem addProduct_value (s : Registers) {i j uv : ℕ} (small : uv < 2 ^ 64)
    (fits : s.value + (if i < j then 2 else 1) * uv < radix ^ 3) :
    (s.addProduct i j uv).value = s.value + (if i < j then 2 else 1) * uv := by
  have square : 2 ^ 64 = radix ^ 2 := by decide
  have one : (1 : UInt32).toNat = 1 := rfl
  have word : 2 ^ 32 = radix := rfl
  have added (r2 v : ℕ) (below : s.r0.toNat + s.r1.toNat * radix + r2 * radix ^ 2 + v < radix ^ 3) :
      (s.r0.toNat + v % radix) % radix + ((s.r0.toNat + v % radix) / radix + s.r1.toNat + v / radix) % radix * radix +
        (r2 + ((s.r0.toNat + v % radix) / radix + s.r1.toNat + v / radix) / radix) % radix * radix ^ 2 =
      s.r0.toNat + s.r1.toNat * radix + r2 * radix ^ 2 + v := by
    have parts := Nat.div_add_mod v radix
    have whole : s.r0.toNat + v % radix + (s.r1.toNat + v / radix) * radix + r2 * radix ^ 2 =
        s.r0.toNat + s.r1.toNat * radix + r2 * radix ^ 2 + (radix * (v / radix) + v % radix) := by ring
    rw [parts] at whole
    rw [registers_value (whole ▸ below), whole]
  simp only [value, addProduct, UInt32.toNat_add, toNat_ofNat, word] at fits ⊢
  by_cases twice : i < j
  · simp only [twice, true_and, if_true] at fits ⊢
    by_cases top : 0x8000000000000000 ≤ uv
    · have double : uv * 2 % 2 ^ 64 + 2 ^ 64 = 2 * uv := by omega
      rw [square] at double ⊢
      rw [if_pos top, UInt32.toNat_add, one, word, Nat.add_mod_mod _ (_ / radix), Nat.mod_add_mod,
        added (s.r2.toNat + 1), Nat.add_mul]
      · omega
      · rw [Nat.add_mul]
        omega
    · have double : uv * 2 % 2 ^ 64 = 2 * uv := by omega
      rw [if_neg top, double, Nat.add_mod_mod _ (_ / radix), added s.r2.toNat _ fits]
  · simp only [twice, false_and, if_false, Nat.one_mul] at fits ⊢
    rw [Nat.add_mod_mod _ (_ / radix)]
    exact added s.r2.toNat uv fits

end Registers

namespace CMpi

/-- `for (i = imax, j = k - i; i >= 0; i--, j++)`, with a break at the first `j` outside. -/
def squareColumn (n : CMpi) (k : ℕ) : (count : ℕ) → Registers → Option Registers
  | 0, s => some s
  | i + 1, s =>
    if n.length ≤ k - i then some s
    else do n.squareColumn k i (s.addProduct i (k - i) ((← n.get i).toNat * (← n.get (k - i)).toNat))

/-- `CMpi_FastSquare`; without any words the last store is outside of `c`. -/
def fastSquare (n : CMpi) (n2 : CMpl) : Option CMpl :=
  let len := n.length * 2
  if len = 0 then none
  else do
    let (c, s) ← Loop.up (fun k (s : Wide × Registers) => do
      let r ← n.squareColumn k (min (k / 2) (n.length - 1) + 1) s.2
      some (← s.1.put k r.r0, ⟨r.r1, r.r2, 0⟩)) (len - 1) (.replicate 16 0, ⟨0, 0, 0⟩)
    let c ← c.put (len - 1) s.r0
    let l ← n2.l.assignD 0
    let h ← n2.h.assignD 0
    c.store len ⟨h, l⟩

/-- What the words `i` and `k - i` add to column `k`. -/
def squareTerm (n : CMpi) (k i : ℕ) : ℕ := (if i < k - i then 2 else 1) * (n.limb i * n.limb (k - i))

theorem squareTerm_le (n : CMpi) (k i : ℕ) : n.squareTerm k i ≤ 2 * radix ^ 2 := by
  have product : n.limb i * n.limb (k - i) ≤ radix ^ 2 := by
    rw [pow_two]
    exact Nat.mul_le_mul (n.limb_lt i).le (n.limb_lt (k - i)).le
  unfold squareTerm
  split
  · omega
  · omega

private theorem squareColumn_run (n : CMpi) (bounded : n.length ≤ 8) (k : ℕ) {count : ℕ} (inside : count ≤ n.length)
    (s : Registers) (fits : s.value + ∑ i ∈ Finset.range count, n.squareTerm k i < radix ^ 3) :
    ∃ s', n.squareColumn k count s = some s' ∧ s'.value = s.value + ∑ i ∈ Finset.range count, n.squareTerm k i := by
  induction count generalizing s with
  | zero => exact ⟨s, rfl, (Nat.add_zero s.value).symm⟩
  | succ i ih =>
    unfold squareColumn
    by_cases outside : n.length ≤ k - i
    · have nothing : ∑ m ∈ Finset.range (i + 1), n.squareTerm k m = 0 := by
        apply Finset.sum_eq_zero
        intro m low
        have below := Nat.lt_succ_iff.mp (Finset.mem_range.mp low)
        have beyond : n.length ≤ k - m := Nat.le_trans outside (Nat.sub_le_sub_left below k)
        rw [squareTerm, n.limb_outside beyond, Nat.mul_zero, Nat.mul_zero]
      rw [if_pos outside, nothing]
      exact ⟨s, rfl, (Nat.add_zero s.value).symm⟩
    · have within := Nat.not_le.mp outside
      have small : n.limb i * n.limb (k - i) < 2 ^ 64 := by
        have square : 2 ^ 64 = radix * radix := by decide
        rw [square]
        exact Nat.mul_lt_mul'' (n.limb_lt i) (n.limb_lt (k - i))
      rw [Finset.sum_range_succ, Nat.add_comm _ (n.squareTerm k i), ← Nat.add_assoc, squareTerm] at fits
      have added := s.addProduct_value small (Nat.lt_of_le_of_lt (Nat.le_add_right _ _) fits)
      obtain ⟨s', run, value⟩ := ih (Nat.le_of_succ_le inside) (s.addProduct i (k - i) (n.limb i * n.limb (k - i)))
        (by rw [added]; exact fits)
      refine ⟨s', ?_, ?_⟩
      · rw [if_neg outside, get_eq n (Nat.lt_of_lt_of_le inside bounded), get_eq n (Nat.lt_of_lt_of_le within bounded), Option.bind_eq_bind, Option.bind_some,
          Option.bind_some, toNat_wordAt, toNat_wordAt, ← limb_inside n inside, ← limb_inside n within]
        exact run
      · rw [value, added, Finset.sum_range_succ, squareTerm]
        ring

theorem squareTerms_eq (n : CMpi) (k : ℕ) (some_ : 0 < n.length) :
    ∑ i ∈ Finset.range (min (k / 2) (n.length - 1) + 1), n.squareTerm k i = Limbs.column n.limb n.limb k := by
  rw [Limbs.column_self]
  apply Finset.sum_subset
  · exact Finset.range_mono (by omega)
  · intro i low high
    have inside := Finset.mem_range.mp low
    have outside : n.length ≤ i := by
      by_contra below
      exact high (Finset.mem_range.mpr (by omega))
    rw [squareTerm, n.limb_outside outside, Nat.zero_mul, Nat.mul_zero]

/-- The first `k` columns are stored, and the registers carry into column `k`. -/
private structure Squaring (n : CMpi) (k : ℕ) (s : Wide × Registers) : Prop where
  carried : s.2.r2 = 0
  value : Limbs.value radix s.1.digit k + s.2.value * radix ^ k = Limbs.value radix (Limbs.column n.limb n.limb) k

private theorem squaring_step {n : CMpi} (bounded : n.length ≤ 8) {k : ℕ} (inside : k < n.length * 2 - 1)
    {s : Wide × Registers} (squaring : Squaring n k s) :
    ∃ s', (do
      let r ← n.squareColumn k (min (k / 2) (n.length - 1) + 1) s.2
      some (← s.1.put k r.r0, (⟨r.r1, r.r2, 0⟩ : Registers))) = some s' ∧ Squaring n (k + 1) s' := by
  obtain ⟨carried, value⟩ := squaring
  have size : radix = 4294967296 := rfl
  have total := n.squareTerms_eq k (by omega)
  have most : ∑ i ∈ Finset.range (min (k / 2) (n.length - 1) + 1), n.squareTerm k i ≤ 8 * (2 * radix ^ 2) := by
    calc _ ≤ (Finset.range (min (k / 2) (n.length - 1) + 1)).card • (2 * radix ^ 2) :=
          Finset.sum_le_card_nsmul _ _ _ fun i _ => n.squareTerm_le k i
      _ ≤ 8 * (2 * radix ^ 2) := by
        rw [Finset.card_range, smul_eq_mul]
        exact Nat.mul_le_mul_right _ (by omega)
  have small : s.2.value < radix ^ 2 := by
    have r0 := s.2.r0.toNat_lt
    have r1 := s.2.r1.toNat_lt
    have empty : (0 : UInt32).toNat = 0 := rfl
    have square : radix ^ 2 = 18446744073709551616 := by decide
    rw [Registers.value, carried, empty, square, size]
    omega
  have room : radix ^ 2 + 8 * (2 * radix ^ 2) ≤ radix ^ 3 := by decide
  have inside : min (k / 2) (n.length - 1) + 1 ≤ n.length := by omega
  obtain ⟨r, run, r_value⟩ := n.squareColumn_run bounded k inside s.2 (by omega)
  have below : k < 16 := by omega
  refine ⟨(s.1.set k r.r0, ⟨r.r1, r.r2, 0⟩), ?_, rfl, ?_⟩
  · rw [run, Option.bind_eq_bind, Option.bind_some, Wide.put_eq _ below]
    rfl
  · have empty : (0 : UInt32).toNat = 0 := rfl
    have same : Limbs.value radix (s.1.set k r.r0).digit k = Limbs.value radix s.1.digit k :=
      Limbs.value_congr fun i low => Wide.digit_set_ne _ (Nat.ne_of_lt low) _
    have whole : r.value = s.2.value + Limbs.column n.limb n.limb k := by rw [r_value, total]
    rw [Limbs.value_succ, Limbs.value_succ, ← value, same, Wide.digit_set_self _ below, Registers.value, empty]
    rw [Registers.value] at whole
    calc _ = Limbs.value radix s.1.digit k +
          (r.r0.toNat + r.r1.toNat * radix + r.r2.toNat * radix ^ 2) * radix ^ k := by ring
      _ = _ := by rw [whole]; ring

/-- A square, in two words for each of the number's. -/
structure Square (n : CMpi) (r : CMpl) : Prop where
  l_sign : r.l.sign = .positive
  h_sign : r.h.sign = .positive
  l_length : r.l.length = min (n.length * 2) 8
  h_length : r.h.length = n.length * 2 - 8
  value : r.abs = n.abs * n.abs

theorem fastSquare_run (n : CMpi) (n2 : CMpl) (some_ : 0 < n.length) (bounded : n.length ≤ 8) :
    ∃ r, n.fastSquare n2 = some r ∧ Square n r := by
  have nonzero : n.length * 2 ≠ 0 := by omega
  have last : n.length * 2 = n.length * 2 - 1 + 1 := by omega
  have below : n.length * 2 - 1 < 16 := by omega
  have product : Limbs.value radix (Limbs.column n.limb n.limb) (n.length * 2) = n.abs * n.abs := by
    rw [n.abs_eq_value (Nat.le_refl _)]
    exact Limbs.value_column (fun i => n.limb_outside) (fun i => n.limb_outside) (by omega)
  have top : Limbs.column n.limb n.limb (n.length * 2 - 1) = 0 := by
    apply Finset.sum_eq_zero
    intro i _
    by_cases inside : i < n.length
    · rw [n.limb_outside (show n.length ≤ n.length * 2 - 1 - i by omega), Nat.mul_zero]
    · rw [n.limb_outside (Nat.not_lt.mp inside), Nat.zero_mul]
  rw [last, Limbs.value_succ, top, Nat.zero_mul, Nat.add_zero] at product
  simp only [fastSquare, if_neg nonzero]
  apply Loop.seq_rule (Squaring n (n.length * 2 - 1))
  · apply Loop.up_rule (Squaring n)
    · refine ⟨rfl, ?_⟩
      rw [Limbs.value_zero, Limbs.value_zero]
      rfl
    · exact fun k s inside squaring => squaring_step bounded inside squaring
  · intro ⟨c, s⟩ ⟨carried, value⟩
    dsimp only at carried value ⊢
    have limit : n.abs * n.abs < radix ^ (n.length * 2 - 1) * radix := by
      rw [← pow_succ, ← last, Nat.mul_two, pow_add]
      exact Nat.mul_lt_mul'' n.abs_lt n.abs_lt
    have single : s.value = s.r0.toNat := by
      have less : s.value < radix := by
        by_contra large
        have more := Nat.mul_le_mul_right (radix ^ (n.length * 2 - 1)) (Nat.not_lt.mp large)
        rw [Nat.mul_comm radix] at more
        omega
      have empty : (0 : UInt32).toNat = 0 := rfl
      have size : radix = 4294967296 := rfl
      rw [Registers.value, carried, empty, Nat.zero_mul, Nat.add_zero] at less ⊢
      rw [size] at less ⊢
      omega
    have stored : Limbs.value radix (c.set (n.length * 2 - 1) s.r0).digit (n.length * 2) = n.abs * n.abs := by
      have same : Limbs.value radix (c.set (n.length * 2 - 1) s.r0).digit (n.length * 2 - 1) =
          Limbs.value radix c.digit (n.length * 2 - 1) :=
        Limbs.value_congr fun i low => Wide.digit_set_ne _ (Nat.ne_of_lt low) _
      rw [last, Limbs.value_succ, ← last, same, Wide.digit_set_self _ below, ← single, value, product]
    obtain ⟨l, l_run, l_sign, -⟩ := assignD_run n2.l 0
    obtain ⟨h, h_run, h_sign, -⟩ := assignD_run n2.h 0
    have room : n.length * 2 ≤ 16 := by omega
    obtain ⟨r, run, r_stored⟩ := (c.set (n.length * 2 - 1) s.r0).store_run room ⟨h, l⟩
    rw [Wide.put_eq _ below, Option.bind_eq_bind, Option.bind_some, l_run, Option.bind_eq_bind, Option.bind_some, h_run,
      Option.bind_some]
    exact ⟨r, run, r_stored.l_sign.trans l_sign, r_stored.h_sign.trans h_sign, r_stored.l_length, r_stored.h_length,
      r_stored.value.trans stored⟩

def SquaresAgree (n : CMpi) : Prop :=
  ∀ n2 c : CMpl, ∃ s r, n.fastSquare n2 = some s ∧ n.multiply n c = some r ∧ s.signed = n.toInt ^ 2 ∧
    r.signed = n.toInt ^ 2

theorem Square.signed {n : CMpi} {r : CMpl} (square : Square n r) : r.signed = n.toInt ^ 2 := by
  have unit : ((radix ^ 8 : ℕ) : ℤ) = 2 ^ 256 := by decide
  have whole : ((r.l.abs + r.h.abs * radix ^ 8 : ℕ) : ℤ) = (n.abs : ℤ) * n.abs := by
    rw [← Nat.cast_mul, ← square.value, CMpl.abs]
  rw [Nat.cast_add, Nat.cast_mul, unit] at whole
  rw [CMpl.signed, r.h.toInt_eq, r.l.toInt_eq, n.toInt_eq, square.h_sign, square.l_sign, pow_two]
  cases n.sign with
  | positive =>
    simp only [Sign.signed]
    linarith
  | negtive =>
    simp only [Sign.signed]
    linarith

/-- Just the numbers of at least one word, so not the zero of none. -/
theorem squaresAgree_iff (n : CMpi) (bounded : n.length ≤ 8) : SquaresAgree n ↔ 1 ≤ n.length := by
  constructor
  · intro agree
    by_contra none_
    have empty : n.length * 2 = 0 := by omega
    obtain ⟨s, -, run, -⟩ := agree ⟨n, n⟩ ⟨n, n⟩
    simp only [fastSquare, if_pos empty] at run
    cases run
  · intro some_ n2 c
    obtain ⟨s, s_run, square⟩ := fastSquare_run n n2 some_ bounded
    obtain ⟨r, r_run, product⟩ := multiply_run n n c bounded bounded
    have exact_ := CMpl.exact_of_product product
    exact ⟨s, r, s_run, r_run, square.signed, exact_.signed.trans (pow_two _).symm⟩

theorem squaresAgree_iff_padded : SquaresAgree (padded .negtive) ↔ 1 ≤ 2 := squaresAgree_iff (padded .negtive) (by decide)

/-- Zero without words, whose square is stored in front of the accumulator. -/
theorem not_squaresAgree : ¬ SquaresAgree { stale with length := 0 } := by
  intro agree
  obtain ⟨s, -, run, -⟩ := agree ⟨stale, stale⟩ ⟨stale, stale⟩
  cases run

end CMpi
end MyTools.Mpi
