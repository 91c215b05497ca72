import Mathlib.Algebra.Order.Ring.Abs
import Mathlib.Tactic.Linarith
import MyTools.Library.SignedDigits

/-! The sliding window over the non-adjacent form of a number: `mr_naf_window` of `mrcore.c`. -/
namespace MyTools.Miracl
open Library SignedDigits

/-- The loop over `j`; the result is `r`, the last `nb`, `nbs` and `j`. -/
def nafScan (x x3 : ℕ) (biggest : ℤ) : (j : ℕ) → (r nb : ℤ) → (nbs : ℕ) → ℤ × ℤ × ℕ × ℕ
  | 0, r, nb, nbs => (r, nb, nbs, 0)
  | j + 1, r, _, nbs =>
    let nb := digit x3 x (j + 1)
    let r := 2 * r
    let r := if 0 < nb then r + 1 else r
    let r := if nb < 0 then r - 1 else r
    if biggest < |r| then (r, nb, nbs + 1, j + 1) else nafScan x x3 biggest j r nb (nbs + 1)

/-- `while (r % 2 == 0)`, with `nzs` and `nbs`; `r` is not zero. -/
def nafStrip : (nbs : ℕ) → (r : ℤ) → (nzs : ℕ) → ℤ × ℕ × ℕ
  | 0, r, nzs => (r, 0, nzs)
  | nbs + 1, r, nzs => if r % 2 = 0 then nafStrip nbs (r / 2) (nzs + 1) else (r, nbs + 1, nzs)

def nafWindow (x x3 i store : ℕ) : ℤ × ℕ × ℕ :=
  let nb := digit x3 x i
  if nb = 0 then (0, 1, 0)
  else if i = 0 then (nb, 1, 0)
  else
    let (r, nb, nbs, j) := nafScan x x3 (2 * store - 1) (i - 1) (if 0 < nb then 1 else -1) nb 1
    if r % 2 ≠ 0 ∧ j ≠ 0 then
      let r := if 0 < nb then (r - 1) / 2 else r
      let r := if nb < 0 then (r + 1) / 2 else r
      nafStrip (nbs - 1) r 0
    else nafStrip nbs r 0

section
variable (x x3 i : ℕ) (biggest : ℤ)

/-- `r` has the digits from `i` down to above `j`. -/
structure Scanned (j : ℕ) (r : ℤ) (nbs : ℕ) : Prop where
  bits : nbs + j = i
  value : upper x3 x (j + 1) = 2 ^ nbs * upper x3 x (i + 1) + r
  nonzero : r ≠ 0
  short : |r| < 2 ^ nbs

structure Windowed (biggest n : ℤ) (nbs nzs : ℕ) : Prop where
  bits : 0 < nbs
  inside : nbs + nzs ≤ i
  value : upper x3 x (i - (nbs + nzs) + 1) = 2 ^ (nbs + nzs) * upper x3 x (i + 1) + n * 2 ^ nzs
  small : |n| ≤ biggest
  odd : n = 0 ∨ n % 2 = 1

variable {x x3 i biggest} {j nbs : ℕ} {r : ℤ}

theorem Scanned.next (scanned : Scanned x x3 i (j + 1) r nbs) :
    Scanned x x3 i j (2 * r + digit x3 x (j + 1)) (nbs + 1) := by
  obtain ⟨bits, value, nonzero, short⟩ := scanned
  refine ⟨by omega, ?_, ?_, ?_⟩
  · rw [upper_eq, value, pow_succ]
    ring
  · rcases digit_cases x3 x (j + 1) with digit | digit | digit <;> omega
  · rw [abs_lt] at short ⊢
    rw [pow_succ]
    rcases digit_cases x3 x (j + 1) with digit | digit | digit <;> omega

/-- The loop ends at the last digit but one, or behind the first digit that makes `r` too large. -/
theorem nafScan_spec (nb : ℤ) (scanned : Scanned x x3 i j r nbs) (small : |r| ≤ biggest) :
    (∃ s last count, nafScan x x3 biggest j r nb nbs = (s, last, count, 0) ∧ Scanned x x3 i 0 s count ∧
        |s| ≤ biggest) ∨
      ∃ k s count, nafScan x x3 biggest j r nb nbs =
          (2 * s + digit x3 x (k + 1), digit x3 x (k + 1), count + 1, k + 1) ∧
        Scanned x x3 i (k + 1) s count ∧ |s| ≤ biggest := by
  induction j generalizing r nb nbs with
  | zero => exact .inl ⟨r, nb, nbs, rfl, scanned, small⟩
  | succ j ih =>
    have next := scanned.next
    have added : (let s := if 0 < digit x3 x (j + 1) then 2 * r + 1 else 2 * r
        if digit x3 x (j + 1) < 0 then s - 1 else s) = 2 * r + digit x3 x (j + 1) := by
      rcases digit_cases x3 x (j + 1) with digit | digit | digit <;> rw [digit]
      · rfl
      · exact (add_zero _).symm
      · rfl
    rw [nafScan]
    dsimp only at added ⊢
    rw [added]
    split
    · exact .inr ⟨j, r, nbs, rfl, scanned, small⟩
    · next within => exact ih _ next (Int.not_lt.mp within)

theorem nafStrip_spec (nonzero : r ≠ 0) (short : |r| < 2 ^ nbs) (nzs : ℕ) :
    ∃ n count k, nafStrip nbs r nzs = (n, count, nzs + k) ∧ nbs = count + k ∧ r = n * 2 ^ k ∧ n % 2 = 1 ∧ 0 < count := by
  induction nbs generalizing r nzs with
  | zero =>
    rw [pow_zero, Int.abs_lt_one_iff] at short
    exact absurd short nonzero
  | succ nbs ih =>
    rw [nafStrip]
    split
    · next even =>
      have half : r = 2 * (r / 2) := by omega
      have less : |r / 2| < 2 ^ nbs := by
        rw [abs_lt, pow_succ] at short
        rw [abs_lt]
        omega
      obtain ⟨n, count, k, run, split, value, odd, positive⟩ := ih (r := r / 2) (by omega) less (nzs + 1)
      refine ⟨n, count, k + 1, by rw [run]; congr 2; omega, by omega, ?_, odd, positive⟩
      rw [pow_succ, ← mul_assoc, ← value]
      omega
    · next odd => exact ⟨r, nbs + 1, 0, rfl, rfl, by rw [pow_zero, mul_one], by omega, Nat.succ_pos nbs⟩

theorem Scanned.windowed (scanned : Scanned x x3 i j r nbs) {limit : ℤ}
    (small : ∀ n k, r = n * 2 ^ k → n % 2 = 1 → |n| ≤ limit) :
    ∃ n count nzs, nafStrip nbs r 0 = (n, count, nzs) ∧ Windowed x x3 i limit n count nzs := by
  obtain ⟨n, count, k, run, split, value, odd, positive⟩ := nafStrip_spec scanned.nonzero scanned.short 0
  rw [Nat.zero_add] at run
  have bits := scanned.bits
  refine ⟨n, count, k, run, positive, by omega, ?_, small n k value odd, .inr odd⟩
  rw [← split, ← value, ← scanned.value]
  congr 1
  omega

theorem abs_le_of_multiple {n : ℤ} {k : ℕ} (value : r = n * 2 ^ k) : |n| ≤ |r| := by
  rw [value, abs_mul]
  exact le_mul_of_one_le_right (abs_nonneg n) (by rw [abs_pow]; exact one_le_pow₀ (by decide))

theorem nafWindow_spec (x x3 : ℕ) (inside : 0 < i) {store : ℕ} (stored : 0 < store) :
    ∃ n nbs nzs, nafWindow x x3 i store = (n, nbs, nzs) ∧ Windowed x x3 i (2 * store - 1) n nbs nzs := by
  have first := upper_eq x3 x i
  rw [nafWindow]
  dsimp only
  split
  · next zero =>
    refine ⟨0, 1, 0, rfl, Nat.one_pos, inside, ?_, by rw [abs_zero]; omega, .inl rfl⟩
    rw [zero] at first
    rw [show i - (1 + 0) + 1 = i by omega, first]
    ring
  · next nonzero =>
    rw [if_neg (by omega)]
    have start : (if 0 < digit x3 x i then (1 : ℤ) else -1) = digit x3 x i := by
      rcases digit_cases x3 x i with digit | digit | digit <;> rw [digit] at nonzero ⊢
      · rfl
      · exact absurd rfl nonzero
      · rfl
    have unit : |digit x3 x i| = 1 := by
      rcases digit_cases x3 x i with digit | digit | digit <;> rw [digit] at nonzero ⊢
      · rfl
      · exact absurd rfl nonzero
      · rfl
    have scanned : Scanned x x3 i (i - 1) (digit x3 x i) 1 := by
      refine ⟨by omega, ?_, nonzero, by rw [unit]; decide⟩
      rw [show i - 1 + 1 = i by omega, first, pow_one]
    have within : |digit x3 x i| ≤ 2 * (store : ℤ) - 1 := by
      rw [unit]
      omega
    rw [start]
    obtain ⟨r, nb, nbs, run, scanned, small⟩ | ⟨k, r, nbs, run, scanned, small⟩ :=
      nafScan_spec (digit x3 x i) scanned within
    · rw [run]
      dsimp only
      rw [if_neg (fun both => both.2 rfl)]
      exact scanned.windowed fun n k value _ => (abs_le_of_multiple value).trans small
    · rw [run]
      dsimp only
      split
      · next odd =>
        have back : (let s := if 0 < digit x3 x (k + 1) then (2 * r + digit x3 x (k + 1) - 1) / 2
              else 2 * r + digit x3 x (k + 1)
            if digit x3 x (k + 1) < 0 then (s + 1) / 2 else s) = r := by
          rcases digit_cases x3 x (k + 1) with digit | digit | digit <;>
            (rw [digit] at odd ⊢; simp <;> omega)
        dsimp only at back
        rw [back, Nat.add_sub_cancel]
        exact scanned.windowed fun n k value _ => (abs_le_of_multiple value).trans small
      · next even =>
        have zero : digit x3 x (k + 1) = 0 := by
          rcases digit_cases x3 x (k + 1) with digit | digit | digit <;> omega
        refine scanned.next.windowed fun n m value odd => ?_
        -- the last digit is among the zeros that are dropped
        rw [zero, add_zero] at value
        cases m with
        | zero =>
          rw [pow_zero, mul_one] at value
          omega
        | succ m =>
          rw [pow_succ] at value
          have half : r = n * 2 ^ m := by linarith
          exact (abs_le_of_multiple half).trans small

theorem nafWindow_bits (x y : ℕ) (inside : 0 < i) {store : ℕ} (stored : 0 < store) : 0 < (nafWindow x y i store).2.1 := by
  obtain ⟨n, nbs, nzs, run, windowed⟩ := nafWindow_spec x y inside stored
  rw [run]
  exact windowed.bits

end
end MyTools.Miracl
