import Mathlib.Algebra.BigOperators.Intervals
import Mathlib.Algebra.Polynomial.Eval.Degree
import Mathlib.Tactic.Linarith
import Mathlib.Tactic.Ring

/-! Numbers written with digits to the base `B`, least significant digit first. Digits
are functions of the position, so that arrays of different lengths share the lemmas. -/
namespace MyTools.Library.Limbs

/-- The number that the first `count` digits denote. -/
def value (B : ℕ) (digit : ℕ → ℕ) : (count : ℕ) → ℕ
  | 0 => 0
  | count + 1 => value B digit count + digit count * B ^ count

section
variable {B : ℕ} {f g : ℕ → ℕ} {m n s : ℕ}

@[simp] theorem value_zero : value B f 0 = 0 := rfl

theorem value_succ : value B f (n + 1) = value B f n + f n * B ^ n := rfl

theorem value_congr (same : ∀ i, i < n → f i = g i) : value B f n = value B g n := by
  induction n with
  | zero => rfl
  | succ n ih => rw [value_succ, value_succ, ih fun i inside => same i (Nat.lt_succ_of_lt inside), same n n.lt_succ_self]

theorem value_lt (bounded : ∀ i, i < n → f i < B) : value B f n < B ^ n := by
  induction n with
  | zero => exact Nat.one_pos
  | succ n ih =>
    have low := ih fun i inside => bounded i (Nat.lt_succ_of_lt inside)
    have top := Nat.mul_le_mul_right (B ^ n) (Nat.succ_le_of_lt (bounded n n.lt_succ_self))
    rw [value_succ, pow_succ']
    linarith [Nat.succ_mul (f n) (B ^ n)]

theorem value_add (B : ℕ) (f : ℕ → ℕ) (m n : ℕ) : value B f (m + n) = value B f m + B ^ m * value B (fun i => f (m + i)) n := by
  induction n with
  | zero => simp
  | succ n ih => rw [← Nat.add_assoc, value_succ, value_succ, ih, pow_add]; ring

theorem value_of_zeros (order : m ≤ n) (zeros : ∀ i, m ≤ i → i < n → f i = 0) : value B f n = value B f m := by
  induction n with
  | zero => rw [Nat.le_zero.mp order]
  | succ n ih =>
    rcases Nat.le_succ_iff.mp order with smaller | rfl
    · rw [value_succ, zeros n smaller n.lt_succ_self, Nat.zero_mul, Nat.add_zero,
        ih smaller fun i low high => zeros i low (Nat.lt_succ_of_lt high)]
    · rfl

theorem value_eq_zero (zeros : ∀ i, i < n → f i = 0) : value B f n = 0 :=
  (value_of_zeros (Nat.zero_le n) fun i _ => zeros i).trans value_zero

theorem value_mono (order : m ≤ n) : value B f m ≤ value B f n := by
  obtain ⟨k, rfl⟩ := Nat.exists_eq_add_of_le order
  rw [value_add]
  exact Nat.le_add_right _ _

theorem value_eq_iff (positive : 0 < B) (order : m ≤ n) :
    value B f n = value B f m ↔ ∀ i, m ≤ i → i < n → f i = 0 := by
  constructor
  · intro same i low high
    by_contra nonzero
    have digit : 0 < f i * B ^ i := Nat.mul_pos (Nat.pos_of_ne_zero nonzero) (Nat.pow_pos positive)
    have least : value B f m ≤ value B f i := value_mono low
    have most : value B f (i + 1) ≤ value B f n := value_mono high
    rw [value_succ] at most
    omega
  · exact value_of_zeros order

theorem value_lt_value {j : ℕ} (inside : j < n) (bounded : ∀ i, i < n → f i < B) (above : ∀ i, j < i → i < n → f i = g i)
    (smaller : f j < g j) : value B f n < value B g n := by
  obtain ⟨k, rfl⟩ := Nat.exists_eq_add_of_le (Nat.succ_le_of_lt inside)
  have low : value B f j < B ^ j := value_lt fun i below => bounded i (below.trans inside)
  have high : value B (fun i => f (j + 1 + i)) k = value B (fun i => g (j + 1 + i)) k :=
    value_congr fun i below => above _ (by omega) (by omega)
  have step := Nat.mul_le_mul_right (B ^ j) (Nat.succ_le_of_lt smaller)
  rw [Nat.succ_eq_add_one, value_add B f (j + 1), value_add B g (j + 1), high, value_succ, value_succ]
  linarith [Nat.succ_mul (f j) (B ^ j)]

theorem digits_eq (f_bounded : ∀ i, i < n → f i < B) (g_bounded : ∀ i, i < n → g i < B)
    (same : value B f n = value B g n) : ∀ i, i < n → f i = g i := by
  induction n with
  | zero => exact fun i inside => absurd inside i.not_lt_zero
  | succ n ih =>
    have f_low : value B f n < B ^ n := value_lt fun i inside => f_bounded i (Nat.lt_succ_of_lt inside)
    have g_low : value B g n < B ^ n := value_lt fun i inside => g_bounded i (Nat.lt_succ_of_lt inside)
    have top : f n = g n := by
      rcases Nat.lt_trichotomy (f n) (g n) with less | equal | more
      · exact absurd same (value_lt_value n.lt_succ_self f_bounded (fun i low high => by omega) less).ne
      · exact equal
      · exact absurd same (value_lt_value n.lt_succ_self g_bounded (fun i low high => by omega) more).ne'
    rw [value_succ, value_succ, top] at same
    intro i inside
    rcases Nat.lt_succ_iff_lt_or_eq.mp inside with below | rfl
    · exact ih (fun i inside => f_bounded i (Nat.lt_succ_of_lt inside))
        (fun i inside => g_bounded i (Nat.lt_succ_of_lt inside)) (Nat.add_right_cancel same) i below
    · exact top

theorem value_update {j : ℕ} (inside : j < n) (agree : ∀ i, i < n → i ≠ j → g i = f i) :
    value B g n + f j * B ^ j = value B f n + g j * B ^ j := by
  obtain ⟨k, rfl⟩ := Nat.exists_eq_add_of_le (Nat.succ_le_of_lt inside)
  have low : value B g j = value B f j := value_congr fun i below => agree i (by omega) (by omega)
  have high : value B (fun i => g (j + 1 + i)) k = value B (fun i => f (j + 1 + i)) k :=
    value_congr fun i below => agree _ (by omega) (by omega)
  rw [Nat.succ_eq_add_one, value_add B f (j + 1), value_add B g (j + 1), high, value_succ, value_succ, low]
  ring

theorem value_shift (B : ℕ) (f : ℕ → ℕ) (s n : ℕ) :
    value B (fun i => if i < s then 0 else f (i - s)) (s + n) = B ^ s * value B f n := by
  rw [value_add, value_eq_zero fun i inside => if_pos inside, Nat.zero_add]
  congr 1
  exact value_congr fun i _ => by simp

theorem value_scale (B : ℕ) (f : ℕ → ℕ) (c n : ℕ) :
    value B (fun i => f i * c % B + if i = 0 then 0 else f (i - 1) * c / B) (n + 1) + f n * c / B * B ^ (n + 1) =
      value B f (n + 1) * c := by
  induction n with
  | zero =>
    have parts := Nat.div_add_mod (f 0 * c) B
    rw [value_succ, value_succ, value_zero, value_zero, if_pos rfl, pow_zero, Nat.zero_add, pow_one]
    linarith
  | succ n ih =>
    have parts := Nat.div_add_mod (f (n + 1) * c) B
    rw [value_succ, if_neg (Nat.succ_ne_zero n), Nat.add_sub_cancel]
    calc _ = value B (fun i => f i * c % B + if i = 0 then 0 else f (i - 1) * c / B) (n + 1) +
          f n * c / B * B ^ (n + 1) + (B * (f (n + 1) * c / B) + f (n + 1) * c % B) * B ^ (n + 1) := by ring
      _ = value B f (n + 1) * c + f (n + 1) * B ^ (n + 1) * c := by rw [ih, parts]; ring
      _ = _ := by rw [← Nat.add_mul, ← value_succ]

theorem value_halve {c d : ℕ} (whole : c * d = B) (f : ℕ → ℕ) (n : ℕ) :
    c * value B (fun i => f i / c + f (i + 1) % c * d) n + f 0 % c = value B f n + f n % c * B ^ n := by
  induction n with
  | zero => rw [value_zero, value_zero, pow_zero]; ring
  | succ n ih =>
    have parts := Nat.div_add_mod (f n) c
    calc _ = c * value B (fun i => f i / c + f (i + 1) % c * d) n + f 0 % c +
          (c * (f n / c) * B ^ n + f (n + 1) % c * (c * d) * B ^ n) := by rw [value_succ]; ring
      _ = value B f n + (c * (f n / c) + f n % c) * B ^ n + f (n + 1) % c * (B ^ n * B) := by rw [ih, whole]; ring
      _ = _ := by rw [parts, ← value_succ, ← pow_succ]

theorem value_div {c d : ℕ} (positive : 0 < c) (whole : c * d = B) (f : ℕ → ℕ) (n : ℕ) (top : f n = 0) :
    value B (fun i => f i / c + f (i + 1) % c * d) n = value B f n / c := by
  have scaled := value_halve whole f n
  rw [top, Nat.zero_mod, Nat.zero_mul, Nat.add_zero] at scaled
  rw [← scaled, Nat.mul_add_div positive, Nat.div_eq_of_lt (Nat.mod_lt _ positive), Nat.add_zero]

theorem value_drop (positive : 0 < B) (bounded : ∀ i, i < s → f i < B) (zeros : ∀ i, n ≤ i → f i = 0) :
    value B (fun i => f (i + s)) n = value B f n / B ^ s := by
  have low : value B f s < B ^ s := value_lt bounded
  have parts := value_add B f s n
  have whole : value B f (s + n) = value B f n := value_of_zeros (Nat.le_add_left n s) fun i above _ => zeros i above
  have same : value B (fun i => f (s + i)) n = value B (fun i => f (i + s)) n :=
    value_congr fun i _ => congrArg f (Nat.add_comm s i)
  rw [whole, same, Nat.add_comm] at parts
  rw [parts, Nat.mul_add_div (Nat.pow_pos positive), Nat.div_eq_of_lt low, Nat.add_zero]

theorem value_sum (B : ℕ) (f g : ℕ → ℕ) (c n : ℕ) :
    value B (fun i => f i + c * g i) n = value B f n + c * value B g n := by
  induction n with
  | zero => simp
  | succ n ih => rw [value_succ, value_succ, value_succ, ih]; ring

theorem value_div_pow (bounded : ∀ i, i < m → f i < B) (zeros : ∀ i, n ≤ i → f i = 0) (small : value B f n < B ^ (m + 2)) :
    value B f n / B ^ m = f (m + 1) * B + f m := by
  have positive : 0 < B ^ m := Nat.pos_of_ne_zero fun zero => by
    rw [pow_add, zero, Nat.zero_mul] at small
    exact Nat.not_lt_zero _ small
  have whole : value B f n = value B f m + B ^ m * value B (fun i => f (m + i)) (2 + n) := by
    rw [← value_add]
    exact (value_of_zeros (by omega) fun i low _ => zeros i low).symm
  have upper := value_add B (fun i => f (m + i)) 2 n
  have nothing : value B (fun i => f (m + (2 + i))) n = 0 := by
    by_contra more
    have large : B ^ (m + 2) ≤ value B f n := by
      calc B ^ (m + 2) = B ^ m * (B ^ 2 * 1) := by ring
        _ ≤ B ^ m * (B ^ 2 * value B (fun i => f (m + (2 + i))) n) :=
          Nat.mul_le_mul_left _ (Nat.mul_le_mul_left _ (Nat.pos_of_ne_zero more))
        _ ≤ B ^ m * value B (fun i => f (m + i)) (2 + n) :=
          Nat.mul_le_mul_left _ (upper ▸ Nat.le_add_left _ _)
        _ ≤ value B f n := whole ▸ Nat.le_add_left _ _
    exact absurd small (Nat.not_lt.mpr large)
  rw [whole, upper, nothing, Nat.mul_zero, Nat.add_zero, Nat.add_mul_div_left _ _ positive,
    Nat.div_eq_of_lt (value_lt bounded), value_succ, value_succ, value_zero, pow_zero, pow_one, Nat.add_zero]
  ring

/-- The column `k` of the product of two numbers. -/
def column (f g : ℕ → ℕ) (k : ℕ) : ℕ := ∑ i ∈ Finset.range (k + 1), f i * g (k - i)

theorem column_self (f : ℕ → ℕ) (k : ℕ) :
    column f f k = ∑ i ∈ Finset.range (k / 2 + 1), (if i < k - i then 2 else 1) * (f i * f (k - i)) := by
  obtain ⟨low, order⟩ : k - k / 2 ≤ k / 2 + 1 ∧ k + 1 = k / 2 + 1 + (k - k / 2) := by omega
  have upper : ∑ i ∈ Finset.range (k - k / 2), f (k / 2 + 1 + i) * f (k - (k / 2 + 1 + i)) =
      ∑ i ∈ Finset.range (k - k / 2), f i * f (k - i) := by
    rw [← Finset.sum_range_reflect]
    apply Finset.sum_congr rfl
    intro i inside
    have below := Finset.mem_range.mp inside
    rw [show k / 2 + 1 + (k - k / 2 - 1 - i) = k - i by omega, show k - (k - i) = i by omega, Nat.mul_comm]
  have twice : ∑ i ∈ Finset.range (k - k / 2), f i * f (k - i) =
      ∑ i ∈ Finset.range (k / 2 + 1), if i < k - i then f i * f (k - i) else 0 := by
    rw [← Finset.sum_filter]
    apply Finset.sum_congr _ fun _ _ => rfl
    ext i
    simp only [Finset.mem_filter, Finset.mem_range]
    omega
  rw [column, order, Finset.sum_range_add, upper, twice, ← Finset.sum_add_distrib]
  apply Finset.sum_congr rfl
  intro i _
  split
  · ring
  · ring

theorem value_column (g_zeros : ∀ i, n ≤ i → g i = 0) {K : ℕ} (f_zeros : ∀ i, m ≤ i → f i = 0) (order : m + n ≤ K) :
    value B (column f g) K = value B f m * value B g n := by
  induction m generalizing f with
  | zero =>
    rw [value_zero, Nat.zero_mul]
    exact value_eq_zero fun k _ => Finset.sum_eq_zero fun i _ => by rw [f_zeros i i.zero_le, Nat.zero_mul]
  | succ m ih =>
    -- the top digit of `f` adds a shifted multiple of `g`
    let rest : ℕ → ℕ := fun i => if i < m then f i else 0
    have split (k : ℕ) : column f g k = column rest g k + f m * (if k < m then 0 else g (k - m)) := by
      have parts (i : ℕ) : f i * g (k - i) = rest i * g (k - i) + if i = m then f m * g (k - m) else 0 := by
        rcases Nat.lt_trichotomy i m with less | rfl | more
        · simp [rest, less, less.ne]
        · simp [rest]
        · simp [rest, not_lt.mpr more.le, more.ne', f_zeros i more]
      rw [column, Finset.sum_congr rfl fun i _ => parts i, Finset.sum_add_distrib, Finset.sum_ite_eq']
      simp only [column, Finset.mem_range, Nat.lt_succ_iff]
      congr 1
      split_ifs with inside below below
      · omega
      · rfl
      · rw [Nat.mul_zero]
      · omega
    have low : value B rest m = value B f m := value_congr fun i inside => if_pos inside
    have shifted : value B (fun k => if k < m then 0 else g (k - m)) K = B ^ m * value B g n := by
      obtain ⟨size, rfl⟩ := Nat.exists_eq_add_of_le (show m ≤ K by omega)
      rw [value_shift, value_of_zeros (show n ≤ size by omega) fun i low _ => g_zeros i low]
    rw [value_congr fun k _ => split k, value_sum, ih (fun i outside => if_neg (Nat.not_lt.mpr outside)) (by omega), low,
      shifted, value_succ]
    ring

end

/-! A digit of a quotient, guessed from the digits at the top. -/

section
variable {n d unit divisor : ℕ}

theorem guess_mul_le (upper : divisor ≤ (d + 1) * unit) : n / unit / (d + 1) * divisor ≤ n := by
  calc n / unit / (d + 1) * divisor ≤ n / unit / (d + 1) * ((d + 1) * unit) := Nat.mul_le_mul_left _ upper
    _ = n / unit / (d + 1) * (d + 1) * unit := (Nat.mul_assoc _ _ _).symm
    _ ≤ n / unit * unit := Nat.mul_le_mul_right _ (Nat.div_mul_le_self _ _)
    _ ≤ n := Nat.div_mul_le_self _ _

theorem guess_lt {B : ℕ} (small : n < (d + 1) * unit * B) : n / unit / (d + 1) < B := by
  apply Nat.div_lt_of_lt_mul
  apply Nat.div_lt_of_lt_mul
  linarith

end
end MyTools.Library.Limbs
