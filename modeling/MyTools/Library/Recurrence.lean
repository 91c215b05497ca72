import Mathlib.Tactic.Basic
import Mathlib.Order.Basic

/-! Sequences in which every word comes from the four words before it, run forwards and backwards. -/
namespace MyTools.Library.Recurrence
variable {α : Type*}

/-- `x[i + 4] = next i x[i] x[i + 1] x[i + 2] x[i + 3]` -/
def sequence (next : ℕ → α → α → α → α → α) (seed : ℕ → α) : ℕ → α
  | 0 => seed 0
  | 1 => seed 1
  | 2 => seed 2
  | 3 => seed 3
  | i + 4 => next i (sequence next seed i) (sequence next seed (i + 1)) (sequence next seed (i + 2))
      (sequence next seed (i + 3))

variable {next back : ℕ → α → α → α → α → α} {seed : ℕ → α}

theorem sequence_seed {i : ℕ} (first : i < 4) : sequence next seed i = seed i := by
  rcases i with _ | _ | _ | _ | i
  · rfl
  · rfl
  · rfl
  · rfl
  · omega

theorem sequence_next (next : ℕ → α → α → α → α → α) (seed : ℕ → α) (i : ℕ) :
    sequence next seed (i + 4) = next i (sequence next seed i) (sequence next seed (i + 1)) (sequence next seed (i + 2))
      (sequence next seed (i + 3)) := by
  rw [sequence]

theorem sequence_congr {next' : ℕ → α → α → α → α → α} {seed' : ℕ → α} {i : ℕ} (seeds : ∀ j, j < 4 → seed j = seed' j)
    (steps : ∀ j, j + 4 ≤ i → next j = next' j) : sequence next seed i = sequence next' seed' i := by
  induction i using Nat.strongRecOn with
  | ind i ih =>
    by_cases first : i < 4
    · rw [sequence_seed first, sequence_seed first, seeds i first]
    · obtain ⟨k, rfl⟩ := Nat.exists_eq_add_of_le' (Nat.not_lt.mp first)
      rw [sequence_next, sequence_next, steps k (Nat.le_refl _), ih k (by omega) fun j low => steps j (by omega),
        ih (k + 1) (by omega) fun j low => steps j (by omega), ih (k + 2) (by omega) fun j low => steps j (by omega),
        ih (k + 3) (by omega) fun j low => steps j (by omega)]

/-- The sequence that starts with the last four words in reverse order runs back through the others, when each of its
steps undoes one of the steps forward. -/
theorem sequence_back (steps : ℕ)
    (undo : ∀ i, i < steps → ∀ a b c d, back i (next (steps - 1 - i) a b c d) d c b = a) {i : ℕ} (inside : i < steps + 4) :
    sequence back (fun i => sequence next seed (steps + 3 - i)) i = sequence next seed (steps + 3 - i) := by
  induction i using Nat.strongRecOn with
  | ind i ih =>
    by_cases first : i < 4
    · rw [sequence_seed first]
    · obtain ⟨k, rfl⟩ := Nat.exists_eq_add_of_le' (Nat.not_lt.mp first)
      have forward := sequence_next next seed (steps - 1 - k)
      have top : steps + 3 - k = steps - 1 - k + 4 := by omega
      have third : steps + 3 - (k + 1) = steps - 1 - k + 3 := by omega
      have second : steps + 3 - (k + 2) = steps - 1 - k + 2 := by omega
      have low : steps + 3 - (k + 3) = steps - 1 - k + 1 := by omega
      have last : steps + 3 - (k + 4) = steps - 1 - k := by omega
      rw [sequence_next, ih k (by omega) (by omega), ih (k + 1) (by omega) (by omega), ih (k + 2) (by omega) (by omega),
        ih (k + 3) (by omega) (by omega), top, third, second, low, last, forward]
      exact undo k (by omega) _ _ _ _

/-- Two sequences of which every word follows from the `m` before it, and also from the `m` behind it, are the same
when they agree on any `m` words in a row. -/
theorem agree_of_window {m N : ℕ} {x y : ℕ → α}
    (up : ∀ i, i + m < N → (∀ j, i ≤ j → j < i + m → x j = y j) → x (i + m) = y (i + m))
    (down : ∀ i, i + m < N → (∀ j, i < j → j ≤ i + m → x j = y j) → x i = y i)
    {p : ℕ} (inside : p + m ≤ N) (window : ∀ j, p ≤ j → j < p + m → x j = y j) : ∀ j, j < N → x j = y j := by
  have above (count : ℕ) : p + m + count ≤ N → ∀ j, p ≤ j → j < p + m + count → x j = y j := by
    induction count with
    | zero => exact fun _ => window
    | succ count ih =>
      intro room j low high
      have before := ih (by omega)
      by_cases last : j < p + m + count
      · exact before j low last
      · obtain rfl : j = p + count + m := by omega
        exact up (p + count) (by omega) fun j low high => before j (by omega) (by omega)
  have below (count : ℕ) : count ≤ p → ∀ j, p - count ≤ j → j < N → x j = y j := by
    induction count with
    | zero =>
      intro _ j low high
      exact above (N - (p + m)) (by omega) j low (by omega)
    | succ count ih =>
      intro room j low high
      have behind := ih (by omega)
      by_cases first : p - count ≤ j
      · exact behind j first high
      · exact down j (by omega) fun j' low high => behind j' (by omega) (by omega)
  exact fun j high => below p (Nat.le_refl p) j (by omega) high

end MyTools.Library.Recurrence
