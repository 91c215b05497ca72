import Mathlib.Data.Int.Basic
import Mathlib.Data.Nat.Bitwise
import Mathlib.Tactic.Ring

/-! Numbers with the digits 1, 0 and -1, as the difference of a number that has the bits 1 and a number
that has the bits -1. -/
namespace MyTools.Library.SignedDigits

variable (plus minus : ℕ)

def digit (i : ℕ) : ℤ := (plus.testBit i).toNat - (minus.testBit i).toNat

/-- The number that the digits from `i` on make. -/
def upper (i : ℕ) : ℤ := (plus / 2 ^ i : ℕ) - (minus / 2 ^ i : ℕ)

theorem div_pow_succ (x i : ℕ) : x / 2 ^ i = 2 * (x / 2 ^ (i + 1)) + (x.testBit i).toNat := by
  rw [Nat.toNat_testBit, pow_succ, ← Nat.div_div_eq_div_mul]
  exact (Nat.div_add_mod _ 2).symm

variable (i : ℕ)

theorem upper_eq : upper plus minus i = 2 * upper plus minus (i + 1) + digit plus minus i := by
  rw [upper, upper, digit, div_pow_succ plus i, div_pow_succ minus i]
  push_cast
  ring

theorem digit_cases : digit plus minus i = 1 ∨ digit plus minus i = 0 ∨ digit plus minus i = -1 := by
  unfold digit
  cases plus.testBit i <;> cases minus.testBit i <;> decide

variable {plus minus i}

theorem upper_zero : upper plus minus 0 = plus - minus := by
  rw [upper, Nat.pow_zero, Nat.div_one, Nat.div_one]

theorem upper_of_lt (large : plus < 2 ^ i) (large' : minus < 2 ^ i) : upper plus minus i = 0 := by
  rw [upper, Nat.div_eq_of_lt large, Nat.div_eq_of_lt large', sub_self]

theorem upper_threefold (x : ℕ) : upper (3 * x) x 1 = x := by
  unfold upper
  omega

end MyTools.Library.SignedDigits
