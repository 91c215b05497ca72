import MyTools.Library.SignedDigits
import MyTools.Miracl.Redc

/-! The joint sparse form of two numbers: `mr_jsf` of `mrarth1.c`. -/
namespace MyTools.Miracl
open Library SignedDigits

/-- `u0`, when `l0` and `l1` are the lowest three bits of the numbers. -/
def jsfDigit (l0 l1 : ℕ) : ℤ :=
  if l0 % 2 = 0 then 0
  else
    let u : ℤ := 2 - (l0 % 4 : ℕ)
    if (l0 = 3 ∨ l0 = 5) ∧ l1 % 4 = 2 then -u else u

/-- `if (d0 + d0 == 1 + u0) d0 = 1 - d0` -/
def jsfCarry (d : Bool) (u : ℤ) : Bool := if (d.toNat + d.toNat : ℤ) = 1 + u then !d else d

/-- What the loop has collected: the digits 1 and -1 of both numbers. -/
structure Jsf where
  u0p : ℕ
  u0m : ℕ
  u1p : ℕ
  u1m : ℕ

/-- `mr_addbit`; `none` is a word behind the number. -/
def addbit (x j : ℕ) : Option ℕ := if j < 32 * nib then some (x + 2 ^ j) else none

def Jsf.collect (out : Jsf) (j : ℕ) (u0 u1 : ℤ) : Option Jsf := do
  let u0p ← if 0 < u0 then addbit out.u0p j else some out.u0p
  let u0m ← if u0 < 0 then addbit out.u0m j else some out.u0m
  let u1p ← if 0 < u1 then addbit out.u1p j else some out.u1p
  let u1m ← if u1 < 0 then addbit out.u1m j else some out.u1m
  return ⟨u0p, u0m, u1p, u1m⟩

theorem jsfDigit_cases (l0 l1 : ℕ) : jsfDigit l0 l1 = 1 ∨ jsfDigit l0 l1 = 0 ∨ jsfDigit l0 l1 = -1 := by
  unfold jsfDigit
  dsimp only
  split_ifs <;> omega

theorem jsf_next (w : ℕ) (d : Bool) (l1 : ℕ) :
    let u := jsfDigit ((w % 8 + d.toNat) % 8) l1
    (w + d.toNat : ℤ) = 2 * (w / 2 + (jsfCarry d u).toNat) + u := by
  intro u
  have parity : u % 2 = ((w + d.toNat : ℕ) : ℤ) % 2 := by
    simp only [u, jsfDigit]
    split_ifs <;> omega
  have range := jsfDigit_cases ((w % 8 + d.toNat) % 8) l1
  change u = 1 ∨ u = 0 ∨ u = -1 at range
  clear_value u
  unfold jsfCarry
  cases d <;> rcases range with one | zero | minus <;> subst u <;> simp at parity ⊢ <;> omega

theorem jsf_shorter (w : ℕ) (d : Bool) (l1 : ℕ) :
    let left := w / 2 + (jsfCarry d (jsfDigit ((w % 8 + d.toNat) % 8) l1)).toNat
    left < w + d.toNat ∨ (left = 0 ∧ w + d.toNat = 0) := by
  have next := jsf_next w d l1
  have range := jsfDigit_cases ((w % 8 + d.toNat) % 8) l1
  have zero : w + d.toNat = 0 → jsfDigit ((w % 8 + d.toNat) % 8) l1 = 0 := by
    intro none
    rw [show (w % 8 + d.toNat) % 8 = 0 by omega]
    rfl
  have one : w + d.toNat = 1 → jsfDigit ((w % 8 + d.toNat) % 8) l1 = 1 := by
    intro single
    rw [show (w % 8 + d.toNat) % 8 = 1 by omega]
    simp [jsfDigit]
  dsimp only at next ⊢
  omega

theorem jsf_some_left {w2 w3 : ℕ} {d0 d1 : Bool} (more : ¬(w2 = 0 ∧ d0 = false ∧ w3 = 0 ∧ d1 = false)) :
    w2 + d0.toNat ≠ 0 ∨ w3 + d1.toNat ≠ 0 := by
  by_contra neither
  obtain ⟨first, second⟩ := not_or.mp neither
  obtain ⟨w2_zero, d0_zero⟩ := Nat.add_eq_zero_iff.mp (not_not.mp first)
  obtain ⟨w3_zero, d1_zero⟩ := Nat.add_eq_zero_iff.mp (not_not.mp second)
  exact more ⟨w2_zero, Bool.toNat_eq_zero.mp d0_zero, w3_zero, Bool.toNat_eq_zero.mp d1_zero⟩

def jsfLoop (w2 : ℕ) (d0 : Bool) (w3 : ℕ) (d1 : Bool) (j : ℕ) (out : Jsf) : Option Jsf :=
  if w2 = 0 ∧ d0 = false ∧ w3 = 0 ∧ d1 = false then some out
  else do
    let l0 := (w2 % 8 + d0.toNat) % 8
    let l1 := (w3 % 8 + d1.toNat) % 8
    let u0 := jsfDigit l0 l1
    let u1 := jsfDigit l1 l0
    jsfLoop (w2 / 2) (jsfCarry d0 u0) (w3 / 2) (jsfCarry d1 u1) (j + 1) (← out.collect j u0 u1)
termination_by w2 + d0.toNat + (w3 + d1.toNat)
decreasing_by
  rename_i more _
  have first := jsf_shorter w2 d0 ((w3 % 8 + d1.toNat) % 8)
  have second := jsf_shorter w3 d1 ((w2 % 8 + d0.toNat) % 8)
  have some_left := jsf_some_left more
  dsimp only at first second
  omega

def mrJsf (k0 k1 : ℕ) : Option Jsf := jsfLoop k0 false k1 false 0 ⟨0, 0, 0, 0⟩

/-- There is room for the digits of what is left at place `j`. -/
def HasRoom (w : ℕ) (d : Bool) (j : ℕ) : Prop := (w + d.toNat) * 2 ^ j ≤ 2 ^ (32 * nib - 1)

theorem HasRoom.inside {w : ℕ} {d : Bool} {j : ℕ} (room : HasRoom w d j) (some_left : w + d.toNat ≠ 0) :
    j < 32 * nib := by
  by_contra beyond
  have large : 2 ^ (32 * nib) ≤ 2 ^ j := pow_le_pow_right₀ one_le_two (Nat.not_lt.mp beyond)
  have least : 1 * 2 ^ j ≤ (w + d.toNat) * 2 ^ j := Nat.mul_le_mul_right _ (Nat.pos_of_ne_zero some_left)
  have half : 2 ^ (32 * nib - 1) < 2 ^ (32 * nib) := Nat.pow_lt_pow_right one_lt_two (by decide)
  unfold HasRoom at room
  omega

theorem HasRoom.next {w : ℕ} {d : Bool} {j : ℕ} (room : HasRoom w d j) (l1 : ℕ) :
    HasRoom (w / 2) (jsfCarry d (jsfDigit ((w % 8 + d.toNat) % 8) l1)) (j + 1) := by
  have next : ((w + d.toNat : ℕ) : ℤ) = 2 * ((w / 2 + (jsfCarry d (jsfDigit ((w % 8 + d.toNat) % 8) l1)).toNat : ℕ) : ℤ) +
      jsfDigit ((w % 8 + d.toNat) % 8) l1 := by
    push_cast
    exact jsf_next w d l1
  have shorter := jsf_shorter w d l1
  have range := jsfDigit_cases ((w % 8 + d.toNat) % 8) l1
  unfold HasRoom at room ⊢
  dsimp only at shorter
  generalize (w / 2 + (jsfCarry d (jsfDigit ((w % 8 + d.toNat) % 8) l1)).toNat) = left at *
  generalize w + d.toNat = whole at *
  generalize 32 * nib - 1 = top at *
  rw [pow_succ', ← mul_assoc]
  by_cases low : j < top
  · obtain ⟨gap, rfl⟩ := Nat.exists_eq_add_of_lt low
    rw [show j + gap + 1 = gap + 1 + j by omega, pow_add] at room ⊢
    have bound := Nat.le_of_mul_le_mul_right room (Nat.two_pow_pos j)
    refine Nat.mul_le_mul_right _ ?_
    rw [pow_succ] at bound ⊢
    omega
  · have large : 2 ^ top ≤ 2 ^ j := Nat.pow_le_pow_right two_pos (Nat.not_lt.mp low)
    have one : whole ≤ 1 := Nat.le_of_mul_le_mul_right (by omega : whole * 2 ^ j ≤ 1 * 2 ^ j) (Nat.two_pow_pos j)
    rw [show left = 0 by omega, zero_mul, zero_mul]
    exact Nat.zero_le _

theorem addbit_run (x : ℕ) {j : ℕ} (inside : j < 32 * nib) : addbit x j = some (x + 2 ^ j) := if_pos inside

theorem collect_run (out : Jsf) {j : ℕ} (inside : j < 32 * nib) {u0 u1 : ℤ} (range0 : u0 = 1 ∨ u0 = 0 ∨ u0 = -1)
    (range1 : u1 = 1 ∨ u1 = 0 ∨ u1 = -1) : ∃ next, out.collect j u0 u1 = some next ∧
      (next.u0p - next.u0m : ℤ) = out.u0p - out.u0m + u0 * 2 ^ j ∧
        (next.u1p - next.u1m : ℤ) = out.u1p - out.u1m + u1 * 2 ^ j := by
  rcases range0 with rfl | rfl | rfl <;> rcases range1 with rfl | rfl | rfl <;>
    simp only [Jsf.collect, addbit_run _ inside] <;> refine ⟨_, rfl, ?_, ?_⟩ <;> push_cast <;> ring

theorem jsfLoop_spec (w2 : ℕ) (d0 : Bool) (w3 : ℕ) (d1 : Bool) (j : ℕ) (out : Jsf) (room0 : HasRoom w2 d0 j)
    (room1 : HasRoom w3 d1 j) : ∃ done, jsfLoop w2 d0 w3 d1 j out = some done ∧
      (done.u0p - done.u0m : ℤ) = out.u0p - out.u0m + (w2 + d0.toNat) * 2 ^ j ∧
        (done.u1p - done.u1m : ℤ) = out.u1p - out.u1m + (w3 + d1.toNat) * 2 ^ j := by
  induction left : w2 + d0.toNat + (w3 + d1.toNat) using Nat.strong_induction_on generalizing w2 d0 w3 d1 j out with
  | _ left ih =>
    rw [jsfLoop]
    split
    · next ended =>
      obtain ⟨rfl, rfl, rfl, rfl⟩ := ended
      exact ⟨out, rfl, by simp, by simp⟩
    · next more =>
      have first := jsf_shorter w2 d0 ((w3 % 8 + d1.toNat) % 8)
      have second := jsf_shorter w3 d1 ((w2 % 8 + d0.toNat) % 8)
      have some_left : w2 + d0.toNat ≠ 0 ∨ w3 + d1.toNat ≠ 0 := jsf_some_left more
      have inside : j < 32 * nib := some_left.elim room0.inside room1.inside
      have value0 := jsf_next w2 d0 ((w3 % 8 + d1.toNat) % 8)
      have value1 := jsf_next w3 d1 ((w2 % 8 + d0.toNat) % 8)
      obtain ⟨next, collected, plus0, plus1⟩ := collect_run out inside
        (jsfDigit_cases ((w2 % 8 + d0.toNat) % 8) ((w3 % 8 + d1.toNat) % 8))
        (jsfDigit_cases ((w3 % 8 + d1.toNat) % 8) ((w2 % 8 + d0.toNat) % 8))
      dsimp only at first second value0 value1 ⊢
      obtain ⟨done, run, done0, done1⟩ := ih _ (by omega) _ _ _ _ (j + 1) next
        (room0.next ((w3 % 8 + d1.toNat) % 8)) (room1.next ((w2 % 8 + d0.toNat) % 8)) rfl
      rw [collected]
      refine ⟨done, run, ?_, ?_⟩
      · rw [done0, plus0, value0, pow_succ]
        push_cast
        ring
      · rw [done1, plus1, value1, pow_succ]
        push_cast
        ring

theorem mrJsf_value {k0 k1 : ℕ} (room0 : k0 < 2 ^ (32 * nib - 1)) (room1 : k1 < 2 ^ (32 * nib - 1)) :
    ∃ form, mrJsf k0 k1 = some form ∧ (form.u0p - form.u0m : ℤ) = k0 ∧ (form.u1p - form.u1m : ℤ) = k1 := by
  have fits {k : ℕ} (room : k < 2 ^ (32 * nib - 1)) : HasRoom k false 0 := by
    rw [HasRoom, pow_zero, mul_one]
    exact room.le
  obtain ⟨form, run, value0, value1⟩ := jsfLoop_spec k0 false k1 false 0 ⟨0, 0, 0, 0⟩ (fits room0) (fits room1)
  exact ⟨form, run, by simpa using value0, by simpa using value1⟩

theorem room_for_digits {k : ℕ} (room : 3 * k < 2 ^ (32 * nib)) : k < 2 ^ (32 * nib - 1) := by
  have half : 2 ^ (32 * nib) = 2 * 2 ^ (32 * nib - 1) := (mul_pow_sub_one (by decide) 2).symm
  omega

end MyTools.Miracl
