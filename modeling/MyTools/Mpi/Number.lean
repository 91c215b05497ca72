import MyTools.Library.Buffer
import MyTools.Library.Limbs
import Mathlib.Data.UInt

/-! The multi-precision integers: a sign, a length and eight words, with the routines that
copy and compare them. Words at and above the length may hold anything. -/
namespace MyTools.Mpi
open Library

inductive Sign
  | positive
  | negtive
  deriving DecidableEq

def Sign.opposite : Sign → Sign
  | .positive => .negtive
  | .negtive => .positive

structure CMpi where
  word : Vector UInt32 8
  carry : UInt32
  sign : Sign
  length : ℕ

structure CMpl where
  h : CMpi
  l : CMpi

def radix : ℕ := 2 ^ 32

theorem radix_pos : 0 < radix := by decide

namespace CMpi

/-- An access outside the eight words is undefined. -/
def get (a : CMpi) (i : ℕ) : Option UInt32 := a.word[i]?

def put (a : CMpi) (i : ℕ) (x : UInt32) : Option CMpi :=
  (Buffer.put a.word i x).map fun word => { a with word }

def assignD (n : CMpi) (iInitial : UInt32) : Option CMpi :=
  { n with sign := .positive, length := if iInitial = 0 then 0 else 1, carry := 0 }.put 0 iInitial

/-- `CMpi_Assign`: `b` becomes `a`, and keeps its own words from the length of `a` on. -/
def assign (a b : CMpi) : Option CMpi :=
  Loop.down (fun i (b : CMpi) => do b.put i (← a.get i)) a.length
    { b with sign := a.sign, length := a.length, carry := 0 }

def negate (a b : CMpi) : Option CMpi := do
  let b ← a.assign b
  some { b with sign := if a.sign = .positive then .negtive else .positive }

def largerThanAbs (a b : CMpi) : Option Bool :=
  Loop.scan (fun i =>
    if i < a.length ∧ i < b.length then do
      let x ← a.get i
      let y ← b.get i
      if y < x then some (some true) else if x < y then some (some false) else some none
    else if a.length ≤ i then do
      if (← b.get i) ≠ 0 then some (some false) else some none
    else do
      if (← a.get i) ≠ 0 then some (some true) else some none) false (max a.length b.length)

def equalsTo (a b : CMpi) : Option Bool :=
  Loop.scan (fun i =>
    if i < a.length ∧ i < b.length then do
      if (← a.get i) ≠ (← b.get i) then some (some false) else some none
    else if a.length ≤ i then do
      if (← b.get i) ≠ 0 then some (some false) else some none
    else do
      if (← a.get i) ≠ 0 then some (some false) else some none) true (max a.length b.length)

def nonzeroWord (a : CMpi) (i : ℕ) : Option Bool := do some ((← a.get i) ≠ 0)

/-- `CMpi_EqualsTo_d` looks at the first word whatever the length is. -/
def equalsToD (a : CMpi) (n : UInt32) : Option Bool := do
  let low ← a.get 0
  if a.length = 1 ∧ n = low then some true
  else if a.length = 0 ∧ n = 0 then some true
  else do
    let high ← Loop.find a.nonzeroWord 1 (a.length - 1)
    if high then some false else some (n = low)

def largerThan (a b : CMpi) : Option Bool :=
  match a.sign, b.sign with
  | .positive, .negtive => some true
  | .positive, .positive => a.largerThanAbs b
  | .negtive, .positive => some false
  | .negtive, .negtive => a.largerThanAbs b

def comparesTo (a b : CMpi) : Option ℤ := do
  if (← a.equalsTo b) then some 0
  else if (← a.largerThan b) then some 1
  else some (-1)

/-! Words as numbers. -/

def wordAt (a : CMpi) (i : ℕ) : UInt32 := a.word[i]?.getD 0

def set (a : CMpi) (i : ℕ) (x : UInt32) : CMpi := { a with word := a.word.setIfInBounds i x }

@[simp] theorem set_carry (a : CMpi) (i : ℕ) (x : UInt32) : (a.set i x).carry = a.carry := rfl
@[simp] theorem set_sign (a : CMpi) (i : ℕ) (x : UInt32) : (a.set i x).sign = a.sign := rfl
@[simp] theorem set_length (a : CMpi) (i : ℕ) (x : UInt32) : (a.set i x).length = a.length := rfl

theorem get_eq (a : CMpi) {i : ℕ} (inside : i < 8) : a.get i = some (a.wordAt i) := by
  rw [get, wordAt, Vector.getElem?_eq_getElem inside, Option.getD_some]

theorem put_eq (a : CMpi) {i : ℕ} (inside : i < 8) (x : UInt32) : a.put i x = some (a.set i x) := by
  have stored : a.word.set i x inside = a.word.setIfInBounds i x := by
    apply Vector.ext
    intro j bound
    rw [Vector.getElem_set, Vector.getElem_setIfInBounds]
  rw [put, Buffer.put, dif_pos inside, Option.map_some, stored, set]

@[simp] theorem wordAt_set_self (a : CMpi) {i : ℕ} (inside : i < 8) (x : UInt32) : (a.set i x).wordAt i = x := by
  simp [wordAt, set, inside]

theorem wordAt_set_ne (a : CMpi) {i j : ℕ} (apart : j ≠ i) (x : UInt32) : (a.set i x).wordAt j = a.wordAt j := by
  simp [wordAt, set, apart.symm]

theorem toNat_ofNat (x : ℕ) : (UInt32.ofNat x).toNat = x % radix := UInt32.toNat_ofNat

def digit (a : CMpi) (i : ℕ) : ℕ := (a.wordAt i).toNat

theorem digit_lt (a : CMpi) (i : ℕ) : a.digit i < radix := (a.wordAt i).toNat_lt

/-- The magnitude: the words below the length. -/
def abs (a : CMpi) : ℕ := Limbs.value radix a.digit a.length

theorem abs_resize (a : CMpi) (carry : UInt32) (sign : Sign) (n : ℕ) :
    ({ a with carry, sign, length := n } : CMpi).abs = Limbs.value radix a.digit n := rfl

theorem abs_lt (a : CMpi) : a.abs < radix ^ a.length := Limbs.value_lt fun i _ => a.digit_lt i

def toInt (a : CMpi) : ℤ :=
  match a.sign with
  | .positive => a.abs
  | .negtive => -a.abs

theorem natAbs_toInt (a : CMpi) : a.toInt.natAbs = a.abs := by
  unfold toInt
  split
  · exact Int.natAbs_natCast _
  · rw [Int.natAbs_neg, Int.natAbs_natCast]

/-- A digit of the magnitude: zero at and above the length. -/
def limb (a : CMpi) (i : ℕ) : ℕ := if i < a.length then a.digit i else 0

theorem wordAt_outside (a : CMpi) {i : ℕ} (outside : 8 ≤ i) : a.wordAt i = 0 := by
  rw [wordAt, Vector.getElem?_eq_none outside]
  rfl

theorem digit_set_self (a : CMpi) {i : ℕ} (inside : i < 8) (x : UInt32) : (a.set i x).digit i = x.toNat := by
  rw [digit, wordAt_set_self a inside]

theorem digit_set_ne (a : CMpi) {i j : ℕ} (apart : j ≠ i) (x : UInt32) : (a.set i x).digit j = a.digit j := by
  rw [digit, wordAt_set_ne a apart, digit]

theorem limb_lt (a : CMpi) (i : ℕ) : a.limb i < radix := by
  unfold limb
  split
  · exact a.digit_lt i
  · exact radix_pos

theorem limb_inside (a : CMpi) {i : ℕ} (inside : i < a.length) : a.limb i = a.digit i := if_pos inside

theorem limb_outside (a : CMpi) {i : ℕ} (outside : a.length ≤ i) : a.limb i = 0 := if_neg (Nat.not_lt.mpr outside)

theorem abs_eq_value (a : CMpi) {n : ℕ} (enough : a.length ≤ n) : a.abs = Limbs.value radix a.limb n := by
  rw [Limbs.value_of_zeros enough fun i low _ => a.limb_outside low]
  exact Limbs.value_congr fun i inside => (a.limb_inside inside).symm

/-- The same number: the words above the length may differ. -/
structure Same (a b : CMpi) : Prop where
  sign : a.sign = b.sign
  length : a.length = b.length
  words : ∀ i, i < b.length → a.wordAt i = b.wordAt i

theorem Same.limb {a b : CMpi} (same : a.Same b) (i : ℕ) : a.limb i = b.limb i := by
  by_cases inside : i < b.length
  · rw [limb_inside b inside, limb_inside a (same.length ▸ inside), digit, same.words i inside, digit]
  · rw [limb_outside b (Nat.not_lt.mp inside), limb_outside a (same.length ▸ Nat.not_lt.mp inside)]

theorem Same.abs {a b : CMpi} (same : a.Same b) : a.abs = b.abs := by
  rw [a.abs_eq_value (Nat.le_of_eq same.length), b.abs_eq_value (Nat.le_refl b.length)]
  exact Limbs.value_congr fun i _ => same.limb i

def Trimmed (a : CMpi) : Prop := ∀ i, a.length = i + 1 → a.digit i ≠ 0

theorem Trimmed.le_abs {a : CMpi} (trimmed : a.Trimmed) {i : ℕ} (length : a.length = i + 1) : radix ^ i ≤ a.abs := by
  rw [abs, length, Limbs.value_succ]
  exact Nat.le_trans (Nat.le_mul_of_pos_left _ (Nat.pos_of_ne_zero (trimmed i length))) (Nat.le_add_left _ _)

theorem Same.trimmed {a b : CMpi} (same : a.Same b) (trimmed : b.Trimmed) : a.Trimmed := by
  intro i length
  have inside : b.length = i + 1 := same.length.symm.trans length
  rw [digit, same.words i (by omega)]
  exact trimmed i inside

theorem trimmed_of_le_abs {a : CMpi} (large : ∀ i, a.length = i + 1 → radix ^ i ≤ a.abs) : a.Trimmed := by
  intro i length zero
  have most := large i length
  rw [abs, length, Limbs.value_succ, zero, Nat.zero_mul, Nat.add_zero] at most
  exact absurd (Limbs.value_lt fun i _ => a.digit_lt i) (Nat.not_lt.mpr most)

theorem Trimmed.length_eq_zero {a : CMpi} (trimmed : a.Trimmed) (zero : a.abs = 0) : a.length = 0 := by
  by_contra some_
  obtain ⟨i, length⟩ := Nat.exists_eq_succ_of_ne_zero some_
  have large := trimmed.le_abs length
  rw [zero] at large
  exact absurd large (Nat.not_le.mpr (Nat.pow_pos radix_pos))

theorem Trimmed.length_le {a : CMpi} (trimmed : a.Trimmed) {n : ℕ} (less : a.abs < radix ^ n) : a.length ≤ n := by
  by_contra longer
  obtain ⟨i, length⟩ := Nat.exists_eq_add_of_lt (Nat.not_le.mp longer)
  have large := trimmed.le_abs length
  have grown := Nat.pow_le_pow_right radix_pos (Nat.le_add_right n i)
  omega

theorem Trimmed.length_eq {a b : CMpi} (a_trimmed : a.Trimmed) (b_trimmed : b.Trimmed) (same : a.abs = b.abs) :
    a.length = b.length :=
  Nat.le_antisymm (a_trimmed.length_le (same ▸ b.abs_lt)) (b_trimmed.length_le (same ▸ a.abs_lt))

/-! Copying. -/

theorem assignD_run (n : CMpi) (x : UInt32) :
    ∃ r, n.assignD x = some r ∧ r.sign = .positive ∧ r.carry = 0 ∧ r.length = (if x = 0 then 0 else 1) ∧
      r.wordAt 0 = x ∧ (∀ i, 0 < i → r.wordAt i = n.wordAt i) ∧ r.abs = x.toNat := by
  have inside : 0 < 8 := by decide
  refine ⟨_, put_eq _ inside x, rfl, rfl, rfl, wordAt_set_self _ inside x, fun i above => ?_, ?_⟩
  · exact wordAt_set_ne _ (Nat.ne_of_gt above) x
  · by_cases zero : x = 0
    · simp only [abs, set_length, zero, if_true, Limbs.value_zero]
      rfl
    · simp only [abs, set_length, if_neg zero, Limbs.value_succ, Limbs.value_zero, digit_set_self _ inside, pow_zero,
        Nat.mul_one, Nat.zero_add]

/-- The words below `j` are stored, from the top, each from words that are not yet stored over. -/
theorem fill_down (word : ℕ → UInt32) {body : ℕ → CMpi → Option CMpi} {j : ℕ} (a : CMpi) (bounded : j ≤ 8)
    (step : ∀ i r, i < j → (∀ k, k ≤ i → r.wordAt k = a.wordAt k) → body i r = r.put i (word i)) :
    ∃ r, Loop.down body j a = some r ∧ r.sign = a.sign ∧ r.length = a.length ∧ r.carry = a.carry ∧
      ∀ i, r.wordAt i = if i < j then word i else a.wordAt i := by
  have looped : ∃ r, Loop.down body j a = some r ∧ r.sign = a.sign ∧ r.length = a.length ∧ r.carry = a.carry ∧
      ∀ i, r.wordAt i = if 0 ≤ i ∧ i < j then word i else a.wordAt i := by
    apply Loop.down_rule fun k (r : CMpi) => r.sign = a.sign ∧ r.length = a.length ∧ r.carry = a.carry ∧
      ∀ i, r.wordAt i = if k ≤ i ∧ i < j then word i else a.wordAt i
    · exact ⟨rfl, rfl, rfl, fun i => (if_neg fun inside => absurd inside.2 (Nat.not_lt.mpr inside.1)).symm⟩
    · intro k r inside ⟨sign, length, carry, words⟩
      have below : k < 8 := Nat.lt_of_lt_of_le inside bounded
      have stored := step k r inside fun i low => by
        rw [words, if_neg fun both => absurd both.1 (Nat.not_le.mpr (Nat.lt_succ_of_le low))]
      refine ⟨r.set k (word k), by rw [stored, put_eq r below], sign, length, carry, fun i => ?_⟩
      by_cases here : i = k
      · subst here
        rw [wordAt_set_self r below]
        exact (if_pos ⟨Nat.le_refl i, inside⟩).symm
      · have shifted : k + 1 ≤ i ↔ k ≤ i := by omega
        simp only [wordAt_set_ne r here, words, shifted]
  obtain ⟨r, run, sign, length, carry, words⟩ := looped
  exact ⟨r, run, sign, length, carry, fun i => by simp only [words, Nat.zero_le, true_and]⟩

theorem fill_up (word : ℕ → UInt32) {body : ℕ → CMpi → Option CMpi} {count : ℕ} (a : CMpi) (bounded : count ≤ 8)
    (step : ∀ i r, i < count → body i r = r.put i (word i)) :
    ∃ r, Loop.up body count a = some r ∧ r.sign = a.sign ∧ r.length = a.length ∧ r.carry = a.carry ∧
      ∀ i, r.wordAt i = if i < count then word i else a.wordAt i := by
  apply Loop.up_rule fun k (r : CMpi) => r.sign = a.sign ∧ r.length = a.length ∧ r.carry = a.carry ∧
    ∀ i, r.wordAt i = if i < k then word i else a.wordAt i
  · exact ⟨rfl, rfl, rfl, fun i => (if_neg (Nat.not_lt_zero i)).symm⟩
  · intro k r inside ⟨sign, length, carry, words⟩
    have below : k < 8 := Nat.lt_of_lt_of_le inside bounded
    refine ⟨r.set k (word k), by rw [step k r inside, put_eq r below], sign, length, carry, fun i => ?_⟩
    by_cases here : i = k
    · subst here
      rw [wordAt_set_self r below]
      exact (if_pos (Nat.lt_succ_self i)).symm
    · have grown : i < k + 1 ↔ i < k := by omega
      simp only [wordAt_set_ne r here, words, grown]

theorem assign_run (a b : CMpi) (bounded : a.length ≤ 8) :
    ∃ r, a.assign b = some r ∧ r.Same a ∧ r.carry = 0 ∧ ∀ i, a.length ≤ i → r.wordAt i = b.wordAt i := by
  obtain ⟨r, run, sign, length, carry, words⟩ : ∃ r, a.assign b = some r ∧ r.sign = a.sign ∧ r.length = a.length ∧
      r.carry = 0 ∧ ∀ i, r.wordAt i = if i < a.length then a.wordAt i else b.wordAt i := by
    apply fill_down a.wordAt { b with sign := a.sign, length := a.length, carry := 0 } bounded
    intro i r inside _
    simp only [get_eq a (Nat.lt_of_lt_of_le inside bounded), Option.bind_eq_bind, Option.bind_some]
  exact ⟨r, run, ⟨sign, length, fun i inside => (words i).trans (if_pos inside)⟩, carry,
    fun i outside => (words i).trans (if_neg (Nat.not_lt.mpr outside))⟩

theorem negate_run (a b : CMpi) (bounded : a.length ≤ 8) :
    ∃ r, a.negate b = some r ∧ r.sign = a.sign.opposite ∧ r.length = a.length ∧ r.carry = 0 ∧
      (∀ i, i < a.length → r.wordAt i = a.wordAt i) ∧ ∀ i, a.length ≤ i → r.wordAt i = b.wordAt i := by
  obtain ⟨r, run, same, carry, above⟩ := assign_run a b bounded
  refine ⟨{ r with sign := a.sign.opposite }, ?_, rfl, same.length, carry, same.words, above⟩
  rw [negate, run]
  cases a.sign with
  | positive => rfl
  | negtive => rfl

/-! Comparing. -/

theorem lt_iff_digit_lt {a b : CMpi} {i j : ℕ} : a.wordAt i < b.wordAt j ↔ a.digit i < b.digit j :=
  UInt32.lt_iff_toNat_lt

theorem wordAt_eq_zero {a : CMpi} {i : ℕ} : a.wordAt i = 0 ↔ a.digit i = 0 := by
  rw [digit, ← UInt32.toNat_inj]
  rfl

theorem wordAt_eq {a b : CMpi} {i : ℕ} : a.wordAt i = b.wordAt i ↔ a.digit i = b.digit i := UInt32.toNat_inj.symm

private theorem abs_lt_of_limb {a b : CMpi} {i : ℕ} (inside : i < max a.length b.length)
    (above : ∀ j, i < j → j < max a.length b.length → a.limb j = b.limb j) (less : a.limb i < b.limb i) :
    a.abs < b.abs := by
  rw [a.abs_eq_value (Nat.le_max_left _ b.length), b.abs_eq_value (Nat.le_max_right a.length _)]
  exact Limbs.value_lt_value inside (fun i _ => a.limb_lt i) above less

private theorem abs_eq_of_limb {a b : CMpi} (all : ∀ i, i < max a.length b.length → a.limb i = b.limb i) :
    a.abs = b.abs := by
  rw [a.abs_eq_value (Nat.le_max_left _ b.length), b.abs_eq_value (Nat.le_max_right a.length _)]
  exact Limbs.value_congr all

private theorem largerThanAbs_body (a b : CMpi) {i : ℕ} (inside : i < max a.length b.length) (below : i < 8) :
    (if i < a.length ∧ i < b.length then do
      let x ← a.get i
      let y ← b.get i
      if y < x then some (some true) else if x < y then some (some false) else some none
    else if a.length ≤ i then do
      if (← b.get i) ≠ 0 then some (some false) else some none
    else do
      if (← a.get i) ≠ 0 then some (some true) else some none) =
    some (if b.limb i < a.limb i then some true else if a.limb i < b.limb i then some false else none) := by
  simp only [get_eq a below, get_eq b below, Option.bind_eq_bind, Option.bind_some]
  by_cases left : i < a.length
  · by_cases right : i < b.length
    · simp only [left, right, and_self, if_true, limb_inside, lt_iff_digit_lt]
      split_ifs <;> rfl
    · have outside := Nat.not_lt.mp right
      have not_left : ¬ a.length ≤ i := Nat.not_le.mpr left
      simp only [left, right, and_false, if_false, not_left, limb_inside, limb_outside b outside, ne_eq, wordAt_eq_zero,
        Nat.not_lt_zero, Nat.pos_iff_ne_zero]
      split_ifs <;> rfl
  · have outside := Nat.not_lt.mp left
    have right : i < b.length := (lt_max_iff.mp inside).resolve_left left
    simp only [left, false_and, if_false, outside, if_true, limb_inside b right, limb_outside a outside, ne_eq,
      wordAt_eq_zero, Nat.not_lt_zero, Nat.pos_iff_ne_zero]
    split_ifs <;> rfl

private theorem bounded_of_max {a b : CMpi} (a_bounded : a.length ≤ 8) (b_bounded : b.length ≤ 8) {i : ℕ}
    (inside : i < max a.length b.length) : i < 8 :=
  Nat.lt_of_lt_of_le inside (Nat.max_le.mpr ⟨a_bounded, b_bounded⟩)

theorem largerThanAbs_run (a b : CMpi) (a_bounded : a.length ≤ 8) (b_bounded : b.length ≤ 8) :
    a.largerThanAbs b = some (decide (b.abs < a.abs)) := by
  have body {i : ℕ} (inside : i < max a.length b.length) :=
    largerThanAbs_body a b inside (bounded_of_max a_bounded b_bounded inside)
  have scanned : ∃ larger, a.largerThanAbs b = some larger ∧ (larger = true ↔ b.abs < a.abs) := by
    apply Loop.scan_rule fun larger => larger = true ↔ b.abs < a.abs
    · intro i inside undefined
      rw [body inside] at undefined
      cases undefined
    · intro i larger inside above returned
      have agree (j : ℕ) (low : i < j) (high : j < max a.length b.length) : a.limb j = b.limb j := by
        have passed := above j low high
        rw [body high, Option.some.injEq] at passed
        split_ifs at passed with more less
        omega
      rw [body inside, Option.some.injEq] at returned
      split_ifs at returned with more less
      · rw [← Option.some.inj returned]
        have order := abs_lt_of_limb (max_comm a.length b.length ▸ inside)
          (fun j low high => (agree j low (max_comm a.length b.length ▸ high)).symm) more
        exact iff_of_true rfl order
      · rw [← Option.some.inj returned]
        exact iff_of_false Bool.false_ne_true (Nat.not_lt.mpr (abs_lt_of_limb inside agree less).le)
    · intro passed
      have agree (j : ℕ) (high : j < max a.length b.length) : a.limb j = b.limb j := by
        have same := passed j high
        rw [body high, Option.some.injEq] at same
        split_ifs at same with more less
        omega
      rw [abs_eq_of_limb agree]
      exact iff_of_false Bool.false_ne_true (Nat.lt_irrefl _)
  obtain ⟨larger, run, spec⟩ := scanned
  rw [run, Option.some.injEq, Bool.eq_iff_iff, decide_eq_true_iff]
  exact spec

private theorem equalsTo_body (a b : CMpi) {i : ℕ} (inside : i < max a.length b.length) (below : i < 8) :
    (if i < a.length ∧ i < b.length then do
      if (← a.get i) ≠ (← b.get i) then some (some false) else some none
    else if a.length ≤ i then do
      if (← b.get i) ≠ 0 then some (some false) else some none
    else do
      if (← a.get i) ≠ 0 then some (some false) else some none) =
    some (if a.limb i = b.limb i then none else some false) := by
  simp only [get_eq a below, get_eq b below, Option.bind_eq_bind, Option.bind_some]
  by_cases left : i < a.length
  · by_cases right : i < b.length
    · simp only [left, right, and_self, if_true, limb_inside, ne_eq, wordAt_eq]
      split_ifs <;> rfl
    · have outside := Nat.not_lt.mp right
      have not_left : ¬ a.length ≤ i := Nat.not_le.mpr left
      simp only [left, right, and_false, if_false, not_left, limb_inside, limb_outside b outside, ne_eq, wordAt_eq_zero]
      split_ifs <;> rfl
  · have outside := Nat.not_lt.mp left
    have right : i < b.length := (lt_max_iff.mp inside).resolve_left left
    simp only [left, false_and, if_false, outside, if_true, limb_inside b right, limb_outside a outside, ne_eq,
      wordAt_eq_zero, eq_comm (a := 0)]
    split_ifs <;> rfl

theorem equalsTo_run (a b : CMpi) (a_bounded : a.length ≤ 8) (b_bounded : b.length ≤ 8) :
    a.equalsTo b = some (decide (a.abs = b.abs)) := by
  have body {i : ℕ} (inside : i < max a.length b.length) :=
    equalsTo_body a b inside (bounded_of_max a_bounded b_bounded inside)
  have scanned : ∃ equal, a.equalsTo b = some equal ∧ (equal = true ↔ a.abs = b.abs) := by
    apply Loop.scan_rule fun equal => equal = true ↔ a.abs = b.abs
    · intro i inside undefined
      rw [body inside] at undefined
      cases undefined
    · intro i equal inside _ returned
      rw [body inside, Option.some.injEq] at returned
      split_ifs at returned with same
      rw [← Option.some.inj returned]
      refine iff_of_false Bool.false_ne_true fun equal => same ?_
      rw [a.abs_eq_value (Nat.le_max_left _ b.length), b.abs_eq_value (Nat.le_max_right a.length _)] at equal
      exact Limbs.digits_eq (fun i _ => a.limb_lt i) (fun i _ => b.limb_lt i) equal i inside
    · intro passed
      apply iff_of_true rfl
      apply abs_eq_of_limb
      intro j high
      have same := passed j high
      rw [body high, Option.some.injEq] at same
      split_ifs at same with agree
      exact agree
  obtain ⟨equal, run, spec⟩ := scanned
  rw [run, Option.some.injEq, Bool.eq_iff_iff, decide_eq_true_iff]
  exact spec

theorem abs_eq_zero {a : CMpi} : a.abs = 0 ↔ ∀ i, i < a.length → a.digit i = 0 := by
  constructor
  · intro zero
    apply Limbs.digits_eq (g := fun _ => 0) (fun i _ => a.digit_lt i) fun i _ => radix_pos
    exact zero.trans (Limbs.value_eq_zero fun i _ => rfl).symm
  · exact Limbs.value_eq_zero

private theorem abs_eq_toNat {a : CMpi} {n : UInt32} (some_ : 0 < a.length) :
    a.abs = n.toNat ↔ a.wordAt 0 = n ∧ ∀ i, 1 ≤ i → i < a.length → a.digit i = 0 := by
  have single : Limbs.value radix (fun i => if i = 0 then n.toNat else 0) a.length = n.toNat := by
    rw [Limbs.value_of_zeros (m := 1) some_ fun i low _ => if_neg (Nat.ne_of_gt low), Limbs.value_succ, Limbs.value_zero]
    simp only [if_true, pow_zero, Nat.mul_one, Nat.zero_add]
  constructor
  · intro equal
    have digits := Limbs.digits_eq (fun i _ => a.digit_lt i) (g := fun i => if i = 0 then n.toNat else 0)
      (fun i _ => by split; exacts [n.toNat_lt, radix_pos]) (equal.trans single.symm)
    refine ⟨UInt32.toNat_inj.mp ((digits 0 some_).trans (if_pos rfl)), fun i low inside => ?_⟩
    exact (digits i inside).trans (if_neg (Nat.ne_of_gt low))
  · rintro ⟨low, high⟩
    rw [← single]
    apply Limbs.value_congr
    intro i inside
    by_cases first : i = 0
    · rw [if_pos first, first, digit, low]
    · rw [if_neg first]
      exact high i (Nat.pos_of_ne_zero first) inside

/-- The comparison with one word is exact, if the first word of a number without words does not mislead it. -/
theorem equalsToD_run (a : CMpi) (n : UInt32) (bounded : a.length ≤ 8) (blank : a.length = 0 → n = 0 ∨ a.wordAt 0 ≠ n) :
    a.equalsToD n = some (decide (a.abs = n.toNat)) := by
  have nothing : (0 : UInt32).toNat = 0 := rfl
  have low := get_eq a (show 0 < 8 by decide)
  simp only [equalsToD, low, Option.bind_eq_bind, Option.bind_some]
  by_cases empty : a.length = 0
  · have zero : a.abs = 0 := by
      rw [abs, empty]
      rfl
    rw [zero, if_neg fun single => by omega]
    by_cases same : n = 0
    · rw [if_pos ⟨empty, same⟩, same, decide_eq_true nothing.symm]
    · have other : (0 : ℕ) ≠ n.toNat := fun equal => same (UInt32.toNat_inj.mp (nothing.trans equal).symm)
      have high : Loop.find a.nonzeroWord 1 (a.length - 1) = some false := by rw [empty]; rfl
      have word : n ≠ a.wordAt 0 := ((blank empty).resolve_left same).symm
      rw [if_neg fun both => same both.2, high, Option.bind_some, if_neg Bool.false_ne_true, decide_eq_false word,
        decide_eq_false other]
  · have some_ := Nat.pos_of_ne_zero empty
    have words := abs_eq_toNat (n := n) some_
    by_cases single : a.length = 1 ∧ n = a.wordAt 0
    · rw [if_pos single, decide_eq_true (words.mpr ⟨single.2.symm, fun i low inside => by omega⟩)]
    · rw [if_neg single, if_neg fun both => empty both.1]
      obtain ⟨high, found, spec⟩ : ∃ high, Loop.find a.nonzeroWord 1 (a.length - 1) = some high ∧
          (high = true ↔ ∃ i, 1 ≤ i ∧ i < 1 + (a.length - 1) ∧ a.digit i ≠ 0) := by
        apply Loop.find_rule
        intro i _ inside
        simp only [nonzeroWord, get_eq a (show i < 8 by omega), Option.bind_eq_bind, Option.bind_some, ne_eq,
          wordAt_eq_zero]
      rw [found, Option.bind_some]
      cases high with
      | true =>
        obtain ⟨i, above, inside, nonzero⟩ := spec.mp rfl
        have other : a.abs ≠ n.toNat := fun equal => nonzero ((words.mp equal).2 i above (by omega))
        rw [if_pos rfl, decide_eq_false other]
      | false =>
        have zeros (i : ℕ) (above : 1 ≤ i) (inside : i < a.length) : a.digit i = 0 := by
          by_contra nonzero
          exact Bool.false_ne_true (spec.mpr ⟨i, above, by omega, nonzero⟩)
        rw [if_neg Bool.false_ne_true, Option.some.injEq]
        apply decide_eq_decide.mpr
        rw [words, and_iff_left zeros, eq_comm]

theorem equalsToD_zero (a : CMpi) (bounded : a.length ≤ 8) : a.equalsToD 0 = some (decide (a.abs = 0)) :=
  a.equalsToD_run 0 bounded fun _ => .inl rfl

theorem comparesTo_run (a b : CMpi) (a_bounded : a.length ≤ 8) (b_bounded : b.length ≤ 8)
    (a_positive : a.sign = .positive) (b_positive : b.sign = .positive) :
    a.comparesTo b = some (if a.abs = b.abs then 0 else if b.abs < a.abs then 1 else -1) := by
  simp only [comparesTo, largerThan, equalsTo_run a b a_bounded b_bounded, a_positive, b_positive,
    largerThanAbs_run a b a_bounded b_bounded, Option.bind_eq_bind, Option.bind_some, decide_eq_true_eq]
  split_ifs <;> rfl

end CMpi

namespace CMpl

def abs (a : CMpl) : ℕ := a.l.abs + a.h.abs * radix ^ 8

end CMpl
end MyTools.Mpi
