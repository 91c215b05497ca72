import MyTools.Mpi.Number

/-! Shifts by whole words and by bits. -/
namespace MyTools.Mpi
open Library CMpi

namespace CMpl

/-- `CMpl_WordShiftLeft` for a count that is not negative; what leaves the sixteen words is lost. -/
def wordShiftLeft (a : CMpl) (n : ℕ) : Option CMpl := do
  let k := a.h.length + a.l.length
  if k = 0 then some a
  else if k = 1 ∧ (← a.l.get 0) = 0 then some a
  else do
    let k := min (k + n) 16
    let h ← Loop.down (fun i (h : CMpi) => do
      if n ≤ i then h.put i (← h.get (i - n))
      else if n ≤ i + 8 then h.put i (← a.l.get (8 + i - n))
      else h.put i 0) (k - 8) a.h
    let j := min k 8
    let l ← Loop.down (fun i (l : CMpi) => do
      if n ≤ i then l.put i (← l.get (i - n)) else l.put i 0) j a.l
    some ⟨{ h with length := k - 8 }, { l with length := j }⟩

end CMpl

namespace CMpi

def truncate (a : CMpl) (b : CMpi) : Option CMpi := do
  let b ← a.l.assign b
  some { b with carry := 0 }

/-- `CMpi_WordShiftLeft` for a count that is not negative. -/
def wordShiftLeft (a : CMpi) (n : ℕ) (junk : CMpl) : Option CMpi := do
  let h ← junk.h.assignD 0
  let l ← a.assign junk.l
  truncate (← CMpl.wordShiftLeft ⟨h, l⟩ n) a

/-- `CMpi_BitShiftLeft`; it reads the word before the first one when the length is zero. -/
def bitShiftLeft (a : CMpi) (iShiftBits : ℕ) (junk : CMpl) : Option CMpi := do
  let a ← (if iShiftBits / 32 ≠ 0 then a.wordShiftLeft (iShiftBits / 32) junk else some a)
  let j := iShiftBits % 32
  if j = 0 then some a
  else if a.length = 0 then none
  else do
    let out := (← a.get (a.length - 1)) >>> .ofNat (32 - j)
    let k := a.length
    let a ← (if k < 8 then (a.put k out).map fun a => { a with length := if out ≠ 0 then k + 1 else k }
      else some { a with carry := out })
    let a ← Loop.down (fun i a => do
      a.put (i + 1) ((← a.get (i + 1)) <<< .ofNat j + (← a.get i) >>> .ofNat (32 - j))) (k - 1) a
    a.put 0 ((← a.get 0) <<< .ofNat j)

end CMpi

namespace CMpl

def limb (a : CMpl) (i : ℕ) : ℕ := if i < 8 then a.l.limb i else a.h.limb (i - 8)

theorem abs_eq_value (a : CMpl) (l_bounded : a.l.length ≤ 8) (h_bounded : a.h.length ≤ 8) :
    a.abs = Limbs.value radix a.limb 16 := by
  have low : Limbs.value radix a.limb 8 = a.l.abs := by
    rw [a.l.abs_eq_value l_bounded]
    exact Limbs.value_congr fun i inside => if_pos inside
  have high : Limbs.value radix (fun i => a.limb (8 + i)) 8 = a.h.abs := by
    rw [a.h.abs_eq_value h_bounded]
    apply Limbs.value_congr
    intro i _
    rw [limb, if_neg (by omega), Nat.add_sub_cancel_left]
  rw [show 16 = 8 + 8 from rfl, Limbs.value_add, low, high, abs, Nat.mul_comm (radix ^ 8)]

end CMpl

/-! The word shift. -/

/-- The words of both halves are at hand up to their lengths, and the low half is full below a high half. -/
structure CMpl.Packed (a : CMpl) : Prop where
  l_bounded : a.l.length ≤ 8
  h_bounded : a.h.length ≤ 8
  full : a.l.length = 8 ∨ a.h.length = 0

/-- Without leading zero words, unless the low half has all its eight words. -/
structure CMpl.Loose (a : CMpl) : Prop extends Packed a where
  h_trimmed : a.h.Trimmed
  loose : a.l.length = 8 ∨ a.l.Trimmed

private theorem l_shifted {l : CMpi} {n j : ℕ} (bounded : j ≤ 8) :
    ∃ r, Loop.down (fun i (l : CMpi) => do
        if n ≤ i then l.put i (← l.get (i - n)) else l.put i 0) j l = some r ∧
      r.sign = l.sign ∧ r.length = l.length ∧ r.carry = l.carry ∧
      ∀ i, r.wordAt i = if i < j then if n ≤ i then l.wordAt (i - n) else 0 else l.wordAt i := by
  apply fill_down (fun i => if n ≤ i then l.wordAt (i - n) else 0) l bounded
  intro i r inside same
  simp only [get_eq r (show i - n < 8 by omega), Option.bind_eq_bind, Option.bind_some, same (i - n) (Nat.sub_le i n)]
  split_ifs <;> rfl

private theorem h_shifted {h l : CMpi} {n j : ℕ} (bounded : j ≤ 8) :
    ∃ r, Loop.down (fun i (h : CMpi) => do
        if n ≤ i then h.put i (← h.get (i - n))
        else if n ≤ i + 8 then h.put i (← l.get (8 + i - n))
        else h.put i 0) j h = some r ∧
      r.sign = h.sign ∧ r.length = h.length ∧ r.carry = h.carry ∧
      ∀ i, r.wordAt i = if i < j then
        if n ≤ i then h.wordAt (i - n) else if n ≤ i + 8 then l.wordAt (8 + i - n) else 0 else h.wordAt i := by
  apply fill_down (fun i => if n ≤ i then h.wordAt (i - n) else if n ≤ i + 8 then l.wordAt (8 + i - n) else 0) h bounded
  intro i r inside same
  by_cases inner : n ≤ i
  · simp only [if_pos inner, get_eq r (show i - n < 8 by omega), Option.bind_eq_bind, Option.bind_some,
      same (i - n) (Nat.sub_le i n)]
  · by_cases outer : n ≤ i + 8
    · simp only [if_neg inner, if_pos outer, get_eq l (show 8 + i - n < 8 by omega), Option.bind_eq_bind, Option.bind_some]
    · simp only [if_neg inner, if_neg outer]

namespace CMpl

theorem limb_outside {a : CMpl} (packed : a.Packed) {i : ℕ} (outside : a.h.length + a.l.length ≤ i) : a.limb i = 0 := by
  have l_bounded := packed.l_bounded
  unfold limb
  split
  · exact a.l.limb_outside (by omega)
  · apply a.h.limb_outside
    rcases packed.full with full | empty
    · omega
    · omega

/-- The result of a word shift, apart from the two numbers that are left as they are. -/
structure Shifted (a : CMpl) (n : ℕ) (r : CMpl) : Prop extends Packed r where
  l_sign : r.l.sign = a.l.sign
  h_sign : r.h.sign = a.h.sign
  limbs : ∀ i, i < 16 → r.limb i = if n ≤ i then a.limb (i - n) else 0

private theorem shifted_limbs {a : CMpl} (packed : a.Packed) {n k : ℕ} (size : min (a.h.length + a.l.length + n) 16 = k)
    {h l : CMpi} (l_words : ∀ i, l.wordAt i = if i < min k 8 then if n ≤ i then a.l.wordAt (i - n) else 0 else a.l.wordAt i)
    (h_words : ∀ i, h.wordAt i = if i < k - 8 then
      if n ≤ i then a.h.wordAt (i - n) else if n ≤ i + 8 then a.l.wordAt (8 + i - n) else 0 else a.h.wordAt i)
    {i : ℕ} (inside : i < 16) :
    (CMpl.mk { h with length := k - 8 } { l with length := min k 8 }).limb i = if n ≤ i then a.limb (i - n) else 0 := by
  have bounded := packed.l_bounded
  have digit (x : CMpi) (m j : ℕ) : ({ x with length := m } : CMpi).digit j = (x.wordAt j).toNat := rfl
  have stored (j : ℕ) (low : j < a.l.length) : a.l.limb j = (a.l.wordAt j).toNat := a.l.limb_inside low
  have stored_high (j : ℕ) (low : j < a.h.length) : a.h.limb j = (a.h.wordAt j).toNat := a.h.limb_inside low
  have nothing : (0 : UInt32).toNat = 0 := rfl
  by_cases above : n ≤ i
  · rw [if_pos above]
    by_cases left : a.h.length + a.l.length ≤ i - n
    · rw [limb_outside packed left, limb]
      split
      · exact CMpi.limb_outside _ (show min k 8 ≤ i by omega)
      · exact CMpi.limb_outside _ (show k - 8 ≤ i - 8 by omega)
    · rw [limb, limb]
      by_cases low : i < 8
      · have source : i - n < a.l.length := by
          rcases packed.full with full | empty
          · omega
          · omega
        rw [if_pos low, if_pos (show i - n < 8 by omega), CMpi.limb_inside _ (show i < min k 8 by omega), digit, l_words,
          if_pos (show i < min k 8 by omega), if_pos above, stored _ source]
      · rw [if_neg low, CMpi.limb_inside _ (show i - 8 < k - 8 by omega), digit, h_words,
          if_pos (show i - 8 < k - 8 by omega)]
        by_cases high : n ≤ i - 8
        · have source : i - n - 8 < a.h.length := by
            rcases packed.full with full | empty
            · omega
            · omega
          have same : i - 8 - n = i - n - 8 := by omega
          rw [if_pos high, if_neg (show ¬ i - n < 8 by omega), stored_high _ source, same]
        · have source : i - n < a.l.length := by
            rcases packed.full with full | empty
            · omega
            · omega
          have same : 8 + (i - 8) - n = i - n := by omega
          rw [if_neg high, if_pos (show n ≤ i - 8 + 8 by omega), if_pos (show i - n < 8 by omega), stored _ source, same]
  · rw [if_neg above, limb]
    by_cases low : i < 8
    · rw [if_pos low]
      by_cases written : i < min k 8
      · rw [CMpi.limb_inside _ written, digit, l_words, if_pos written, if_neg above, nothing]
      · exact CMpi.limb_outside _ (Nat.not_lt.mp written)
    · rw [if_neg low]
      by_cases written : i - 8 < k - 8
      · rw [CMpi.limb_inside _ written, digit, h_words, if_pos written, if_neg (show ¬ n ≤ i - 8 by omega),
          if_neg (show ¬ n ≤ i - 8 + 8 by omega), nothing]
      · exact CMpi.limb_outside _ (Nat.not_lt.mp written)

private theorem not_skipped {a : CMpl} (packed : a.Packed) (nonzero : a.abs ≠ 0) :
    a.h.length + a.l.length ≠ 0 ∧ ¬ (a.h.length + a.l.length = 1 ∧ a.l.wordAt 0 = 0) := by
  have zero_of (short : a.h.length = 0) (zeros : ∀ i, i < a.l.length → a.l.digit i = 0) : a.abs = 0 := by
    rw [abs, CMpi.abs_eq_zero.mpr zeros, CMpi.abs_eq_zero.mpr fun i inside => absurd inside (by omega)]
    rfl
  constructor
  · intro empty
    exact nonzero (zero_of (by omega) fun i inside => absurd inside (by omega))
  · rintro ⟨single, zero⟩
    rcases packed.full with full | empty
    · omega
    · refine nonzero (zero_of empty fun i inside => ?_)
      obtain rfl : i = 0 := by omega
      exact wordAt_eq_zero.mp zero

theorem wordShiftLeft_moved (a : CMpl) (n : ℕ) (packed : a.Packed) (some_ : a.h.length + a.l.length ≠ 0)
    (other : ¬ (a.h.length + a.l.length = 1 ∧ a.l.wordAt 0 = 0)) :
    ∃ r, a.wordShiftLeft n = some r ∧ Shifted a n r ∧
      r.l.length = min (min (a.h.length + a.l.length + n) 16) 8 ∧
      r.h.length = min (a.h.length + a.l.length + n) 16 - 8 := by
  generalize size : min (a.h.length + a.l.length + n) 16 = k
  obtain ⟨h, h_run, h_sign, -, -, h_words⟩ := h_shifted (h := a.h) (l := a.l) (n := n) (show k - 8 ≤ 8 by omega)
  obtain ⟨l, l_run, l_sign, -, -, l_words⟩ := l_shifted (l := a.l) (n := n) (show min k 8 ≤ 8 by omega)
  refine ⟨⟨{ h with length := k - 8 }, { l with length := min k 8 }⟩, ?_, ⟨⟨?_, ?_, ?_⟩, l_sign, h_sign, ?_⟩, rfl, rfl⟩
  · simp only [wordShiftLeft, if_neg some_, get_eq a.l (show 0 < 8 by decide), Option.bind_eq_bind, Option.bind_some,
      if_neg other, size]
    simp only [Option.bind_eq_bind] at h_run l_run
    rw [h_run, Option.bind_some, l_run, Option.bind_some]
  · exact Nat.min_le_right k 8
  · exact show k - 8 ≤ 8 by omega
  · exact show min k 8 = 8 ∨ k - 8 = 0 by omega
  · exact fun i inside => shifted_limbs packed size l_words h_words inside

theorem wordShiftLeft_run (a : CMpl) (n : ℕ) (packed : a.Packed) (nonzero : a.abs ≠ 0) :
    ∃ r, a.wordShiftLeft n = some r ∧ Shifted a n r ∧
      r.l.length = min (min (a.h.length + a.l.length + n) 16) 8 ∧
      r.h.length = min (a.h.length + a.l.length + n) 16 - 8 := by
  obtain ⟨some_, other⟩ := not_skipped packed nonzero
  exact a.wordShiftLeft_moved n packed some_ other

theorem wordShiftLeft_empty (a : CMpl) (n : ℕ) (empty : a.h.length + a.l.length = 0) : a.wordShiftLeft n = some a :=
  if_pos empty

theorem wordShiftLeft_length (a : CMpl) (n : ℕ) (packed : a.Packed) :
    ∃ r, a.wordShiftLeft n = some r ∧ r.l.length ≤ 8 ∧ (r.l.length = 0 ↔ a.l.length = 0) := by
  by_cases empty : a.h.length + a.l.length = 0
  · exact ⟨a, a.wordShiftLeft_empty n empty, packed.l_bounded, Iff.rfl⟩
  · by_cases single : a.h.length + a.l.length = 1 ∧ a.l.wordAt 0 = 0
    · refine ⟨a, ?_, packed.l_bounded, Iff.rfl⟩
      rw [wordShiftLeft, get_eq a.l (by decide)]
      simp only [if_neg empty, Option.bind_eq_bind, Option.bind_some, if_pos single]
    · obtain ⟨r, run, shifted, length, -⟩ := a.wordShiftLeft_moved n packed empty single
      have full := packed.full
      exact ⟨r, run, shifted.l_bounded, by omega⟩

theorem Shifted.abs {a r : CMpl} {n : ℕ} (shifted : Shifted a n r) (packed : a.Packed)
    (room : a.h.length + a.l.length + n ≤ 16) : r.abs = radix ^ n * a.abs := by
  have split : 16 = n + (16 - n) := by omega
  rw [abs_eq_value r shifted.l_bounded shifted.h_bounded,
    Limbs.value_congr (g := fun i => if i < n then 0 else a.limb (i - n)) fun i inside => by
      rw [shifted.limbs i inside]
      split_ifs <;> first | rfl | omega,
    split, Limbs.value_shift, abs_eq_value a packed.l_bounded packed.h_bounded]
  congr 1
  exact (Limbs.value_of_zeros (Nat.sub_le 16 n) fun i low _ => limb_outside packed (by omega)).symm

end CMpl

/-! The bit shift. -/

namespace CMpi

theorem shiftLeft_digit (x : UInt32) {j : ℕ} (small : j < 32) :
    (x <<< UInt32.ofNat j).toNat = x.toNat * 2 ^ j % radix := by
  have size : radix = 4294967296 := rfl
  have count : (UInt32.ofNat j).toNat % 32 = j := by
    rw [toNat_ofNat, size]
    omega
  rw [UInt32.toNat_shiftLeft, count, Nat.shiftLeft_eq]
  rfl

theorem shiftRight_digit (x : UInt32) {j : ℕ} (positive : 0 < j) (small : j < 32) :
    (x >>> UInt32.ofNat (32 - j)).toNat = x.toNat * 2 ^ j / radix := by
  have count : (UInt32.ofNat (32 - j)).toNat % 32 = 32 - j := by
    have words : radix = 4294967296 := rfl
    rw [toNat_ofNat, words]
    omega
  have size : radix = 2 ^ (32 - j) * 2 ^ j := by
    rw [← pow_add, Nat.sub_add_cancel small.le]
    rfl
  rw [UInt32.toNat_shiftRight, count, Nat.shiftRight_eq_div_pow, size, Nat.mul_div_mul_right _ _ (Nat.two_pow_pos j)]

theorem shifted_digit (x y : UInt32) {j : ℕ} (positive : 0 < j) (small : j < 32) :
    (x <<< UInt32.ofNat j + y >>> UInt32.ofNat (32 - j)).toNat = x.toNat * 2 ^ j % radix + y.toNat * 2 ^ j / radix := by
  have size : radix = 2 ^ (32 - j) * 2 ^ j := by
    rw [← pow_add, Nat.sub_add_cancel small.le]
    rfl
  have low : x.toNat * 2 ^ j % radix + 2 ^ j ≤ radix := by
    rw [size, Nat.mul_mod_mul_right]
    have less := Nat.mod_lt x.toNat (Nat.two_pow_pos (32 - j))
    calc _ = (x.toNat % 2 ^ (32 - j) + 1) * 2 ^ j := (Nat.succ_mul _ _).symm
      _ ≤ _ := Nat.mul_le_mul_right _ less
  have high : y.toNat * 2 ^ j / radix < 2 ^ j := by
    apply Nat.div_lt_of_lt_mul
    exact Nat.mul_lt_mul_of_pos_right y.toNat_lt (Nat.two_pow_pos j)
  have fits : x.toNat * 2 ^ j % radix + y.toNat * 2 ^ j / radix < 2 ^ 32 :=
    Nat.lt_of_lt_of_le (Nat.add_lt_add_left high _) low
  rw [UInt32.toNat_add, shiftLeft_digit x small, shiftRight_digit y positive small, Nat.mod_eq_of_lt fits]

/-- The words above the first one are shifted, from the top, each with the bits of the word below it. -/
theorem shiftLoop_run {a : CMpi} {j k : ℕ} (some_ : 0 < k) (bounded : k ≤ 8) :
    ∃ r, Loop.down (fun i (a : CMpi) => do
        a.put (i + 1) ((← a.get (i + 1)) <<< .ofNat j + (← a.get i) >>> .ofNat (32 - j))) (k - 1) a = some r ∧
      r.sign = a.sign ∧ r.length = a.length ∧ r.carry = a.carry ∧ r.wordAt 0 = a.wordAt 0 ∧
      (∀ i, i + 1 < k → r.wordAt (i + 1) = a.wordAt (i + 1) <<< .ofNat j + a.wordAt i >>> .ofNat (32 - j)) ∧
      ∀ i, k ≤ i → r.wordAt i = a.wordAt i := by
  obtain ⟨r, run, sign, length, carry, below, above, rest⟩ : ∃ r, Loop.down (fun i (a : CMpi) => do
        a.put (i + 1) ((← a.get (i + 1)) <<< .ofNat j + (← a.get i) >>> .ofNat (32 - j))) (k - 1) a = some r ∧
      r.sign = a.sign ∧ r.length = a.length ∧ r.carry = a.carry ∧ (∀ i, i ≤ 0 → r.wordAt i = a.wordAt i) ∧
      (∀ i, 0 ≤ i → i + 1 < k → r.wordAt (i + 1) = a.wordAt (i + 1) <<< .ofNat j + a.wordAt i >>> .ofNat (32 - j)) ∧
      ∀ i, k ≤ i → r.wordAt i = a.wordAt i := by
    apply Loop.down_rule fun m (r : CMpi) => r.sign = a.sign ∧ r.length = a.length ∧ r.carry = a.carry ∧
      (∀ i, i ≤ m → r.wordAt i = a.wordAt i) ∧
      (∀ i, m ≤ i → i + 1 < k → r.wordAt (i + 1) = a.wordAt (i + 1) <<< .ofNat j + a.wordAt i >>> .ofNat (32 - j)) ∧
      ∀ i, k ≤ i → r.wordAt i = a.wordAt i
    · exact ⟨rfl, rfl, rfl, fun _ _ => rfl, fun i low high => absurd high (by omega), fun _ _ => rfl⟩
    · intro m r inside ⟨sign, length, carry, below, above, rest⟩
      have first := get_eq r (show m + 1 < 8 by omega)
      have second := get_eq r (show m < 8 by omega)
      rw [below _ (Nat.le_refl _)] at first
      rw [below _ (Nat.le_succ m)] at second
      simp only [first, second, Option.bind_eq_bind, Option.bind_some, put_eq r (show m + 1 < 8 by omega)]
      refine ⟨_, rfl, sign, length, carry, fun i low => ?_, fun i low high => ?_, fun i high => ?_⟩
      · rw [wordAt_set_ne _ (by omega), below i (by omega)]
      · rcases Nat.eq_or_lt_of_le low with rfl | later
        · rw [wordAt_set_self _ (by omega)]
        · rw [wordAt_set_ne _ (by omega), above i later high]
      · rw [wordAt_set_ne _ (by omega), rest i high]
  exact ⟨r, run, sign, length, carry, below 0 (Nat.le_refl 0), fun i high => above i (Nat.zero_le i) high, rest⟩

theorem shift_words {a : CMpi} {j k : ℕ} (some_ : 0 < k) (bounded : k ≤ 8) :
    ∃ r, ((Loop.down (fun i (a : CMpi) => do
        a.put (i + 1) ((← a.get (i + 1)) <<< .ofNat j + (← a.get i) >>> .ofNat (32 - j))) (k - 1) a).bind fun a => do
          a.put 0 ((← a.get 0) <<< .ofNat j)) = some r ∧
      r.sign = a.sign ∧ r.length = a.length ∧ r.carry = a.carry ∧ r.wordAt 0 = a.wordAt 0 <<< .ofNat j ∧
      (∀ i, i + 1 < k → r.wordAt (i + 1) = a.wordAt (i + 1) <<< .ofNat j + a.wordAt i >>> .ofNat (32 - j)) ∧
      ∀ i, k ≤ i → r.wordAt i = a.wordAt i := by
  obtain ⟨r, run, sign, length, carry, first, words, rest⟩ := shiftLoop_run (a := a) (j := j) some_ bounded
  have place : 0 < 8 := by decide
  rw [run, Option.bind_some, get_eq r place, first, Option.bind_eq_bind, Option.bind_some, put_eq r place]
  refine ⟨_, rfl, sign, length, carry, wordAt_set_self r place _, fun i high => ?_, fun i high => ?_⟩
  · rw [wordAt_set_ne _ (Nat.succ_ne_zero i), words i high]
  · rw [wordAt_set_ne _ (by omega), rest i high]

theorem bitShiftLeft_run (a : CMpi) {j i : ℕ} (junk : CMpl) (small : j < 32) (length : a.length = i + 1)
    (bounded : a.length ≤ 8) (room : a.digit i * 2 ^ j < radix) :
    ∃ r, a.bitShiftLeft j junk = some r ∧ r.sign = a.sign ∧ r.length = a.length ∧ r.abs = a.abs * 2 ^ j := by
  have whole : j / 32 = 0 := Nat.div_eq_of_lt small
  have part : j % 32 = j := Nat.mod_eq_of_lt small
  unfold bitShiftLeft
  simp only [whole, ne_eq, not_true_eq_false, if_false, Option.bind_eq_bind, Option.bind_some, part]
  by_cases zero : j = 0
  · rw [if_pos zero, zero, pow_zero, Nat.mul_one]
    exact ⟨a, rfl, rfl, rfl, rfl⟩
  · have positive : 0 < j := Nat.pos_of_ne_zero zero
    have nothing_out : a.wordAt i >>> UInt32.ofNat (32 - j) = 0 := by
      rw [← UInt32.toNat_inj, shiftRight_digit _ positive small]
      exact Nat.div_eq_of_lt room
    have top : a.length - 1 = i := by omega
    rw [if_neg zero, if_neg (by omega), top, get_eq a (by omega), Option.bind_some, nothing_out, length]
    apply Loop.seq_rule fun s : CMpi => s.sign = a.sign ∧ s.length = i + 1 ∧ ∀ m, m < i + 1 → s.wordAt m = a.wordAt m
    · split
      · next below =>
        rw [put_eq a below]
        exact ⟨_, rfl, rfl, rfl, fun m inside => wordAt_set_ne a (Nat.ne_of_lt inside) 0⟩
      · exact ⟨_, rfl, rfl, rfl, fun _ _ => rfl⟩
    · intro s ⟨sign, s_length, words⟩
      obtain ⟨r, run, r_sign, r_length, -, first, rest, -⟩ := shift_words (a := s) (j := j) (Nat.succ_pos i)
        (show i + 1 ≤ 8 by omega)
      refine ⟨r, run, r_sign.trans sign, r_length.trans s_length, ?_⟩
      have digits (m : ℕ) (inside : m < i + 1) :
          r.digit m = a.digit m * 2 ^ j % radix + if m = 0 then 0 else a.digit (m - 1) * 2 ^ j / radix := by
        cases m with
        | zero => rw [digit, first, words 0 inside, shiftLeft_digit _ small, if_pos rfl, Nat.add_zero, digit]
        | succ m =>
          rw [digit, rest m inside, words _ inside, words m (Nat.lt_of_succ_lt inside), shifted_digit _ _ positive small,
            if_neg (Nat.succ_ne_zero m), Nat.add_sub_cancel, digit, digit]
      have scaled := Limbs.value_scale radix a.digit (2 ^ j) i
      rw [Nat.div_eq_of_lt room, Nat.zero_mul, Nat.add_zero] at scaled
      rw [CMpi.abs, CMpi.abs, r_length.trans s_length, length, Limbs.value_congr digits, scaled]

end CMpi
end MyTools.Mpi
