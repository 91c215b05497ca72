import MyTools.Mpi.Exact
import MyTools.Mpi.ShiftRight

/-! Left shifts by any count that is not negative, and what all the shifts do to the value. -/
namespace MyTools.Mpi
open Library CMpi

namespace CMpi

/-- The words above the first one of a half, and the word above the top one when there is room for it. -/
def bitsLeft (j : ℕ) (a : CMpi) : Option CMpi := do
  let k := a.length
  let a ← (if k < 8 then do
      let out := (← a.get (k - 1)) >>> .ofNat (32 - j)
      (a.put k out).map fun a => { a with length := if out ≠ 0 then k + 1 else k }
    else some a)
  Loop.down (fun i (a : CMpi) => do
    a.put (i + 1) ((← a.get (i + 1)) <<< .ofNat j + (← a.get i) >>> .ofNat (32 - j))) (k - 1) a

end CMpi

namespace CMpl

/-- `CMpl_BitShiftLeft`; without words the low half reads the word in front of its first one. -/
def bitShiftLeft (n : CMpl) (iShiftBits : ℕ) : Option CMpl := do
  let n ← (if iShiftBits / 32 ≠ 0 then n.wordShiftLeft (iShiftBits / 32) else some n)
  let j := iShiftBits % 32
  if j = 0 then some n
  else do
    let h ← (if 0 < n.h.length then do
        let h ← n.h.bitsLeft j
        h.put 0 ((← h.get 0) <<< .ofNat j + (← n.l.get 7) >>> .ofNat (32 - j))
      else if n.l.length = 8 then do
        let out := (← n.l.get 7) >>> .ofNat (32 - j)
        (n.h.put 0 out).map fun h => { h with length := if out ≠ 0 then 1 else 0 }
      else some n.h)
    if n.l.length = 0 then none
    else do
      let l ← n.l.bitsLeft j
      let l ← l.put 0 ((← l.get 0) <<< .ofNat j)
      some ⟨h, l⟩

end CMpl

/-- A digit that is shifted by `j` bits, with the bits that come in from the digit below, or `c` from
below the first one. -/
def raised (j c : ℕ) (f : ℕ → ℕ) (i : ℕ) : ℕ := f i * 2 ^ j % radix + if i = 0 then c else f (i - 1) * 2 ^ j / radix

theorem value_raised (j : ℕ) (f : ℕ → ℕ) {n : ℕ} (fits : Limbs.value radix (raised j 0 f) (n + 1) < radix ^ (n + 1)) :
    Limbs.value radix (raised j 0 f) (n + 1) = Limbs.value radix f (n + 1) * 2 ^ j % radix ^ (n + 1) := by
  have scaled := Limbs.value_scale radix f (2 ^ j) n
  rw [← scaled, Nat.add_mul_mod_self_right]
  exact (Nat.mod_eq_of_lt fits).symm

namespace CMpi

/-- Where the words of a half are shifted and `w` comes in from below, up to the word above the top one. -/
private theorem raised_of_words {a r : CMpi} {j k c : ℕ} (positive : 0 < j) (small : j < 32) (length : a.length = k + 1)
    (bounded : a.length ≤ 8)
    (r_length : r.length = if k + 1 < 8 ∧ a.wordAt k >>> .ofNat (32 - j) ≠ 0 then k + 2 else k + 1)
    (first : r.digit 0 = a.digit 0 * 2 ^ j % radix + c)
    (words : ∀ i, i < k → r.wordAt (i + 1) = a.wordAt (i + 1) <<< .ofNat j + a.wordAt i >>> .ofNat (32 - j))
    (top : k + 1 < 8 → r.wordAt (k + 1) = a.wordAt k >>> .ofNat (32 - j)) {i : ℕ} (inside : i < 8) :
    r.limb i = raised j c a.limb i := by
  have longer : k + 1 ≤ r.length := by split_ifs at r_length <;> omega
  cases i with
  | zero =>
    rw [raised, if_pos rfl, r.limb_inside (by omega), a.limb_inside (by omega)]
    exact first
  | succ i =>
    rw [raised, if_neg (Nat.succ_ne_zero i), Nat.add_sub_cancel]
    rcases Nat.lt_trichotomy i k with below | rfl | above
    · rw [r.limb_inside (by omega), a.limb_inside (show i + 1 < a.length by omega),
        a.limb_inside (show i < a.length by omega), digit, words i below, shifted_digit _ _ positive small]
      rfl
    · have out : (a.wordAt i >>> UInt32.ofNat (32 - j)).toNat = a.digit i * 2 ^ j / radix :=
        shiftRight_digit _ positive small
      rw [a.limb_outside (show a.length ≤ i + 1 by omega), a.limb_inside (show i < a.length by omega), Nat.zero_mul,
        Nat.zero_mod, Nat.zero_add, ← out]
      by_cases zero : a.wordAt i >>> UInt32.ofNat (32 - j) = 0
      · rw [if_neg fun both => both.2 zero] at r_length
        rw [r.limb_outside (by omega), zero]
        rfl
      · rw [if_pos ⟨inside, zero⟩] at r_length
        rw [r.limb_inside (by omega), digit, top inside]
    · have most : r.length ≤ k + 2 := by split_ifs at r_length <;> omega
      rw [r.limb_outside (by omega), a.limb_outside (show a.length ≤ i + 1 by omega),
        a.limb_outside (show a.length ≤ i by omega), Nat.zero_mul, Nat.zero_mod, Nat.zero_div]

/-- The result of a left shift of a half by bits. -/
structure Raised (a : CMpi) (j c : ℕ) (r : CMpi) : Prop where
  sign : r.sign = a.sign
  longer : a.length ≤ r.length
  bounded : r.length ≤ 8
  limbs : ∀ i, i < 8 → r.limb i = raised j c a.limb i

/-- The half with what is shifted out of it in the word above the top one, if there is room for it. -/
private structure Topped (a : CMpi) (j k : ℕ) (s : CMpi) : Prop where
  sign : s.sign = a.sign
  length : s.length = if k + 1 < 8 ∧ a.wordAt k >>> .ofNat (32 - j) ≠ 0 then k + 2 else k + 1
  below : ∀ i, i ≤ k → s.wordAt i = a.wordAt i
  top : k + 1 < 8 → s.wordAt (k + 1) = a.wordAt k >>> .ofNat (32 - j)

private theorem Topped.stored {a : CMpi} {j k : ℕ} (length : a.length = k + 1) (room : a.length < 8) :
    Topped a j k { a.set a.length (a.wordAt k >>> .ofNat (32 - j)) with
      length := if a.wordAt k >>> .ofNat (32 - j) ≠ 0 then a.length + 1 else a.length } := by
  refine ⟨rfl, ?_, fun i low => wordAt_set_ne a (by omega) _, fun _ => ?_⟩
  · dsimp only
    rw [length]
    by_cases out : a.wordAt k >>> UInt32.ofNat (32 - j) = 0
    · rw [if_neg (not_not.mpr out), if_neg fun both => both.2 out]
    · rw [if_pos out, if_pos ⟨length ▸ room, out⟩]
  · rw [← length]
    exact wordAt_set_self a room _

private theorem Topped.full {a s : CMpi} {j k : ℕ} (length : a.length = k + 1) (room : ¬ a.length < 8)
    (sign : s.sign = a.sign) (s_length : s.length = a.length) (words : ∀ i, s.wordAt i = a.wordAt i) : Topped a j k s := by
  refine ⟨sign, ?_, fun i _ => words i, fun more => absurd (length ▸ more) room⟩
  rw [if_neg fun both => room (length ▸ both.1), s_length, length]

private theorem bitsLeft_run (a : CMpi) {j k : ℕ} (length : a.length = k + 1) (bounded : a.length ≤ 8) :
    ∃ r, a.bitsLeft j = some r ∧ r.sign = a.sign ∧
      r.length = (if k + 1 < 8 ∧ a.wordAt k >>> .ofNat (32 - j) ≠ 0 then k + 2 else k + 1) ∧
      r.wordAt 0 = a.wordAt 0 ∧
      (∀ i, i < k → r.wordAt (i + 1) = a.wordAt (i + 1) <<< .ofNat j + a.wordAt i >>> .ofNat (32 - j)) ∧
      (k + 1 < 8 → r.wordAt (k + 1) = a.wordAt k >>> .ofNat (32 - j)) := by
  unfold bitsLeft
  apply Loop.seq_rule (Topped a j k)
  · by_cases room : a.length < 8
    · have last : a.length - 1 = k := by omega
      rw [if_pos room, last, get_eq a (show k < 8 by omega), Option.bind_eq_bind, Option.bind_some]
      dsimp only
      rw [put_eq a room, Option.map_some]
      exact ⟨_, rfl, .stored length room⟩
    · rw [if_neg room]
      exact ⟨a, rfl, .full length room rfl rfl fun _ => rfl⟩
  · rintro s ⟨sign, s_length, below, top⟩
    obtain ⟨r, run, r_sign, r_length, -, first, words, rest⟩ := shiftLoop_run (a := s) (j := j) (Nat.succ_pos k)
      (show k + 1 ≤ 8 by omega)
    rw [length]
    refine ⟨r, run, r_sign.trans sign, r_length.trans s_length, first.trans (below 0 (Nat.zero_le k)), fun i inside => ?_,
      fun more => ?_⟩
    · rw [words i (by omega), below (i + 1) inside, below i (Nat.le_of_lt inside)]
    · rw [rest (k + 1) (Nat.le_refl _), top more]

theorem bitsLeft_raised (a : CMpi) {j c : ℕ} (positive : 0 < j) (small : j < 32) (some_ : 0 < a.length)
    (bounded : a.length ≤ 8) (finish : CMpi → Option CMpi)
    (stores : ∀ s : CMpi, s.wordAt 0 = a.wordAt 0 → ∃ w, finish s = some (s.set 0 w) ∧
      w.toNat = a.digit 0 * 2 ^ j % radix + c) :
    ∃ r, (a.bitsLeft j).bind finish = some r ∧ Raised a j c r := by
  obtain ⟨k, length⟩ := Nat.exists_eq_succ_of_ne_zero (Nat.ne_of_gt some_)
  rw [Nat.succ_eq_add_one] at length
  obtain ⟨s, run, sign, s_length, first, words, top⟩ := a.bitsLeft_run (j := j) length bounded
  obtain ⟨w, stored, value⟩ := stores s first
  have place : 0 < 8 := by decide
  refine ⟨s.set 0 w, by rw [run, Option.bind_some, stored], sign, ?_, ?_, fun i inside => ?_⟩
  · rw [set_length]
    split_ifs at s_length <;> omega
  · rw [set_length]
    split_ifs at s_length with more
    · omega
    · omega
  · refine raised_of_words (r := s.set 0 w) positive small length bounded s_length ?_ ?_ ?_ inside
    · rw [digit_set_self s place, value]
    · intro i low
      rw [wordAt_set_ne s (Nat.succ_ne_zero i), words i low]
    · intro more
      rw [wordAt_set_ne s (Nat.succ_ne_zero k), top more]

/-- The words `n` places up, as far as there are places. -/
structure Lifted (a : CMpi) (n : ℕ) (r : CMpi) : Prop where
  sign : r.sign = a.sign
  bounded : r.length ≤ 8
  some_ : 0 < a.length → 0 < r.length
  limbs : ∀ i, i < 8 → r.limb i = if n ≤ i then a.limb (i - n) else 0

theorem wordShiftLeft_run (a : CMpi) (n : ℕ) (junk : CMpl) (bounded : a.length ≤ 8) (trimmed : a.Trimmed) :
    ∃ r, a.wordShiftLeft n junk = some r ∧ Lifted a n r := by
  obtain ⟨h, h_run, -, -, h_length, -, -, h_abs⟩ := assignD_run junk.h 0
  obtain ⟨l, l_run, same, -⟩ := assign_run a junk.l bounded
  rw [if_pos rfl] at h_length
  have l_length := same.length
  have packed : (CMpl.mk h l).Packed := ⟨l_length ▸ bounded, h_length ▸ Nat.zero_le 8, .inr h_length⟩
  have empty_h (i : ℕ) : h.limb i = 0 := h.limb_outside (h_length ▸ Nat.zero_le i)
  obtain ⟨t, t_run, t_sign, t_bounded, t_some, t_limbs⟩ : ∃ t, CMpl.wordShiftLeft ⟨h, l⟩ n = some t ∧
      t.l.sign = l.sign ∧ t.l.length ≤ 8 ∧ (0 < l.length → 0 < t.l.length) ∧
      ∀ i, i < 8 → t.l.limb i = if n ≤ i then l.limb (i - n) else 0 := by
    by_cases zero : l.length = 0
    · refine ⟨_, CMpl.wordShiftLeft_empty ⟨h, l⟩ n (show h.length + l.length = 0 by omega), rfl, packed.l_bounded, id,
        fun i _ => ?_⟩
      have nothing (k : ℕ) : l.limb k = 0 := l.limb_outside (zero ▸ Nat.zero_le k)
      rw [nothing, nothing, ite_self]
    · have nonzero : (CMpl.mk h l).abs ≠ 0 := by
        rw [CMpl.abs, h_abs, same.abs]
        intro none_
        have length := trimmed.length_eq_zero (show a.abs = 0 by omega)
        omega
      obtain ⟨t, run, shifted, length, -⟩ := CMpl.wordShiftLeft_run ⟨h, l⟩ n packed nonzero
      have size : t.l.length = min (min (h.length + l.length + n) 16) 8 := length
      refine ⟨t, run, shifted.l_sign, shifted.l_bounded, fun _ => by omega, fun i inside => ?_⟩
      have moved := shifted.limbs i (Nat.lt_trans inside (by decide))
      rw [CMpl.limb, if_pos inside] at moved
      rw [moved]
      split
      · rw [CMpl.limb, if_pos (show i - n < 8 by omega)]
      · rfl
  obtain ⟨r, r_run, r_same, -⟩ := assign_run t.l a t_bounded
  have r_length : r.length = t.l.length := r_same.length
  refine ⟨{ r with carry := 0 }, ?_, ?_, ?_, fun more => ?_, fun i inside => ?_⟩
  · rw [wordShiftLeft, h_run, Option.bind_eq_bind, Option.bind_some, l_run, Option.bind_some, t_run,
      Option.bind_eq_bind, Option.bind_some, truncate, r_run]
    rfl
  · exact r_same.sign.trans (t_sign.trans same.sign)
  · exact show r.length ≤ 8 by omega
  · have grown := t_some (l_length.symm ▸ more)
    exact show 0 < r.length by omega
  · have limb : ({ r with carry := 0 } : CMpi).limb i = t.l.limb i := r_same.limb i
    rw [limb, t_limbs i inside]
    split
    · exact same.limb (i - n)
    · rfl

/-- A number that is shifted to the left has no words only if it had none. -/
structure Kept (a r : CMpi) : Prop where
  bounded : r.length ≤ 8
  empty : r.length = 0 ↔ a.length = 0
  blank : r.length = 0 → r.wordAt 0 = a.wordAt 0

theorem wordShiftLeft_kept (a : CMpi) (n : ℕ) (junk : CMpl) (bounded : a.length ≤ 8) :
    ∃ r, a.wordShiftLeft n junk = some r ∧ Kept a r := by
  obtain ⟨h, h_run, -, -, h_length, -⟩ := assignD_run junk.h 0
  obtain ⟨l, l_run, same, -⟩ := assign_run a junk.l bounded
  rw [if_pos rfl] at h_length
  have l_length := same.length
  obtain ⟨t, t_run, t_bounded, t_empty⟩ := CMpl.wordShiftLeft_length ⟨h, l⟩ n
    ⟨l_length ▸ bounded, h_length ▸ Nat.zero_le 8, .inr h_length⟩
  obtain ⟨r, r_run, r_same, -, above⟩ := assign_run t.l a t_bounded
  have r_length : r.length = t.l.length := r_same.length
  refine ⟨{ r with carry := 0 }, ?_, r_length ▸ t_bounded, ?_, fun none_ => above 0 ?_⟩
  · rw [wordShiftLeft, h_run, Option.bind_eq_bind, Option.bind_some, l_run, Option.bind_some, t_run,
      Option.bind_eq_bind, Option.bind_some, truncate, r_run]
    rfl
  · dsimp only at t_empty ⊢
    rw [r_length, t_empty, l_length]
  · exact Nat.le_of_eq (r_length.symm.trans none_)

theorem wordsLeft_kept (a : CMpi) (n : ℕ) (junk : CMpl) (bounded : a.length ≤ 8) :
    ∃ r, (if n ≠ 0 then a.wordShiftLeft n junk else some a) = some r ∧ Kept a r := by
  split
  · exact a.wordShiftLeft_kept n junk bounded
  · exact ⟨a, rfl, bounded, Iff.rfl, fun _ => rfl⟩

theorem wordsLeft_run (a : CMpi) (n : ℕ) (junk : CMpl) (bounded : a.length ≤ 8) (trimmed : a.Trimmed) :
    ∃ r, (if n ≠ 0 then a.wordShiftLeft n junk else some a) = some r ∧ Lifted a n r := by
  by_cases zero : n = 0
  · rw [if_neg (not_not.mpr zero), zero]
    exact ⟨a, rfl, rfl, bounded, id, fun i _ => (if_pos (Nat.zero_le i)).symm⟩
  · rw [if_pos zero]
    exact a.wordShiftLeft_run n junk bounded trimmed

end CMpi

theorem raised_zero {f : ℕ → ℕ} (bounded : ∀ i, f i < radix) (i : ℕ) : raised 0 0 f i = f i := by
  rw [raised, pow_zero, Nat.mul_one, Nat.mod_eq_of_lt (bounded i), Nat.mul_one, Nat.div_eq_of_lt (bounded _), ite_self,
    Nat.add_zero]

/-- Digits `n` places up are the number times a power of the base, up to what is lost above. -/
theorem value_lifted (f : ℕ → ℕ) (n size : ℕ) :
    Limbs.value radix (fun i => if n ≤ i then f (i - n) else 0) size % radix ^ size =
      Limbs.value radix f size * radix ^ n % radix ^ size := by
  have shifted := Limbs.value_shift radix f n size
  have flipped : Limbs.value radix (fun i => if i < n then 0 else f (i - n)) (n + size) =
      Limbs.value radix (fun i => if n ≤ i then f (i - n) else 0) (n + size) :=
    Limbs.value_congr fun i _ => by
      by_cases low : i < n
      · rw [if_pos low, if_neg (Nat.not_le.mpr low)]
      · rw [if_neg low, if_pos (Nat.not_lt.mp low)]
  have parts := Limbs.value_add radix (fun i => if n ≤ i then f (i - n) else 0) size n
  rw [Nat.add_comm size n, ← flipped, shifted] at parts
  rw [Nat.mul_comm, parts, Nat.add_mul_mod_self_left]

theorem lift_split (v s size : ℕ) :
    v * radix ^ (s / 32) % radix ^ size * 2 ^ (s % 32) % radix ^ size = v * 2 ^ s % radix ^ size := by
  have power : radix ^ (s / 32) * 2 ^ (s % 32) = 2 ^ s := by
    have base : radix = 2 ^ 32 := rfl
    rw [base, ← pow_mul, ← pow_add, Nat.div_add_mod]
  rw [Nat.mod_mul_mod, Nat.mul_assoc, power]

namespace CMpi

/-- The product with a power of two, without what is carried out of the eight words. -/
structure Multiple (a : CMpi) (s : ℕ) (r : CMpi) : Prop where
  sign : r.sign = a.sign
  bounded : r.length ≤ 8
  value : r.abs = a.abs * 2 ^ s % radix ^ 8

private theorem value_eight (a : CMpi) : Limbs.value radix a.limb 8 < radix ^ 8 := Limbs.value_lt fun i _ => a.limb_lt i

private theorem multiple_of_limbs {a b r : CMpi} {s : ℕ} (a_bounded : a.length ≤ 8) (lifted : Lifted a (s / 32) b)
    (sign : r.sign = b.sign) (bounded : r.length ≤ 8)
    (limbs : ∀ i, i < 8 → r.limb i = raised (s % 32) 0 b.limb i) : Multiple a s r := by
  have words : Limbs.value radix b.limb 8 = a.abs * radix ^ (s / 32) % radix ^ 8 := by
    rw [a.abs_eq_value a_bounded, ← value_lifted, ← Limbs.value_congr lifted.limbs]
    exact (Nat.mod_eq_of_lt b.value_eight).symm
  refine ⟨sign.trans lifted.sign, bounded, ?_⟩
  have same := Limbs.value_congr (B := radix) limbs
  rw [r.abs_eq_value bounded, same, value_raised _ _ (same ▸ r.value_eight), words, lift_split]


theorem bitShiftLeft_split (a : CMpi) (s : ℕ) (junk : CMpl) :
    a.bitShiftLeft s junk =
      (if s / 32 ≠ 0 then a.wordShiftLeft (s / 32) junk else some a).bind (·.bitShiftLeft (s % 32) junk) := by
  rw [bitShiftLeft, Option.bind_eq_bind]
  congr 1
  funext b
  have none_ : s % 32 / 32 = 0 := Nat.div_eq_of_lt (Nat.mod_lt s (by decide))
  rw [bitShiftLeft, none_, if_neg (not_not.mpr rfl), Nat.mod_mod]
  rfl

theorem bitShiftLeft_raised (b : CMpi) {j : ℕ} (junk : CMpl) (positive : 0 < j) (small : j < 32) (some_ : 0 < b.length)
    (bounded : b.length ≤ 8) : ∃ r, b.bitShiftLeft j junk = some r ∧ Raised b j 0 r := by
  obtain ⟨k, length⟩ := Nat.exists_eq_succ_of_ne_zero (Nat.ne_of_gt some_)
  rw [Nat.succ_eq_add_one] at length
  have last : b.length - 1 = k := by omega
  have whole : j / 32 = 0 := Nat.div_eq_of_lt small
  rw [bitShiftLeft, whole, if_neg (not_not.mpr rfl), Option.bind_eq_bind, Option.bind_some, Nat.mod_eq_of_lt small]
  simp only [if_neg (Nat.ne_of_gt positive), if_neg (Nat.ne_of_gt some_), last, get_eq b (show k < 8 by omega),
    Option.bind_eq_bind, Option.bind_some]
  apply Loop.seq_rule (Topped b j k)
  · by_cases room : b.length < 8
    · rw [if_pos room, put_eq b room, Option.map_some]
      exact ⟨_, rfl, .stored length room⟩
    · rw [if_neg room]
      exact ⟨_, rfl, .full length room rfl rfl fun _ => rfl⟩
  · rintro t ⟨sign, t_length, below, top⟩
    obtain ⟨r, r_run, r_sign, r_length, -, first, words, rest⟩ := shift_words (a := t) (j := j) (Nat.succ_pos k)
      (show k + 1 ≤ 8 by omega)
    refine ⟨r, r_run, r_sign.trans sign, ?_, ?_, fun i inside => ?_⟩
    · rw [r_length]
      split_ifs at t_length <;> omega
    · rw [r_length]
      split_ifs at t_length with more
      · omega
      · omega
    · refine raised_of_words (r := r) positive small length bounded (r_length.trans t_length) ?_ ?_ ?_ inside
      · rw [digit, first, below 0 (Nat.zero_le k), shiftLeft_digit _ small, Nat.add_zero]
        rfl
      · intro i low
        rw [words i (by omega), below (i + 1) low, below i (Nat.le_of_lt low)]
      · intro more
        rw [rest (k + 1) (Nat.le_refl _), top more]

theorem bitShiftLeft_none (a : CMpi) (junk : CMpl) : a.bitShiftLeft 0 junk = some a := rfl

theorem bitShiftLeft_multiple (a : CMpi) (s : ℕ) (junk : CMpl) (bounded : a.length ≤ 8) (trimmed : a.Trimmed)
    (some_ : s % 32 = 0 ∨ 0 < a.length) : ∃ r, a.bitShiftLeft s junk = some r ∧ Multiple a s r := by
  obtain ⟨b, run, lifted⟩ := a.wordsLeft_run (s / 32) junk bounded trimmed
  rw [bitShiftLeft_split, run, Option.bind_some]
  by_cases zero : s % 32 = 0
  · rw [zero, bitShiftLeft_none]
    refine ⟨b, rfl, multiple_of_limbs bounded lifted rfl lifted.bounded fun i _ => ?_⟩
    rw [zero, raised_zero b.limb_lt]
  · obtain ⟨r, r_run, raised⟩ := b.bitShiftLeft_raised junk (Nat.pos_of_ne_zero zero) (Nat.mod_lt s (by decide))
      (lifted.some_ (some_.resolve_left zero)) lifted.bounded
    exact ⟨r, r_run, multiple_of_limbs bounded lifted raised.sign raised.bounded raised.limbs⟩

theorem bitShiftLeft_empty (a : CMpi) (s : ℕ) (junk : CMpl) (bits : s % 32 ≠ 0) (empty : a.length = 0) :
    a.bitShiftLeft s junk = none := by
  obtain ⟨b, run, kept⟩ := a.wordsLeft_kept (s / 32) junk (empty ▸ Nat.zero_le 8)
  rw [bitShiftLeft, run, Option.bind_eq_bind, Option.bind_some]
  simp only [if_neg bits, if_pos (kept.empty.mpr empty)]

theorem bitShiftLeft_kept (a : CMpi) (s : ℕ) (junk : CMpl) (bounded : a.length ≤ 8) {r : CMpi}
    (run : a.bitShiftLeft s junk = some r) : Kept a r := by
  obtain ⟨b, words, kept⟩ := a.wordsLeft_kept (s / 32) junk bounded
  by_cases zero : s % 32 = 0
  · rw [bitShiftLeft_split, words, Option.bind_some, zero, bitShiftLeft_none, Option.some.injEq] at run
    exact run ▸ kept
  · have some_ : a.length ≠ 0 := by
      intro empty
      rw [a.bitShiftLeft_empty s junk zero empty] at run
      cases run
    rw [bitShiftLeft_split, words, Option.bind_some] at run
    have b_some : b.length ≠ 0 := fun empty => some_ (kept.empty.mp empty)
    obtain ⟨r', r_run, raised⟩ := b.bitShiftLeft_raised junk (Nat.pos_of_ne_zero zero) (Nat.mod_lt s (by decide))
      (Nat.pos_of_ne_zero b_some) kept.bounded
    obtain rfl := Option.some.inj (r_run.symm.trans run)
    have longer := raised.longer
    exact ⟨raised.bounded, by omega, fun none_ => absurd none_ (by omega)⟩

end CMpi

namespace CMpl

theorem limb_lt (a : CMpl) (i : ℕ) : a.limb i < radix := by
  unfold limb
  split
  · exact a.l.limb_lt i
  · exact a.h.limb_lt (i - 8)

/-- A number of two halves without leading zero words. -/
structure Normal (a : CMpl) : Prop extends Packed a where
  h_trimmed : a.h.Trimmed
  l_trimmed : a.h.length = 0 → a.l.Trimmed

theorem Normal.eq_zero_iff {a : CMpl} (normal : a.Normal) : a.abs = 0 ↔ a.h.length + a.l.length = 0 := by
  constructor
  · intro zero
    have halves := Nat.add_eq_zero_iff.mp zero
    have high : a.h.abs = 0 :=
      (Nat.mul_eq_zero.mp halves.2).resolve_right (Nat.pos_iff_ne_zero.mp (Nat.pow_pos radix_pos))
    have empty := normal.h_trimmed.length_eq_zero high
    rw [empty, (normal.l_trimmed empty).length_eq_zero halves.1]
  · intro empty
    obtain ⟨high, low⟩ := Nat.add_eq_zero_iff.mp empty
    rw [abs, CMpi.abs, CMpi.abs, high, low, Limbs.value_zero, Limbs.value_zero, Nat.zero_mul]

theorem wordsLeft_run (a : CMpl) (n : ℕ) (normal : a.Normal) :
    ∃ r, (if n ≠ 0 then a.wordShiftLeft n else some a) = some r ∧ Shifted a n r ∧
      (0 < a.h.length + a.l.length → 0 < r.l.length) := by
  have packed := normal.toPacked
  have some_ (more : 0 < a.h.length + a.l.length) : 0 < a.l.length := by
    rcases packed.full with full | empty
    · omega
    · omega
  by_cases zero : n = 0
  · rw [if_neg (not_not.mpr zero), zero]
    exact ⟨a, rfl, ⟨packed, rfl, rfl, fun i _ => (if_pos (Nat.zero_le i)).symm⟩, some_⟩
  · rw [if_pos zero]
    by_cases empty : a.h.length + a.l.length = 0
    · have nothing (i : ℕ) : a.limb i = 0 := limb_outside packed (empty ▸ Nat.zero_le i)
      refine ⟨a, a.wordShiftLeft_empty n empty, ⟨packed, rfl, rfl, fun i _ => ?_⟩, some_⟩
      rw [nothing, nothing, ite_self]
    · obtain ⟨r, run, shifted, length, -⟩ := a.wordShiftLeft_run n packed fun zero => empty (normal.eq_zero_iff.mp zero)
      exact ⟨r, run, shifted, fun _ => by omega⟩

private theorem highBits_run {a : CMpl} (packed : a.Packed) {j : ℕ} (positive : 0 < j) (small : j < 32) :
    ∃ h, (if 0 < a.h.length then do
        let h ← a.h.bitsLeft j
        h.put 0 ((← h.get 0) <<< .ofNat j + (← a.l.get 7) >>> .ofNat (32 - j))
      else if a.l.length = 8 then do
        let out := (← a.l.get 7) >>> .ofNat (32 - j)
        (a.h.put 0 out).map fun h => { h with length := if out ≠ 0 then 1 else 0 }
      else some a.h) = some h ∧ Raised a.h j (a.l.limb 7 * 2 ^ j / radix) h ∧ (a.l.length = 8 ∨ h.length = 0) := by
  have first : 0 < 8 := by decide
  have last : 7 < 8 := by decide
  have out (full : a.l.length = 8) :
      (a.l.wordAt 7 >>> UInt32.ofNat (32 - j)).toNat = a.l.limb 7 * 2 ^ j / radix := by
    rw [a.l.limb_inside (full ▸ last)]
    exact shiftRight_digit _ positive small
  by_cases high : 0 < a.h.length
  · have full : a.l.length = 8 := packed.full.resolve_right (Nat.ne_of_gt high)
    rw [if_pos high]
    obtain ⟨h, run, raised⟩ := a.h.bitsLeft_raised (c := a.l.limb 7 * 2 ^ j / radix) positive small high packed.h_bounded
      (fun h => do h.put 0 ((← h.get 0) <<< .ofNat j + (← a.l.get 7) >>> .ofNat (32 - j))) fun s same => by
        refine ⟨a.h.wordAt 0 <<< .ofNat j + a.l.wordAt 7 >>> .ofNat (32 - j), ?_, ?_⟩
        · simp only [get_eq s first, get_eq a.l last, Option.bind_eq_bind, Option.bind_some, put_eq s first, same]
        · rw [shifted_digit _ _ positive small, a.l.limb_inside (full ▸ last)]
          rfl
    exact ⟨h, run, raised, .inl full⟩
  · have empty : a.h.length = 0 := by omega
    have nothing (i : ℕ) : a.h.limb i = 0 := a.h.limb_outside (empty ▸ Nat.zero_le i)
    have filled (i : ℕ) : raised j (a.l.limb 7 * 2 ^ j / radix) a.h.limb i =
        if i = 0 then a.l.limb 7 * 2 ^ j / radix else 0 := by
      rw [raised, nothing, nothing, Nat.zero_mul, Nat.zero_mod, Nat.zero_div, Nat.zero_add]
    rw [if_neg high]
    by_cases full : a.l.length = 8
    · rw [if_pos full, get_eq a.l last, Option.bind_eq_bind, Option.bind_some]
      dsimp only
      rw [put_eq a.h first, Option.map_some]
      refine ⟨_, rfl, ⟨rfl, empty.trans_le (Nat.zero_le _), ?_, fun i _ => ?_⟩, .inl full⟩
      · dsimp only
        split <;> decide
      · rw [filled, ← out full]
        generalize size : (if a.l.wordAt 7 >>> UInt32.ofNat (32 - j) ≠ 0 then 1 else 0) = k
        by_cases zero : a.l.wordAt 7 >>> UInt32.ofNat (32 - j) = 0
        · rw [if_neg (not_not.mpr zero)] at size
          rw [CMpi.limb_outside _ (show k ≤ i by omega), zero]
          exact (ite_self 0).symm
        · rw [if_pos zero] at size
          by_cases bottom : i = 0
          · rw [CMpi.limb_inside _ (show i < k by omega), if_pos bottom, bottom]
            exact digit_set_self a.h first _
          · rw [CMpi.limb_outside _ (show k ≤ i by omega), if_neg bottom]
    · rw [if_neg full]
      refine ⟨a.h, rfl, ⟨rfl, Nat.le_refl _, packed.h_bounded, fun i _ => ?_⟩, .inr empty⟩
      have bounded := packed.l_bounded
      rw [filled, nothing, a.l.limb_outside (show a.l.length ≤ 7 by omega), Nat.zero_mul, Nat.zero_div, ite_self]

/-- The product of a number of two halves with a power of two, without what is carried out. -/
structure Multiple (a : CMpl) (s : ℕ) (r : CMpl) : Prop extends Packed r where
  l_sign : r.l.sign = a.l.sign
  h_sign : r.h.sign = a.h.sign
  value : r.abs = a.abs * 2 ^ s % radix ^ 16

private theorem multiple_of_limbs {a b r : CMpl} {s : ℕ} (packed : a.Packed) (shifted : Shifted a (s / 32) b)
    (r_packed : r.Packed) (l_sign : r.l.sign = b.l.sign) (h_sign : r.h.sign = b.h.sign)
    (limbs : ∀ i, i < 16 → r.limb i = raised (s % 32) 0 b.limb i) : Multiple a s r := by
  have fits (x : CMpl) : Limbs.value radix x.limb 16 < radix ^ 16 := Limbs.value_lt fun i _ => x.limb_lt i
  have words : Limbs.value radix b.limb 16 = a.abs * radix ^ (s / 32) % radix ^ 16 := by
    rw [abs_eq_value a packed.l_bounded packed.h_bounded, ← value_lifted, ← Limbs.value_congr shifted.limbs]
    exact (Nat.mod_eq_of_lt (fits b)).symm
  refine ⟨r_packed, l_sign.trans shifted.l_sign, h_sign.trans shifted.h_sign, ?_⟩
  have same := Limbs.value_congr (B := radix) limbs
  rw [abs_eq_value r r_packed.l_bounded r_packed.h_bounded, same, value_raised _ _ (same ▸ fits r), words, lift_split]

private theorem limb_raised {a h l : CMpl} {j : ℕ} (low : ∀ i, i < 8 → l.l.limb i = raised j 0 a.l.limb i)
    (high : ∀ i, i < 8 → h.h.limb i = raised j (a.l.limb 7 * 2 ^ j / radix) a.h.limb i) {i : ℕ} (inside : i < 16) :
    (CMpl.mk h.h l.l).limb i = raised j 0 a.limb i := by
  by_cases below : i < 8
  · rw [limb, if_pos below, low i below, raised, raised, limb, if_pos below, limb, if_pos (show i - 1 < 8 by omega)]
  · rw [limb, if_neg below, high (i - 8) (by omega), raised, raised, limb, if_neg below, if_neg (show i ≠ 0 by omega), limb]
    by_cases first : i - 8 = 0
    · rw [if_pos first, if_pos (show i - 1 < 8 by omega), show i - 1 = 7 by omega]
    · rw [if_neg first, if_neg (show ¬ i - 1 < 8 by omega), show i - 1 - 8 = i - 8 - 1 by omega]

theorem bitShiftLeft_multiple (a : CMpl) (s : ℕ) (normal : a.Normal)
    (some_ : s % 32 = 0 ∨ 0 < a.h.length + a.l.length) : ∃ r, a.bitShiftLeft s = some r ∧ Multiple a s r := by
  obtain ⟨b, run, shifted, kept⟩ := a.wordsLeft_run (s / 32) normal
  have packed := shifted.toPacked
  rw [bitShiftLeft, run, Option.bind_eq_bind, Option.bind_some]
  by_cases zero : s % 32 = 0
  · simp only [zero, if_true]
    refine ⟨b, rfl, multiple_of_limbs normal.toPacked shifted packed rfl rfl fun i _ => ?_⟩
    rw [zero, raised_zero b.limb_lt]
  · have small : s % 32 < 32 := Nat.mod_lt s (by decide)
    have positive : 0 < s % 32 := Nat.pos_of_ne_zero zero
    have first : 0 < 8 := by decide
    have words : 0 < b.l.length := kept (some_.resolve_left zero)
    obtain ⟨h, h_run, high, full⟩ := highBits_run packed positive small
    obtain ⟨l, l_run, low⟩ := b.l.bitsLeft_raised (c := 0) positive small words packed.l_bounded
      (fun l => do l.put 0 ((← l.get 0) <<< .ofNat (s % 32))) fun s' same => by
        refine ⟨b.l.wordAt 0 <<< .ofNat (s % 32), ?_, shiftLeft_digit _ small⟩
        rw [get_eq s' first, Option.bind_eq_bind, Option.bind_some, put_eq s' first, same]
    have longer := low.longer
    have result : (CMpl.mk h l).Packed := by
      refine ⟨low.bounded, high.bounded, ?_⟩
      rcases full with whole | empty
      · exact .inl (Nat.le_antisymm low.bounded (whole ▸ longer))
      · exact .inr empty
    refine ⟨⟨h, l⟩, ?_, multiple_of_limbs normal.toPacked shifted result low.sign high.sign fun i inside =>
      limb_raised (h := ⟨h, l⟩) (l := ⟨h, l⟩) low.limbs high.limbs inside⟩
    rw [if_neg zero, h_run, Option.bind_eq_bind, Option.bind_some, if_neg (Nat.ne_of_gt words)]
    have joined := congrArg (Option.bind · fun l => some (CMpl.mk h l)) l_run
    simp only [Option.bind_assoc, Option.bind_eq_bind, Option.bind_some] at joined ⊢
    exact joined

theorem bitShiftLeft_empty (a : CMpl) (s : ℕ) (bits : s % 32 ≠ 0) (empty : a.h.length + a.l.length = 0) :
    a.bitShiftLeft s = none := by
  have words : (if s / 32 ≠ 0 then a.wordShiftLeft (s / 32) else some a) = some a := by
    split
    · exact a.wordShiftLeft_empty (s / 32) empty
    · rfl
  obtain ⟨high, low⟩ := Nat.add_eq_zero_iff.mp empty
  rw [bitShiftLeft, words, Option.bind_eq_bind, Option.bind_some]
  simp only [if_neg bits, high, low]
  rfl

end CMpl

/-! What the shifts are for. -/

/-- The routine returns and leaves the number `v` with the sign of `a`. -/
def CMpi.LeavesShifted (a : CMpi) (result : Option CMpi) (v : ℕ) : Prop :=
  ∃ r, result = some r ∧ r.sign = a.sign ∧ r.length ≤ 8 ∧ r.abs = v

/-- The routine returns and leaves the number `v` in two halves with the signs of `n`. -/
def CMpl.LeavesShifted (n : CMpl) (result : Option CMpl) (v : ℕ) : Prop :=
  ∃ r, result = some r ∧ r.l.sign = n.l.sign ∧ r.h.sign = n.h.sign ∧ r.Packed ∧ r.abs = v

private theorem stopped {α : Type} {result : Option α} {P : α → Prop} (out : result = none) :
    ¬ ∃ r, result = some r ∧ P r := by
  rintro ⟨r, run, -⟩
  rw [out] at run
  exact nomatch run

/-- All four shifts scale, unless bits are to be shifted where there is no word: they then reach for the word
in front of the first one. -/
theorem shifts_scale_iff (a : CMpi) (n : CMpl) (s : ℕ) (junk : CMpl) (bounded : a.length ≤ 8) (trimmed : a.Trimmed)
    (normal : n.Normal) :
    (a.LeavesShifted (a.bitShiftRight s junk) (a.abs / 2 ^ s) ↔ s % 32 = 0 ∨ s / 32 < a.length) ∧
      (n.LeavesShifted (n.bitShiftRight s) (n.abs / 2 ^ s) ↔ s % 32 = 0 ∨ s / 32 < n.h.length + n.l.length) ∧
      (a.LeavesShifted (a.bitShiftLeft s junk) (a.abs * 2 ^ s % 2 ^ 256) ↔ s % 32 = 0 ∨ 0 < a.length) ∧
      (n.LeavesShifted (n.bitShiftLeft s) (n.abs * 2 ^ s % 2 ^ 512) ↔ s % 32 = 0 ∨ 0 < n.h.length + n.l.length) := by
  have base : radix = 2 ^ 32 := rfl
  have single : radix ^ 8 = 2 ^ 256 := by rw [base, ← pow_mul]
  have double : radix ^ 16 = 2 ^ 512 := by rw [base, ← pow_mul]
  rw [← single, ← double]
  refine ⟨?_, ?_, ?_, ?_⟩
  · by_cases reaches : s % 32 = 0 ∨ s / 32 < a.length
    · obtain ⟨r, run, quotient⟩ := a.bitShiftRight_run s junk bounded reaches
      exact iff_of_true ⟨r, run, quotient.sign, Nat.le_trans quotient.bounded bounded, quotient.value⟩ reaches
    · obtain ⟨bits, beyond⟩ := not_or.mp reaches
      exact iff_of_false (stopped (a.bitShiftRight_empty s junk bounded bits (Nat.not_lt.mp beyond))) reaches
  · by_cases reaches : s % 32 = 0 ∨ s / 32 < n.h.length + n.l.length
    · obtain ⟨r, run, quotient⟩ := n.bitShiftRight_run s normal.toPacked reaches
      exact iff_of_true ⟨r, run, quotient.l_sign, quotient.h_sign, quotient.toPacked, quotient.value⟩ reaches
    · obtain ⟨bits, beyond⟩ := not_or.mp reaches
      exact iff_of_false (stopped (n.bitShiftRight_empty s normal.toPacked bits (Nat.not_lt.mp beyond))) reaches
  · by_cases words : s % 32 = 0 ∨ 0 < a.length
    · obtain ⟨r, run, multiple⟩ := a.bitShiftLeft_multiple s junk bounded trimmed words
      exact iff_of_true ⟨r, run, multiple.sign, multiple.bounded, multiple.value⟩ words
    · obtain ⟨bits, none_⟩ := not_or.mp words
      exact iff_of_false (stopped (a.bitShiftLeft_empty s junk bits (Nat.eq_zero_of_not_pos none_))) words
  · by_cases words : s % 32 = 0 ∨ 0 < n.h.length + n.l.length
    · obtain ⟨r, run, multiple⟩ := n.bitShiftLeft_multiple s normal words
      exact iff_of_true ⟨r, run, multiple.l_sign, multiple.h_sign, multiple.toPacked, multiple.value⟩ words
    · obtain ⟨bits, none_⟩ := not_or.mp words
      exact iff_of_false (stopped (n.bitShiftLeft_empty s bits (Nat.eq_zero_of_not_pos none_))) words

def zeroWords : CMpi := ⟨.replicate 8 0, 0, .positive, 0⟩

def lowFive : CMpl := ⟨zeroWords, CMpi.stale⟩

theorem zeroWords_trimmed : zeroWords.Trimmed := fun _ length => nomatch length

theorem lowFive_normal : lowFive.Normal where
  l_bounded := by decide
  h_bounded := by decide
  full := .inr rfl
  h_trimmed := zeroWords_trimmed
  l_trimmed := fun _ i length => by
    obtain rfl : 0 = i := Nat.succ.inj length
    decide

theorem shifts_scale_iff_lowFive :
    (zeroWords.LeavesShifted (zeroWords.bitShiftRight 33 lowFive) (zeroWords.abs / 2 ^ 33) ↔
        33 % 32 = 0 ∨ 33 / 32 < 0) ∧
      (lowFive.LeavesShifted (lowFive.bitShiftRight 33) (lowFive.abs / 2 ^ 33) ↔ 33 % 32 = 0 ∨ 33 / 32 < 0 + 1) ∧
      (zeroWords.LeavesShifted (zeroWords.bitShiftLeft 33 lowFive) (zeroWords.abs * 2 ^ 33 % 2 ^ 256) ↔
        33 % 32 = 0 ∨ 0 < 0) ∧
      (lowFive.LeavesShifted (lowFive.bitShiftLeft 33) (lowFive.abs * 2 ^ 33 % 2 ^ 512) ↔ 33 % 32 = 0 ∨ 0 < 0 + 1) :=
  shifts_scale_iff zeroWords lowFive 33 lowFive (by decide) zeroWords_trimmed lowFive_normal

/-- Zero cannot be shifted by a bit in either direction, and five not to the right by thirty-three. -/
theorem not_shifts_scale :
    ¬ zeroWords.LeavesShifted (zeroWords.bitShiftRight 1 lowFive) (zeroWords.abs / 2 ^ 1) ∧
      ¬ lowFive.LeavesShifted (lowFive.bitShiftRight 33) (lowFive.abs / 2 ^ 33) ∧
      ¬ zeroWords.LeavesShifted (zeroWords.bitShiftLeft 1 lowFive) (zeroWords.abs * 2 ^ 1 % 2 ^ 256) ∧
      ¬ CMpl.LeavesShifted ⟨zeroWords, zeroWords⟩ (CMpl.bitShiftLeft ⟨zeroWords, zeroWords⟩ 1)
        (CMpl.abs ⟨zeroWords, zeroWords⟩ * 2 ^ 1 % 2 ^ 512) := by
  refine ⟨stopped ?_, stopped ?_, stopped ?_, stopped ?_⟩
  · exact CMpi.bitShiftRight_empty zeroWords 1 lowFive (by decide) (by decide) (by decide)
  · exact CMpl.bitShiftRight_empty lowFive 33 lowFive_normal.toPacked (by decide) (by decide)
  · exact CMpi.bitShiftLeft_empty zeroWords 1 lowFive (by decide) rfl
  · exact CMpl.bitShiftLeft_empty ⟨zeroWords, zeroWords⟩ 1 (by decide) rfl

end MyTools.Mpi
