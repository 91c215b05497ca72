import MyTools.Mpi.Shift

/-! Right shifts by whole words and by bits, for counts that are not negative. -/
namespace MyTools.Mpi
open Library CMpi

namespace CMpl

/-- The words of the low half are replaced from the bottom; the number ends where there is nothing to bring
down. -/
def lowWordRight (n i : ℕ) (a : CMpl) : Option (CMpl ⊕ CMpl) :=
  if i + n < a.l.length then do
    let l ← a.l.put i (← a.l.get (i + n))
    some (.inl ⟨a.h, l⟩)
  else if a.l.length = 8 ∧ i + n - 8 < a.h.length then do
    let l ← a.l.put i (← a.h.get (i + n - 8))
    some (.inl ⟨a.h, l⟩)
  else do
    let l ← a.l.put i 0
    some (.inr ⟨{ a.h with length := 0 }, { l with length := i }⟩)

def highWordRight (n i : ℕ) (a : CMpl) : Option (CMpl ⊕ CMpl) :=
  if i + n < a.h.length then do
    let h ← a.h.put i (← a.h.get (i + n))
    some (.inl ⟨h, a.l⟩)
  else do
    let h ← a.h.put i 0
    some (.inr ⟨{ h with length := i }, a.l⟩)

def wordShiftRight (a : CMpl) (n : ℕ) : Option CMpl := do
  match ← Loop.upUntil (lowWordRight n) a.l.length a with
  | .inr a => some a
  | .inl a =>
    match ← Loop.upUntil (highWordRight n) a.h.length a with
    | .inr a => some a
    | .inl a => some a

end CMpl

namespace CMpi

def wordShiftRight (a : CMpi) (n : ℕ) (junk : CMpl) : Option CMpi := do
  let h ← junk.h.assignD 0
  let l ← a.assign junk.l
  truncate (← CMpl.wordShiftRight ⟨h, l⟩ n) a

/-- `a[i] >>= j; a[i] += a[i + 1] << (BITS_OF_INT - j);` -/
def bitsRight (j i : ℕ) (a : CMpi) : Option CMpi := do
  a.put i ((← a.get i) >>> .ofNat j + (← a.get (i + 1)) <<< .ofNat (32 - j))

/-- The top word is shifted, and given up when nothing is left of it; without words it is the word in front
of the array. -/
def topBitsRight (j : ℕ) (a : CMpi) : Option CMpi :=
  if a.length = 0 then none
  else do
    let a ← a.put (a.length - 1) ((← a.get (a.length - 1)) >>> .ofNat j)
    some { a with length := if (← a.get (a.length - 1)) = 0 then a.length - 1 else a.length }

def bitShiftRight (a : CMpi) (iShiftBits : ℕ) (junk : CMpl) : Option CMpi := do
  let a ← (if iShiftBits / 32 ≠ 0 then a.wordShiftRight (iShiftBits / 32) junk else some a)
  let j := iShiftBits % 32
  if j = 0 then some a
  else do
    let a ← Loop.up (bitsRight j) (a.length - 1) a
    a.topBitsRight j

end CMpi

namespace CMpl

def bitShiftRight (n : CMpl) (iShiftBits : ℕ) : Option CMpl := do
  let n ← (if iShiftBits / 32 ≠ 0 then n.wordShiftRight (iShiftBits / 32) else some n)
  let j := iShiftBits % 32
  if j = 0 then some n
  else do
    let l ← Loop.up (bitsRight j) (n.l.length - 1) n.l
    let l ← (if n.l.length < 8 then l.topBitsRight j
      else do
        let l ← l.put (l.length - 1) ((← l.get (l.length - 1)) >>> .ofNat j)
        if 0 < n.h.length then
          l.put (l.length - 1) ((← l.get (l.length - 1)) + (← n.h.get 0) <<< .ofNat (32 - j))
        else some l)
    let h ← (if 0 < n.h.length then do
        let h ← Loop.up (bitsRight j) (n.h.length - 1) n.h
        h.topBitsRight j
      else some n.h)
    some ⟨h, l⟩

/-! The word shift. -/

def wordOf (a : CMpl) (i : ℕ) : UInt32 := if i < 8 then a.l.wordAt i else a.h.wordAt (i - 8)

theorem limb_within {a : CMpl} (packed : a.Packed) {i : ℕ} (inside : i < a.h.length + a.l.length) :
    a.limb i = (a.wordOf i).toNat := by
  have l_bounded := packed.l_bounded
  unfold limb wordOf
  rcases packed.full with full | empty
  · split
    · exact a.l.limb_inside (by omega)
    · exact a.h.limb_inside (by omega)
  · rw [if_pos (show i < 8 by omega), if_pos (show i < 8 by omega)]
    exact a.l.limb_inside (by omega)

structure ShiftedRight (a : CMpl) (n : ℕ) (r : CMpl) : Prop extends Packed r where
  l_sign : r.l.sign = a.l.sign
  h_sign : r.h.sign = a.h.sign
  total : r.h.length + r.l.length = a.h.length + a.l.length - n
  limbs : ∀ i, r.limb i = a.limb (i + n)

/-- The first `i` words of the low half are replaced. -/
private structure LowRight (a : CMpl) (n i : ℕ) (s : CMpl) : Prop where
  h : s.h = a.h
  sign : s.l.sign = a.l.sign
  length : s.l.length = a.l.length
  inside : i ≤ a.h.length + a.l.length - n
  below : ∀ k, k < i → s.l.wordAt k = a.wordOf (k + n)
  above : ∀ k, i ≤ k → s.l.wordAt k = a.l.wordAt k

private theorem shiftedRight_of_words {a r : CMpl} {n : ℕ} (packed : a.Packed) (l_sign : r.l.sign = a.l.sign)
    (h_sign : r.h.sign = a.h.sign) (l_length : r.l.length = min (a.h.length + a.l.length - n) 8)
    (h_length : r.h.length = a.h.length + a.l.length - n - 8)
    (words : ∀ k, k < a.h.length + a.l.length - n → r.wordOf k = a.wordOf (k + n)) : ShiftedRight a n r := by
  have l_bounded := packed.l_bounded
  have h_bounded := packed.h_bounded
  have r_packed : r.Packed := ⟨by omega, by omega, by omega⟩
  refine ⟨r_packed, l_sign, h_sign, by omega, fun i => ?_⟩
  by_cases inside : i < a.h.length + a.l.length - n
  · rw [limb_within r_packed (by omega), words i inside, limb_within packed (by omega)]
  · rw [limb_outside r_packed (by omega), limb_outside packed (by omega)]

private theorem lowRight_run {a : CMpl} (packed : a.Packed) (n : ℕ) :
    ∃ o, Loop.upUntil (lowWordRight n) a.l.length a = some o ∧ Loop.Outcome (LowRight a n a.l.length) (ShiftedRight a n) o := by
  have l_bounded := packed.l_bounded
  have h_bounded := packed.h_bounded
  apply Loop.upUntil_rule (LowRight a n)
  · exact ⟨rfl, rfl, rfl, Nat.zero_le _, fun k low => absurd low (Nat.not_lt_zero k), fun _ _ => rfl⟩
  · rintro i ⟨h, l⟩ low ⟨h_same, sign, length, inside, below, above⟩
    dsimp only at h_same sign length below above
    subst h_same
    have place : i < 8 := by omega
    have stored {w : UInt32} (word : w = a.wordOf (i + n)) (more : i + n < a.h.length + a.l.length) :
        LowRight a n (i + 1) ⟨a.h, l.set i w⟩ := by
      refine ⟨rfl, sign, length, by omega, fun k under => ?_, fun k beyond => ?_⟩
      · by_cases here : k = i
        · subst here
          exact (wordAt_set_self l place w).trans word
        · exact (wordAt_set_ne l here w).trans (below k (by omega))
      · exact (wordAt_set_ne l (by omega) w).trans (above k (by omega))
    unfold lowWordRight
    dsimp only
    rw [length]
    by_cases first : i + n < a.l.length
    · have source := get_eq l (show i + n < 8 by omega)
      rw [above (i + n) (by omega)] at source
      rw [if_pos first, source, Option.bind_eq_bind, Option.bind_some, put_eq l place, Option.bind_eq_bind,
        Option.bind_some]
      refine ⟨_, rfl, stored ?_ (by omega)⟩
      rw [CMpl.wordOf, if_pos (by omega)]
    · rw [if_neg first]
      by_cases second : a.l.length = 8 ∧ i + n - 8 < a.h.length
      · rw [if_pos second, get_eq a.h (show i + n - 8 < 8 by omega), Option.bind_eq_bind, Option.bind_some, put_eq l place,
          Option.bind_eq_bind, Option.bind_some]
        refine ⟨_, rfl, stored ?_ (by omega)⟩
        rw [CMpl.wordOf, if_neg (by omega)]
      · have last : a.h.length + a.l.length ≤ i + n := by
          rcases packed.full with full | empty
          · have beyond : ¬ i + n - 8 < a.h.length := fun more => second ⟨full, more⟩
            omega
          · omega
        rw [if_neg second, put_eq l place, Option.bind_eq_bind, Option.bind_some]
        refine ⟨_, rfl, shiftedRight_of_words packed sign rfl ?_ ?_ fun k under => ?_⟩
        · exact show i = _ by omega
        · exact show 0 = _ by omega
        · rw [CMpl.wordOf, if_pos (show k < 8 by omega)]
          exact (wordAt_set_ne l (by omega) 0).trans (below k (by omega))

/-- The first `i` words of the high half are replaced as well. -/
private structure HighRight (a : CMpl) (n i : ℕ) (s : CMpl) : Prop where
  l_sign : s.l.sign = a.l.sign
  l_length : s.l.length = a.l.length
  low : ∀ k, k < a.l.length → s.l.wordAt k = a.wordOf (k + n)
  h_sign : s.h.sign = a.h.sign
  h_length : s.h.length = a.h.length
  inside : i ≤ a.h.length - n
  below : ∀ k, k < i → s.h.wordAt k = a.h.wordAt (k + n)
  above : ∀ k, i ≤ k → s.h.wordAt k = a.h.wordAt k

private theorem shifted_of_high {a : CMpl} (packed : a.Packed) {n i : ℕ} {s : CMpl} (high : HighRight a n i s)
    (last : i = a.h.length - n) (covers : a.l.length ≤ a.h.length + a.l.length - n) {h : CMpi} (sign : h.sign = a.h.sign)
    (length : h.length = i) (words : ∀ k, k < i → h.wordAt k = s.h.wordAt k) : ShiftedRight a n ⟨h, s.l⟩ := by
  have l_bounded := packed.l_bounded
  have full := packed.full
  have l_length := high.l_length
  refine shiftedRight_of_words (r := ⟨h, s.l⟩) packed high.l_sign sign ?_ ?_ ?_
  · exact show s.l.length = _ by omega
  · exact show h.length = _ by omega
  · intro k under
    unfold CMpl.wordOf
    dsimp only
    by_cases low : k < 8
    · have place : k < a.l.length := by omega
      have source := high.low k place
      rw [CMpl.wordOf] at source
      rw [if_pos low, source]
    · have same : k + n - 8 = k - 8 + n := by omega
      rw [if_neg low, if_neg (show ¬ k + n < 8 by omega), words (k - 8) (by omega), high.below (k - 8) (by omega), same]

private theorem highRight_run {a : CMpl} (packed : a.Packed) {n : ℕ} {s : CMpl} (low : LowRight a n a.l.length s) :
    ∃ o, Loop.upUntil (highWordRight n) s.h.length s = some o ∧
      Loop.Outcome (ShiftedRight a n) (ShiftedRight a n) o := by
  have h_bounded := packed.h_bounded
  have looped : ∃ o, Loop.upUntil (highWordRight n) a.h.length s = some o ∧
      Loop.Outcome (HighRight a n a.h.length) (ShiftedRight a n) o := by
    apply Loop.upUntil_rule (HighRight a n)
    · refine ⟨low.sign, low.length, low.below, low.h ▸ rfl, low.h ▸ rfl, Nat.zero_le _, fun k under => ?_, fun k _ => ?_⟩
      · exact absurd under (Nat.not_lt_zero k)
      · rw [low.h]
    · intro i s inside high
      have place : i < 8 := by omega
      unfold highWordRight
      rw [high.h_length]
      by_cases more : i + n < a.h.length
      · have source := get_eq s.h (show i + n < 8 by omega)
        rw [high.above (i + n) (by omega)] at source
        rw [if_pos more, source, Option.bind_eq_bind, Option.bind_some, put_eq s.h place,
          Option.bind_eq_bind, Option.bind_some]
        refine ⟨_, rfl, high.l_sign, high.l_length, high.low, high.h_sign, high.h_length, by omega, fun k under => ?_,
          fun k beyond => ?_⟩
        · by_cases here : k = i
          · subst here
            exact wordAt_set_self s.h place _
          · exact (wordAt_set_ne s.h here _).trans (high.below k (by omega))
        · exact (wordAt_set_ne s.h (by omega) _).trans (high.above k (by omega))
      · have reached := high.inside
        rw [if_neg more, put_eq s.h place, Option.bind_eq_bind, Option.bind_some]
        refine ⟨_, rfl, shifted_of_high packed high (by omega) low.inside high.h_sign rfl fun k under => ?_⟩
        exact wordAt_set_ne s.h (Nat.ne_of_lt under) 0
  obtain ⟨o, run, outcome⟩ := looped
  refine ⟨o, by rw [low.h]; exact run, ?_⟩
  cases o with
  | inl s =>
    have reached := outcome.inside
    have last : a.h.length = a.h.length - n := by omega
    exact shifted_of_high packed outcome last low.inside outcome.h_sign outcome.h_length fun _ _ => rfl
  | inr r => exact outcome

theorem wordShiftRight_run (a : CMpl) (n : ℕ) (packed : a.Packed) :
    ∃ r, a.wordShiftRight n = some r ∧ ShiftedRight a n r := by
  obtain ⟨o, run, outcome⟩ := lowRight_run packed n
  rw [wordShiftRight, run, Option.bind_eq_bind, Option.bind_some]
  cases o with
  | inr r => exact ⟨r, rfl, outcome⟩
  | inl s =>
    obtain ⟨o', run', outcome'⟩ := highRight_run packed outcome
    dsimp only
    rw [run', Option.bind_some]
    cases o' with
    | inl r => exact ⟨r, rfl, outcome'⟩
    | inr r => exact ⟨r, rfl, outcome'⟩

end CMpl

/-! The bit shift. -/

/-- A digit that is shifted by `j` bits, with the bits that come down from the next one. -/
def halved (j : ℕ) (f : ℕ → ℕ) (i : ℕ) : ℕ := f i / 2 ^ j + f (i + 1) % 2 ^ j * 2 ^ (32 - j)

theorem value_halved {j : ℕ} (small : j < 32) (f : ℕ → ℕ) {n : ℕ} (top : f n = 0) :
    Limbs.value radix (halved j f) n = Limbs.value radix f n / 2 ^ j := by
  have size : 2 ^ j * 2 ^ (32 - j) = radix := by
    rw [← pow_add, Nat.add_sub_cancel' small.le]
    rfl
  exact Limbs.value_div (Nat.two_pow_pos j) size f n top

namespace CMpi

theorem shiftRight_toNat (x : UInt32) {j : ℕ} (small : j < 32) : (x >>> UInt32.ofNat j).toNat = x.toNat / 2 ^ j := by
  have size : radix = 4294967296 := rfl
  have count : (UInt32.ofNat j).toNat % 32 = j := by
    rw [toNat_ofNat, size]
    omega
  rw [UInt32.toNat_shiftRight, count, Nat.shiftRight_eq_div_pow]

theorem shiftDown_toNat (x : UInt32) {j : ℕ} (positive : 0 < j) (small : j < 32) :
    (x <<< UInt32.ofNat (32 - j)).toNat = x.toNat % 2 ^ j * 2 ^ (32 - j) := by
  have size : radix = 2 ^ j * 2 ^ (32 - j) := by
    rw [← pow_add, Nat.add_sub_cancel' small.le]
    rfl
  rw [shiftLeft_digit x (show 32 - j < 32 by omega), size, Nat.mul_mod_mul_right]

theorem halved_toNat (x y : UInt32) {j : ℕ} (positive : 0 < j) (small : j < 32) :
    (x >>> UInt32.ofNat j + y <<< UInt32.ofNat (32 - j)).toNat = x.toNat / 2 ^ j + y.toNat % 2 ^ j * 2 ^ (32 - j) := by
  have size : 2 ^ 32 = 2 ^ j * 2 ^ (32 - j) := by rw [← pow_add, Nat.add_sub_cancel' small.le]
  have low : x.toNat / 2 ^ j < 2 ^ (32 - j) := by
    apply Nat.div_lt_of_lt_mul
    rw [← size]
    exact x.toNat_lt
  have high : y.toNat % 2 ^ j * 2 ^ (32 - j) + 2 ^ (32 - j) ≤ 2 ^ j * 2 ^ (32 - j) := by
    rw [← Nat.succ_mul]
    exact Nat.mul_le_mul_right _ (Nat.mod_lt _ (Nat.two_pow_pos j))
  have fits : x.toNat / 2 ^ j + y.toNat % 2 ^ j * 2 ^ (32 - j) < 2 ^ 32 := by omega
  rw [UInt32.toNat_add, shiftRight_toNat x small, shiftDown_toNat y positive small, Nat.mod_eq_of_lt fits]

private theorem bitsRight_run (a : CMpi) {j k : ℕ} (bounded : k ≤ 8) :
    ∃ r, Loop.up (bitsRight j) (k - 1) a = some r ∧ r.sign = a.sign ∧ r.length = a.length ∧ r.carry = a.carry ∧
      (∀ i, i < k - 1 → r.wordAt i = a.wordAt i >>> .ofNat j + a.wordAt (i + 1) <<< .ofNat (32 - j)) ∧
      ∀ i, k - 1 ≤ i → r.wordAt i = a.wordAt i := by
  apply Loop.up_rule fun m (r : CMpi) => r.sign = a.sign ∧ r.length = a.length ∧ r.carry = a.carry ∧
    (∀ i, i < m → r.wordAt i = a.wordAt i >>> .ofNat j + a.wordAt (i + 1) <<< .ofNat (32 - j)) ∧
    ∀ i, m ≤ i → r.wordAt i = a.wordAt i
  · exact ⟨rfl, rfl, rfl, fun i low => absurd low (Nat.not_lt_zero i), fun _ _ => rfl⟩
  · intro m r inside ⟨sign, length, carry, below, above⟩
    have first := get_eq r (show m < 8 by omega)
    have second := get_eq r (show m + 1 < 8 by omega)
    rw [above m (Nat.le_refl m)] at first
    rw [above (m + 1) (Nat.le_succ m)] at second
    simp only [bitsRight, first, second, Option.bind_eq_bind, Option.bind_some, put_eq r (show m < 8 by omega)]
    refine ⟨_, rfl, sign, length, carry, fun i low => ?_, fun i high => ?_⟩
    · by_cases here : i = m
      · subst here
        exact wordAt_set_self r (by omega) _
      · rw [wordAt_set_ne _ here, below i (by omega)]
    · rw [wordAt_set_ne _ (by omega), above i (by omega)]

structure Halved (a : CMpi) (j : ℕ) (r : CMpi) : Prop where
  sign : r.sign = a.sign
  bounded : r.length ≤ a.length
  limbs : ∀ i, r.limb i = halved j a.limb i
  trimmed : a.Trimmed → r.Trimmed
  blank : r.length = 0 → r.wordAt 0 = 0

theorem halved_outside (a : CMpi) (j : ℕ) {i : ℕ} (outside : a.length ≤ i) : halved j a.limb i = 0 := by
  rw [halved, a.limb_outside outside, a.limb_outside (Nat.le_succ_of_le outside), Nat.zero_div, Nat.zero_mod, Nat.zero_mul]

private theorem halved_of_words {a r : CMpi} {j k : ℕ} (positive : 0 < j) (small : j < 32) (length : a.length = k + 1)
    (sign : r.sign = a.sign) (r_length : r.length = if a.wordAt k >>> .ofNat j = 0 then k else k + 1)
    (below : ∀ i, i < k → r.wordAt i = a.wordAt i >>> .ofNat j + a.wordAt (i + 1) <<< .ofNat (32 - j))
    (top : r.wordAt k = a.wordAt k >>> .ofNat j) : Halved a j r := by
  have last : halved j a.limb k = (a.wordAt k >>> .ofNat j).toNat := by
    rw [halved, a.limb_inside (show k < a.length by omega), a.limb_outside (show a.length ≤ k + 1 by omega), Nat.zero_mod,
      Nat.zero_mul, Nat.add_zero, shiftRight_toNat _ small]
    rfl
  have middle (i : ℕ) (inside : i < k) : (r.wordAt i).toNat = halved j a.limb i := by
    rw [below i inside, halved_toNat _ _ positive small, halved, a.limb_inside (show i < a.length by omega),
      a.limb_inside (show i + 1 < a.length by omega)]
    rfl
  have limbs (i : ℕ) : r.limb i = halved j a.limb i := by
    by_cases zero : a.wordAt k >>> .ofNat j = 0
    · rw [if_pos zero] at r_length
      by_cases inside : i < k
      · rw [r.limb_inside (r_length ▸ inside)]
        exact middle i inside
      · rw [r.limb_outside (by omega)]
        rcases Nat.eq_or_lt_of_le (Nat.not_lt.mp inside) with rfl | above
        · rw [last, zero]
          rfl
        · rw [a.halved_outside j (by omega)]
    · rw [if_neg zero] at r_length
      by_cases inside : i < k
      · rw [r.limb_inside (by omega)]
        exact middle i inside
      · rcases Nat.eq_or_lt_of_le (Nat.not_lt.mp inside) with rfl | above
        · rw [r.limb_inside (by omega), last, ← top]
          rfl
        · rw [r.limb_outside (by omega), a.halved_outside j (by omega)]
  refine ⟨sign, by split_ifs at r_length <;> omega, limbs, fun trimmed i size => ?_, fun empty => ?_⟩
  · rw [← r.limb_inside (show i < r.length by omega), limbs]
    by_cases zero : a.wordAt k >>> .ofNat j = 0
    · rw [if_pos zero] at r_length
      -- the bits of the word that is given up come down into the new top word
      have given : a.digit k / 2 ^ j = 0 := by
        rw [digit, ← shiftRight_toNat _ small, zero]
        rfl
      have low : a.digit k < 2 ^ j := (Nat.div_eq_zero_iff_lt (Nat.two_pow_pos j)).mp given
      have next : i + 1 = k := by omega
      have some_ : 0 < a.digit k * 2 ^ (32 - j) :=
        Nat.mul_pos (Nat.pos_of_ne_zero (trimmed k length)) (Nat.two_pow_pos _)
      rw [halved, next, a.limb_inside (show k < a.length by omega), Nat.mod_eq_of_lt low]
      exact Nat.ne_of_gt (Nat.lt_of_lt_of_le some_ (Nat.le_add_left _ _))
    · rw [if_neg zero] at r_length
      obtain rfl : i = k := by omega
      rw [last]
      exact fun nothing => zero (UInt32.toNat_inj.mp nothing)
  · by_cases zero : a.wordAt k >>> .ofNat j = 0
    · rw [if_pos zero, empty] at r_length
      subst r_length
      rw [top, zero]
    · rw [if_neg zero] at r_length
      omega

theorem bitsRight_halved (a : CMpi) {j : ℕ} (positive : 0 < j) (small : j < 32) (some_ : 0 < a.length)
    (bounded : a.length ≤ 8) :
    ∃ r, (Loop.up (bitsRight j) (a.length - 1) a).bind (topBitsRight j) = some r ∧ Halved a j r := by
  obtain ⟨k, length⟩ := Nat.exists_eq_succ_of_ne_zero (Nat.ne_of_gt some_)
  rw [Nat.succ_eq_add_one] at length
  obtain ⟨s, run, sign, s_length, -, below, above⟩ := bitsRight_run a (j := j) bounded
  have last : a.length - 1 = k := by omega
  rw [last] at below above
  have place : k < 8 := by omega
  refine ⟨{ s.set k (s.wordAt k >>> .ofNat j) with length := if s.wordAt k >>> .ofNat j = 0 then k else k + 1 }, ?_, ?_⟩
  · have nonzero : s.length ≠ 0 := by omega
    have end_ : s.length - 1 = k := by omega
    rw [run, Option.bind_some, topBitsRight, if_neg nonzero, end_, get_eq s place, Option.bind_eq_bind, Option.bind_some,
      put_eq s place, Option.bind_eq_bind, Option.bind_some]
    dsimp only [set_length]
    rw [end_, get_eq _ place, Option.bind_some, wordAt_set_self s place, s_length, length]
  · have same := above k (Nat.le_refl k)
    refine halved_of_words positive small length ?_ ?_ ?_ ?_
    · exact sign
    · dsimp only
      rw [same]
    · intro i inside
      exact (wordAt_set_ne s (Nat.ne_of_lt inside) _).trans (below i inside)
    · exact (wordAt_set_self s place _).trans (by rw [same])

theorem shift_split (v s : ℕ) : v / radix ^ (s / 32) / 2 ^ (s % 32) = v / 2 ^ s := by
  have size : radix = 2 ^ 32 := rfl
  rw [size, ← pow_mul, Nat.div_div_eq_div_mul, ← pow_add, Nat.div_add_mod]

structure Dropped (a : CMpi) (n : ℕ) (r : CMpi) : Prop where
  sign : r.sign = a.sign
  length : r.length = a.length - n
  limbs : ∀ i, r.limb i = a.limb (i + n)
  above : ∀ i, r.length ≤ i → r.wordAt i = a.wordAt i

theorem Dropped.trimmed {a r : CMpi} {n : ℕ} (dropped : Dropped a n r) (trimmed : a.Trimmed) : r.Trimmed := by
  intro i size
  have length := dropped.length
  rw [← r.limb_inside (show i < r.length by omega), dropped.limbs, a.limb_inside (show i + n < a.length by omega)]
  exact trimmed (i + n) (by omega)

theorem wordShiftRight_run (a : CMpi) (n : ℕ) (junk : CMpl) (bounded : a.length ≤ 8) :
    ∃ r, a.wordShiftRight n junk = some r ∧ Dropped a n r := by
  obtain ⟨h, h_run, -, -, h_length, -⟩ := assignD_run junk.h 0
  obtain ⟨l, l_run, same, -⟩ := assign_run a junk.l bounded
  rw [if_pos rfl] at h_length
  have l_length := same.length
  have packed : (CMpl.mk h l).Packed := ⟨l_length ▸ bounded, h_length ▸ Nat.zero_le 8, .inr h_length⟩
  obtain ⟨t, t_run, shifted⟩ := CMpl.wordShiftRight_run ⟨h, l⟩ n packed
  obtain ⟨r, r_run, r_same, -, above⟩ := assign_run t.l a shifted.l_bounded
  have total : t.h.length + t.l.length = h.length + l.length - n := shifted.total
  refine ⟨{ r with carry := 0 }, ?_, ?_, ?_, fun i => ?_, fun i outside => above i (r_same.length ▸ outside)⟩
  · rw [wordShiftRight, h_run, Option.bind_eq_bind, Option.bind_some, l_run, Option.bind_some, t_run,
      Option.bind_eq_bind, Option.bind_some, truncate, r_run]
    rfl
  · exact r_same.sign.trans (shifted.l_sign.trans same.sign)
  · have length : r.length = t.l.length := r_same.length
    have full := shifted.full
    exact show r.length = a.length - n by omega
  · have limb : r.limb i = t.l.limb i := r_same.limb i
    have whole : ({ r with carry := 0 } : CMpi).limb i = r.limb i := rfl
    have t_bounded := shifted.l_bounded
    rw [whole, limb]
    by_cases low : i < 8
    · have moved : t.limb i = (CMpl.mk h l).limb (i + n) := shifted.limbs i
      rw [CMpl.limb, if_pos low] at moved
      rw [moved, CMpl.limb]
      split
      · exact same.limb (i + n)
      · rw [limb_outside h (h_length ▸ Nat.zero_le _), limb_outside a (by omega)]
    · rw [limb_outside t.l (by omega), limb_outside a (by omega)]

theorem wordsRight_run (a : CMpi) (n : ℕ) (junk : CMpl) (bounded : a.length ≤ 8) :
    ∃ r, (if n ≠ 0 then a.wordShiftRight n junk else some a) = some r ∧ Dropped a n r := by
  by_cases zero : n = 0
  · rw [if_neg (not_not.mpr zero), zero]
    exact ⟨a, rfl, rfl, rfl, fun _ => rfl, fun _ _ => rfl⟩
  · rw [if_pos zero]
    exact a.wordShiftRight_run n junk bounded

structure Quotient (a : CMpi) (s : ℕ) (r : CMpi) : Prop where
  sign : r.sign = a.sign
  bounded : r.length ≤ a.length
  value : r.abs = a.abs / 2 ^ s
  trimmed : a.Trimmed → r.Trimmed

theorem bitShiftRight_run (a : CMpi) (s : ℕ) (junk : CMpl) (bounded : a.length ≤ 8)
    (reaches : s % 32 = 0 ∨ s / 32 < a.length) : ∃ r, a.bitShiftRight s junk = some r ∧ Quotient a s r := by
  obtain ⟨b, run, dropped⟩ := a.wordsRight_run (s / 32) junk bounded
  have length := dropped.length
  have words : Limbs.value radix b.limb 8 = a.abs / radix ^ (s / 32) := by
    rw [a.abs_eq_value bounded, ← Limbs.value_drop radix_pos (fun i _ => a.limb_lt i) fun i above =>
      a.limb_outside (Nat.le_trans bounded above)]
    exact Limbs.value_congr fun i _ => dropped.limbs i
  rw [bitShiftRight, run, Option.bind_eq_bind, Option.bind_some]
  by_cases zero : s % 32 = 0
  · simp only [zero, if_true]
    refine ⟨b, rfl, dropped.sign, by omega, ?_, dropped.trimmed⟩
    rw [b.abs_eq_value (show b.length ≤ 8 by omega), words, ← shift_split, zero, pow_zero, Nat.div_one]
  · simp only [zero, if_false]
    have small : s % 32 < 32 := Nat.mod_lt s (by decide)
    obtain ⟨r, r_run, halved⟩ := b.bitsRight_halved (Nat.pos_of_ne_zero zero) small (by omega) (by omega)
    have r_bounded := halved.bounded
    refine ⟨r, r_run, halved.sign.trans dropped.sign, by omega, ?_, fun trimmed => halved.trimmed (dropped.trimmed trimmed)⟩
    rw [r.abs_eq_value (show r.length ≤ 8 by omega), Limbs.value_congr fun i _ => halved.limbs i,
      value_halved small _ (b.limb_outside (show b.length ≤ 8 by omega)), words, shift_split]

theorem bitShiftRight_empty (a : CMpi) (s : ℕ) (junk : CMpl) (bounded : a.length ≤ 8) (bits : s % 32 ≠ 0)
    (beyond : a.length ≤ s / 32) : a.bitShiftRight s junk = none := by
  obtain ⟨b, run, dropped⟩ := a.wordsRight_run (s / 32) junk bounded
  have empty : b.length = 0 := by
    rw [dropped.length]
    omega
  rw [bitShiftRight, run, Option.bind_eq_bind, Option.bind_some]
  simp only [if_neg bits, empty]
  exact if_pos empty

end CMpi

namespace CMpl

theorem wordsRight_run (a : CMpl) (n : ℕ) (packed : a.Packed) :
    ∃ r, (if n ≠ 0 then a.wordShiftRight n else some a) = some r ∧ ShiftedRight a n r := by
  by_cases zero : n = 0
  · rw [if_neg (not_not.mpr zero), zero]
    exact ⟨a, rfl, packed, rfl, rfl, rfl, fun _ => rfl⟩
  · rw [if_pos zero]
    exact a.wordShiftRight_run n packed

private theorem lowBits_run {a : CMpl} (packed : a.Packed) {j : ℕ} (positive : 0 < j) (small : j < 32)
    (some_ : 0 < a.l.length) :
    ∃ l, ((Loop.up (bitsRight j) (a.l.length - 1) a.l).bind fun l =>
        if a.l.length < 8 then l.topBitsRight j
        else do
          let l ← l.put (l.length - 1) ((← l.get (l.length - 1)) >>> .ofNat j)
          if 0 < a.h.length then
            l.put (l.length - 1) ((← l.get (l.length - 1)) + (← a.h.get 0) <<< .ofNat (32 - j))
          else some l) = some l ∧
      l.sign = a.l.sign ∧ l.length ≤ 8 ∧ (a.l.length = 8 → l.length = 8) ∧
        (∀ i, i < 8 → l.limb i = halved j a.limb i) ∧ (a.l.length < 8 → a.l.Trimmed → l.Trimmed) := by
  have l_bounded := packed.l_bounded
  by_cases short : a.l.length < 8
  · have empty : a.h.length = 0 := packed.full.resolve_left (Nat.ne_of_lt short)
    obtain ⟨l, run, result⟩ := a.l.bitsRight_halved positive small some_ l_bounded
    simp only [if_pos short]
    refine ⟨l, run, result.sign, Nat.le_trans result.bounded l_bounded, fun full => absurd full (Nat.ne_of_lt short),
      fun i inside => ?_, fun _ => result.trimmed⟩
    rw [result.limbs, halved, halved, limb, if_pos inside]
    by_cases next : i + 1 < 8
    · rw [limb, if_pos next]
    · rw [a.l.limb_outside (show a.l.length ≤ i + 1 by omega), limb, if_neg next, a.h.limb_outside (by omega)]
  · have full : a.l.length = 8 := by omega
    obtain ⟨s, run, sign, length, -, below, above⟩ := bitsRight_run a.l (j := j) l_bounded
    have last : s.length - 1 = 7 := by omega
    have place : 7 < 8 := by decide
    have top := above 7 (by omega)
    have carried (w : UInt32) : (a.l.wordAt 7 >>> UInt32.ofNat j + w <<< UInt32.ofNat (32 - j)).toNat =
        a.l.digit 7 / 2 ^ j + w.toNat % 2 ^ j * 2 ^ (32 - j) := halved_toNat _ _ positive small
    have limbs {l : CMpi} (l_length : l.length = 8) (words : ∀ i, i < 7 → l.wordAt i = s.wordAt i)
        (seventh : l.digit 7 = a.l.digit 7 / 2 ^ j + a.limb 8 % 2 ^ j * 2 ^ (32 - j)) :
        ∀ i, i < 8 → l.limb i = halved j a.limb i := by
      intro i inside
      rw [l.limb_inside (l_length ▸ inside), halved, limb, if_pos inside, a.l.limb_inside (full ▸ inside)]
      by_cases under : i < 7
      · rw [limb, if_pos (show i + 1 < 8 by omega), a.l.limb_inside (show i + 1 < a.l.length by omega), digit,
          words i under, below i (by omega), halved_toNat _ _ positive small]
        rfl
      · obtain rfl : i = 7 := by omega
        exact seventh
    rw [run, Option.bind_some, if_neg short, last, get_eq s place, Option.bind_eq_bind, Option.bind_some, put_eq s place,
      Option.bind_eq_bind, Option.bind_some]
    by_cases high : 0 < a.h.length
    · have first : a.limb 8 = (a.h.wordAt 0).toNat := by
        rw [limb, if_neg (Nat.lt_irrefl 8)]
        exact a.h.limb_inside high
      rw [if_pos high, set_length, last, get_eq _ place, wordAt_set_self s place, Option.bind_some,
        get_eq a.h (show 0 < 8 by decide), Option.bind_some, put_eq _ place]
      refine ⟨_, rfl, sign, Nat.le_of_eq (length.trans full), fun _ => length.trans full, limbs (length.trans full) ?_ ?_,
        fun less => absurd less short⟩
      · intro i under
        rw [wordAt_set_ne _ (Nat.ne_of_lt under), wordAt_set_ne _ (Nat.ne_of_lt under)]
      · rw [digit_set_self _ place, top, carried, first]
    · have none_ : a.limb 8 = 0 := by
        rw [limb, if_neg (Nat.lt_irrefl 8)]
        exact a.h.limb_outside (Nat.not_lt.mp high)
      rw [if_neg high]
      refine ⟨_, rfl, sign, Nat.le_of_eq (length.trans full), fun _ => length.trans full, limbs (length.trans full) ?_ ?_,
        fun less => absurd less short⟩
      · exact fun i under => wordAt_set_ne s (Nat.ne_of_lt under) _
      · rw [digit_set_self _ place, top, shiftRight_toNat _ small, none_, Nat.zero_mod, Nat.zero_mul, Nat.add_zero]
        rfl

/-- The quotient of a number of two halves by a power of two. -/
structure Quotient (a : CMpl) (s : ℕ) (r : CMpl) : Prop extends Packed r where
  l_sign : r.l.sign = a.l.sign
  h_sign : r.h.sign = a.h.sign
  value : r.abs = a.abs / 2 ^ s

private theorem bits_run {a : CMpl} (packed : a.Packed) {j : ℕ} (positive : 0 < j) (small : j < 32)
    (some_ : 0 < a.l.length) :
    ∃ r, (do
      let l ← Loop.up (bitsRight j) (a.l.length - 1) a.l
      let l ← (if a.l.length < 8 then l.topBitsRight j
        else do
          let l ← l.put (l.length - 1) ((← l.get (l.length - 1)) >>> .ofNat j)
          if 0 < a.h.length then
            l.put (l.length - 1) ((← l.get (l.length - 1)) + (← a.h.get 0) <<< .ofNat (32 - j))
          else some l)
      let h ← (if 0 < a.h.length then do
          let h ← Loop.up (bitsRight j) (a.h.length - 1) a.h
          h.topBitsRight j
        else some a.h)
      some (CMpl.mk h l)) = some r ∧ Quotient a j r ∧ (a.Loose → r.Loose) := by
  have h_bounded := packed.h_bounded
  obtain ⟨l, l_run, l_sign, l_bounded, full, l_limbs, l_trimmed⟩ := lowBits_run packed positive small some_
  obtain ⟨h, h_run, h_sign, h_length, h_limbs, h_trimmed⟩ : ∃ h, (if 0 < a.h.length then
      (Loop.up (bitsRight j) (a.h.length - 1) a.h).bind (topBitsRight j) else some a.h) = some h ∧
        h.sign = a.h.sign ∧ h.length ≤ a.h.length ∧ (∀ i, h.limb i = halved j a.h.limb i) ∧
        (a.h.Trimmed → h.Trimmed) := by
    by_cases high : 0 < a.h.length
    · obtain ⟨h, run, result⟩ := a.h.bitsRight_halved positive small high h_bounded
      rw [if_pos high]
      exact ⟨h, run, result.sign, result.bounded, result.limbs, result.trimmed⟩
    · rw [if_neg high]
      refine ⟨a.h, rfl, rfl, Nat.le_refl _, fun i => ?_, id⟩
      have empty : a.h.length ≤ i := by omega
      rw [a.h.limb_outside empty, a.h.halved_outside j empty]
  have result : (CMpl.mk h l).Packed := by
    refine ⟨l_bounded, Nat.le_trans h_length h_bounded, ?_⟩
    rcases packed.full with whole | empty
    · exact .inl (full whole)
    · exact .inr (Nat.le_zero.mp (empty ▸ h_length))
  refine ⟨⟨h, l⟩, ?_, ⟨result, l_sign, h_sign, ?_⟩, fun loose => ⟨result, h_trimmed loose.h_trimmed, ?_⟩⟩
  · rw [Option.bind_eq_bind, ← Option.bind_assoc, l_run, Option.bind_some]
    exact (congrArg (Option.bind · _) h_run).trans rfl
  · have limbs (i : ℕ) (inside : i < 16) : (CMpl.mk h l).limb i = halved j a.limb i := by
      by_cases low : i < 8
      · rw [limb, if_pos low]
        exact l_limbs i low
      · have next : i + 1 - 8 = i - 8 + 1 := by omega
        rw [limb, if_neg low, h_limbs, halved, halved, limb, if_neg low, limb, if_neg (show ¬ i + 1 < 8 by omega), next]
    have top : a.limb 16 = 0 := by
      rw [limb, if_neg (by decide)]
      exact a.h.limb_outside h_bounded
    rw [abs_eq_value _ result.l_bounded result.h_bounded, Limbs.value_congr limbs, value_halved small _ top,
      abs_eq_value a packed.l_bounded h_bounded]
  · rcases loose.loose with whole | trimmed
    · exact .inl (full whole)
    · by_cases short : a.l.length < 8
      · exact .inr (l_trimmed short trimmed)
      · exact .inl (full (Nat.le_antisymm packed.l_bounded (Nat.not_lt.mp short)))

theorem bitShiftRight_run (a : CMpl) (s : ℕ) (packed : a.Packed)
    (reaches : s % 32 = 0 ∨ s / 32 < a.h.length + a.l.length) :
    ∃ r, a.bitShiftRight s = some r ∧ Quotient a s r := by
  obtain ⟨b, run, shifted⟩ := a.wordsRight_run (s / 32) packed
  have total := shifted.total
  have words : b.abs = a.abs / radix ^ (s / 32) := by
    rw [abs_eq_value b shifted.l_bounded shifted.h_bounded, abs_eq_value a packed.l_bounded packed.h_bounded,
      ← Limbs.value_drop radix_pos]
    · exact Limbs.value_congr fun i _ => shifted.limbs i
    · intro i _
      unfold limb
      split
      · exact a.l.limb_lt i
      · exact a.h.limb_lt (i - 8)
    · have l_bounded := packed.l_bounded
      have h_bounded := packed.h_bounded
      exact fun i above => limb_outside packed (by omega)
  rw [bitShiftRight, run, Option.bind_eq_bind, Option.bind_some]
  by_cases zero : s % 32 = 0
  · simp only [zero, if_true]
    refine ⟨b, rfl, shifted.toPacked, shifted.l_sign, shifted.h_sign, ?_⟩
    rw [words, ← shift_split, zero, pow_zero, Nat.div_one]
  · have small : s % 32 < 32 := Nat.mod_lt s (by decide)
    have some_ : 0 < b.l.length := by
      rcases shifted.full with full | empty
      · omega
      · omega
    obtain ⟨r, r_run, quotient, -⟩ := bits_run shifted.toPacked (Nat.pos_of_ne_zero zero) small some_
    simp only [if_neg zero]
    refine ⟨r, r_run, quotient.toPacked, quotient.l_sign.trans shifted.l_sign, quotient.h_sign.trans shifted.h_sign, ?_⟩
    rw [quotient.value, words, shift_split]

theorem bitShiftRight_loose (a : CMpl) {s : ℕ} (loose : a.Loose) (positive : 0 < s) (small : s < 32)
    (some_ : 0 < a.l.length) : ∃ r, a.bitShiftRight s = some r ∧ Quotient a s r ∧ r.Loose := by
  obtain ⟨r, run, quotient, kept⟩ := bits_run loose.toPacked positive small some_
  refine ⟨r, ?_, quotient, kept loose⟩
  have whole : s / 32 = 0 := Nat.div_eq_of_lt small
  rw [bitShiftRight, if_neg (not_not.mpr whole), Option.bind_eq_bind, Option.bind_some, Nat.mod_eq_of_lt small]
  dsimp only
  rw [if_neg (Nat.ne_of_gt positive)]
  exact run

theorem bitShiftRight_empty (a : CMpl) (s : ℕ) (packed : a.Packed) (bits : s % 32 ≠ 0)
    (beyond : a.h.length + a.l.length ≤ s / 32) : a.bitShiftRight s = none := by
  obtain ⟨b, run, shifted⟩ := a.wordsRight_run (s / 32) packed
  have total := shifted.total
  have empty : b.l.length = 0 := by omega
  have loop (l : CMpi) (length : l.length = 0) : l.topBitsRight (s % 32) = none := if_pos length
  rw [bitShiftRight, run, Option.bind_eq_bind, Option.bind_some]
  simp only [if_neg bits, empty]
  change ((some b.l).bind fun l => (if 0 < 8 then l.topBitsRight (s % 32) else _).bind _) = none
  rw [Option.bind_some, if_pos (by decide), loop b.l empty, Option.bind_none]

end CMpl
end MyTools.Mpi
