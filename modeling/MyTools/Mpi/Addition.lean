import MyTools.Mpi.Number

/-! Addition and subtraction of signed numbers, and of numbers of two halves. -/
namespace MyTools.Mpi
open Library

namespace CMpi

/-- The addition proper, for operands of one sign. -/
def addAligned (a b : CMpi) : Option CMpi := do
  let j := min a.length b.length
  let (a, direg) ← Loop.up (fun i (s : CMpi × ℕ) => do
    let direg := s.2 + (← s.1.get i).toNat + (← b.get i).toNat
    some (← s.1.put i (.ofNat direg), direg / radix)) j (a, 0)
  let (a, direg) ← (if b.length < a.length then
      Loop.up (fun k (s : CMpi × ℕ) => do
        let direg := s.2 + (← s.1.get (j + k)).toNat
        some (← s.1.put (j + k) (.ofNat direg), direg / radix)) (a.length - j) (a, direg)
    else
      Loop.up (fun k (s : CMpi × ℕ) => do
        let direg := s.2 + (← b.get (j + k)).toNat
        some (← s.1.put (j + k) (.ofNat direg), direg / radix)) (b.length - j) (a, direg))
  let j := max a.length b.length
  if j = 8 then some { a with carry := .ofNat direg, length := j }
  else do
    let a ← a.put j (.ofNat direg)
    some { a with length := if (← a.get j) ≠ 0 then j + 1 else j }

/-- The word after the last one is the carry. -/
def getPast (a : CMpi) (i : ℕ) : Option UInt32 := if i = 8 then some a.carry else a.get i

/-- `for (i = j - 1; i >= 0; i--) if (a->m_aiMyInt[i]) break;` and then `i + 1`. -/
def topLength (a : CMpi) (j : ℕ) : Option ℕ :=
  Loop.scan (fun i => do if (← a.get i) ≠ 0 then some (some (i + 1)) else some none) 0 j

/-- Store word `i` and bring in the next word of the minuend. -/
def storeWord (pm1 : CMpi → CMpi) (i : ℕ) (a : CMpi) (direg : ℕ) : Option (CMpi × ℕ) := do
  let a ← a.put i (.ofNat direg)
  some (a, direg / radix + (← (pm1 a).getPast (i + 1)).toNat + 0xffffffff)

/-- The subtraction proper, for operands of one sign; the pointers tell which one is taken off. -/
def substractAligned (a b : CMpi) : Option CMpi := do
  let larger ← b.largerThanAbs a
  let pm1 (a : CMpi) : CMpi := if larger then b else a
  let pm2 (a : CMpi) : CMpi := if larger then a else b
  let len2 := if larger then a.length else b.length
  let j := max a.length b.length
  let a := { a with sign := if larger then b.sign.opposite else a.sign }
  let direg := 0x100000000 + (← (pm1 a).get 0).toNat
  let (a, direg) ← Loop.up (fun i (s : CMpi × ℕ) => do
    storeWord pm1 i s.1 (s.2 - (← (pm2 s.1).get i).toNat)) len2 (a, direg)
  let (a, _) ← Loop.up (fun k (s : CMpi × ℕ) => storeWord pm1 (len2 + k) s.1 s.2) (j - len2) (a, direg)
  some { a with length := ← a.topLength j }

/-- `CMpi_Add`; `temp` is what its local variable holds before it is assigned. The signs that
`CMpi_Substract` compares are the same by then. -/
def add (a b temp : CMpi) : Option CMpi := do
  let a := { a with carry := 0 }
  if a.sign = b.sign then a.addAligned b
  else if a.sign = .positive then a.substractAligned (← b.negate temp)
  else do
    let temp ← a.negate temp
    (← b.assign a).substractAligned temp

/-- `CMpi_Substract`; the signs that `CMpi_Add` compares are the same by then. -/
def substract (a b temp : CMpi) : Option CMpi := do
  let a := { a with carry := 0 }
  if a.sign ≠ b.sign then a.addAligned (← b.negate temp)
  else a.substractAligned b

end CMpi

namespace CMpl

/-- Halves of one sign: the carry of the low half goes into the high half. -/
def carryOver (h l junk : CMpi) : Option (CMpi × CMpi) :=
  if l.carry ≠ 0 then do
    let o ← junk.assignD l.carry
    let h ← h.add { o with sign := l.sign } junk
    some (h, { l with carry := 0 })
  else some (h, l)

/-- Halves of different signs: 2 ^ 256 is taken off the high half and put into the low half. -/
def evenOut (h l junk : CMpi) : Option (CMpi × CMpi) := do
  let o := { junk with word := .replicate 8 0xffffffff, length := 8, sign := h.sign }
  let l ← l.add o junk
  let o ← o.put 1 0
  let o ← o.put 0 1
  let o := { o with length := 1, sign := h.sign }
  let l ← l.add o junk
  let h ← h.substract o junk
  some (h, l)

/-- What `CMpl_Add` and `CMpl_Addi` do after the addition of the halves. -/
def reconcile (a : CMpl) (junk : CMpi) : Option CMpl := do
  let empty ← a.h.equalsToD 0
  let h := if empty then { a.h with sign := a.l.sign } else a.h
  let (h, l) ← if a.l.sign = h.sign then carryOver h a.l junk else evenOut h a.l junk
  let empty ← h.equalsToD 0
  some ⟨h, if l.length < 8 ∧ empty = false then { l with length := 8 } else l⟩

def add (a b : CMpl) (junk : CMpi) : Option CMpl := do
  let l ← a.l.add b.l junk
  let h ← a.h.add b.h junk
  reconcile ⟨h, l⟩ junk

def addi (a : CMpl) (b junk : CMpi) : Option CMpl := do
  let l ← a.l.add b junk
  reconcile ⟨a.h, l⟩ junk

def substract (a b : CMpl) (junk : CMpl) : Option CMpl := do
  let h ← b.h.assign junk.h
  let l ← b.l.assign junk.l
  let sign := if b.l.sign = .positive then Sign.negtive else .positive
  a.add ⟨{ h with sign }, { l with sign }⟩ junk.l

end CMpl

namespace CMpi

/-! The addition of magnitudes. -/

/-- The first `i` words are added: `direg` carries into word `i`, and from there on `a` is as it was. -/
private structure Added (a b : CMpi) (i : ℕ) (s : CMpi × ℕ) : Prop where
  fields : s.1.sign = a.sign ∧ s.1.length = a.length ∧ s.1.carry = a.carry
  above : ∀ k, i ≤ k → s.1.wordAt k = a.wordAt k
  carried : s.2 ≤ 1
  sum : Limbs.value radix s.1.digit i + s.2 * radix ^ i = Limbs.value radix a.limb i + Limbs.value radix b.limb i

private theorem added_start (a b : CMpi) : Added a b 0 (a, 0) :=
  ⟨⟨rfl, rfl, rfl⟩, fun _ _ => rfl, Nat.zero_le 1, rfl⟩

theorem value_set (a : CMpi) {i : ℕ} (inside : i < 8) (x : UInt32) :
    Limbs.value radix (a.set i x).digit (i + 1) = Limbs.value radix a.digit i + x.toNat * radix ^ i := by
  rw [Limbs.value_succ, a.digit_set_self inside,
    Limbs.value_congr fun j below => a.digit_set_ne (Nat.ne_of_lt below) x]

private theorem added_step {a b : CMpi} {i : ℕ} {s : CMpi × ℕ} (added : Added a b i s) (inside : i < 8) :
    Added a b (i + 1) (s.1.set i (.ofNat (s.2 + a.limb i + b.limb i)), (s.2 + a.limb i + b.limb i) / radix) := by
  obtain ⟨fields, above, carried, sum⟩ := added
  have a_limb := a.limb_lt i
  have b_limb := b.limb_lt i
  refine ⟨fields, fun k later => ?_, ?_, ?_⟩
  · rw [wordAt_set_ne _ (Nat.ne_of_gt later), above k (Nat.le_of_succ_le later)]
  · apply Nat.lt_succ_iff.mp
    apply Nat.div_lt_of_lt_mul
    omega
  · have parts := Nat.div_add_mod (s.2 + a.limb i + b.limb i) radix
    rw [value_set _ inside, toNat_ofNat, Limbs.value_succ, Limbs.value_succ, pow_succ]
    calc _ = Limbs.value radix s.1.digit i +
          (radix * ((s.2 + a.limb i + b.limb i) / radix) + (s.2 + a.limb i + b.limb i) % radix) * radix ^ i := by ring
      _ = (Limbs.value radix s.1.digit i + s.2 * radix ^ i) + a.limb i * radix ^ i + b.limb i * radix ^ i := by
        rw [parts]; ring
      _ = _ := by rw [sum]; ring

theorem toNat_wordAt (a : CMpi) (i : ℕ) : (a.wordAt i).toNat = a.digit i := rfl

/-- The sum of the magnitudes, with the carry as word eight. -/
structure Sum (a b r : CMpi) : Prop where
  sign : r.sign = a.sign
  bounded : r.length ≤ 8
  longer : max a.length b.length ≤ r.length
  short : r.length ≤ max a.length b.length + 1
  grown : r.length = max a.length b.length ∨ radix ^ max a.length b.length ≤ r.abs
  value : r.abs + r.carry.toNat * radix ^ 8 = a.abs + b.abs
  carried : r.length < 8 → r.carry = 0
  above : ∀ k, r.length ≤ k → r.wordAt k = a.wordAt k ∨ r.wordAt k = 0

private theorem sum_of_added {a b : CMpi} {j : ℕ} (last : max a.length b.length = j) (bounded : j ≤ 8)
    (clear : a.carry = 0) {a' : CMpi} {direg : ℕ} (added : Added a b j (a', direg)) :
    ∃ r, (if j = 8 then some { a' with carry := .ofNat direg, length := j }
      else do
        let a ← a'.put j (.ofNat direg)
        some { a with length := if (← a.get j) ≠ 0 then j + 1 else j }) = some r ∧ Sum a b r := by
  obtain ⟨⟨sign, length, carry⟩, above, carried, sum⟩ := added
  dsimp only at sign length carry above carried sum
  have total : Limbs.value radix a.limb j + Limbs.value radix b.limb j = a.abs + b.abs := by
    rw [a.abs_eq_value (last ▸ Nat.le_max_left _ _), b.abs_eq_value (last ▸ Nat.le_max_right _ _)]
  have small : (UInt32.ofNat direg).toNat = direg := by
    rw [toNat_ofNat, Nat.mod_eq_of_lt (Nat.lt_of_le_of_lt carried (by decide))]
  have empty : (0 : UInt32).toNat = 0 := rfl
  rw [total] at sum
  by_cases full : j = 8
  · rw [if_pos full]
    refine ⟨_, rfl, sign, bounded, Nat.le_of_eq last, last ▸ Nat.le_succ j, .inl last.symm, ?_, fun less => ?_,
      fun k outside => ?_⟩
    · rw [abs_resize, small, ← full, sum]
    · exact absurd (full ▸ less) (Nat.lt_irrefl 8)
    · exact .inl (above k outside)
  · have below : j < 8 := Nat.lt_of_le_of_ne bounded full
    simp only [if_neg full, put_eq _ below, Option.bind_eq_bind, Option.bind_some, get_eq _ below,
      wordAt_set_self _ below]
    refine ⟨_, rfl, ?_⟩
    by_cases one : UInt32.ofNat direg = 0
    · have zero : direg = 0 := by rw [← small, one, empty]
      have same : Limbs.value radix (a'.set j 0).digit j = Limbs.value radix a'.digit j :=
        Limbs.value_congr fun k less => digit_set_ne _ (Nat.ne_of_lt less) _
      rw [zero, Nat.zero_mul, Nat.add_zero] at sum
      simp only [one, ne_eq, not_true_eq_false, if_false]
      refine ⟨sign, bounded, Nat.le_of_eq last, last ▸ Nat.le_succ j, .inl last.symm, ?_, fun _ => carry.trans clear,
        fun k outside => ?_⟩
      · rw [abs_resize, same, sum, set_carry, carry, clear, empty, Nat.zero_mul, Nat.add_zero]
      · rcases Nat.eq_or_lt_of_le outside with rfl | later
        · exact .inr (wordAt_set_self _ below _)
        · exact .inl ((wordAt_set_ne _ (Nat.ne_of_gt later) _).trans (above k outside))
    · have positive : 0 < direg := by
        rw [← small]
        exact Nat.pos_of_ne_zero fun zero => one (UInt32.toNat_inj.mp zero)
      simp only [ne_eq, one, not_false_eq_true, if_true]
      refine ⟨sign, below, last ▸ Nat.le_succ j, last ▸ Nat.le_refl (j + 1), .inr ?_, ?_, fun _ => carry.trans clear,
        fun k outside => .inl ?_⟩
      · rw [abs_resize, value_set _ below, small, last]
        exact Nat.le_trans (Nat.le_mul_of_pos_left _ positive) (Nat.le_add_left _ _)
      · rw [abs_resize, value_set _ below, small, sum, set_carry, carry, clear, empty, Nat.zero_mul, Nat.add_zero]
      · exact (wordAt_set_ne _ (Nat.ne_of_gt outside) _).trans (above k (Nat.le_of_succ_le outside))

theorem addAligned_run (a b : CMpi) (a_bounded : a.length ≤ 8) (b_bounded : b.length ≤ 8) (clear : a.carry = 0) :
    ∃ r, a.addAligned b = some r ∧ Sum a b r := by
  have bounded : max a.length b.length ≤ 8 := Nat.max_le.mpr ⟨a_bounded, b_bounded⟩
  unfold addAligned
  apply Loop.seq_rule (Added a b (min a.length b.length))
  · apply Loop.up_rule (Added a b)
    · exact added_start a b
    · intro i s inside added
      have below : i < 8 := by omega
      have next := added_step added below
      rw [limb_inside a (by omega), limb_inside b (by omega)] at next
      refine ⟨_, ?_, next⟩
      simp only [get_eq _ below, put_eq _ below, Option.bind_eq_bind, Option.bind_some, added.above i (Nat.le_refl i),
        toNat_wordAt]
  · rintro ⟨a', direg⟩ added
    have length : a'.length = a.length := added.fields.2.1
    simp only [length]
    apply Loop.seq_rule (Added a b (max a.length b.length))
    · split
      · next longer =>
        have last : max a.length b.length = min a.length b.length + (a.length - min a.length b.length) := by omega
        rw [last]
        apply Loop.up_rule fun k => Added a b (min a.length b.length + k)
        · exact added
        · intro k s inside added
          have below : min a.length b.length + k < 8 := by omega
          have next := added_step added below
          have upper : min a.length b.length + k < a.length := by omega
          have outside : b.length ≤ min a.length b.length + k := by omega
          simp only [limb_inside a upper, limb_outside b outside, Nat.add_zero] at next
          refine ⟨_, ?_, next⟩
          simp only [get_eq _ below, put_eq _ below, Option.bind_eq_bind, Option.bind_some,
            added.above _ (Nat.le_refl _), toNat_wordAt]
      · next shorter =>
        have last : max a.length b.length = min a.length b.length + (b.length - min a.length b.length) := by omega
        rw [last]
        apply Loop.up_rule fun k => Added a b (min a.length b.length + k)
        · exact added
        · intro k s inside added
          have below : min a.length b.length + k < 8 := by omega
          have next := added_step added below
          have upper : min a.length b.length + k < b.length := by omega
          have outside : a.length ≤ min a.length b.length + k := by omega
          simp only [limb_inside b upper, limb_outside a outside, Nat.add_zero] at next
          refine ⟨_, ?_, next⟩
          simp only [get_eq _ below, put_eq _ below, Option.bind_eq_bind, Option.bind_some, toNat_wordAt]
    · rintro ⟨a'', direg⟩ added
      have length : a''.length = a.length := added.fields.2.1
      simp only [length]
      exact sum_of_added rfl bounded clear added

theorem Sum.trimmed {a b r : CMpi} (sum : Sum a b r) (clear : r.carry = 0) (a_trimmed : a.Trimmed)
    (b_trimmed : b.Trimmed) : r.Trimmed := by
  have value := sum.value
  have nothing : (0 : UInt32).toNat = 0 := rfl
  rw [clear, nothing, Nat.zero_mul, Nat.add_zero] at value
  apply trimmed_of_le_abs
  intro i length
  rcases sum.grown with same | large
  · rcases Nat.le_total a.length b.length with shorter | longer
    · have least := b_trimmed.le_abs (show b.length = i + 1 by omega)
      omega
    · have least := a_trimmed.le_abs (show a.length = i + 1 by omega)
      omega
  · have short := sum.short
    exact Nat.le_trans (Nat.pow_le_pow_right radix_pos (show i ≤ max a.length b.length by omega)) large

/-! The subtraction of magnitudes. -/

theorem topLength_run (a : CMpi) {j : ℕ} (bounded : j ≤ 8) :
    ∃ n, a.topLength j = some n ∧ n ≤ j ∧ (∀ k, n ≤ k → k < j → a.digit k = 0) ∧ ∀ i, n = i + 1 → a.digit i ≠ 0 := by
  apply Loop.top_rule a.digit
  intro i inside
  simp only [get_eq a (show i < 8 by omega), Option.bind_eq_bind, Option.bind_some, ne_eq, wordAt_eq_zero]
  split_ifs <;> rfl

theorem getPast_run (a : CMpi) {i : ℕ} (inside : i ≤ 8) :
    ∃ w, a.getPast i = some w ∧ (i < 8 → w = a.wordAt i) := by
  unfold getPast
  split
  · next last => exact ⟨a.carry, rfl, fun below => absurd last (Nat.ne_of_lt below)⟩
  · next other => exact ⟨a.wordAt i, a.get_eq (Nat.lt_of_le_of_ne inside other), fun _ => rfl⟩

/-- The first `i` words of `taken` are taken off `from_`; `direg` holds the next word of `from_`, the
borrow and 2 ^ 32. -/
private structure Taken (a from_ taken : CMpi) (i : ℕ) (s : CMpi × ℕ) : Prop where
  fields : s.1.sign = a.sign ∧ s.1.length = a.length ∧ s.1.carry = a.carry
  above : ∀ k, i ≤ k → s.1.wordAt k = a.wordAt k
  borrowed : ∃ c ≤ 1, Limbs.value radix s.1.digit i + Limbs.value radix taken.limb i =
    Limbs.value radix from_.limb i + c * radix ^ i ∧ (i < from_.length → s.2 + c = radix + from_.limb i)

private theorem taken_step {a from_ taken : CMpi} {i : ℕ} {s : CMpi × ℕ} (holds : Taken a from_ taken i s)
    (inside : i < from_.length) (below : i < 8) {w : UInt32} (next : i + 1 < from_.length → w = from_.wordAt (i + 1)) :
    Taken a from_ taken (i + 1) (s.1.set i (.ofNat (s.2 - taken.limb i)),
      (s.2 - taken.limb i) / radix + w.toNat + 0xffffffff) := by
  obtain ⟨fields, above, c, one, sum, word⟩ := holds
  have word := word inside
  have upper := from_.limb_lt i
  have lower := taken.limb_lt i
  have split := Nat.div_add_mod (s.2 - taken.limb i) radix
  have size : radix = 4294967296 := rfl
  have most : (s.2 - taken.limb i) / radix ≤ 1 := by
    apply Nat.lt_succ_iff.mp
    apply Nat.div_lt_of_lt_mul
    omega
  refine ⟨fields, fun k later => ?_, 1 - (s.2 - taken.limb i) / radix, Nat.sub_le _ _, ?_, fun more => ?_⟩
  · rw [wordAt_set_ne _ (Nat.ne_of_gt later), above k (Nat.le_of_succ_le later)]
  · have column : (s.2 - taken.limb i) % radix + taken.limb i + c =
        from_.limb i + (1 - (s.2 - taken.limb i) / radix) * radix := by
      generalize (s.2 - taken.limb i) / radix = quotient at *
      generalize (s.2 - taken.limb i) % radix = rest at *
      rcases Nat.le_one_iff_eq_zero_or_eq_one.mp most with rfl | rfl
      · omega
      · omega
    rw [value_set _ below, toNat_ofNat, Limbs.value_succ, Limbs.value_succ, pow_succ]
    calc _ = (Limbs.value radix s.1.digit i + Limbs.value radix taken.limb i) +
          ((s.2 - taken.limb i) % radix + taken.limb i) * radix ^ i := by ring
      _ = Limbs.value radix from_.limb i +
          ((s.2 - taken.limb i) % radix + taken.limb i + c) * radix ^ i := by rw [sum]; ring
      _ = _ := by rw [column]; ring
  · rw [next more, toNat_wordAt, limb_inside from_ more]
    omega

/-- `pm` reads the words of `x` as long as those of `a` have not been stored over. -/
private def Reads (a x : CMpi) (pm : CMpi → CMpi) : Prop :=
  ∀ r k, r.wordAt k = a.wordAt k → (pm r).wordAt k = x.wordAt k

private theorem storeWord_run {a from_ taken : CMpi} {pm1 : CMpi → CMpi} (reads : Reads a from_ pm1)
    (bounded : from_.length ≤ 8) {i : ℕ} {s : CMpi × ℕ} (holds : Taken a from_ taken i s) (inside : i < from_.length) :
    ∃ s', storeWord pm1 i s.1 (s.2 - taken.limb i) = some s' ∧ Taken a from_ taken (i + 1) s' := by
  have below : i < 8 := Nat.lt_of_lt_of_le inside bounded
  obtain ⟨w, read, word⟩ := (pm1 (s.1.set i (.ofNat (s.2 - taken.limb i)))).getPast_run (show i + 1 ≤ 8 from below)
  have next : i + 1 < from_.length → w = from_.wordAt (i + 1) := by
    intro more
    rw [word (Nat.lt_of_lt_of_le more bounded)]
    apply reads
    rw [wordAt_set_ne _ (Nat.succ_ne_self i), holds.above _ (Nat.le_succ i)]
  refine ⟨_, ?_, taken_step holds inside below next⟩
  simp only [storeWord, put_eq _ below, Option.bind_eq_bind, Option.bind_some, read]

private theorem first_loop {a from_ taken : CMpi} {pm1 pm2 : CMpi → CMpi} (from_reads : Reads a from_ pm1)
    (taken_reads : Reads a taken pm2) (order : taken.length ≤ from_.length) (bounded : from_.length ≤ 8)
    {s : CMpi × ℕ} (start : Taken a from_ taken 0 s) :
    ∃ s', Loop.up (fun i (s : CMpi × ℕ) => do
      storeWord pm1 i s.1 (s.2 - (← (pm2 s.1).get i).toNat)) taken.length s = some s' ∧
        Taken a from_ taken taken.length s' := by
  apply Loop.up_rule (Taken a from_ taken)
  · exact start
  · intro i s inside holds
    have more : i < from_.length := Nat.lt_of_lt_of_le inside order
    obtain ⟨s', run, holds'⟩ := storeWord_run from_reads bounded holds more
    refine ⟨s', ?_, holds'⟩
    rw [limb_inside taken inside] at run
    simp only [get_eq _ (Nat.lt_of_lt_of_le more bounded), Option.bind_eq_bind, Option.bind_some,
      taken_reads s.1 i (holds.above i (Nat.le_refl i)), toNat_wordAt]
    exact run

private theorem second_loop {a from_ taken : CMpi} {pm1 : CMpi → CMpi} (from_reads : Reads a from_ pm1)
    (order : taken.length ≤ from_.length) (bounded : from_.length ≤ 8) {s : CMpi × ℕ}
    (holds : Taken a from_ taken taken.length s) :
    ∃ s', Loop.up (fun k (s : CMpi × ℕ) => storeWord pm1 (taken.length + k) s.1 s.2)
        (from_.length - taken.length) s = some s' ∧ Taken a from_ taken from_.length s' := by
  have last : from_.length = taken.length + (from_.length - taken.length) := (Nat.add_sub_cancel' order).symm
  have looped : ∃ s', Loop.up (fun k (s : CMpi × ℕ) => storeWord pm1 (taken.length + k) s.1 s.2)
      (from_.length - taken.length) s = some s' ∧
        Taken a from_ taken (taken.length + (from_.length - taken.length)) s' := by
    apply Loop.up_rule fun k => Taken a from_ taken (taken.length + k)
    · exact holds
    · intro k s inside holds
      obtain ⟨s', run, holds'⟩ := storeWord_run from_reads bounded holds (by omega)
      rw [limb_outside taken (Nat.le_add_right _ k), Nat.sub_zero] at run
      exact ⟨s', run, holds'⟩
  rwa [← last] at looped

/-- The difference of the magnitudes, with the sign of the larger one's side. -/
structure Difference (a b r : CMpi) : Prop where
  sign : r.sign = if a.abs < b.abs then b.sign.opposite else a.sign
  bounded : r.length ≤ max a.length b.length
  value : r.abs + min a.abs b.abs = max a.abs b.abs
  carry : r.carry = a.carry
  trimmed : r.Trimmed
  zeros : ∀ k, r.length ≤ k → k < max a.length b.length → r.wordAt k = 0
  above : ∀ k, max a.length b.length ≤ k → r.wordAt k = a.wordAt k

private theorem abs_of_taken {a from_ taken : CMpi} {s : CMpi × ℕ} (holds : Taken a from_ taken from_.length s)
    (order : taken.length ≤ from_.length) (smaller : taken.abs ≤ from_.abs) :
    Limbs.value radix s.1.digit from_.length + taken.abs = from_.abs := by
  obtain ⟨-, -, c, one, sum, -⟩ := holds
  rw [← from_.abs_eq_value (Nat.le_refl _), ← taken.abs_eq_value order] at sum
  have small : Limbs.value radix s.1.digit from_.length < radix ^ from_.length := Limbs.value_lt fun i _ => s.1.digit_lt i
  rcases Nat.le_one_iff_eq_zero_or_eq_one.mp one with rfl | rfl
  · omega
  · omega

/-- The operand with the larger magnitude, which the other one is taken off. -/
def minuend (a b : CMpi) : CMpi := if a.abs < b.abs then b else a

/-- What the subtraction leaves for operands of any lengths: as many words of the minuend are read as
the longer operand has, also above the minuend's own length. -/
structure Remainder (a b r : CMpi) : Prop where
  sign : r.sign = if a.abs < b.abs then b.sign.opposite else a.sign
  bounded : r.length ≤ max a.length b.length
  value : r.abs + min a.abs b.abs = Limbs.value radix (minuend a b).digit (max a.length b.length)
  carry : r.carry = a.carry
  trimmed : r.Trimmed
  zeros : ∀ k, r.length ≤ k → k < max a.length b.length → r.wordAt k = 0
  above : ∀ k, max a.length b.length ≤ k → r.wordAt k = a.wordAt k

theorem length_minuend_le (a b : CMpi) : (minuend a b).length ≤ max a.length b.length := by
  unfold minuend
  split
  · exact Nat.le_max_right _ _
  · exact Nat.le_max_left _ _

theorem abs_minuend (a b : CMpi) : (minuend a b).abs = max a.abs b.abs := by
  unfold minuend
  split
  · next less => exact (Nat.max_eq_right less.le).symm
  · next more => exact (Nat.max_eq_left (Nat.not_lt.mp more)).symm

private theorem remainder_of_taken {a b taken : CMpi} {s : CMpi × ℕ} {sign : Sign}
    (bounded : max a.length b.length ≤ 8)
    (holds : Taken { a with sign } { minuend a b with length := max a.length b.length } taken (max a.length b.length) s)
    (order : taken.length ≤ max a.length b.length) (smaller : taken.abs = min a.abs b.abs)
    (signed : sign = if a.abs < b.abs then b.sign.opposite else a.sign) :
    ∃ r, (do some { s.1 with length := ← s.1.topLength (max a.length b.length) }) = some r ∧ Remainder a b r := by
  have least : taken.abs ≤ Limbs.value radix (minuend a b).digit (max a.length b.length) := by
    calc taken.abs ≤ (minuend a b).abs := by
          rw [smaller, abs_minuend]
          exact Nat.le_trans (Nat.min_le_left _ _) (Nat.le_max_left _ _)
      _ ≤ _ := Limbs.value_mono (length_minuend_le a b)
  have value := abs_of_taken holds order least
  rw [smaller] at value
  obtain ⟨⟨sign_, length, carry⟩, above, -⟩ := holds
  obtain ⟨n, run, le, zeros, top⟩ := topLength_run s.1 bounded
  have whole := Limbs.value_of_zeros (B := radix) le zeros
  refine ⟨{ s.1 with length := n }, by rw [run]; rfl, sign_.trans signed, le, ?_, carry, top, ?_, above⟩
  · rw [abs_resize, ← whole]
    exact value
  · exact fun k low high => wordAt_eq_zero.mpr (zeros k low high)

theorem substractAligned_words (a b : CMpi) (a_bounded : a.length ≤ 8) (b_bounded : b.length ≤ 8) :
    ∃ r, a.substractAligned b = some r ∧ Remainder a b r := by
  have zero : 0 < 8 := by decide
  have bounded : max a.length b.length ≤ 8 := Nat.max_le.mpr ⟨a_bounded, b_bounded⟩
  have start (from_ taken : CMpi) (sign : Sign) (j : ℕ) :
      Taken { a with sign } { from_ with length := j } taken 0 ({ a with sign }, 0x100000000 + from_.digit 0) := by
    refine ⟨⟨rfl, rfl, rfl⟩, fun _ _ => rfl, 0, Nat.zero_le 1, rfl, fun more => ?_⟩
    rw [limb_inside _ more]
    rfl
  have a_reads (sign : Sign) (j : ℕ) : Reads { a with sign } { a with length := j } fun a => a := fun _ _ same => same
  have b_reads (sign : Sign) (j : ℕ) : Reads { a with sign } { b with length := j } fun _ => b := fun _ _ _ => rfl
  unfold substractAligned
  rw [largerThanAbs_run b a b_bounded a_bounded]
  by_cases less : a.abs < b.abs
  · have from_ : minuend a b = b := if_pos less
    have order : a.length ≤ max a.length b.length := Nat.le_max_left _ _
    simp only [Option.bind_eq_bind, Option.bind_some, less, decide_true, if_true, get_eq _ zero, toNat_wordAt]
    apply Loop.seq_rule
      (Taken { a with sign := b.sign.opposite } { b with length := max a.length b.length } a a.length)
    · exact first_loop (b_reads _ _) (a_reads _ a.length) order bounded (start b a _ _)
    · intro s holds
      apply Loop.seq_rule
        (Taken { a with sign := b.sign.opposite } { b with length := max a.length b.length } a (max a.length b.length))
      · exact second_loop (b_reads _ _) order bounded holds
      · intro s holds
        exact remainder_of_taken bounded (from_.symm ▸ holds) order (Nat.min_eq_left less.le).symm (if_pos less).symm
  · have from_ : minuend a b = a := if_neg less
    have order : b.length ≤ max a.length b.length := Nat.le_max_right _ _
    simp only [Option.bind_eq_bind, Option.bind_some, less, decide_false, Bool.false_eq_true, if_false, get_eq _ zero,
      toNat_wordAt]
    apply Loop.seq_rule (Taken { a with sign := a.sign } { a with length := max a.length b.length } b b.length)
    · exact first_loop (a_reads _ _) (b_reads _ b.length) order bounded (start a b _ _)
    · intro s holds
      apply Loop.seq_rule
        (Taken { a with sign := a.sign } { a with length := max a.length b.length } b (max a.length b.length))
      · exact second_loop (a_reads _ _) order bounded holds
      · intro s holds
        exact remainder_of_taken bounded (from_.symm ▸ holds) order (Nat.min_eq_right (Nat.not_lt.mp less)).symm
          (if_neg less).symm

theorem Remainder.least {a b r : CMpi} (remainder : Remainder a b r) : max a.abs b.abs ≤ r.abs + min a.abs b.abs := by
  rw [remainder.value, ← abs_minuend]
  exact Limbs.value_mono (length_minuend_le a b)

/-- The subtrahend of `substractAligned` is not the longer operand. -/
def Ordered (a b : CMpi) : Prop := if a.abs < b.abs then a.length ≤ b.length else b.length ≤ a.length

/-- The operand that is taken off must not be the longer one, as with leading zero words it may be. -/
theorem Remainder.difference {a b r : CMpi} (remainder : Remainder a b r) (ordered : Ordered a b) : Difference a b r := by
  have longest : (minuend a b).length = max a.length b.length := by
    unfold minuend
    unfold Ordered at ordered
    split_ifs at ordered ⊢
    · exact (Nat.max_eq_right ordered).symm
    · exact (Nat.max_eq_left ordered).symm
  refine { remainder with value := ?_ }
  rw [remainder.value, ← longest, ← abs_minuend]
  rfl

/-! Signed addition. -/

theorem add_same (a b temp : CMpi) (a_bounded : a.length ≤ 8) (b_bounded : b.length ≤ 8) (same : a.sign = b.sign) :
    ∃ r, a.add b temp = some r ∧ Sum { a with carry := 0 } b r := by
  have signs : ({ a with carry := 0 } : CMpi).sign = b.sign := same
  simp only [add, if_pos signs]
  exact addAligned_run { a with carry := 0 } b a_bounded b_bounded rfl

theorem substract_words (a b temp : CMpi) (a_bounded : a.length ≤ 8) (b_bounded : b.length ≤ 8) (same : a.sign = b.sign) :
    ∃ r, a.substract b temp = some r ∧ Remainder { a with carry := 0 } b r := by
  have signs : ¬ ({ a with carry := 0 } : CMpi).sign ≠ b.sign := not_not.mpr same
  simp only [substract, if_neg signs]
  exact substractAligned_words { a with carry := 0 } b a_bounded b_bounded

theorem substract_same (a b temp : CMpi) (a_bounded : a.length ≤ 8) (b_bounded : b.length ≤ 8) (same : a.sign = b.sign)
    (ordered : Ordered a b) : ∃ r, a.substract b temp = some r ∧ Difference { a with carry := 0 } b r := by
  obtain ⟨r, run, remainder⟩ := substract_words a b temp a_bounded b_bounded same
  exact ⟨r, run, remainder.difference ordered⟩

theorem substract_apart (a b temp : CMpi) (a_bounded : a.length ≤ 8) (b_bounded : b.length ≤ 8) (apart : a.sign ≠ b.sign) :
    ∃ minus r, minus.Same { b with sign := b.sign.opposite } ∧ a.substract b temp = some r ∧
      Sum { a with carry := 0 } minus r := by
  have signs : ({ a with carry := 0 } : CMpi).sign ≠ b.sign := apart
  obtain ⟨minus, run, sign, length, -, words, -⟩ := negate_run b temp b_bounded
  obtain ⟨r, added, sum⟩ := addAligned_run { a with carry := 0 } minus a_bounded
    (Nat.le_trans (Nat.le_of_eq length) b_bounded) rfl
  refine ⟨minus, r, ⟨sign, length, words⟩, ?_, sum⟩
  simp only [substract, if_pos signs, run, Option.bind_eq_bind, Option.bind_some]
  exact added

/-- The sum of two numbers of different signs. -/
structure Cancelled (a b r : CMpi) : Prop where
  sign : r.sign = if a.abs < b.abs then b.sign else if b.abs < a.abs then a.sign else .positive
  bounded : r.length ≤ max a.length b.length
  value : r.abs + min a.abs b.abs = max a.abs b.abs
  carry : r.carry = 0
  trimmed : r.Trimmed
  zeros : ∀ k, r.length ≤ k → k < max a.length b.length → r.wordAt k = 0
  above : ∀ k, max a.length b.length ≤ k → r.wordAt k = a.wordAt k

theorem opposite_of_ne {s t : Sign} (apart : s ≠ t) : t = s.opposite := by
  cases s with
  | positive =>
    cases t with
    | positive => exact absurd rfl apart
    | negtive => rfl
  | negtive =>
    cases t with
    | positive => rfl
    | negtive => exact absurd rfl apart

/-- What the addition leaves for different signs, whatever the words above an operand's length are. -/
structure Apart (a b r : CMpi) : Prop where
  sign : r.sign = if a.abs < b.abs then b.sign else if b.abs < a.abs then a.sign else .positive
  bounded : r.length ≤ max a.length b.length
  least : max a.abs b.abs ≤ r.abs + min a.abs b.abs
  carry : r.carry = 0
  trimmed : r.Trimmed
  zeros : ∀ k, r.length ≤ k → k < max a.length b.length → r.wordAt k = 0
  above : ∀ k, max a.length b.length ≤ k → r.wordAt k = a.wordAt k
  value : (if a.sign = .positive then Ordered a b else Ordered b a) → r.abs + min a.abs b.abs = max a.abs b.abs

theorem add_apart (a b temp : CMpi) (a_bounded : a.length ≤ 8) (b_bounded : b.length ≤ 8) (apart : a.sign ≠ b.sign) :
    ∃ r, a.add b temp = some r ∧ Apart a b r := by
  have signs : ¬ ({ a with carry := 0 } : CMpi).sign = b.sign := apart
  have other := opposite_of_ne apart
  simp only [add, if_neg signs]
  by_cases positive : a.sign = .positive
  · rw [if_pos positive]
    obtain ⟨minus, run, sign, length, -, words, -⟩ := negate_run b temp b_bounded
    have same : minus.Same { b with sign := b.sign.opposite } := ⟨sign, length, words⟩
    have abs : minus.abs = b.abs := same.abs
    rw [run, Option.bind_eq_bind, Option.bind_some]
    obtain ⟨r, run, remainder⟩ := substractAligned_words { a with carry := 0 } minus a_bounded
      (Nat.le_trans (Nat.le_of_eq length) b_bounded)
    have least := remainder.least
    have difference := remainder.difference
    obtain ⟨r_sign, bounded, -, carry, trimmed, zeros, above⟩ := remainder
    rw [length] at bounded zeros above
    rw [abs] at least r_sign
    rw [Ordered, abs, length] at difference
    refine ⟨r, run, r_sign.trans ?_, bounded, least, carry, trimmed, zeros, above, fun ordered => ?_⟩
    · have back : minus.sign.opposite = b.sign := by
        rw [sign, other, positive]
        rfl
      have whole : ({ a with carry := 0 } : CMpi).abs = a.abs := rfl
      rw [back, whole, positive, ite_self]
    · rw [if_pos positive] at ordered
      have value := (difference ordered).value
      rwa [abs] at value
  · have negtive : b.sign = .positive := by
      cases sign : a.sign with
      | positive => exact absurd sign positive
      | negtive => rw [other, sign]; rfl
    rw [if_neg positive]
    obtain ⟨minus, run, sign, length, -, words, -⟩ := negate_run { a with carry := 0 } temp a_bounded
    have same : minus.Same { a with carry := 0, sign := a.sign.opposite } := ⟨sign, length, words⟩
    have abs : minus.abs = a.abs := same.abs
    obtain ⟨copy, copied, copy_same, clear, outside⟩ := assign_run b { a with carry := 0 } b_bounded
    rw [run, Option.bind_eq_bind, Option.bind_some, copied, Option.bind_some]
    obtain ⟨r, run, remainder⟩ := substractAligned_words copy minus (Nat.le_trans (Nat.le_of_eq copy_same.length) b_bounded)
      (Nat.le_trans (Nat.le_of_eq length) a_bounded)
    have least := remainder.least
    have difference := remainder.difference
    obtain ⟨r_sign, bounded, -, carry, trimmed, zeros, above⟩ := remainder
    rw [length, copy_same.length, max_comm] at bounded zeros above
    rw [abs, copy_same.abs] at least r_sign
    rw [Ordered, abs, length, copy_same.abs, copy_same.length] at difference
    refine ⟨r, run, r_sign.trans ?_, bounded, ?_, carry.trans clear, trimmed, zeros, fun k high => ?_, fun ordered => ?_⟩
    · have back : minus.sign.opposite = a.sign := by
        rw [sign]
        cases a.sign with
        | positive => rfl
        | negtive => rfl
      rw [back, copy_same.sign, negtive]
      rcases Nat.lt_trichotomy a.abs b.abs with less | equal | more
      · rw [if_neg (Nat.not_lt.mpr less.le), if_pos less]
      · rw [equal, if_neg (Nat.lt_irrefl _), if_neg (Nat.lt_irrefl _)]
      · rw [if_pos more, if_neg (Nat.not_lt.mpr more.le)]
    · rw [min_comm, max_comm]
      exact least
    · rw [above k high]
      exact outside k (Nat.le_trans (Nat.le_max_right a.length _) high)
    · rw [if_neg positive] at ordered
      have value := (difference ordered).value
      rwa [abs, copy_same.abs, min_comm, max_comm] at value

theorem add_opposite (a b temp : CMpi) (a_bounded : a.length ≤ 8) (b_bounded : b.length ≤ 8) (apart : a.sign ≠ b.sign)
    (ordered : if a.sign = .positive then Ordered a b else Ordered b a) :
    ∃ r, a.add b temp = some r ∧ Cancelled a b r := by
  obtain ⟨r, run, left⟩ := add_apart a b temp a_bounded b_bounded apart
  exact ⟨r, run, left.sign, left.bounded, left.value ordered, left.carry, left.trimmed, left.zeros, left.above⟩

end CMpi

namespace CMpl
open CMpi

/-! Two halves of one sign. -/

/-- Neither half is negative, and the low half has no carry left. -/
structure Positive (a : CMpl) : Prop where
  l_sign : a.l.sign = .positive
  h_sign : a.h.sign = .positive
  l_bounded : a.l.length ≤ 8
  h_bounded : a.h.length ≤ 8

theorem abs_lt (a : CMpl) (l_bounded : a.l.length ≤ 8) : a.abs < (a.h.abs + 1) * radix ^ 8 := by
  have low : a.l.abs < radix ^ 8 := Nat.lt_of_lt_of_le a.l.abs_lt (Nat.pow_le_pow_right radix_pos l_bounded)
  rw [abs, Nat.add_mul, Nat.one_mul]
  omega

theorem radix_double : radix ^ 16 = radix ^ 8 * radix ^ 8 := pow_add radix 8 8

private theorem carryOver_run {h l : CMpi} (junk : CMpi) (same : h.sign = l.sign) (h_bounded : h.length ≤ 8)
    (fits : h.abs + l.carry.toNat < radix ^ 8) :
    ∃ h', carryOver h l junk = some (h', { l with carry := 0 }) ∧ h'.sign = h.sign ∧ h'.length ≤ 8 ∧
      h.length ≤ h'.length ∧ h'.abs = h.abs + l.carry.toNat ∧ (h.Trimmed → h'.Trimmed) := by
  unfold carryOver
  by_cases carry : l.carry = 0
  · refine ⟨h, ?_, rfl, h_bounded, Nat.le_refl _, ?_, id⟩
    · rw [if_neg (not_not.mpr carry), ← carry]
    · rw [carry]
      rfl
  · obtain ⟨o, run, -, -, length, -, -, o_abs⟩ := assignD_run junk l.carry
    rw [if_neg carry] at length
    obtain ⟨h', added, sum⟩ := add_same h { o with sign := l.sign } junk h_bounded
      (show o.length ≤ 8 by rw [length]; decide) same
    have value : h'.abs + h'.carry.toNat * radix ^ 8 = h.abs + l.carry.toNat := by
      rw [sum.value, ← o_abs]
      rfl
    have clear : h'.carry.toNat = 0 := by
      by_contra some_
      have more := Nat.mul_le_mul_right (radix ^ 8) (Nat.pos_of_ne_zero some_)
      omega
    rw [clear, Nat.zero_mul, Nat.add_zero] at value
    have o_trimmed : ({ o with sign := l.sign } : CMpi).Trimmed := trimmed_of_le_abs fun i size => by
      obtain rfl : i = 0 := Nat.succ.inj (size.symm.trans length)
      rw [pow_zero]
      exact Nat.pos_of_ne_zero fun zero => carry (UInt32.toNat_inj.mp (o_abs.symm.trans zero))
    refine ⟨h', ?_, sum.sign, sum.bounded, Nat.le_trans (Nat.le_max_left _ _) sum.longer, value, fun trimmed => ?_⟩
    · rw [if_pos carry, run, Option.bind_eq_bind, Option.bind_some, added, Option.bind_some]
    · exact sum.trimmed (UInt32.toNat_inj.mp clear) trimmed o_trimmed

private theorem length_kept {l h : CMpi} (wide : l.length = 8 ∨ h.abs = 0) :
    (if l.length < 8 ∧ decide (h.abs = 0) = false then { l with length := 8 } else l) = l := by
  apply if_neg
  rintro ⟨short, nonzero⟩
  rcases wide with full | empty
  · exact absurd short (full ▸ Nat.lt_irrefl 8)
  · exact of_decide_eq_false nonzero empty

theorem reconcile_aligned (a : CMpl) (junk : CMpi) (same : a.h.sign = a.l.sign) (h_bounded : a.h.length ≤ 8)
    (wide : a.l.length = 8 ∨ a.l.carry = 0 ∧ a.h.abs = 0)
    (fits : a.abs + a.l.carry.toNat * radix ^ 8 < radix ^ 16) :
    ∃ h, a.reconcile junk = some ⟨h, { a.l with carry := 0 }⟩ ∧ h.sign = a.h.sign ∧ h.length ≤ 8 ∧
      a.h.length ≤ h.length ∧ h.abs = a.h.abs + a.l.carry.toNat ∧ (a.h.Trimmed → h.Trimmed) := by
  have signed : (if decide (a.h.abs = 0) = true then { a.h with sign := a.l.sign } else a.h) = a.h := by
    rw [← same, ite_self]
  have high : a.h.abs + a.l.carry.toNat < radix ^ 8 := by
    rw [abs, radix_double] at fits
    by_contra large
    have more := Nat.mul_le_mul_right (radix ^ 8) (Nat.not_lt.mp large)
    rw [Nat.add_mul] at more
    omega
  obtain ⟨h, run, sign, bounded, longer, value, trimmed⟩ := carryOver_run junk same h_bounded high
  have kept : ({ a.l with carry := 0 } : CMpi).length = 8 ∨ h.abs = 0 := by
    rcases wide with full | ⟨clear, empty⟩
    · exact .inl full
    · refine .inr (value.trans ?_)
      rw [clear, empty]
      rfl
  refine ⟨h, ?_, sign, bounded, longer, value, trimmed⟩
  unfold reconcile
  rw [equalsToD_zero _ h_bounded, Option.bind_eq_bind, Option.bind_some]
  dsimp only
  rw [signed, if_pos same.symm, run, Option.bind_eq_bind, Option.bind_some]
  dsimp only
  rw [equalsToD_zero _ bounded, Option.bind_some]
  exact congrArg (fun l => some (CMpl.mk h l)) (length_kept kept)

/-- A sum of numbers that are not negative, with the low half in its eight words if it needs them. -/
structure Added (a : CMpl) (length total : ℕ) (r : CMpl) : Prop extends Positive r where
  value : r.abs = total
  carry : r.l.carry = 0
  l_longer : max a.l.length length ≤ r.l.length
  h_longer : a.h.length ≤ r.h.length
  wide : r.l.length = 8 ∨ r.h.abs = 0

private theorem added_of_sum {a : CMpl} {b l h junk : CMpi} (sum : Sum { a.l with carry := 0 } b l)
    (positive : a.Positive) (h_sign : h.sign = .positive) (h_bounded : h.length ≤ 8) (h_longer : a.h.length ≤ h.length)
    (wide : a.l.length = 8 ∨ b.length = 8 ∨ h.abs = 0) (fits : a.l.abs + b.abs + h.abs * radix ^ 8 < radix ^ 16) :
    ∃ r, reconcile ⟨h, l⟩ junk = some r ∧ Added a b.length (a.l.abs + b.abs + h.abs * radix ^ 8) r := by
  have value : l.abs + l.carry.toNat * radix ^ 8 = a.l.abs + b.abs := sum.value
  have room : l.length = 8 ∨ l.carry = 0 ∧ h.abs = 0 := by
    by_cases full : l.length = 8
    · exact .inl full
    · have longer : max a.l.length b.length ≤ l.length := sum.longer
      have bounded := sum.bounded
      exact .inr ⟨sum.carried (by omega), by omega⟩
  have whole : (CMpl.mk h l).abs + l.carry.toNat * radix ^ 8 = a.l.abs + b.abs + h.abs * radix ^ 8 := by
    rw [abs]
    dsimp only
    omega
  have l_sign : l.sign = .positive := sum.sign.trans positive.l_sign
  obtain ⟨h', run, sign, bounded, longer, high, -⟩ := reconcile_aligned ⟨h, l⟩ junk (h_sign.trans l_sign.symm) h_bounded room
    (whole ▸ fits)
  refine ⟨_, run, ⟨l_sign, sign.trans h_sign, sum.bounded, bounded⟩, ?_, rfl, sum.longer,
    Nat.le_trans h_longer longer, ?_⟩
  · have low : ({ l with carry := 0 } : CMpi).abs = l.abs := rfl
    rw [← whole, abs, abs, low, high, Nat.add_mul, Nat.add_assoc]
  · rcases room with full | ⟨clear, empty⟩
    · exact .inl full
    · refine .inr (high.trans ?_)
      dsimp only
      rw [clear, empty]
      rfl

theorem addi_positive (a : CMpl) (b junk : CMpi) (positive : a.Positive) (b_sign : b.sign = .positive)
    (b_bounded : b.length ≤ 8) (wide : a.l.length = 8 ∨ a.h.abs = 0) (fits : a.abs + b.abs < radix ^ 16) :
    ∃ r, a.addi b junk = some r ∧ Added a b.length (a.abs + b.abs) r := by
  obtain ⟨l, run, sum⟩ := add_same a.l b junk positive.l_bounded b_bounded (positive.l_sign.trans b_sign.symm)
  have total : a.l.abs + b.abs + a.h.abs * radix ^ 8 = a.abs + b.abs := by
    rw [abs]
    omega
  rw [addi, run, Option.bind_eq_bind, Option.bind_some, ← total]
  exact added_of_sum sum positive positive.h_sign positive.h_bounded (Nat.le_refl _) (wide.imp id .inr) (total ▸ fits)

theorem add_positive (a b : CMpl) (junk : CMpi) (a_positive : a.Positive) (b_positive : b.Positive)
    (wide : a.l.length = 8 ∨ b.l.length = 8 ∨ a.h.abs = 0 ∧ b.h.abs = 0) (fits : a.abs + b.abs < radix ^ 16) :
    ∃ r, a.add b junk = some r ∧ Added a b.l.length (a.abs + b.abs) r := by
  obtain ⟨l, l_run, l_sum⟩ := add_same a.l b.l junk a_positive.l_bounded b_positive.l_bounded
    (a_positive.l_sign.trans b_positive.l_sign.symm)
  obtain ⟨h, h_run, h_sum⟩ := add_same a.h b.h junk a_positive.h_bounded b_positive.h_bounded
    (a_positive.h_sign.trans b_positive.h_sign.symm)
  have value : h.abs + h.carry.toNat * radix ^ 8 = a.h.abs + b.h.abs := h_sum.value
  have clear : h.carry.toNat = 0 := by
    by_contra some_
    have more := Nat.mul_le_mul_right (radix ^ 8) (Nat.pos_of_ne_zero some_)
    have large := Nat.mul_le_mul_right (radix ^ 8) (show radix ^ 8 ≤ a.h.abs + b.h.abs by omega)
    rw [Nat.add_mul] at large
    rw [abs, abs, radix_double] at fits
    omega
  rw [clear, Nat.zero_mul, Nat.add_zero] at value
  have total : a.l.abs + b.l.abs + h.abs * radix ^ 8 = a.abs + b.abs := by
    rw [value, abs, abs, Nat.add_mul]
    omega
  have empty : a.h.abs = 0 ∧ b.h.abs = 0 → h.abs = 0 := by
    rintro ⟨first, second⟩
    rw [value, first, second]
  rw [add, l_run, Option.bind_eq_bind, Option.bind_some, h_run, Option.bind_some, ← total]
  exact added_of_sum l_sum a_positive (h_sum.sign.trans a_positive.h_sign) h_sum.bounded
    (Nat.le_trans (Nat.le_max_left _ _) h_sum.longer) (wide.imp id (Or.imp id empty)) (total ▸ fits)

end CMpl
end MyTools.Mpi
