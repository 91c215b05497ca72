import MyTools.Mpi.Exact

/-! Products: with one word, and of two numbers into sixteen words. -/
namespace MyTools.Mpi
open Library CMpi

namespace CMpi

/-- `CMpi_Multiply_d`; the word that does not fit is the carry. -/
def multiplyD (a : CMpi) (n : UInt32) : Option CMpi :=
  let a := { a with carry := 0 }
  if n = 0 then { a with sign := .positive, length := 0 }.put 0 0
  else do
    let (a, icarry) ← Loop.up (fun i (s : CMpi × ℕ) => do
      let direg := (← s.1.get i).toNat * n.toNat + s.2
      some (← s.1.put i (.ofNat direg), direg / radix)) a.length (a, 0)
    if a.length = 8 then some { a with carry := .ofNat icarry }
    else do
      let word ← a.put a.length (.ofNat icarry)
      some { word with length := if icarry ≠ 0 then a.length + 1 else a.length }

structure Scaled (a : CMpi) (n : UInt32) (r : CMpi) : Prop where
  sign : r.sign = if n = 0 then .positive else a.sign
  bounded : r.length ≤ 8
  value : r.abs + r.carry.toNat * radix ^ 8 = a.abs * n.toNat
  full : r.carry ≠ 0 → r.length = 8
  trimmed : a.Trimmed → r.carry = 0 → r.Trimmed
  blank : r.length = 0 → r.wordAt 0 = 0

/-- The first `i` words are multiplied. -/
private structure Scaling (a : CMpi) (n : ℕ) (i : ℕ) (s : CMpi × ℕ) : Prop where
  fields : s.1.sign = a.sign ∧ s.1.length = a.length ∧ s.1.carry = a.carry
  above : ∀ k, i ≤ k → s.1.wordAt k = a.wordAt k
  carried : s.2 < radix
  product : Limbs.value radix s.1.digit i + s.2 * radix ^ i = Limbs.value radix a.digit i * n

private theorem scaling_step {a : CMpi} {n i : ℕ} {s : CMpi × ℕ} (scaling : Scaling a n i s) (small : n < radix)
    (inside : i < 8) :
    Scaling a n (i + 1) (s.1.set i (.ofNat (a.digit i * n + s.2)), (a.digit i * n + s.2) / radix) := by
  obtain ⟨fields, above, carried, product⟩ := scaling
  have parts := Nat.div_add_mod (a.digit i * n + s.2) radix
  refine ⟨fields, fun k later => ?_, ?_, ?_⟩
  · rw [wordAt_set_ne _ (Nat.ne_of_gt later), above k (Nat.le_of_succ_le later)]
  · apply Nat.div_lt_of_lt_mul
    calc a.digit i * n + s.2 < a.digit i * n + radix := Nat.add_lt_add_left carried _
      _ ≤ a.digit i * radix + radix := Nat.add_le_add_right (Nat.mul_le_mul_left _ small.le) _
      _ = (a.digit i + 1) * radix := (Nat.succ_mul _ _).symm
      _ ≤ radix * radix := Nat.mul_le_mul_right _ (a.digit_lt i)
  · rw [value_set _ inside, toNat_ofNat, Limbs.value_succ, pow_succ]
    calc _ = Limbs.value radix s.1.digit i +
          (radix * ((a.digit i * n + s.2) / radix) + (a.digit i * n + s.2) % radix) * radix ^ i := by ring
      _ = (Limbs.value radix s.1.digit i + s.2 * radix ^ i) + a.digit i * n * radix ^ i := by rw [parts]; ring
      _ = _ := by rw [product]; ring

private theorem scaled_of_value {a r : CMpi} {n : UInt32} (nonzero : n ≠ 0) (sign : r.sign = a.sign)
    (bounded : r.length ≤ 8) (value : r.abs + r.carry.toNat * radix ^ 8 = a.abs * n.toNat)
    (full : r.carry ≠ 0 → r.length = 8) (same : r.length = a.length ∨ r.Trimmed) (blank : r.length = 0 → r.wordAt 0 = 0) :
    Scaled a n r := by
  refine ⟨by rw [if_neg nonzero, sign], bounded, value, full, fun trimmed carry => ?_, blank⟩
  rcases same with same | done
  · apply trimmed_of_le_abs
    intro i length
    have large := trimmed.le_abs (same.symm.trans length)
    have positive : 0 < n.toNat := Nat.pos_of_ne_zero fun zero => nonzero (UInt32.toNat_inj.mp zero)
    have empty : (0 : UInt32).toNat = 0 := rfl
    rw [carry, empty, Nat.zero_mul, Nat.add_zero] at value
    rw [value]
    exact Nat.le_trans large (Nat.le_mul_of_pos_right _ positive)
  · exact done

theorem multiplyD_run (a : CMpi) (n : UInt32) (bounded : a.length ≤ 8) :
    ∃ r, a.multiplyD n = some r ∧ Scaled a n r := by
  unfold multiplyD
  by_cases zero : n = 0
  · rw [if_pos zero]
    have empty : (0 : UInt32).toNat = 0 := rfl
    refine ⟨_, put_eq _ (by decide) 0, by rw [if_pos zero]; rfl, Nat.zero_le 8, ?_, fun carry => absurd rfl carry, ?_,
      fun _ => wordAt_set_self _ (by decide) 0⟩
    · have nothing : (CMpi.set { a with carry := 0, sign := .positive, length := 0 } 0 0).abs = 0 := rfl
      rw [nothing, zero, set_carry, empty, Nat.mul_zero, Nat.zero_mul]
    · exact fun _ _ i length => absurd length (Nat.succ_ne_zero i).symm
  · rw [if_neg zero]
    apply Loop.seq_rule (Scaling { a with carry := 0 } n.toNat a.length)
    · apply Loop.up_rule (Scaling { a with carry := 0 } n.toNat)
      · exact ⟨⟨rfl, rfl, rfl⟩, fun _ _ => rfl, radix_pos, by simp⟩
      · intro i s inside scaling
        have below : i < 8 := Nat.lt_of_lt_of_le inside bounded
        refine ⟨_, ?_, scaling_step scaling n.toNat_lt below⟩
        simp only [get_eq _ below, put_eq _ below, Option.bind_eq_bind, Option.bind_some,
          scaling.above i (Nat.le_refl i), toNat_wordAt]
    · rintro ⟨s, icarry⟩ ⟨⟨sign, length, carry⟩, above, carried, product⟩
      dsimp only at sign length carry carried product ⊢
      have small : (UInt32.ofNat icarry).toNat = icarry := by rw [toNat_ofNat, Nat.mod_eq_of_lt carried]
      have empty : (0 : UInt32).toNat = 0 := rfl
      have value : Limbs.value radix s.digit a.length + icarry * radix ^ a.length = a.abs * n.toNat := product
      rw [length]
      by_cases full : a.length = 8
      · rw [if_pos full]
        refine ⟨_, rfl, scaled_of_value zero sign ?_ ?_ (fun _ => full) (.inl rfl) fun none_ => ?_⟩
        · exact bounded
        · rw [abs_resize, small, ← value, full]
        · exact absurd (full.symm.trans none_) (by decide)
      · have below : a.length < 8 := Nat.lt_of_le_of_ne bounded full
        rw [if_neg full, put_eq s below, Option.bind_eq_bind, Option.bind_some]
        have set_value := value_set s below (.ofNat icarry)
        rw [small, value] at set_value
        by_cases nothing : icarry = 0
        · have kept : Limbs.value radix (s.set a.length (.ofNat icarry)).digit a.length = a.abs * n.toNat := by
            rw [Limbs.value_succ, digit_set_self s below, small, nothing, Nat.zero_mul, Nat.add_zero] at set_value
            rw [nothing]
            exact set_value
          rw [if_neg (not_not.mpr nothing)]
          refine ⟨_, rfl, scaled_of_value zero sign bounded ?_ (fun some_ => absurd carry some_) (.inl rfl) fun none_ => ?_⟩
          · rw [abs_resize, kept, set_carry, carry, empty, Nat.zero_mul, Nat.add_zero]
          · have first : a.length = 0 := none_
            have word := wordAt_set_self s below (.ofNat icarry)
            rw [first, nothing] at word
            rw [first, nothing]
            exact word
        · rw [if_pos nothing]
          refine ⟨_, rfl, scaled_of_value zero sign below ?_ (fun some_ => absurd carry some_) (.inr ?_)
            fun none_ => absurd none_ (Nat.succ_ne_zero _)⟩
          · rw [abs_resize, set_value, set_carry, carry, empty, Nat.zero_mul, Nat.add_zero]
          · intro i same digit
            obtain rfl : a.length = i := Nat.succ.inj same
            have top : (s.set a.length (.ofNat icarry)).digit a.length = 0 := digit
            rw [digit_set_self s below, small] at top
            exact nothing top

end CMpi

/-- The sixteen words in which a product is formed. -/
abbrev Wide := Vector UInt32 16

namespace Wide

def put (r : Wide) (i : ℕ) (x : UInt32) : Option Wide := Buffer.put r i x

/-- `sum += r[j]; r[j] = (unsigned int)sum; sum >>= BITS_OF_INT;` -/
def addAt (r : Wide) (j sum : ℕ) : Option (Wide × ℕ) := do
  let sum := sum + (← r[j]?).toNat
  some (← r.put j (.ofNat sum), sum / radix)

/-- What is carried on into word `j`. -/
structure Carry where
  r : Wide
  j : ℕ
  sum : ℕ

def Carry.step (s : Carry) : Option Carry := do
  let (r, sum) ← s.r.addAt s.j s.sum
  some ⟨r, s.j + 1, sum⟩

/-- A product of two words is added at word `k`, and carried on as far as need be. -/
def accumulate (k direg : ℕ) (r : Wide) : Option Wide := do
  let (r, sum) ← r.addAt k direg
  let (r, sum) ← r.addAt (k + 1) sum
  let s ← Loop.whileDo (fun s : Carry => some (s.sum ≠ 0)) Carry.step 17 ⟨r, k + 2, sum⟩
  some s.r

/-- The words of a product of `length` words go into the two halves. -/
def store (r : Wide) (length : ℕ) (c : CMpl) : Option CMpl := do
  let h ← (if 8 < length then
      Loop.up (fun i (h : CMpi) => do h.put i (← r[i + 8]?)) (length - 8) { c.h with length := length - 8 }
    else some { c.h with length := 0 })
  let l ← Loop.up (fun i (l : CMpi) => do l.put i (← r[i]?)) (min length 8) { c.l with length := min length 8 }
  some ⟨h, l⟩

/-- `for (i=MPI_LENGTH*2-1;i>=0;i--) if (r[i]) break;` and then `i + 1`. -/
def topLength (r : Wide) : Option ℕ :=
  Loop.scan (fun i => do if (← r[i]?) ≠ 0 then some (some (i + 1)) else some none) 0 16

end Wide

/-- `CMpi_Multiply`; nothing of `c` is written before the last word of `a` and `b` is read, and the
sign of `a` is read before that of `c` is written, so that `a` may be the low half of `c`. -/
def CMpi.multiply (a b : CMpi) (c : CMpl) : Option CMpl := do
  let r ← Loop.up (fun k r => Loop.up (fun i (r : Wide) =>
    if i < a.length ∧ k - i < b.length then do
      r.accumulate k ((← a.get i).toNat * (← b.get (k - i)).toNat)
    else some r) (k + 1) r) (a.length + b.length) (.replicate 16 0)
  let c ← r.store (← r.topLength) c
  let sign := if a.sign = b.sign then Sign.positive else .negtive
  some ⟨{ c.h with sign, carry := 0 }, { c.l with sign, carry := 0 }⟩

namespace Wide

def digit (r : Wide) (i : ℕ) : ℕ := (r[i]?.getD 0).toNat

def value (r : Wide) : ℕ := Limbs.value radix r.digit 16

theorem digit_lt (r : Wide) (i : ℕ) : r.digit i < radix := (r[i]?.getD 0).toNat_lt

theorem get_eq (r : Wide) {i : ℕ} (inside : i < 16) : r[i]? = some (r[i]?.getD 0) := by
  rw [Vector.getElem?_eq_getElem inside, Option.getD_some]

def set (r : Wide) (i : ℕ) (x : UInt32) : Wide := Vector.setIfInBounds r i x

theorem put_eq (r : Wide) {i : ℕ} (inside : i < 16) (x : UInt32) : r.put i x = some (r.set i x) := by
  have stored : Vector.set r i x inside = r.set i x := by
    apply Vector.ext
    intro j bound
    rw [set, Vector.getElem_set, Vector.getElem_setIfInBounds]
  rw [put, Buffer.put, dif_pos inside, stored]

theorem digit_set_self (r : Wide) {i : ℕ} (inside : i < 16) (x : UInt32) : (r.set i x).digit i = x.toNat := by
  simp [digit, set, inside]

theorem digit_set_ne (r : Wide) {i j : ℕ} (apart : j ≠ i) (x : UInt32) : (r.set i x).digit j = r.digit j := by
  simp [digit, set, apart.symm]

theorem addAt_run (r : Wide) {j : ℕ} (inside : j < 16) (sum : ℕ) :
    ∃ r', r.addAt j sum = some (r', (sum + r.digit j) / radix) ∧
      r'.value + (sum + r.digit j) / radix * radix ^ (j + 1) = r.value + sum * radix ^ j := by
  refine ⟨r.set j (.ofNat (sum + r.digit j)), ?_, ?_⟩
  · rw [addAt, get_eq r inside, Option.bind_eq_bind, Option.bind_some]
    dsimp only
    rw [put_eq r inside]
    rfl
  · have updated := Limbs.value_update (B := radix) inside fun i _ apart =>
      r.digit_set_ne (x := .ofNat (sum + r.digit j)) apart
    have parts := Nat.div_add_mod (sum + r.digit j) radix
    rw [digit_set_self r inside, CMpi.toNat_ofNat] at updated
    apply Nat.add_right_cancel (m := r.digit j * radix ^ j)
    calc _ = Limbs.value radix (r.set j (.ofNat (sum + r.digit j))).digit 16 + r.digit j * radix ^ j +
          (sum + r.digit j) / radix * radix ^ (j + 1) := by rw [value]; ring
      _ = r.value + (radix * ((sum + r.digit j) / radix) + (sum + r.digit j) % radix) * radix ^ j := by
          rw [updated, value, pow_succ]; ring
      _ = _ := by rw [parts]; ring

private theorem carry_run {s : Carry} {total : ℕ} (value : s.r.value + s.sum * radix ^ s.j = total)
    (bounded : s.j ≤ 16) (fits : total < radix ^ 16) :
    ∃ s', Loop.whileDo (fun s : Carry => some (s.sum ≠ 0)) Carry.step 17 s = some s' ∧ s'.r.value = total := by
  obtain ⟨s', run, ⟨value, -⟩, left⟩ : ∃ s', Loop.whileDo (fun s : Carry => some (s.sum ≠ 0)) Carry.step 17 s = some s' ∧
      (s'.r.value + s'.sum * radix ^ s'.j = total ∧ s'.j ≤ 16) ∧ some (decide (s'.sum ≠ 0)) = some false := by
    apply Loop.whileDo_rule (fun s : Carry => s.r.value + s.sum * radix ^ s.j = total ∧ s.j ≤ 16) fun s => 16 - s.j
    · exact ⟨value, bounded⟩
    · exact Nat.lt_succ_of_le (Nat.sub_le 16 s.j)
    · intro s ⟨value, bounded⟩
      by_cases zero : s.sum = 0
      · exact .inl (by rw [decide_eq_false (not_not.mpr zero)])
      · have below : s.j < 16 := by
          apply (Nat.pow_lt_pow_iff_right (show 1 < radix by decide)).mp
          have large := Nat.le_mul_of_pos_left (radix ^ s.j) (Nat.pos_of_ne_zero zero)
          omega
        obtain ⟨r, run, value'⟩ := s.r.addAt_run below s.sum
        refine .inr ⟨by rw [decide_eq_true zero], ⟨r, s.j + 1, (s.sum + s.r.digit s.j) / radix⟩, ?_, ⟨?_, below⟩, ?_⟩
        · rw [Carry.step, run]
          rfl
        · exact value'.trans value
        · exact Nat.sub_lt_sub_left below (Nat.lt_succ_self s.j)
  have zero : s'.sum = 0 := by
    rw [Option.some.injEq, decide_eq_false_iff_not, not_not] at left
    exact left
  rw [zero, Nat.zero_mul, Nat.add_zero] at value
  exact ⟨s', run, value⟩

theorem accumulate_run (r : Wide) {k direg : ℕ} (inside : k < 15) (fits : r.value + direg * radix ^ k < radix ^ 16) :
    ∃ r', r.accumulate k direg = some r' ∧ r'.value = r.value + direg * radix ^ k := by
  obtain ⟨first, first_run, first_value⟩ := r.addAt_run (show k < 16 by omega) direg
  obtain ⟨second, second_run, second_value⟩ := first.addAt_run (show k + 1 < 16 by omega) ((direg + r.digit k) / radix)
  obtain ⟨last, last_run, value⟩ := carry_run
    (s := ⟨second, k + 2, ((direg + r.digit k) / radix + first.digit (k + 1)) / radix⟩)
    (second_value.trans first_value) (show k + 2 ≤ 16 by omega) fits
  refine ⟨last.r, ?_, value⟩
  rw [accumulate, first_run, Option.bind_eq_bind, Option.bind_some]
  dsimp only
  rw [second_run, Option.bind_eq_bind, Option.bind_some]
  dsimp only
  rw [last_run, Option.bind_some]

theorem value_clear : Wide.value (.replicate 16 0) = 0 :=
  Limbs.value_eq_zero fun i inside => by simp [digit, inside]

theorem topLength_run (r : Wide) :
    ∃ n, r.topLength = some n ∧ n ≤ 16 ∧ Limbs.value radix r.digit n = r.value ∧ ∀ i, n = i + 1 → r.digit i ≠ 0 := by
  obtain ⟨n, run, le, zeros, top⟩ : ∃ n, r.topLength = some n ∧ n ≤ 16 ∧ (∀ k, n ≤ k → k < 16 → r.digit k = 0) ∧
      ∀ i, n = i + 1 → r.digit i ≠ 0 := by
    apply Loop.top_rule r.digit
    intro i inside
    have word : r[i]?.getD 0 = 0 ↔ r.digit i = 0 := by
      rw [digit, ← UInt32.toNat_inj]
      rfl
    rw [get_eq r inside, Option.bind_eq_bind, Option.bind_some]
    simp only [ne_eq, word]
    split_ifs <;> rfl
  exact ⟨n, run, le, (Limbs.value_of_zeros le zeros).symm, top⟩

structure Stored (r : Wide) (length : ℕ) (c s : CMpl) : Prop where
  l_sign : s.l.sign = c.l.sign
  h_sign : s.h.sign = c.h.sign
  l_length : s.l.length = min length 8
  h_length : s.h.length = length - 8
  value : s.abs = Limbs.value radix r.digit length

private theorem fill_abs {r : Wide} (offset : ℕ) {count : ℕ} (a : CMpi) (bounded : offset + count ≤ 16) (small : count ≤ 8) :
    ∃ s, Loop.up (fun i (a : CMpi) => do a.put i (← r[i + offset]?)) count { a with length := count } = some s ∧
      s.sign = a.sign ∧ s.length = count ∧ s.abs = Limbs.value radix (fun i => r.digit (i + offset)) count := by
  have step : ∀ i (a : CMpi), i < count → (do a.put i (← r[i + offset]?)) = a.put i (r[i + offset]?.getD 0) := by
    intro i a inside
    have word := r.get_eq (show i + offset < 16 by omega)
    calc _ = (r[i + offset]?).bind (a.put i) := rfl
      _ = _ := by rw [word, Option.bind_some, Option.getD_some]
  obtain ⟨s, run, sign, length, -, words⟩ := fill_up _ { a with length := count } small step
  refine ⟨s, run, sign, length, ?_⟩
  have size : s.length = count := length
  rw [CMpi.abs, size]
  apply Limbs.value_congr
  intro i inside
  rw [CMpi.digit, words i, if_pos inside, digit]

theorem store_run (r : Wide) {length : ℕ} (bounded : length ≤ 16) (c : CMpl) :
    ∃ s, r.store length c = some s ∧ Stored r length c s := by
  unfold store
  apply Loop.seq_rule fun h : CMpi => h.sign = c.h.sign ∧ h.length = length - 8 ∧
    h.abs = Limbs.value radix (fun i => r.digit (i + 8)) (length - 8)
  · split
    · exact fill_abs 8 c.h (by omega) (by omega)
    · next short =>
      have nothing : length - 8 = 0 := by omega
      rw [nothing]
      exact ⟨_, rfl, rfl, rfl, rfl⟩
  · intro h ⟨h_sign, h_length, h_value⟩
    obtain ⟨l, run, l_sign, l_length, l_value⟩ := fill_abs (r := r) 0 c.l
      (show 0 + min length 8 ≤ 16 by omega) (Nat.min_le_right _ _)
    simp only [Nat.add_zero] at run l_value
    rw [run, Option.bind_eq_bind, Option.bind_some]
    refine ⟨⟨h, l⟩, rfl, l_sign, h_sign, l_length, h_length, ?_⟩
    rw [CMpl.abs, h_value, l_value]
    rcases Nat.le_total length 8 with short | long
    · have nothing : length - 8 = 0 := by omega
      rw [nothing, Nat.min_eq_left short, Limbs.value_zero, Nat.zero_mul, Nat.add_zero]
    · have split : length = 8 + (length - 8) := by omega
      have parts := Limbs.value_add radix r.digit 8 (length - 8)
      rw [← split] at parts
      rw [Nat.min_eq_right long, parts, Nat.mul_comm (radix ^ 8)]
      simp only [Nat.add_comm]

end Wide

namespace CMpi

private theorem columns_le {f g : ℕ → ℕ} {k i len : ℕ} (inside : i < k + 1) (below : k < len) :
    Limbs.value radix (Limbs.column f g) k + (∑ m ∈ Finset.range (i + 1), f m * g (k - m)) * radix ^ k ≤
      Limbs.value radix (Limbs.column f g) len := by
  have part : ∑ m ∈ Finset.range (i + 1), f m * g (k - m) ≤ Limbs.column f g k :=
    Finset.sum_le_sum_of_subset (Finset.range_mono inside)
  calc _ ≤ Limbs.value radix (Limbs.column f g) k + Limbs.column f g k * radix ^ k :=
        Nat.add_le_add_left (Nat.mul_le_mul_right _ part) _
    _ = Limbs.value radix (Limbs.column f g) (k + 1) := rfl
    _ ≤ _ := Limbs.value_mono below

private theorem product_run (a b : CMpi) (a_bounded : a.length ≤ 8) (b_bounded : b.length ≤ 8) :
    ∃ r, Loop.up (fun k r => Loop.up (fun i (r : Wide) =>
        if i < a.length ∧ k - i < b.length then do
          r.accumulate k ((← a.get i).toNat * (← b.get (k - i)).toNat)
        else some r) (k + 1) r) (a.length + b.length) (.replicate 16 0) = some r ∧ r.value = a.abs * b.abs := by
  have product : Limbs.value radix (Limbs.column a.limb b.limb) (a.length + b.length) = a.abs * b.abs := by
    rw [a.abs_eq_value (Nat.le_refl _), b.abs_eq_value (Nat.le_refl _)]
    exact Limbs.value_column (fun i => b.limb_outside) (fun i => a.limb_outside) (Nat.le_refl _)
  have limit : a.abs * b.abs < radix ^ 16 := by
    calc a.abs * b.abs < radix ^ a.length * radix ^ b.length := Nat.mul_lt_mul'' a.abs_lt b.abs_lt
      _ = radix ^ (a.length + b.length) := (pow_add _ _ _).symm
      _ ≤ radix ^ 16 := Nat.pow_le_pow_right radix_pos (by omega)
  rw [← product]
  apply Loop.up_rule fun k (r : Wide) => r.value = Limbs.value radix (Limbs.column a.limb b.limb) k
  · exact Wide.value_clear
  · intro k r below value
    apply Loop.up_rule fun i (r : Wide) => r.value = Limbs.value radix (Limbs.column a.limb b.limb) k +
      (∑ m ∈ Finset.range i, a.limb m * b.limb (k - m)) * radix ^ k
    · rw [Finset.sum_range_zero, Nat.zero_mul, Nat.add_zero]
      exact value
    · intro i r inside value
      have next := Finset.sum_range_succ (fun m => a.limb m * b.limb (k - m)) i
      have most := columns_le (f := a.limb) (g := b.limb) inside below
      rw [next, Nat.add_mul, ← Nat.add_assoc, ← value, product] at most
      rw [next, Nat.add_mul, ← Nat.add_assoc, ← value]
      split
      · next both =>
        rw [get_eq a (by omega), get_eq b (by omega), Option.bind_eq_bind, Option.bind_some, Option.bind_some,
          toNat_wordAt, toNat_wordAt, limb_inside a both.1, limb_inside b both.2]
        rw [limb_inside a both.1, limb_inside b both.2] at most
        exact r.accumulate_run (by omega) (Nat.lt_of_le_of_lt most limit)
      · next outside =>
        have zero : a.limb i * b.limb (k - i) = 0 := by
          by_cases left : i < a.length
          · rw [limb_outside b (Nat.not_lt.mp fun right => outside ⟨left, right⟩), Nat.mul_zero]
          · rw [limb_outside a (Nat.not_lt.mp left), Nat.zero_mul]
        rw [zero, Nat.zero_mul, Nat.add_zero]
        exact ⟨r, rfl, rfl⟩

/-- The product of the magnitudes, in as many words as it needs. -/
structure Product (a b : CMpi) (r : CMpl) : Prop where
  l_sign : r.l.sign = if a.sign = b.sign then .positive else .negtive
  h_sign : r.h.sign = if a.sign = b.sign then .positive else .negtive
  l_bounded : r.l.length ≤ 8
  h_bounded : r.h.length ≤ 8
  full : r.l.length = 8 ∨ r.h.length = 0
  value : r.abs = a.abs * b.abs

theorem multiply_run (a b : CMpi) (c : CMpl) (a_bounded : a.length ≤ 8) (b_bounded : b.length ≤ 8) :
    ∃ r, a.multiply b c = some r ∧ Product a b r := by
  unfold multiply
  apply Loop.seq_rule fun r : Wide => r.value = a.abs * b.abs
  · exact product_run a b a_bounded b_bounded
  · intro r value
    obtain ⟨length, length_run, bounded, whole, -⟩ := r.topLength_run
    obtain ⟨s, run, stored⟩ := r.store_run bounded c
    have l_length := stored.l_length
    have h_length := stored.h_length
    rw [length_run, Option.bind_eq_bind, Option.bind_some, run, Option.bind_eq_bind, Option.bind_some]
    refine ⟨_, rfl, rfl, rfl, by dsimp only; omega, by dsimp only; omega, by dsimp only; omega, ?_⟩
    have same : s.abs = a.abs * b.abs := stored.value.trans (whole.trans value)
    exact same

end CMpi

/-! Products into a result of which an operand is the low half. -/

/-- Where an operand of `CMpi_Multiply` lies. -/
inductive Operand
  | own (n : CMpi)
  | lowHalf

namespace Operand

/-- What the operand holds while the result is `c`. -/
def read (c : CMpl) : Operand → CMpi
  | own n => n
  | lowHalf => c.l

end Operand

namespace CMpl

/-- `CMpi_Multiply` with operands that may be the low half of the result; the signs are compared when
the words and the lengths of the result are stored. -/
def multiplyInto (a b : Operand) (c : CMpl) : Option CMpl := do
  let r ← Loop.up (fun k r => Loop.up (fun i (r : Wide) =>
    if i < (a.read c).length ∧ k - i < (b.read c).length then do
      r.accumulate k ((← (a.read c).get i).toNat * (← (b.read c).get (k - i)).toNat)
    else some r) (k + 1) r) ((a.read c).length + (b.read c).length) (.replicate 16 0)
  let c ← r.store (← r.topLength) c
  let sign := if (a.read c).sign = (b.read c).sign then Sign.positive else .negtive
  some ⟨{ c.h with sign, carry := 0 }, { c.l with sign, carry := 0 }⟩

theorem read_sign {c s : CMpl} (same : s.l.sign = c.l.sign) (a : Operand) : (a.read s).sign = (a.read c).sign := by
  cases a with
  | own n => rfl
  | lowHalf => exact same

theorem multiplyInto_eq (a b : Operand) (c : CMpl) : multiplyInto a b c = (a.read c).multiply (b.read c) c := by
  unfold multiplyInto multiply
  refine congrArg (Option.bind _) (funext fun r => ?_)
  obtain ⟨length, length_run, bounded, -⟩ := r.topLength_run
  obtain ⟨s, run, stored⟩ := r.store_run bounded c
  simp only [length_run, run, Option.bind_eq_bind, Option.bind_some, read_sign stored.l_sign]

/-- The signed number with its halves of one sign each. -/
def signed (r : CMpl) : ℤ := r.h.toInt * 2 ^ 256 + r.l.toInt

/-- The exact product, in halves of its sign. -/
structure Exact (a b : CMpi) (r : CMpl) : Prop extends Product a b r where
  signed : r.signed = a.toInt * b.toInt

theorem exact_of_product {a b : CMpi} {r : CMpl} (product : Product a b r) : Exact a b r := by
  refine ⟨product, ?_⟩
  have unit : ((radix ^ 8 : ℕ) : ℤ) = 2 ^ 256 := by decide
  have whole : ((r.l.abs + r.h.abs * radix ^ 8 : ℕ) : ℤ) = (a.abs : ℤ) * b.abs := by
    rw [← Nat.cast_mul, ← product.value, abs]
  rw [Nat.cast_add, Nat.cast_mul, unit] at whole
  rw [signed, toInt_eq, toInt_eq, toInt_eq, toInt_eq, product.h_sign, product.l_sign]
  cases a.sign with
  | positive =>
    cases b.sign with
    | positive => simpa [Sign.signed, add_comm] using whole
    | negtive =>
      simp only [reduceCtorEq, if_false, Sign.signed]
      linarith
  | negtive =>
    cases b.sign with
    | positive =>
      simp only [reduceCtorEq, if_false, Sign.signed]
      linarith
    | negtive => simpa [Sign.signed, add_comm] using whole

theorem multiplyInto_exact (a b : Operand) (c : CMpl) (a_bounded : (a.read c).length ≤ 8)
    (b_bounded : (b.read c).length ≤ 8) :
    ∃ r, multiplyInto a b c = some r ∧ Exact (a.read c) (b.read c) r := by
  obtain ⟨r, run, product⟩ := multiply_run (a.read c) (b.read c) c a_bounded b_bounded
  exact ⟨r, (multiplyInto_eq a b c).trans run, exact_of_product product⟩

/-- The low half, which is less three, times five into itself. -/
theorem multiplyInto_exact_lowHalf :
    ∃ r, multiplyInto .lowHalf (.own stale) ⟨stale, padded .negtive⟩ = some r ∧ Exact (padded .negtive) stale r :=
  multiplyInto_exact .lowHalf (.own stale) ⟨stale, padded .negtive⟩ (by decide) (by decide)

end CMpl
end MyTools.Mpi
