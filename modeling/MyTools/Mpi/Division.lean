import MyTools.Mpi.Multiplication
import MyTools.Mpi.Reduction
import MyTools.Mpi.Subtraction
import Mathlib.Data.Nat.Bitwise
import Mathlib.Data.Nat.Size

/-! The reduction modulo any number: a division word by word, of which only the rest is kept. -/
namespace MyTools.Mpi
open Library CMpi

namespace CMpi

def topWord (a : CMpi) : Option UInt32 := if a.length = 0 then none else a.get (a.length - 1)

end CMpi

namespace CMpl

/-- The local variables of `CMpl_Reduction` and, in `inner`, of each of the calls that it makes, before they are
assigned. -/
structure Scratch where
  mt : CMpi
  odiv : CMpi
  temp : CMpl
  tdiv : CMpl
  inner : Loop.Supply CMpl

structure Work where
  n : CMpl
  temp : CMpl
  tdiv : CMpl
  frames : Loop.Supply CMpl

/-- `ui` is a top word plus one, which is zero where it wraps. -/
def quotientWord (t64 : ℕ) (ui : UInt32) : UInt32 := .ofNat (if ui ≠ 0 then t64 / ui.toNat else t64 / radix)

def divisorAt (odiv : CMpi) (j : ℕ) (tdiv : CMpl) : Option CMpl := do
  let l ← odiv.assign tdiv.l
  let h ← tdiv.h.assignD 0
  wordShiftLeft ⟨h, l⟩ j

def multipleAt (odiv : CMpi) (uj : UInt32) (j : ℕ) (temp : CMpl) : Option CMpl := do
  let l ← odiv.assign temp.l
  let h ← temp.h.assignD 0
  let l ← l.multiplyD uj
  let h ← (if l.carry ≠ 0 then { h with length := 1 }.put 0 l.carry else some { h with length := 0 })
  wordShiftLeft ⟨h, l⟩ j

/-- What a pass does with the two top words `t64` at the divisor `j` words up. -/
def passAt (test : CMpl → CMpl → Option Bool) (odiv : CMpi) (ui : UInt32) (j t64 : ℕ) (s : Work) : Option Work := do
  let temp ← multipleAt odiv (quotientWord t64 ui) j s.temp
  let tdiv ← divisorAt odiv j s.tdiv
  let n ← s.n.substract temp (s.frames 0)
  let (n, frames) ← Loop.whileDo (fun s => test tdiv s.1) (Loop.supplied fun junk n => n.substract tdiv junk) (radix ^ 16)
    (n, s.frames.after 1)
  some ⟨n, temp, tdiv, frames⟩

/-- `!CMpi_LargerThan_abs(&tdiv.h, &n->h)`: the low halves are left out. -/
def highTest (tdiv n : CMpl) : Option Bool := do some !(← tdiv.h.largerThanAbs n.h)

def lowTest (tdiv n : CMpl) : Option Bool := do
  if !(← tdiv.l.largerThanAbs n.l) then some true
  else some ((← n.h.get 0) ≠ 0 ∧ n.h.length ≠ 0)

/-- A pass of the first loop, for word `i` of the high half. -/
def highPass (odiv : CMpi) (ui : UInt32) (i : ℕ) (s : Work) : Option Work := do
  let upper ← (if 8 ≤ i + 1 then some 0 else s.n.h.get (i + 1))
  let t64 := upper.toNat * radix + (← s.n.h.get i).toNat
  passAt highTest odiv ui (i + 9 - odiv.length) t64 s

/-- A pass of the second loop, for word `i` of the low half. -/
def lowPass (odiv : CMpi) (ui : UInt32) (i : ℕ) (s : Work) : Option Work := do
  let upper ← (if i = 7 then (if s.n.h.length = 0 then some 0 else s.n.h.get 0) else s.n.l.get (i + 1))
  let t64 := upper.toNat * radix + (← s.n.l.get i).toNat
  passAt lowTest odiv ui (i + 1 - odiv.length) t64 s

def lastTest (mt : CMpi) (s : CMpi × CMpi) : Option Bool := do some !(← mt.largerThanAbs s.1)

/-- A pass of the last loop, on the low half and the low half of `temp`. -/
def lastPass (mt junk : CMpi) (s : CMpi × CMpi) : Option (CMpi × CMpi) := do
  let top ← s.1.topWord
  let ui := (← mt.topWord) + 1
  if ui = 0 then none
  else do
    let temp ← mt.assign s.2
    let temp ← temp.multiplyD (if top / ui = 0 then 1 else top / ui)
    some (← s.1.substract temp junk, temp)

/-- `while (!(0x80000000 & (ui << flag))) flag++;` -/
def leadingZeros (ui : UInt32) : Option ℕ :=
  Loop.whileDo (fun flag => some (0x80000000 &&& ui <<< UInt32.ofNat flag = 0)) (fun flag => some (flag + 1)) 32 0

def divide (odiv : CMpi) (n temp tdiv : CMpl) (frames : Loop.Supply CMpl) : Option Work := do
  let h ← (if n.h.length < 8 then n.h.put n.h.length 0 else some n.h)
  let ui := (← odiv.topWord) + 1
  let s ← Loop.down (highPass odiv ui) h.length ⟨⟨h, n.l⟩, temp, tdiv, frames⟩
  let l ← (if s.n.l.length < 8 then s.n.l.put s.n.l.length 0 else some s.n.l)
  Loop.down (fun k => lowPass odiv ui (odiv.length - 1 + k)) (l.length + 1 - odiv.length)
    { s with n := ⟨s.n.h, l⟩ }

/-- What is left to do when the divisor `odiv` is made from the modulus `mt`. -/
def divideOut (mflag : Sign) (n : CMpl) (mt odiv : CMpi) (scratch : Scratch) : Option CMpl :=
  if n.l.length + n.h.length + 1 ≤ odiv.length then
    some ⟨{ n.h with sign := mflag }, { n.l with sign := mflag }⟩
  else do
    let s ← divide odiv n scratch.temp scratch.tdiv (scratch.inner.after 1)
    let (last, _) ← Loop.whileDo (fun s : (CMpi × CMpi) × _ => lastTest mt s.1)
      (Loop.supplied fun junk => lastPass mt junk.l) (radix ^ 16) ((s.n.l, s.temp.l), s.frames)
    some ⟨{ s.n.h with sign := mflag }, { last.1 with sign := mflag }⟩

def reduction (n : CMpl) (m : CMpi) (scratch : Scratch) : Option CMpl :=
  if m.word = gP.word ∧ m.length = 8 then n.fastReduction m scratch.inner
  else do
    let mt ← m.assign scratch.mt
    let length ← mt.topLength mt.length
    let mt := { mt with length }
    let mflag := n.l.sign
    let n : CMpl := ⟨{ n.h with sign := .positive }, { n.l with sign := .positive }⟩
    if (← mt.equalsToD 0) then some n
    else do
      let mt := { mt with sign := .positive }
      let odiv ← mt.assign scratch.odiv
      let flag ← leadingZeros (← odiv.topWord)
      let odiv ← odiv.bitShiftLeft flag (scratch.inner 0)
      divideOut mflag n mt odiv scratch

def mod (a : CMpl) (m : CMpi) (scratch : Scratch) : Option CMpl := a.reduction m scratch

/-! The numbers that the reduction sets out with. -/

/-- `mt` of `CMpl_Reduction`: the modulus without leading zero words and without its sign. -/
def modulusWords (m : CMpi) (scratch : Scratch) : Option CMpi := do
  let mt ← m.assign scratch.mt
  let length ← mt.topLength mt.length
  some { mt with length, sign := .positive }

/-- `odiv` of `CMpl_Reduction`. -/
def divisorWords (mt : CMpi) (scratch : Scratch) : Option CMpi := do
  let odiv ← mt.assign scratch.odiv
  let flag ← leadingZeros (← odiv.topWord)
  odiv.bitShiftLeft flag (scratch.inner 0)

/-- The number that the loops of `CMpl_Reduction` work on. -/
def unsigned (n : CMpl) : CMpl := ⟨{ n.h with sign := .positive }, { n.l with sign := .positive }⟩

/-! The products that are taken off. -/

theorem h_abs (a : CMpl) (l_bounded : a.l.length ≤ 8) : a.h.abs = a.abs / radix ^ 8 := by
  have small : a.l.abs < radix ^ 8 := Nat.lt_of_lt_of_le a.l.abs_lt (Nat.pow_le_pow_right radix_pos l_bounded)
  rw [abs, Nat.add_mul_div_right _ _ (Nat.pow_pos radix_pos), Nat.div_eq_of_lt small, Nat.zero_add]

private theorem abs_of_lengths {a : CMpl} (empty : a.h.length + a.l.length = 0) : a.h.abs = 0 ∧ a.l.abs = 0 :=
  ⟨CMpi.abs_eq_zero.mpr fun i inside => absurd inside (by omega),
    CMpi.abs_eq_zero.mpr fun i inside => absurd inside (by omega)⟩

private theorem tidy_of_shifted {r : CMpl} {i : ℕ} (packed : r.Packed) (l_sign : r.l.sign = .positive)
    (h_sign : r.h.sign = .positive) (l_length : r.l.length = min (i + 1) 8) (h_length : r.h.length = i + 1 - 8)
    (large : radix ^ i ≤ r.abs) : r.Tidy := by
  have trimmed : r.h.Trimmed := by
    apply trimmed_of_le_abs
    intro k length
    have whole := r.abs_lt packed.l_bounded
    have size : i = k + 8 := by omega
    rw [size, pow_add] at large
    exact Nat.lt_succ_iff.mp (Nat.lt_of_mul_lt_mul_right (a := radix ^ 8) (Nat.lt_of_le_of_lt large whole))
  refine ⟨⟨l_sign, h_sign, packed.l_bounded, packed.h_bounded⟩, ?_, trimmed, fun empty => ?_⟩
  · rcases packed.full with full | short
    · exact .inr full
    · exact .inl (CMpi.abs_eq_zero.mpr fun i inside => absurd inside (by omega))
  · have short := trimmed.length_eq_zero empty
    apply trimmed_of_le_abs
    intro k length
    rw [abs, empty, Nat.zero_mul, Nat.add_zero] at large
    have size : i = k := by omega
    exact size ▸ large

private theorem placed_run {a : CMpl} {j : ℕ} (packed : a.Packed) (l_sign : a.l.sign = .positive)
    (h_sign : a.h.sign = .positive) (top : ∀ i, a.h.length + a.l.length = i + 1 → radix ^ i ≤ a.abs)
    (fits : a.abs * radix ^ j < radix ^ 16) :
    ∃ r, a.wordShiftLeft j = some r ∧ r.Tidy ∧ r.abs = a.abs * radix ^ j ∧
      r.l.length = if a.abs = 0 then 0 else min (a.h.length + a.l.length + j) 8 := by
  cases size : a.h.length + a.l.length with
  | zero =>
    obtain ⟨h_zero, l_zero⟩ := abs_of_lengths size
    have zero : a.abs = 0 := by rw [abs, h_zero, l_zero, Nat.zero_mul]
    refine ⟨a, wordShiftLeft_empty a j size, ⟨⟨l_sign, h_sign, packed.l_bounded, packed.h_bounded⟩, .inl h_zero,
      fun i length => absurd length (by omega), fun _ i length => absurd length (by omega)⟩, ?_, ?_⟩
    · rw [zero, Nat.zero_mul]
    · rw [if_pos zero]
      omega
  | succ i =>
    have large := top i size
    have nonzero : a.abs ≠ 0 := fun zero => by
      rw [zero] at large
      exact absurd large (Nat.not_le.mpr (Nat.pow_pos radix_pos))
    have moved : radix ^ (i + j) ≤ a.abs * radix ^ j := pow_add radix i j ▸ Nat.mul_le_mul_right _ large
    have room : i + j < 16 := (Nat.pow_lt_pow_iff_right (show 1 < radix by decide)).mp (Nat.lt_of_le_of_lt moved fits)
    obtain ⟨r, run, shifted, l_length, h_length⟩ := wordShiftLeft_run a j packed nonzero
    have value : r.abs = a.abs * radix ^ j := (shifted.abs packed (by omega)).trans (Nat.mul_comm _ _)
    refine ⟨r, run, ?_, value, by rw [if_neg nonzero]; omega⟩
    exact tidy_of_shifted (i := i + j) shifted.toPacked (shifted.l_sign.trans l_sign) (shifted.h_sign.trans h_sign)
      (by omega) (by omega) (value ▸ moved)

/-- A divisor with its top bit set. -/
structure Divisor (odiv : CMpi) : Prop where
  sign : odiv.sign = .positive
  bounded : odiv.length ≤ 8
  some_ : 0 < odiv.length
  large : radix ^ odiv.length ≤ 2 * odiv.abs

theorem Divisor.trimmed {odiv : CMpi} (divisor : Divisor odiv) : odiv.Trimmed := by
  apply trimmed_of_le_abs
  intro i length
  have large := divisor.large
  have double := Nat.mul_le_mul_left (radix ^ i) (show 2 ≤ radix by decide)
  rw [length, pow_succ] at large
  omega

theorem Divisor.pos {odiv : CMpi} (divisor : Divisor odiv) : 0 < odiv.abs := by
  have large := divisor.large
  have power : 0 < radix ^ odiv.length := Nat.pow_pos radix_pos
  omega

/-- A multiple of the divisor, `j` words up. -/
structure Placed (odiv : CMpi) (j value : ℕ) (r : CMpl) : Prop extends Tidy r where
  value : r.abs = value * radix ^ j
  wide : 8 ≤ odiv.length + j → r.l.length = 8 ∨ r.l.length = 0

theorem divisorAt_run {odiv : CMpi} (divisor : Divisor odiv) {j : ℕ} (tdiv : CMpl)
    (fits : odiv.abs * radix ^ j < radix ^ 16) :
    ∃ r, divisorAt odiv j tdiv = some r ∧ Placed odiv j odiv.abs r := by
  obtain ⟨l, l_run, same, -⟩ := assign_run odiv tdiv.l divisor.bounded
  obtain ⟨h, h_run, h_sign, -, h_length, -, -, h_zero⟩ := assignD_run tdiv.h 0
  rw [if_pos rfl] at h_length
  have l_length : l.length = odiv.length := same.length
  have value : (CMpl.mk h l).abs = odiv.abs := by
    have nothing : h.abs = 0 := h_zero
    rw [abs, nothing, Nat.zero_mul, same.abs, Nat.add_zero]
  obtain ⟨r, run, tidy, r_value, r_length⟩ := placed_run (a := ⟨h, l⟩) (j := j)
    ⟨l_length ▸ divisor.bounded, h_length ▸ Nat.zero_le 8, .inr h_length⟩ (same.sign.trans divisor.sign) h_sign
    (fun i size => by
      rw [value]
      exact divisor.trimmed.le_abs (by rw [← l_length]; dsimp only at size; omega))
    (value ▸ fits)
  refine ⟨r, ?_, tidy, value ▸ r_value, fun wide => ?_⟩
  · rw [divisorAt, l_run, Option.bind_eq_bind, Option.bind_some, h_run, Option.bind_some, run]
  · rw [value, if_neg divisor.pos.ne'] at r_length
    dsimp only at r_length
    omega

private theorem multipleAt_run {odiv : CMpi} (divisor : Divisor odiv) (uj : UInt32) (j : ℕ) (temp : CMpl)
    (fits : odiv.abs * uj.toNat * radix ^ j < radix ^ 16) :
    ∃ r, multipleAt odiv uj j temp = some r ∧ Placed odiv j (odiv.abs * uj.toNat) r := by
  obtain ⟨l, l_run, same, -⟩ := assign_run odiv temp.l divisor.bounded
  obtain ⟨h, h_run, h_sign, -, h_length, -⟩ := assignD_run temp.h 0
  have l_length : l.length = odiv.length := same.length
  have l_trimmed : l.Trimmed := trimmed_of_le_abs fun i length => by
    rw [same.abs]
    exact divisor.trimmed.le_abs (same.length.symm.trans length)
  obtain ⟨x, x_run, scaled⟩ := multiplyD_run l uj (l_length ▸ divisor.bounded)
  have x_sign : x.sign = .positive := by rw [scaled.sign, same.sign, divisor.sign, ite_self]
  have x_value : x.abs + x.carry.toNat * radix ^ 8 = odiv.abs * uj.toNat := by rw [scaled.value, same.abs]
  have longer (carry : x.carry = 0) (nonzero : odiv.abs * uj.toNat ≠ 0) : odiv.length ≤ x.length := by
    obtain ⟨i, length⟩ := Nat.exists_eq_add_of_lt divisor.some_
    have large := divisor.trimmed.le_abs (show odiv.length = i + 1 by omega)
    have grown : odiv.abs ≤ odiv.abs * uj.toNat :=
      Nat.le_mul_of_pos_right _ (Nat.pos_of_ne_zero fun zero => nonzero (by rw [zero, Nat.mul_zero]))
    have empty : (0 : UInt32).toNat = 0 := rfl
    rw [carry, empty, Nat.zero_mul, Nat.add_zero] at x_value
    have order := (Nat.pow_lt_pow_iff_right (show 1 < radix by decide)).mp
      (Nat.lt_of_le_of_lt (Nat.le_trans large (x_value ▸ grown)) x.abs_lt)
    omega
  unfold multipleAt
  rw [l_run, Option.bind_eq_bind, Option.bind_some, h_run, Option.bind_some, x_run, Option.bind_some]
  apply Loop.seq_rule fun h' : CMpi => h'.sign = .positive ∧ h'.abs = x.carry.toNat ∧
    h'.length = if x.carry = 0 then 0 else 1
  · by_cases carry : x.carry = 0
    · rw [if_neg (not_not.mpr carry), carry]
      exact ⟨_, rfl, h_sign, rfl, rfl⟩
    · rw [if_pos carry, if_neg carry, put_eq _ (by decide)]
      refine ⟨_, rfl, h_sign, ?_, rfl⟩
      rw [CMpi.abs, set_length, Limbs.value_succ, digit_set_self _ (by decide), Limbs.value_zero, pow_zero, Nat.mul_one,
        Nat.zero_add]
  · rintro h' ⟨h'_sign, h'_value, h'_length⟩
    have value : (CMpl.mk h' x).abs = odiv.abs * uj.toNat := by rw [abs, h'_value, x_value]
    have full : x.length = 8 ∨ h'.length = 0 := by
      by_cases carry : x.carry = 0
      · exact .inr (h'_length.trans (if_pos carry))
      · exact .inl (scaled.full carry)
    obtain ⟨r, run, tidy, r_value, r_length⟩ := placed_run (a := ⟨h', x⟩) (j := j)
      ⟨scaled.bounded, by rw [h'_length]; split <;> decide, full⟩ x_sign h'_sign (fun i size => by
        by_cases carry : x.carry = 0
        · rw [if_pos carry] at h'_length
          dsimp only at size
          exact Nat.le_trans ((scaled.trimmed l_trimmed carry).le_abs (show x.length = i + 1 by omega))
            (Nat.le_add_right _ _)
        · have some_ : 0 < x.carry.toNat := Nat.pos_of_ne_zero fun zero => carry (UInt32.toNat_inj.mp zero)
          have length := scaled.full carry
          rw [if_neg carry] at h'_length
          dsimp only at size
          obtain rfl : i = 8 := by omega
          rw [abs, h'_value]
          exact Nat.le_trans (Nat.le_mul_of_pos_left _ some_) (Nat.le_add_left _ _)) (value ▸ fits)
    refine ⟨r, run, tidy, value ▸ r_value, fun wide => ?_⟩
    rw [value] at r_length
    dsimp only at r_length
    by_cases zero : odiv.abs * uj.toNat = 0
    · rw [if_pos zero] at r_length
      exact .inr r_length
    · rw [if_neg zero] at r_length
      by_cases carry : x.carry = 0
      · have order := longer carry zero
        omega
      · have length := scaled.full carry
        omega

/-! A pass. -/

private theorem quotientWord_toNat {w : UInt32} {t64 : ℕ} (small : t64 / (w.toNat + 1) < radix) :
    (quotientWord t64 (w + 1)).toNat = t64 / (w.toNat + 1) := by
  have below : w.toNat < 4294967296 := w.toNat_lt
  have size : radix = 4294967296 := rfl
  have next : (w + 1).toNat = (w.toNat + 1) % 4294967296 := UInt32.toNat_add w 1
  unfold quotientWord
  by_cases wrapped : w + 1 = 0
  · have zero : (w + 1).toNat = 0 := by rw [wrapped]; rfl
    have whole : w.toNat + 1 = radix := by omega
    rw [if_neg (not_not.mpr wrapped), toNat_ofNat, whole, Nat.mod_eq_of_lt (whole ▸ small)]
  · have some_ : (w + 1).toNat ≠ 0 := fun zero => wrapped (UInt32.toNat_inj.mp zero)
    have exact_ : (w + 1).toNat = w.toNat + 1 := by omega
    rw [if_pos wrapped, toNat_ofNat, exact_, Nat.mod_eq_of_lt small]

private theorem abs_le_top {a : CMpi} {i : ℕ} (length : a.length = i + 1) :
    a.abs ≤ (a.digit i + 1) * radix ^ i := by
  have low : Limbs.value radix a.digit i < radix ^ i := Limbs.value_lt fun k _ => a.digit_lt k
  rw [CMpi.abs, length, Limbs.value_succ, Nat.succ_mul]
  omega

private theorem h_empty_of_le {a b : CMpl} (a_level : a.Level) (order : b.abs ≤ a.abs) (empty : a.h.abs = 0) :
    b.h.abs = 0 := by
  have high := h_le_of_le a_level.l_bounded order
  omega

/-- A pass leaves the rest modulo the divisor, if the test tells whether the divisor can be taken off. -/
private theorem passAt_run {odiv : CMpi} (divisor : Divisor odiv) {test : CMpl → CMpl → Option Bool} {i j : ℕ}
    (length : odiv.length = i + 1) {s : Work} (level : s.n.Level)
    (below : s.n.abs < odiv.abs * radix ^ j * radix) (fits : odiv.abs * radix ^ j < radix ^ 16)
    (wide : s.n.h.abs = 0 ∨ 8 ≤ odiv.length + j)
    (tested : ∀ tdiv n : CMpl, tdiv.Tidy → tdiv.abs = odiv.abs * radix ^ j → n.Tidy → n.abs ≤ s.n.abs →
      n.abs % (odiv.abs * radix ^ j) = s.n.abs % (odiv.abs * radix ^ j) →
      test tdiv n = some (decide (odiv.abs * radix ^ j ≤ n.abs))) :
    ∃ r, passAt test odiv (odiv.wordAt i + 1) j (s.n.abs / radix ^ (i + j)) s = some r ∧ r.n.Tidy ∧
      r.n.abs = s.n.abs % (odiv.abs * radix ^ j) ∧ Cleared s.n.h r.n.h ∧ Cleared s.n.l r.n.l := by
  have limit : s.n.abs < radix ^ 16 := abs_lt_double level.l_bounded level.h_bounded s.n.h.abs_lt
  have upper : odiv.abs * radix ^ j ≤ (odiv.digit i + 1) * radix ^ (i + j) := by
    rw [pow_add, ← Nat.mul_assoc]
    exact Nat.mul_le_mul_right _ (abs_le_top length)
  have small := Limbs.guess_lt (Nat.lt_of_lt_of_le below (Nat.mul_le_mul_right radix upper))
  have guess := quotientWord_toNat (w := odiv.wordAt i) small
  have most := Limbs.guess_mul_le (n := s.n.abs) upper
  rw [toNat_wordAt] at guess
  rw [← guess] at most
  generalize chosen : quotientWord (s.n.abs / radix ^ (i + j)) (odiv.wordAt i + 1) = uj at *
  have product : odiv.abs * uj.toNat * radix ^ j = uj.toNat * (odiv.abs * radix ^ j) := by ring
  obtain ⟨temp, temp_run, temp_placed⟩ := multipleAt_run divisor uj j s.temp (by omega)
  obtain ⟨tdiv, tdiv_run, tdiv_placed⟩ := divisorAt_run divisor s.tdiv fits
  have temp_value := temp_placed.value
  have tdiv_value := tdiv_placed.value
  obtain ⟨first, first_run, lowered⟩ := substract_run s.n temp (s.frames 0) level temp_placed.toTidy (by omega)
    (wide.imp id temp_placed.wide)
  have first_value := lowered.value
  obtain ⟨last, frames, last_run, ⟨last_tidy, order, rest, h_cleared, l_cleared⟩, left⟩ :
      ∃ last frames, Loop.whileDo (fun s : CMpl × _ => test tdiv s.1) (Loop.supplied fun junk n => n.substract tdiv junk)
          (radix ^ 16) (first, s.frames.after 1) = some (last, frames) ∧
        (last.Tidy ∧ last.abs ≤ s.n.abs ∧ last.abs % (odiv.abs * radix ^ j) = s.n.abs % (odiv.abs * radix ^ j) ∧
          Cleared s.n.h last.h ∧ Cleared s.n.l last.l) ∧ test tdiv last = some false := by
    apply Loop.supplied_rule (test tdiv) (fun n : CMpl => n.Tidy ∧ n.abs ≤ s.n.abs ∧
      n.abs % (odiv.abs * radix ^ j) = s.n.abs % (odiv.abs * radix ^ j) ∧ Cleared s.n.h n.h ∧ Cleared s.n.l n.l) abs
    · refine ⟨lowered.toTidy, by omega, ?_, lowered.h_cleared, lowered.l_cleared⟩
      rw [← first_value, temp_value, product, Nat.add_mul_mod_self_right]
    · omega
    · intro n junk ⟨n_tidy, order, rest, h_cleared, l_cleared⟩
      rw [tested tdiv n tdiv_placed.toTidy tdiv_value n_tidy order rest]
      by_cases more : odiv.abs * radix ^ j ≤ n.abs
      · have positive : 0 < odiv.abs * radix ^ j := Nat.mul_pos divisor.pos (Nat.pow_pos radix_pos)
        obtain ⟨r, run, lowered⟩ := substract_run n tdiv junk n_tidy.level tdiv_placed.toTidy (by omega)
          (wide.imp (h_empty_of_le level order) tdiv_placed.wide)
        have value := lowered.value
        refine .inr ⟨by rw [decide_eq_true more], r, run, ⟨lowered.toTidy, by omega, ?_,
          h_cleared.trans lowered.h_cleared, l_cleared.trans lowered.l_cleared⟩, by omega⟩
        rw [← rest, ← value, tdiv_value, Nat.add_mod_right]
      · exact .inl (by rw [decide_eq_false more])
  rw [tested tdiv last tdiv_placed.toTidy tdiv_value last_tidy order rest, Option.some.injEq,
    decide_eq_false_iff_not, Nat.not_le] at left
  refine ⟨⟨last, temp, tdiv, frames⟩, ?_, last_tidy, ?_, h_cleared, l_cleared⟩
  · rw [passAt, chosen, temp_run, Option.bind_eq_bind, Option.bind_some, tdiv_run, Option.bind_some, first_run, Option.bind_some,
      last_run]
    rfl
  · rw [← rest, Nat.mod_eq_of_lt left]

/-- The words from the length up to `top` are zero. -/
private def Blank (a : CMpi) (top : ℕ) : Prop := ∀ k, a.length ≤ k → k ≤ top → a.wordAt k = 0

private theorem Blank.cleared {a r : CMpi} {top : ℕ} (blank : Blank a top) (cleared : Cleared a r) : Blank r top := by
  intro k outside inside
  rcases cleared k outside with zero | ⟨above, same⟩
  · exact zero
  · exact same.trans (blank k above inside)

private theorem Blank.word {a : CMpi} {top k : ℕ} (blank : Blank a top) (inside : k ≤ top) :
    (a.wordAt k).toNat = a.limb k := by
  unfold CMpi.limb
  split
  · rfl
  · next outside =>
    rw [blank k (Nat.not_lt.mp outside) inside]
    rfl

private theorem top_words {a : CMpl} (level : a.Level) {k : ℕ} (small : a.abs < radix ^ (k + 2)) :
    a.abs / radix ^ k = a.limb (k + 1) * radix + a.limb k := by
  rw [abs_eq_value a level.l_bounded level.h_bounded] at small ⊢
  refine Limbs.value_div_pow (fun i _ => ?_) (fun i outside => ?_) small
  · unfold limb
    split <;> exact CMpi.limb_lt _ _
  · have bounded := level.h_bounded
    rw [limb, if_neg (by omega)]
    exact a.h.limb_outside (by omega)

private theorem abs_mul_lt (odiv : CMpi) {j k : ℕ} (size : odiv.length + j ≤ k) :
    odiv.abs * radix ^ j < radix ^ k := by
  calc odiv.abs * radix ^ j < radix ^ odiv.length * radix ^ j :=
        Nat.mul_lt_mul_of_pos_right odiv.abs_lt (Nat.pow_pos radix_pos)
    _ = radix ^ (odiv.length + j) := (pow_add _ _ _).symm
    _ ≤ radix ^ k := Nat.pow_le_pow_right radix_pos size

private theorem highTest_run {tdiv n : CMpl} {divisor rest : ℕ} (tdiv_tidy : tdiv.Tidy) (n_tidy : n.Tidy)
    (value : tdiv.abs = divisor) (same : n.abs % divisor = rest) (untied : rest / radix ^ 8 < divisor / radix ^ 8) :
    highTest tdiv n = some (decide (divisor ≤ n.abs)) := by
  rw [highTest, largerThanAbs_run _ _ tdiv_tidy.h_bounded n_tidy.h_bounded, Option.bind_eq_bind, Option.bind_some,
    h_abs n n_tidy.l_bounded, h_abs tdiv tdiv_tidy.l_bounded, value]
  by_cases more : divisor ≤ n.abs
  · have order := Nat.div_le_div_right (c := radix ^ 8) more
    rw [decide_eq_false (Nat.not_lt.mpr order), decide_eq_true more]
    rfl
  · rw [Nat.mod_eq_of_lt (Nat.not_le.mp more)] at same
    rw [same, decide_eq_true untied, ← same, decide_eq_false more]
    rfl

private theorem highPass_run {odiv : CMpi} (divisor : Divisor odiv) {i o top : ℕ}
    (length : odiv.length = o + 1) (inside : i < 8) {s : Work} (level : s.n.Level) (blank : Blank s.n.h top)
    (stored : i < top) (below : s.n.abs < odiv.abs * radix ^ (i + 9 - odiv.length) * radix)
    (untied : s.n.abs % (odiv.abs * radix ^ (i + 9 - odiv.length)) / radix ^ 8 <
      odiv.abs * radix ^ (i + 9 - odiv.length) / radix ^ 8) :
    ∃ r, highPass odiv (odiv.wordAt o + 1) i s = some r ∧ r.n.Tidy ∧
      r.n.abs = s.n.abs % (odiv.abs * radix ^ (i + 9 - odiv.length)) ∧ Cleared s.n.h r.n.h ∧ Cleared s.n.l r.n.l := by
  have bounded := divisor.bounded
  have fits := abs_mul_lt odiv (j := i + 9 - odiv.length) (k := i + 9) (by omega)
  have small : s.n.abs < radix ^ (i + 8 + 2) := by
    calc s.n.abs < odiv.abs * radix ^ (i + 9 - odiv.length) * radix := below
      _ ≤ radix ^ (i + 9) * radix := Nat.mul_le_mul_right _ fits.le
      _ = radix ^ (i + 8 + 2) := (pow_succ _ _).symm
  have words := top_words level small
  have high : s.n.limb (i + 8 + 1) = s.n.h.limb (i + 1) := if_neg (by omega)
  have low : s.n.limb (i + 8) = s.n.h.limb i := if_neg (by omega)
  have place : o + (i + 9 - odiv.length) = i + 8 := by omega
  unfold highPass
  apply Loop.seq_rule fun upper : UInt32 => upper.toNat = s.n.h.limb (i + 1)
  · split
    · next past =>
      have h_bounded := level.h_bounded
      exact ⟨0, rfl, (s.n.h.limb_outside (by omega)).symm⟩
    · next inner => exact ⟨_, get_eq _ (by omega), blank.word stored⟩
  · intro upper upper_value
    rw [get_eq _ inside, Option.bind_eq_bind, Option.bind_some, upper_value, blank.word stored.le, ← high, ← low, ← words,
      ← place]
    refine passAt_run divisor length level below ?_ (.inr (by omega)) fun tdiv n tdiv_tidy value n_tidy _ same => ?_
    · exact Nat.lt_of_lt_of_le fits (Nat.pow_le_pow_right radix_pos (by omega))
    · exact highTest_run tdiv_tidy n_tidy value same untied

private theorem lowTest_run {tdiv n : CMpl} {divisor : ℕ} (tdiv_tidy : tdiv.Tidy) (n_tidy : n.Tidy)
    (value : tdiv.abs = divisor) (fits : divisor < radix ^ 8) (small : n.abs < radix ^ 9) :
    lowTest tdiv n = some (decide (divisor ≤ n.abs)) := by
  have tdiv_high : tdiv.h.abs = 0 := by
    rw [h_abs tdiv tdiv_tidy.l_bounded, value, Nat.div_eq_of_lt fits]
  have tdiv_low : tdiv.l.abs = divisor := by
    rw [← value, abs, tdiv_high, Nat.zero_mul, Nat.add_zero]
  unfold lowTest
  rw [largerThanAbs_run _ _ tdiv_tidy.l_bounded n_tidy.l_bounded, Option.bind_eq_bind, Option.bind_some,
    get_eq _ (by decide), Option.bind_eq_bind, Option.bind_some, tdiv_low]
  by_cases empty : n.h.length = 0
  · have zero : n.h.abs = 0 := CMpi.abs_eq_zero.mpr fun i inside => absurd inside (by omega)
    have whole : n.abs = n.l.abs := by rw [abs, zero, Nat.zero_mul, Nat.add_zero]
    rw [whole]
    by_cases more : divisor ≤ n.l.abs
    · rw [decide_eq_false (Nat.not_lt.mpr more), decide_eq_true more]
      rfl
    · rw [decide_eq_true (Nat.not_le.mp more), decide_eq_false more]
      simp [empty]
  · have some_ : 0 < n.h.abs := by
      obtain ⟨i, length⟩ := Nat.exists_eq_succ_of_ne_zero empty
      exact Nat.lt_of_lt_of_le (Nat.pow_pos radix_pos) (n_tidy.h_trimmed.le_abs length)
    have part : n.h.abs * radix ^ 8 ≤ n.abs := Nat.le_add_left _ _
    have more : divisor ≤ n.abs := by
      have large := Nat.le_mul_of_pos_left (radix ^ 8) some_
      omega
    have short : n.h.length ≤ 1 := by
      apply n_tidy.h_trimmed.length_le
      apply Nat.lt_of_mul_lt_mul_right (a := radix ^ 8)
      exact Nat.lt_of_le_of_lt part small
    have word : n.h.wordAt 0 ≠ 0 := fun zero =>
      n_tidy.h_trimmed 0 (by omega) (wordAt_eq_zero.mp zero)
    rw [decide_eq_true more]
    by_cases larger : n.l.abs < divisor
    · simp [larger, word, empty]
    · simp [larger]

private theorem lowPass_run {odiv : CMpi} (divisor : Divisor odiv) {i o top : ℕ}
    (length : odiv.length = o + 1) (inside : i < 8) (covered : o ≤ i) {s : Work} (level : s.n.Level)
    (blank : Blank s.n.l top) (stored : i < top)
    (below : s.n.abs < odiv.abs * radix ^ (i + 1 - odiv.length) * radix) :
    ∃ r, lowPass odiv (odiv.wordAt o + 1) i s = some r ∧ r.n.Tidy ∧
      r.n.abs = s.n.abs % (odiv.abs * radix ^ (i + 1 - odiv.length)) ∧ Cleared s.n.h r.n.h ∧ Cleared s.n.l r.n.l := by
  have fits := abs_mul_lt odiv (j := i + 1 - odiv.length) (k := i + 1) (by omega)
  have small : s.n.abs < radix ^ (i + 2) := by
    calc s.n.abs < odiv.abs * radix ^ (i + 1 - odiv.length) * radix := below
      _ ≤ radix ^ (i + 1) * radix := Nat.mul_le_mul_right _ fits.le
      _ = radix ^ (i + 2) := (pow_succ _ _).symm
  have words := top_words level small
  have low : s.n.limb i = s.n.l.limb i := if_pos inside
  have place : o + (i + 1 - odiv.length) = i := by omega
  unfold lowPass
  apply Loop.seq_rule fun upper : UInt32 => upper.toNat = s.n.limb (i + 1)
  · split
    · next last =>
      subst last
      have high : s.n.limb (7 + 1) = s.n.h.limb 0 := if_neg (by decide)
      split
      · next empty => exact ⟨0, rfl, (high.trans (s.n.h.limb_outside (by omega))).symm⟩
      · next some_ =>
        refine ⟨_, get_eq _ (by decide), ?_⟩
        rw [high, CMpi.limb_inside _ (Nat.pos_of_ne_zero some_), digit]
    · next inner =>
      have high : s.n.limb (i + 1) = s.n.l.limb (i + 1) := if_pos (by omega)
      exact ⟨_, get_eq _ (by omega), (blank.word stored).trans high.symm⟩
  · intro upper upper_value
    have word := blank.word stored.le
    have t64 : upper.toNat * radix + (s.n.l.wordAt i).toNat = s.n.abs / radix ^ (o + (i + 1 - odiv.length)) := by
      rw [place, words, upper_value, word, low]
    rw [get_eq _ inside, Option.bind_eq_bind, Option.bind_some, t64]
    refine passAt_run divisor length level below ?_ ?_ fun tdiv n tdiv_tidy value n_tidy order _ => ?_
    · exact Nat.lt_of_lt_of_le fits (Nat.pow_le_pow_right radix_pos (by omega))
    · by_cases last : i = 7
      · exact .inr (by omega)
      · refine .inl ?_
        rw [h_abs s.n level.l_bounded]
        exact Nat.div_eq_of_lt (Nat.lt_of_lt_of_le small (Nat.pow_le_pow_right radix_pos (by omega)))
    · refine lowTest_run tdiv_tidy n_tidy value ?_ (Nat.lt_of_le_of_lt order ?_)
      · exact Nat.lt_of_lt_of_le fits (Nat.pow_le_pow_right radix_pos inside)
      · exact Nat.lt_of_lt_of_le small (Nat.pow_le_pow_right radix_pos (by omega))

/-! The loops. -/

private structure Dividing (N divisor : ℕ) (n : CMpl) : Prop extends Level n where
  rest : n.abs = N % divisor

private theorem Dividing.next {N divisor power : ℕ} {n n' : CMpl} (dividing : Dividing N (divisor * radix ^ (power + 1)) n)
    (level : n'.Level) (rest : n'.abs = n.abs % (divisor * radix ^ power)) : Dividing N (divisor * radix ^ power) n' := by
  refine ⟨level, ?_⟩
  rw [rest, dividing.rest]
  exact Nat.mod_mod_of_dvd _ (Nat.mul_dvd_mul_left _ (pow_dvd_pow _ (Nat.le_succ power)))

private theorem Dividing.below {N divisor power : ℕ} {n : CMpl} (dividing : Dividing N (divisor * radix ^ (power + 1)) n)
    (positive : 0 < divisor) : n.abs < divisor * radix ^ power * radix := by
  rw [dividing.rest, Nat.mul_assoc, ← pow_succ]
  exact Nat.mod_lt _ (Nat.mul_pos positive (Nat.pow_pos radix_pos))

private theorem highLoop_run {odiv : CMpi} (divisor : Divisor odiv) {o top : ℕ}
    (length : odiv.length = o + 1) {s : Work} (level : s.n.Level) (bounded : top ≤ 8) (blank : Blank s.n.h top)
    (below : s.n.abs < odiv.abs * radix ^ (top + 9 - odiv.length))
    (untied : ∀ i, i < top → s.n.abs % (odiv.abs * radix ^ (i + 9 - odiv.length)) / radix ^ 8 <
      odiv.abs * radix ^ (i + 9 - odiv.length) / radix ^ 8) :
    ∃ r, Loop.down (highPass odiv (odiv.wordAt o + 1)) top s = some r ∧
      Dividing s.n.abs (odiv.abs * radix ^ (9 - odiv.length)) r.n := by
  have short := divisor.bounded
  have looped : ∃ r, Loop.down (highPass odiv (odiv.wordAt o + 1)) top s = some r ∧
      Dividing s.n.abs (odiv.abs * radix ^ (0 + 9 - odiv.length)) r.n ∧ Blank r.n.h top := by
    apply Loop.down_rule fun k (r : Work) => Dividing s.n.abs (odiv.abs * radix ^ (k + 9 - odiv.length)) r.n ∧ Blank r.n.h top
    · exact ⟨⟨level, (Nat.mod_eq_of_lt below).symm⟩, blank⟩
    · intro i r inside ⟨dividing, blank⟩
      have power : i + 1 + 9 - odiv.length = i + 9 - odiv.length + 1 := by omega
      rw [power] at dividing
      have rest : r.n.abs % (odiv.abs * radix ^ (i + 9 - odiv.length)) =
          s.n.abs % (odiv.abs * radix ^ (i + 9 - odiv.length)) := by
        rw [dividing.rest]
        exact Nat.mod_mod_of_dvd _ (Nat.mul_dvd_mul_left _ (pow_dvd_pow _ (Nat.le_succ _)))
      obtain ⟨r', run, tidy', rest', cleared, -⟩ := highPass_run divisor length (by omega) dividing.toLevel blank
        inside (dividing.below divisor.pos) (rest ▸ untied i inside)
      exact ⟨r', run, dividing.next tidy'.level rest', blank.cleared cleared⟩
  obtain ⟨r, run, dividing, -⟩ := looped
  exact ⟨r, run, Nat.zero_add 9 ▸ dividing⟩

private theorem lowLoop_run {odiv : CMpi} (divisor : Divisor odiv) {o top : ℕ}
    (length : odiv.length = o + 1) {s : Work} (level : s.n.Level) (bounded : top ≤ 8) (blank : Blank s.n.l top)
    (below : s.n.abs < odiv.abs * radix ^ (top + 1 - odiv.length)) (tidies : s.n.Tidy ∨ odiv.length ≤ top) :
    ∃ r, Loop.down (fun k => lowPass odiv (odiv.wordAt o + 1) (odiv.length - 1 + k)) (top + 1 - odiv.length) s =
      some r ∧ r.n.Tidy ∧ r.n.abs = s.n.abs % odiv.abs := by
  have looped : ∃ r, Loop.down (fun k => lowPass odiv (odiv.wordAt o + 1) (odiv.length - 1 + k))
      (top + 1 - odiv.length) s = some r ∧ Dividing s.n.abs (odiv.abs * radix ^ 0) r.n ∧ Blank r.n.l top ∧
        (s.n.Tidy ∨ 0 < top + 1 - odiv.length → r.n.Tidy) := by
    apply Loop.down_rule fun k (r : Work) => Dividing s.n.abs (odiv.abs * radix ^ k) r.n ∧ Blank r.n.l top ∧
      (s.n.Tidy ∨ k < top + 1 - odiv.length → r.n.Tidy)
    · exact ⟨⟨level, (Nat.mod_eq_of_lt below).symm⟩, blank, fun start => start.resolve_right (Nat.lt_irrefl _)⟩
    · intro k r inside ⟨dividing, blank, _⟩
      have power : odiv.length - 1 + k + 1 - odiv.length = k := by omega
      obtain ⟨r', run, tidy', rest', -, cleared⟩ := lowPass_run divisor (i := odiv.length - 1 + k) length (by omega)
        (by omega) dividing.toLevel blank (by omega) (power.symm ▸ dividing.below divisor.pos)
      rw [power] at rest'
      exact ⟨r', run, dividing.next tidy'.level rest', blank.cleared cleared, fun _ => tidy'⟩
  obtain ⟨r, run, dividing, -, tidy⟩ := looped
  have rest := dividing.rest
  rw [pow_zero, Nat.mul_one] at rest
  exact ⟨r, run, tidy (tidies.imp_right fun more => by omega), rest⟩

/-- The low half before a pass of the last loop. -/
private structure Lasting (N divisor : ℕ) (mt l : CMpi) : Prop where
  sign : l.sign = .positive
  bounded : l.length ≤ 8
  trimmed : l.Trimmed
  rest : l.abs % mt.abs = N % mt.abs
  below : l.abs < divisor

theorem topWord_run {a : CMpi} {i : ℕ} (length : a.length = i + 1) (bounded : a.length ≤ 8) :
    a.topWord = some (a.wordAt i) := by
  rw [topWord, if_neg (by omega), length, Nat.add_sub_cancel, get_eq a (by omega)]

theorem top_le_abs {a : CMpi} {i : ℕ} (length : a.length = i + 1) : a.digit i * radix ^ i ≤ a.abs := by
  rw [CMpi.abs, length, Limbs.value_succ]
  exact Nat.le_add_left _ _

private theorem lastPass_run {N divisor i : ℕ} {mt l : CMpi} (temp junk : CMpi) (mt_sign : mt.sign = .positive)
    (length : mt.length = i + 1) (bounded : mt.length ≤ 8) (mt_trimmed : mt.Trimmed)
    (fits : divisor ≤ radix ^ mt.length) (unwrapped : mt.digit i + 1 = radix → divisor ≤ mt.abs)
    (lasting : Lasting N divisor mt l) (more : mt.abs ≤ l.abs) :
    ∃ r, lastPass mt junk (l, temp) = some r ∧ Lasting N divisor mt r.1 ∧ r.1.abs < l.abs := by
  obtain ⟨l_sign, l_bounded, l_trimmed, rest, below⟩ := lasting
  have large := mt_trimmed.le_abs length
  have l_length : l.length = i + 1 := by
    have most := l_trimmed.length_le (Nat.lt_of_lt_of_le below fits)
    have least := (Nat.pow_lt_pow_iff_right (show 1 < radix by decide)).mp
      (Nat.lt_of_le_of_lt (Nat.le_trans large more) l.abs_lt)
    omega
  have size : radix = 4294967296 := rfl
  have digit_small := mt.digit_lt i
  have next : (mt.wordAt i + 1).toNat = (mt.digit i + 1) % 4294967296 := UInt32.toNat_add _ 1
  have whole : mt.digit i + 1 ≠ radix := fun wrapped => by
    have order := unwrapped wrapped
    omega
  have ui : (mt.wordAt i + 1).toNat = mt.digit i + 1 := by omega
  have nonzero : mt.wordAt i + 1 ≠ 0 := fun zero => by
    have nothing : (mt.wordAt i + 1).toNat = 0 := by rw [zero]; rfl
    omega
  let uj : UInt32 := if l.wordAt i / (mt.wordAt i + 1) = 0 then 1 else l.wordAt i / (mt.wordAt i + 1)
  have uj_le : mt.abs * uj.toNat ≤ l.abs ∧ 0 < uj.toNat := by
    by_cases zero : l.wordAt i / (mt.wordAt i + 1) = 0
    · simp only [uj, if_pos zero]
      exact ⟨(Nat.mul_one mt.abs).symm ▸ more, Nat.one_pos⟩
    · simp only [uj, if_neg zero]
      refine ⟨?_, Nat.pos_of_ne_zero fun nothing => zero (UInt32.toNat_inj.mp nothing)⟩
      rw [UInt32.toNat_div, ui, toNat_wordAt]
      calc mt.abs * (l.digit i / (mt.digit i + 1)) ≤ (mt.digit i + 1) * radix ^ i * (l.digit i / (mt.digit i + 1)) :=
            Nat.mul_le_mul_right _ (abs_le_top length)
        _ = (mt.digit i + 1) * (l.digit i / (mt.digit i + 1)) * radix ^ i := by ring
        _ ≤ l.digit i * radix ^ i := Nat.mul_le_mul_right _ (Nat.mul_div_le _ _)
        _ ≤ l.abs := top_le_abs l_length
  obtain ⟨x, x_run, same, -⟩ := assign_run mt temp bounded
  obtain ⟨y, y_run, scaled⟩ := multiplyD_run x uj (same.length ▸ bounded)
  have limit : l.abs < radix ^ 8 := Nat.lt_of_lt_of_le l.abs_lt (Nat.pow_le_pow_right radix_pos l_bounded)
  have y_value := scaled.value
  rw [same.abs] at y_value
  have clear : y.carry.toNat = 0 := by
    by_contra carry
    have larger := Nat.le_mul_of_pos_left (radix ^ 8) (Nat.pos_of_ne_zero carry)
    omega
  rw [clear, Nat.zero_mul, Nat.add_zero] at y_value
  have y_sign : y.sign = .positive := by rw [scaled.sign, same.sign, mt_sign, ite_self]
  have x_trimmed : x.Trimmed := trimmed_of_le_abs fun i length => by
    rw [same.abs]
    exact mt_trimmed.le_abs (same.length.symm.trans length)
  have y_trimmed := scaled.trimmed x_trimmed (UInt32.toNat_inj.mp clear)
  obtain ⟨r, run, difference⟩ := substract_same l y junk l_bounded scaled.bounded (l_sign.trans y_sign.symm)
    (ordered_of_trimmed l_trimmed y_trimmed)
  have order : y.abs ≤ l.abs := y_value ▸ uj_le.1
  have value : r.abs + min l.abs y.abs = max l.abs y.abs := difference.value
  have sign : r.sign = if l.abs < y.abs then y.sign.opposite else l.sign := difference.sign
  have r_length : r.length ≤ max l.length y.length := difference.bounded
  rw [Nat.min_eq_right order, Nat.max_eq_left order] at value
  rw [if_neg (Nat.not_lt.mpr order)] at sign
  have smaller : r.abs < l.abs := by
    have positive : 0 < mt.abs := Nat.lt_of_lt_of_le (Nat.pow_pos radix_pos) large
    have product := Nat.mul_pos positive uj_le.2
    omega
  refine ⟨(r, y), ?_, ⟨sign.trans l_sign, ?_, difference.trimmed, ?_, Nat.lt_trans smaller below⟩, smaller⟩
  · rw [lastPass, topWord_run l_length l_bounded, Option.bind_eq_bind, Option.bind_some, topWord_run length bounded,
      Option.bind_some, if_neg nonzero, x_run, Option.bind_eq_bind, Option.bind_some, y_run, Option.bind_some, run,
      Option.bind_some]
  · exact Nat.le_trans r_length (Nat.max_le.mpr ⟨l_bounded, scaled.bounded⟩)
  · rw [← rest, ← value, y_value, Nat.add_mul_mod_self_left]

private theorem lastLoop_run {N divisor i : ℕ} {mt l : CMpi} (temp : CMpi) (frames : Loop.Supply CMpl) (mt_sign : mt.sign = .positive)
    (length : mt.length = i + 1) (bounded : mt.length ≤ 8) (mt_trimmed : mt.Trimmed)
    (fits : divisor ≤ radix ^ mt.length) (unwrapped : mt.digit i + 1 = radix → divisor ≤ mt.abs)
    (lasting : Lasting N divisor mt l) :
    ∃ r rest, Loop.whileDo (fun s : (CMpi × CMpi) × _ => lastTest mt s.1) (Loop.supplied fun junk => lastPass mt junk.l)
        (radix ^ 16) ((l, temp), frames) = some (r, rest) ∧ r.1.sign = .positive ∧ r.1.length ≤ 8 ∧ r.1.abs = N % mt.abs := by
  have test {s : CMpi × CMpi} (lasting : Lasting N divisor mt s.1) : lastTest mt s = some (decide (mt.abs ≤ s.1.abs)) := by
    rw [lastTest, largerThanAbs_run _ _ bounded lasting.bounded, Option.bind_eq_bind, Option.bind_some, Option.some.injEq,
      Bool.not_eq_eq_eq_not, ← decide_not]
    exact decide_eq_decide.mpr Nat.not_le.symm
  have limit : l.abs < radix ^ 16 := Nat.lt_of_lt_of_le l.abs_lt
    (Nat.pow_le_pow_right radix_pos (Nat.le_trans lasting.bounded (by decide)))
  obtain ⟨r, rest, run, lasting, left⟩ : ∃ r rest, Loop.whileDo (fun s : (CMpi × CMpi) × _ => lastTest mt s.1)
      (Loop.supplied fun junk => lastPass mt junk.l) (radix ^ 16) ((l, temp), frames) = some (r, rest) ∧
        Lasting N divisor mt r.1 ∧ lastTest mt r = some false := by
    apply Loop.supplied_rule (lastTest mt) (fun s : CMpi × CMpi => Lasting N divisor mt s.1) fun s => s.1.abs
    · exact lasting
    · exact limit
    · rintro ⟨l, temp⟩ junk lasting
      rw [test lasting]
      by_cases more : mt.abs ≤ l.abs
      · obtain ⟨r, run, lasting', smaller⟩ := lastPass_run temp junk.l mt_sign length bounded mt_trimmed fits unwrapped
          lasting more
        exact .inr ⟨by rw [decide_eq_true more], r, run, lasting', smaller⟩
      · exact .inl (by rw [decide_eq_false more])
  rw [test lasting, Option.some.injEq, decide_eq_false_iff_not, Nat.not_le] at left
  exact ⟨r, rest, run, lasting.sign, lasting.bounded, by rw [← lasting.rest, Nat.mod_eq_of_lt left]⟩

/-! The whole reduction. -/

private theorem topBit {x : UInt32} : 0x80000000 &&& x = 0 ↔ x.toNat < 2 ^ 31 := by
  have small : x.toNat < 2 ^ 32 := x.toNat_lt
  have bit : (0x80000000 &&& x).toNat = 2 ^ 31 &&& x.toNat := UInt32.toNat_and _ _
  rw [← UInt32.toNat_inj, bit, Nat.and_comm, Nat.and_two_pow, Nat.testBit_eq_decide_div_mod_eq]
  by_cases low : x.toNat < 2 ^ 31
  · rw [Nat.div_eq_of_lt low]
    exact iff_of_true rfl low
  · have one : x.toNat / 2 ^ 31 % 2 = 1 := by omega
    rw [one]
    exact iff_of_false (by decide) low

theorem leadingZeros_run {top : UInt32} (nonzero : top ≠ 0) :
    ∃ flag, leadingZeros top = some flag ∧ flag < 32 ∧ radix ≤ 2 * (top.toNat * 2 ^ flag) ∧
      top.toNat * 2 ^ flag < radix := by
  have positive : 0 < top.toNat := Nat.pos_of_ne_zero fun zero => nonzero (UInt32.toNat_inj.mp zero)
  have bounded {flag k : ℕ} (below : top.toNat * 2 ^ flag < 2 ^ k) : flag < k :=
    (Nat.pow_lt_pow_iff_right Nat.one_lt_two).mp
      (Nat.lt_of_le_of_lt (Nat.le_mul_of_pos_left (2 ^ flag) positive) below)
  have test {flag : ℕ} (below : top.toNat * 2 ^ flag < 2 ^ 32) :
      (0x80000000 &&& top <<< UInt32.ofNat flag = 0) ↔ top.toNat * 2 ^ flag < 2 ^ 31 := by
    have size : radix = 2 ^ 32 := rfl
    rw [topBit, shiftLeft_digit top (bounded below), size, Nat.mod_eq_of_lt below]
  obtain ⟨flag, run, below, left⟩ : ∃ flag, leadingZeros top = some flag ∧ top.toNat * 2 ^ flag < 2 ^ 32 ∧
      some (decide (0x80000000 &&& top <<< UInt32.ofNat flag = 0)) = some false := by
    apply Loop.whileDo_rule (fun flag => top.toNat * 2 ^ flag < 2 ^ 32) fun flag => 31 - flag
    · rw [pow_zero, Nat.mul_one]
      exact top.toNat_lt
    · decide
    · intro flag below
      by_cases low : top.toNat * 2 ^ flag < 2 ^ 31
      · refine .inr ⟨by rw [decide_eq_true ((test below).mpr low)], flag + 1, rfl, ?_, ?_⟩
        · rw [pow_succ, ← Nat.mul_assoc]
          omega
        · have less := bounded low
          omega
      · exact .inl (by rw [decide_eq_false fun zero => low ((test below).mp zero)])
  refine ⟨flag, run, bounded below, ?_, below⟩
  rw [Option.some.injEq, decide_eq_false_iff_not, test below] at left
  have size : radix = 2 ^ 32 := rfl
  omega

end CMpl

/-- The divisor that the reduction works with: the modulus with its top bit moved to the top of its words. -/
def CMpi.normalised (m : CMpi) : ℕ := m.abs * 2 ^ (32 * m.length - Nat.size m.abs)

theorem CMpi.normalised_eq {m : CMpi} {flag : ℕ} (large : radix ^ m.length ≤ 2 * (m.abs * 2 ^ flag))
    (small : m.abs * 2 ^ flag < radix ^ m.length) : m.normalised = m.abs * 2 ^ flag := by
  have power : radix ^ m.length = 2 ^ (32 * m.length) := (pow_mul 2 32 m.length).symm
  have nonzero : m.abs ≠ 0 := fun zero => by
    rw [zero, Nat.zero_mul, Nat.mul_zero] at large
    exact absurd large (Nat.not_le.mpr (Nat.pow_pos radix_pos))
  have size := Nat.size_shiftLeft nonzero flag
  rw [Nat.shiftLeft_eq] at size
  have most : Nat.size (m.abs * 2 ^ flag) ≤ 32 * m.length := Nat.size_le.mpr (power ▸ small)
  have least : 32 * m.length ≤ Nat.size (m.abs * 2 ^ flag) := by
    cases words : 32 * m.length with
    | zero => exact Nat.zero_le _
    | succ k =>
      apply Nat.lt_size.mpr
      rw [power, words, pow_succ] at large
      omega
  have count : 32 * m.length - Nat.size m.abs = flag := by omega
  rw [normalised, count]

namespace CMpl

/-- Whenever the first loop compares them, the high halves of the number and of the divisor differ. -/
def Untied (n : CMpl) (m : CMpi) : Prop :=
  ∀ i, i < n.h.length → n.abs % (m.normalised * radix ^ (i + 9 - m.length)) / radix ^ 8 ≠
    m.normalised * radix ^ (i + 9 - m.length) / radix ^ 8

instance (n : CMpl) (m : CMpi) : Decidable (n.Untied m) :=
  inferInstanceAs (Decidable (∀ i, i < n.h.length → n.abs % (m.normalised * radix ^ (i + 9 - m.length)) / radix ^ 8 ≠
    m.normalised * radix ^ (i + 9 - m.length) / radix ^ 8))

private theorem blankTop_run (a : CMpi) (bounded : a.length ≤ 8) :
    ∃ r, (if a.length < 8 then a.put a.length 0 else some a) = some r ∧ r.Same a ∧ Blank r a.length := by
  split
  · next below =>
    refine ⟨a.set a.length 0, put_eq a below 0, ⟨rfl, rfl, fun i inside => wordAt_set_ne a (Nat.ne_of_lt inside) 0⟩, ?_⟩
    intro k outside inside
    obtain rfl : k = a.length := Nat.le_antisymm inside outside
    exact wordAt_set_self a below 0
  · next full =>
    exact ⟨a, rfl, ⟨rfl, rfl, fun _ _ => rfl⟩, fun k outside _ => wordAt_outside a (by omega)⟩

private theorem Level.congr {a b : CMpl} (level : a.Level) (h_same : b.h.Same a.h) (l_same : b.l.Same a.l) :
    b.Level where
  l_sign := l_same.sign.trans level.l_sign
  h_sign := h_same.sign.trans level.h_sign
  l_bounded := l_same.length ▸ level.l_bounded
  h_bounded := h_same.length ▸ level.h_bounded
  full := by
    rw [h_same.abs, l_same.length]
    exact level.full
  h_trimmed := h_same.trimmed level.h_trimmed
  level := level.level.imp l_same.length.trans l_same.trimmed

private theorem abs_congr {a b : CMpl} (h_same : b.h.Same a.h) (l_same : b.l.Same a.l) : b.abs = a.abs := by
  rw [abs, abs, h_same.abs, l_same.abs]

private theorem divide_run {odiv : CMpi} (divisor : Divisor odiv) (temp tdiv : CMpl) (frames : Loop.Supply CMpl) {o : ℕ}
    (length : odiv.length = o + 1) {n : CMpl} (level : n.Level)
    (untied : ∀ i, i < n.h.length → n.abs % (odiv.abs * radix ^ (i + 9 - odiv.length)) / radix ^ 8 ≠
      odiv.abs * radix ^ (i + 9 - odiv.length) / radix ^ 8) :
    ∃ r, divide odiv n temp tdiv frames = some r ∧ r.n.Tidy ∧ r.n.abs = n.abs % odiv.abs := by
  have bounded := divisor.bounded
  have double : radix ^ odiv.length ≤ 2 * odiv.abs := divisor.large
  -- the divisor, moved up to the top of `k` words, is larger than anything in one word less
  have room {k j : ℕ} (size : odiv.length + j = k + 1) : radix ^ k ≤ odiv.abs * radix ^ j := by
    have scaled := Nat.mul_le_mul_right (radix ^ j) double
    rw [← pow_add, size, pow_succ, Nat.mul_assoc] at scaled
    have more := Nat.mul_le_mul_left (radix ^ k) (show 2 ≤ radix by decide)
    omega
  unfold divide
  apply Loop.seq_rule fun h : CMpi => h.Same n.h ∧ Blank h n.h.length
  · exact blankTop_run n.h level.h_bounded
  · intro h ⟨h_same, h_blank⟩
    have start_level : (CMpl.mk h n.l).Level := level.congr h_same ⟨rfl, rfl, fun _ _ => rfl⟩
    have start_abs : (CMpl.mk h n.l).abs = n.abs := abs_congr h_same ⟨rfl, rfl, fun _ _ => rfl⟩
    rw [topWord_run length bounded, Option.bind_eq_bind, Option.bind_some, h_same.length]
    apply Loop.seq_rule fun s : Work => Dividing n.abs (odiv.abs * radix ^ (9 - odiv.length)) s.n
    · rw [← start_abs]
      have small : n.abs < radix ^ (n.h.length + 8) := by
        have high : n.h.abs + 1 ≤ radix ^ n.h.length := n.h.abs_lt
        calc n.abs < (n.h.abs + 1) * radix ^ 8 := n.abs_lt level.l_bounded
          _ ≤ radix ^ n.h.length * radix ^ 8 := Nat.mul_le_mul_right (radix ^ 8) high
          _ = radix ^ (n.h.length + 8) := (pow_add radix _ 8).symm
      refine highLoop_run divisor length start_level level.h_bounded h_blank ?_ fun i inside => ?_
      · rw [start_abs]
        exact Nat.lt_of_lt_of_le small (room (k := n.h.length + 8) (by omega))
      · dsimp only
        rw [start_abs]
        refine Nat.lt_of_le_of_ne (Nat.div_le_div_right (Nat.mod_lt _ ?_).le) (untied i inside)
        exact Nat.mul_pos divisor.pos (Nat.pow_pos radix_pos)
    · intro s dividing
      apply Loop.seq_rule fun l : CMpi => l.Same s.n.l ∧ Blank l s.n.l.length
      · exact blankTop_run s.n.l dividing.l_bounded
      · intro l ⟨l_same, l_blank⟩
        have level' : (CMpl.mk s.n.h l).Level := dividing.toLevel.congr ⟨rfl, rfl, fun _ _ => rfl⟩ l_same
        have same_abs : (CMpl.mk s.n.h l).abs = s.n.abs := abs_congr ⟨rfl, rfl, fun _ _ => rfl⟩ l_same
        have below : s.n.abs < odiv.abs * radix ^ (s.n.l.length + 1 - odiv.length) := by
          rcases dividing.full with empty | full
          · have whole : s.n.abs = s.n.l.abs := by rw [abs, empty, Nat.zero_mul, Nat.add_zero]
            rw [whole]
            rcases Nat.lt_or_ge s.n.l.length odiv.length with shorter | longer
            · have least := room (k := odiv.length - 1) (j := 0) (by omega)
              rw [show s.n.l.length + 1 - odiv.length = 0 by omega]
              exact Nat.lt_of_lt_of_le s.n.l.abs_lt
                (Nat.le_trans (Nat.pow_le_pow_right radix_pos (by omega)) least)
            · exact Nat.lt_of_lt_of_le s.n.l.abs_lt (room (by omega))
          · rw [full, dividing.rest]
            exact Nat.mod_lt _ (Nat.mul_pos divisor.pos (Nat.pow_pos radix_pos))
        -- leading zero words, which only a full low half has, are gone after the first pass
        have tidies : (CMpl.mk s.n.h l).Tidy ∨ odiv.length ≤ s.n.l.length := by
          rcases level'.level with full | trimmed
          · exact .inr (by rw [← l_same.length]; dsimp only at full; omega)
          · exact .inl ⟨level'.toPositive, level'.full, level'.h_trimmed, fun _ => trimmed⟩
        obtain ⟨r, run, tidy, rest⟩ := lowLoop_run divisor length (s := { s with n := ⟨s.n.h, l⟩ }) level'
          dividing.l_bounded l_blank (same_abs.symm ▸ below) tidies
        rw [l_same.length]
        refine ⟨r, run, tidy, ?_⟩
        dsimp only at rest
        rw [rest, same_abs, dividing.rest]
        exact Nat.mod_mod_of_dvd _ (Nat.dvd_mul_right _ _)

/-- What is promised of the number that is reduced. -/
structure Reducible (n : CMpl) : Prop extends Packed n where
  positive : n.l.sign = .positive
  h_trimmed : n.h.Trimmed
  l_trimmed : n.h.length = 0 → n.l.Trimmed

theorem Reducible.loose {n : CMpl} (reducible : n.Reducible) : n.Loose :=
  ⟨reducible.toPacked, reducible.h_trimmed, reducible.full.imp_right reducible.l_trimmed⟩

private theorem Loose.level_positive {n : CMpl} (loose : n.Loose) :
    (CMpl.mk { n.h with sign := .positive } { n.l with sign := .positive }).Level := by
  refine ⟨⟨rfl, rfl, loose.l_bounded, loose.h_bounded⟩, ?_, loose.h_trimmed, loose.loose⟩
  rcases loose.full with full | short
  · exact .inr full
  · exact .inl (CMpi.abs_eq_zero.mpr fun i inside => absurd inside (Nat.not_lt.mpr (by dsimp only; omega)))

theorem topLength_same {m mt : CMpi} (same : mt.Same m) (bounded : m.length ≤ 8) (trimmed : m.Trimmed) :
    mt.topLength mt.length = some m.length := by
  obtain ⟨k, run, le, zeros, -⟩ := topLength_run mt (j := mt.length) (same.length ▸ bounded)
  have longest : k = mt.length := by
    by_contra shorter
    obtain ⟨i, length⟩ := Nat.exists_eq_add_of_lt (Nat.lt_of_le_of_ne le shorter)
    exact same.trimmed trimmed (k + i) length (zeros (k + i) (Nat.le_add_right k i) (by omega))
  rw [run, longest, same.length]

theorem modulusWords_run (m : CMpi) (scratch : Scratch) (bounded : m.length ≤ 8) :
    ∃ mt, modulusWords m scratch = some mt ∧ mt.sign = .positive ∧ mt.length ≤ 8 ∧ mt.Trimmed ∧ mt.abs = m.abs := by
  obtain ⟨mt, run, same, -⟩ := assign_run m scratch.mt bounded
  have mt_bounded : mt.length ≤ 8 := Nat.le_trans (Nat.le_of_eq same.length) bounded
  obtain ⟨k, top_run, le, zeros, top⟩ := topLength_run mt (j := mt.length) mt_bounded
  refine ⟨{ mt with length := k, sign := .positive }, ?_, rfl, Nat.le_trans le mt_bounded, top, ?_⟩
  · rw [modulusWords, run, Option.bind_eq_bind, Option.bind_some, top_run]
    rfl
  · rw [← same.abs]
    exact (Limbs.value_of_zeros le zeros).symm

theorem reduction_eq (n : CMpl) (m : CMpi) (scratch : Scratch) (bounded : m.length ≤ 8) (some_ : 0 < m.abs)
    (other : ¬ (m.word = gP.word ∧ m.length = 8)) :
    n.reduction m scratch = (modulusWords m scratch).bind fun mt =>
      (divisorWords mt scratch).bind fun odiv => divideOut n.l.sign n.unsigned mt odiv scratch := by
  obtain ⟨mt, run, same, -⟩ := assign_run m scratch.mt bounded
  have mt_bounded : mt.length ≤ 8 := Nat.le_trans (Nat.le_of_eq same.length) bounded
  obtain ⟨k, top_run, le, zeros, -⟩ := topLength_run mt (j := mt.length) mt_bounded
  have value : ({ mt with length := k } : CMpi).abs = m.abs := (Limbs.value_of_zeros le zeros).symm.trans same.abs
  have words : modulusWords m scratch = some { mt with length := k, sign := .positive } := by
    rw [modulusWords, run, Option.bind_eq_bind, Option.bind_some, top_run]
    rfl
  rw [words, reduction, if_neg other, run, Option.bind_eq_bind, Option.bind_some, top_run, Option.bind_eq_bind,
    Option.bind_some, Option.bind_some]
  dsimp only
  rw [equalsToD_zero _ (by dsimp only; omega), value, decide_eq_false some_.ne', Option.bind_eq_bind, Option.bind_some,
    if_neg (by decide), divisorWords]
  simp only [Option.bind_eq_bind, Option.bind_assoc]
  rfl

theorem divisorWords_run (mt : CMpi) (scratch : Scratch) (sign : mt.sign = .positive) (bounded : mt.length ≤ 8)
    (trimmed : mt.Trimmed) (some_ : 0 < mt.abs) :
    ∃ top flag odiv, mt.topWord = some top ∧ leadingZeros top = some flag ∧ flag < 32 ∧ top.toNat * 2 ^ flag < radix ∧
      divisorWords mt scratch = some odiv ∧ Divisor odiv ∧ odiv.length = mt.length ∧ odiv.abs = mt.abs * 2 ^ flag := by
  obtain ⟨i, length⟩ : ∃ i, mt.length = i + 1 := by
    apply Nat.exists_eq_succ_of_ne_zero
    intro empty
    have zero : mt.abs = 0 := CMpi.abs_eq_zero.mpr fun i inside => absurd inside (by omega)
    omega
  obtain ⟨odiv, run, same, -⟩ := assign_run mt scratch.odiv bounded
  have odiv_length : odiv.length = i + 1 := same.length.trans length
  have word : odiv.wordAt i = mt.wordAt i := same.words i (by omega)
  have digit : odiv.digit i = mt.digit i := congrArg UInt32.toNat word
  have top : mt.wordAt i ≠ 0 := fun zero => trimmed i length (wordAt_eq_zero.mp zero)
  obtain ⟨flag, flag_run, flag_small, large, below⟩ := leadingZeros_run top
  obtain ⟨divisor, shifted, divisor_sign, divisor_length, abs⟩ := bitShiftLeft_run odiv (scratch.inner 0) flag_small odiv_length
    (by omega) (by rw [digit]; exact below)
  rw [same.abs] at abs
  have size : divisor.length = mt.length := divisor_length.trans same.length
  refine ⟨_, flag, divisor, topWord_run length bounded, flag_run, flag_small, below, ?_,
    ⟨divisor_sign.trans (same.sign.trans sign), by omega, by omega, ?_⟩, size, abs⟩
  · rw [divisorWords, run, Option.bind_eq_bind, Option.bind_some, topWord_run odiv_length (by omega), word, Option.bind_eq_bind,
      Option.bind_some, flag_run]
    exact shifted
  · rw [size, length, abs]
    calc radix ^ (i + 1) = radix * radix ^ i := pow_succ' _ _
      _ ≤ 2 * (mt.digit i * 2 ^ flag) * radix ^ i := Nat.mul_le_mul_right _ large
      _ = 2 * (mt.digit i * radix ^ i * 2 ^ flag) := by ring
      _ ≤ 2 * (mt.abs * 2 ^ flag) := Nat.mul_le_mul_left _ (Nat.mul_le_mul_right _ (top_le_abs length))

/-- The last loop starts below the divisor, which is the modulus itself where its top word is full. -/
private theorem unwrapped_of_flag {m : CMpi} {i flag : ℕ} (small : m.digit i * 2 ^ flag < radix)
    (wrapped : m.digit i + 1 = radix) : m.abs * 2 ^ flag ≤ m.abs := by
  have zero : flag = 0 := by
    by_contra some_
    obtain ⟨k, rfl⟩ := Nat.exists_eq_succ_of_ne_zero some_
    have double : 2 ≤ 2 ^ (k + 1) := Nat.le_self_pow (Nat.succ_ne_zero k) 2
    have large := Nat.mul_le_mul_left (m.digit i) double
    have size : radix = 4294967296 := rfl
    rw [Nat.succ_eq_add_one] at small
    omega
  rw [zero, pow_zero, Nat.mul_one]

private theorem divideOut_run (mt : CMpi) {odiv : CMpi} (divisor : Divisor odiv) {i flag : ℕ} (mflag : Sign) (scratch : Scratch)
    (odiv_length : odiv.length = i + 1) (mt_length : mt.length = i + 1) (mt_sign : mt.sign = .positive)
    (mt_trimmed : mt.Trimmed) (scaled : odiv.abs = mt.abs * 2 ^ flag) (small : mt.digit i * 2 ^ flag < radix) {n : CMpl}
    (level : n.Level) (untied : ∀ i, i < n.h.length → n.abs % (odiv.abs * radix ^ (i + 9 - odiv.length)) / radix ^ 8 ≠
      odiv.abs * radix ^ (i + 9 - odiv.length) / radix ^ 8) :
    ∃ r, divideOut mflag n mt odiv scratch = some r ∧ r.h.length = 0 ∧ r.h.sign = mflag ∧ r.l.sign = mflag ∧
      r.l.length ≤ 8 ∧ r.l.abs = n.abs % mt.abs := by
  have bounded := divisor.bounded
  have large := mt_trimmed.le_abs mt_length
  unfold divideOut
  split
  · next short =>
    have full := level.full
    have h_empty : n.h.length = 0 := by
      by_contra some_
      have words : n.h.abs = 0 := full.resolve_right (by omega)
      exact some_ (level.h_trimmed.length_eq_zero words)
    have whole : n.abs = n.l.abs := by
      have zero : n.h.abs = 0 := CMpi.abs_eq_zero.mpr fun i inside => absurd inside (by omega)
      rw [abs, zero, Nat.zero_mul, Nat.add_zero]
    refine ⟨_, rfl, h_empty, rfl, rfl, level.l_bounded, ?_⟩
    have below : n.abs < mt.abs := by
      rw [whole]
      exact Nat.lt_of_lt_of_le n.l.abs_lt (Nat.le_trans (Nat.pow_le_pow_right radix_pos (by omega)) large)
    rw [Nat.mod_eq_of_lt below, whole]
    rfl
  · apply Loop.seq_rule fun s : Work => s.n.Tidy ∧ s.n.abs = n.abs % odiv.abs
    · exact divide_run divisor scratch.temp scratch.tdiv (scratch.inner.after 1) odiv_length level untied
    · rintro s ⟨tidy, rest⟩
      have below : s.n.abs < odiv.abs := rest ▸ Nat.mod_lt _ divisor.pos
      have h_zero : s.n.h.abs = 0 := by
        rw [h_abs s.n tidy.l_bounded]
        apply Nat.div_eq_of_lt
        exact Nat.lt_trans below (Nat.lt_of_lt_of_le odiv.abs_lt (Nat.pow_le_pow_right radix_pos bounded))
      have whole : s.n.abs = s.n.l.abs := by rw [abs, h_zero, Nat.zero_mul, Nat.add_zero]
      have lasting : Lasting n.abs odiv.abs mt s.n.l := by
        refine ⟨tidy.l_sign, tidy.l_bounded, tidy.l_trimmed h_zero, ?_, whole ▸ below⟩
        rw [← whole, rest, scaled]
        exact Nat.mod_mod_of_dvd _ (Nat.dvd_mul_right _ _)
      obtain ⟨last, frames, run, _, length, last_rest⟩ := lastLoop_run s.temp.l s.frames mt_sign mt_length (by omega) mt_trimmed
        (by rw [mt_length, ← odiv_length]; exact odiv.abs_lt.le)
        (fun wrapped => scaled ▸ unwrapped_of_flag small wrapped) lasting
      simp only [Option.bind_eq_bind] at run ⊢
      rw [run, Option.bind_some]
      exact ⟨_, rfl, tidy.h_trimmed.length_eq_zero h_zero, rfl, rfl, length, last_rest⟩

theorem reduction_run (n : CMpl) (m : CMpi) (scratch : Scratch) (loose : n.Loose) (m_bounded : m.length ≤ 8)
    (m_trimmed : m.Trimmed) (m_large : 0 < m.abs) (other : m.abs ≠ Sm2.p) (untied : Untied n m) :
    ∃ r, n.reduction m scratch = some r ∧ r.h.length = 0 ∧ r.h.sign = n.l.sign ∧ r.l.sign = n.l.sign ∧
      r.l.length ≤ 8 ∧ r.l.abs = n.abs % m.abs := by
  have dispatched : ¬ (m.word = gP.word ∧ m.length = 8) := by
    rintro ⟨words, length⟩
    refine other (Eq.trans ?_ gP_abs)
    unfold CMpi.abs digit wordAt
    rw [words, length]
    rfl
  obtain ⟨mt, run, mt_sign, mt_bounded, mt_trimmed, value⟩ := modulusWords_run m scratch m_bounded
  obtain ⟨top, flag, odiv, top_run, -, -, small, odiv_run, divisor, size, scaled⟩ :=
    divisorWords_run mt scratch mt_sign mt_bounded mt_trimmed (value ▸ m_large)
  have mt_length : mt.length = m.length := mt_trimmed.length_eq m_trimmed value
  obtain ⟨i, length⟩ := Nat.exists_eq_succ_of_ne_zero (show mt.length ≠ 0 from size ▸ divisor.some_.ne')
  rw [topWord_run length mt_bounded, Option.some.injEq] at top_run
  rw [← top_run, toNat_wordAt] at small
  have normalised : m.normalised = odiv.abs := by
    have large := divisor.large
    have below := odiv.abs_lt
    rw [scaled, value, size, mt_length] at large below
    rw [scaled, value]
    exact normalised_eq large below
  obtain ⟨r, divided, h_length, h_sign, l_sign, l_length, rest⟩ := divideOut_run mt divisor n.l.sign scratch
    (size.trans length) length mt_sign mt_trimmed scaled small loose.level_positive fun i inside => by
      have apart := untied i inside
      rw [normalised, ← mt_length, ← size] at apart
      exact apart
  refine ⟨r, ?_, h_length, h_sign, l_sign, l_length, rest.trans (congrArg (n.abs % ·) value)⟩
  rw [reduction_eq n m scratch m_bounded m_large dispatched, run, Option.bind_some, odiv_run, Option.bind_some]
  exact divided

theorem mod_residue (n : CMpl) (m : CMpi) (scratch : Scratch) (reducible : n.Reducible) (m_bounded : m.length ≤ 8)
    (m_trimmed : m.Trimmed) (m_large : 2 ≤ m.abs) (other : m.abs ≠ Sm2.p) (untied : n.Untied m) :
    ∃ r, n.mod m scratch = some r ∧ r.h.length = 0 ∧ r.l.toInt = (n.abs % m.abs : ℕ) ∧ 0 ≤ r.l.toInt ∧
      r.l.toInt < m.abs := by
  have positive : 0 < m.abs := Nat.lt_of_lt_of_le Nat.two_pos m_large
  obtain ⟨r, run, h_length, -, l_sign, -, rest⟩ := reduction_run n m scratch reducible.loose m_bounded m_trimmed positive other untied
  have value : r.l.toInt = (n.abs % m.abs : ℕ) := by
    rw [CMpi.toInt, l_sign, reducible.positive, ← rest]
  refine ⟨r, run, h_length, value, ?_, ?_⟩
  · rw [value]
    exact Int.natCast_nonneg _
  · rw [value]
    exact Int.ofNat_lt.mpr (Nat.mod_lt _ positive)

def Scratch.clear : Scratch :=
  let zero : CMpi := { word := .replicate 8 0, carry := 0, sign := .positive, length := 0 }
  ⟨zero, zero, ⟨zero, zero⟩, ⟨zero, zero⟩, fun _ => ⟨zero, zero⟩⟩

def twoPow287 : CMpl where
  h := { word := #v[0x80000000, 0, 0, 0, 0, 0, 0, 0], carry := 0, sign := .positive, length := 1 }
  l := { word := .replicate 8 0, carry := 0, sign := .positive, length := 8 }

private theorem twoPow287_reducible : twoPow287.Reducible where
  l_bounded := by decide
  h_bounded := by decide
  full := .inl rfl
  positive := rfl
  h_trimmed i length := by
    obtain rfl : 0 = i := Nat.succ.inj length
    decide
  l_trimmed empty := absurd empty (by decide)

/-- A modulus of eight words with these lowest and highest ones. -/
private def modulus (lowest highest : UInt32) : CMpi where
  word := #v[lowest, 0, 0, 0, 0, 0, 0, highest]
  carry := 0
  sign := .positive
  length := 8

private theorem modulus_trimmed {lowest highest : UInt32} (some_ : highest ≠ 0) : (modulus lowest highest).Trimmed := by
  intro i length
  obtain rfl : 7 = i := Nat.succ.inj length
  exact fun zero => some_ (UInt32.toNat_inj.mp zero)

theorem mod_residue_untied :
    ∃ r, twoPow287.mod (modulus 5 0xC0000000) .clear = some r ∧ r.h.length = 0 ∧
      r.l.toInt = (twoPow287.abs % (modulus 5 0xC0000000).abs : ℕ) ∧ 0 ≤ r.l.toInt ∧
      r.l.toInt < (modulus 5 0xC0000000).abs :=
  mod_residue twoPow287 (modulus 5 0xC0000000) .clear twoPow287_reducible (by decide) (modulus_trimmed (by decide))
    (by decide) (by decide) (by decide +kernel)

/-- The first multiple of 2 ^ 255 + 1 that is compared has the high half of 2 ^ 287, and is larger. -/
theorem mod_not_residue :
    ¬ ∀ (n : CMpl) (m : CMpi) (scratch : Scratch), n.Reducible → m.length ≤ 8 → m.Trimmed → 2 ≤ m.abs →
      m.abs ≠ Sm2.p → ∃ r, n.mod m scratch = some r ∧ r.h.length = 0 ∧ r.l.toInt = (n.abs % m.abs : ℕ) ∧
        0 ≤ r.l.toInt ∧ r.l.toInt < m.abs := by
  intro all
  obtain ⟨r, run, -, value, -⟩ := all twoPow287 (modulus 1 0x80000000) .clear twoPow287_reducible (by decide)
    (modulus_trimmed (by decide)) (by decide) (by decide)
  have left : (twoPow287.mod (modulus 1 0x80000000) .clear).map (fun r => r.l.toInt) = some (2 ^ 32) := by decide +kernel
  have rest : twoPow287.abs % (modulus 1 0x80000000).abs = 2 ^ 255 + 1 - 2 ^ 32 := by decide
  rw [run, Option.map_some, value, rest] at left
  exact absurd left (by decide)

/-- A tie does not always show: here what is left below zero is half of the modulus. -/
example :
    let n : CMpl := ⟨twoPow287.h, { twoPow287.l with word := #v[0, 0, 0, 0, 0, 0, 0xC0000000, 0x3FFFFFFF] }⟩
    let m : CMpi := { modulus 0 0x80000000 with word := #v[0, 0, 0, 0, 0, 0, 0x80000000, 0x80000000] }
    ¬ n.Untied m ∧ (n.mod m .clear).map (fun r => r.l.toInt) = some ((n.abs % m.abs : ℕ) : ℤ) := by decide +kernel

end CMpl
end MyTools.Mpi
