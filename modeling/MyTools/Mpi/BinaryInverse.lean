import MyTools.Library.Halving
import MyTools.Mpi.Division
import MyTools.Mpi.Halves

/-! The modular inverse by the binary form of extended Euclid. The cofactors are numbers of two halves with
signs, which are reduced at the end only. -/
namespace MyTools.Mpi
open Library CMpi CMpl

def CMpi.regularize (n : CMpi) : Option CMpi := do some { n with length := ← n.topLength n.length }

namespace BinaryInverse

structure State where
  u : CMpi
  v : CMpi
  x1 : CMpl
  x2 : CMpl

/-- The local variables of `CMpi_BinaryInverse2` and, in `scratch` and `inner`, of the reduction and of each of the
other calls that it makes, before they are assigned. -/
structure Locals where
  state : State
  mod : CMpl
  inner : Loop.Supply CMpl
  scratch : CMpl.Scratch

def even (s : CMpi × CMpl) : Option Bool := do some ((← s.1.get 0) &&& 1 = 0)

/-- A pass of the first inner loop, for `u` and `x1`, or of the second, for `v` and `x2`. -/
def halvePass (mod junk : CMpl) (s : CMpi × CMpl) : Option (CMpi × CMpl) := do
  let u ← s.1.bitShiftRight 1 junk
  let x ← (if (← s.2.l.get 0) &&& 1 = 0 then s.2.bitShiftRight 1
    else do (← s.2.add mod junk.l).bitShiftRight 1)
  some (u, x)

def halve (mod : CMpl) (s : (CMpi × CMpl) × Loop.Supply CMpl) : Option ((CMpi × CMpl) × Loop.Supply CMpl) :=
  Loop.whileDo (fun s => even s.1) (Loop.supplied (halvePass mod)) (radix ^ 16) s

def pass (mod : CMpl) (s : State × Loop.Supply CMpl) : Option (State × Loop.Supply CMpl) := do
  let ((u, x1), frames) ← halve mod ((s.1.u, s.1.x1), s.2)
  let ((v, x2), frames) ← halve mod ((s.1.v, s.1.x2), frames)
  if (← u.comparesTo v) = -1 then do
    let v ← v.substract u (frames 0).l
    let x2 ← x2.substract x1 (frames 1)
    some (⟨u, v, x1, x2⟩, frames.after 2)
  else do
    let u ← u.substract v (frames 0).l
    let x1 ← x1.substract x2 (frames 1)
    some (⟨u, v, x1, x2⟩, frames.after 2)

def goesOn (s : State) : Option Bool := do
  if ← s.u.equalsToD 1 then some false else some !(← s.v.equalsToD 1)

def start (m x : CMpi) (s : State) : Option State := do
  let u ← x.assign s.u
  let v ← m.assign s.v
  let x1 : CMpl := ⟨← s.x1.h.assignD 0, ← s.x1.l.assignD 1⟩
  let x2 : CMpl := ⟨← s.x2.h.assignD 0, ← s.x2.l.assignD 0⟩
  some ⟨u, v, x1, x2⟩

/-- The modulus without leading zero words, and the same as a number of two halves. -/
def modulus (m : CMpi) (mod : CMpl) : Option (CMpi × CMpl) := do
  let m ← m.regularize
  let h ← mod.h.assignD 0
  let l ← m.assign mod.l
  some (m, ⟨h, l⟩)

/-- The cofactor of one is reduced, and made positive. -/
def finish (m : CMpi) (mod x : CMpl) (xi : CMpi) (scratch : CMpl.Scratch) (junk : CMpl) : Option CMpi := do
  let x ← x.mod m scratch
  let x ← (if x.l.sign = .negtive then x.add mod junk.l else some x)
  x.l.assign xi

def binaryInverse2 (m x xi : CMpi) (locals : Locals) : Option CMpi := do
  let s ← start m x locals.state
  let (m, mod) ← modulus m locals.mod
  let (s, frames) ← Loop.whileDo (fun s => goesOn s.1) (pass mod) (radix ^ 16) (s, locals.inner)
  if ← s.u.equalsToD 1 then finish m mod s.x1 xi locals.scratch (frames 0)
  else finish m mod s.x2 xi locals.scratch (frames 0)

/-! What the additions need. -/

/-- The modulus is added exactly wherever a cofactor is odd. -/
def HalvesExact (mod : CMpl) (s : (CMpi × CMpl) × Loop.Supply CMpl) : Prop :=
  Loop.Along (fun s : (CMpi × CMpl) × Loop.Supply CMpl => s.1.2.l.wordAt 0 &&& 1 ≠ 0 → s.1.2.AddExact mod (s.2 0).l)
    (fun s => even s.1) (Loop.supplied (halvePass mod)) (radix ^ 16) s

/-- Both cofactors are halved exactly, and subtracted from each other; the last difference is not looked at. -/
def PassExact (mod : CMpl) (s : State × Loop.Supply CMpl) : Prop :=
  HalvesExact mod ((s.1.u, s.1.x1), s.2) ∧ ∀ a ∈ halve mod ((s.1.u, s.1.x1), s.2),
    HalvesExact mod ((s.1.v, s.1.x2), a.2) ∧ ∀ b ∈ halve mod ((s.1.v, s.1.x2), a.2),
      if a.1.1.abs < b.1.1.abs then a.1.1.abs ≠ 1 → b.1.2.AddExact a.1.2.negated (b.2 1).l
      else b.1.1.abs ≠ 1 → a.1.2.AddExact b.1.2.negated (b.2 1).l

/-- Each sum and difference that the loop takes is one of those that `CMpl_Add` and `CMpl_Substract` get right. -/
def SumsExact (m x : CMpi) (locals : Locals) : Prop :=
  ∀ s ∈ start m x locals.state, ∀ r ∈ modulus m locals.mod,
    Loop.Along (PassExact r.2) (fun s => goesOn s.1) (pass r.2) (radix ^ 16) (s, locals.inner)

instance (mod : CMpl) (s : (CMpi × CMpl) × Loop.Supply CMpl) : Decidable (HalvesExact mod s) :=
  inferInstanceAs (Decidable (Loop.Along (fun s : (CMpi × CMpl) × Loop.Supply CMpl =>
    s.1.2.l.wordAt 0 &&& 1 ≠ 0 → s.1.2.AddExact mod (s.2 0).l) (fun s => even s.1) (Loop.supplied (halvePass mod))
    (radix ^ 16) s))

instance (mod : CMpl) (s : State × Loop.Supply CMpl) : Decidable (PassExact mod s) :=
  inferInstanceAs (Decidable (HalvesExact mod ((s.1.u, s.1.x1), s.2) ∧ ∀ a ∈ halve mod ((s.1.u, s.1.x1), s.2),
    HalvesExact mod ((s.1.v, s.1.x2), a.2) ∧ ∀ b ∈ halve mod ((s.1.v, s.1.x2), a.2),
      if a.1.1.abs < b.1.1.abs then a.1.1.abs ≠ 1 → b.1.2.AddExact a.1.2.negated (b.2 1).l
      else b.1.1.abs ≠ 1 → a.1.2.AddExact b.1.2.negated (b.2 1).l))

instance (m x : CMpi) (locals : Locals) : Decidable (SumsExact m x locals) :=
  inferInstanceAs (Decidable (∀ s ∈ start m x locals.state, ∀ r ∈ modulus m locals.mod,
    Loop.Along (PassExact r.2) (fun s => goesOn s.1) (pass r.2) (radix ^ 16) (s, locals.inner)))

end BinaryInverse

/-! Parities and halves. -/

theorem CMpi.toInt_of_pos {a : CMpi} (positive : 0 < a.toInt) : a.sign = .positive ∧ a.toInt = a.abs := by
  have value := a.toInt_eq
  cases sign : a.sign with
  | positive =>
    rw [sign] at value
    exact ⟨rfl, value⟩
  | negtive =>
    rw [sign, Sign.signed] at value
    omega

theorem CMpi.even_iff {a : CMpi} (blank : a.length = 0 → a.wordAt 0 = 0) : a.wordAt 0 &&& 1 = 0 ↔ a.abs % 2 = 0 := by
  have word : (a.wordAt 0 &&& 1).toNat = a.digit 0 % 2 := by
    rw [UInt32.toNat_and]
    exact Nat.and_one_is_mod _
  have parity : a.digit 0 % 2 = a.abs % 2 := by
    by_cases empty : a.length = 0
    · rw [digit, blank empty, CMpi.abs, empty]
      rfl
    · obtain ⟨n, length⟩ : ∃ n, a.length = 1 + n := ⟨a.length - 1, by omega⟩
      have size : radix = 2 * 2147483648 := rfl
      have first : Limbs.value radix a.digit 1 = a.digit 0 := by
        rw [Limbs.value_succ, Limbs.value_zero, pow_zero, Nat.mul_one, Nat.zero_add]
      rw [CMpi.abs, length, Limbs.value_add, first, pow_one, size, Nat.mul_assoc,
        Nat.add_mul_mod_self_left]
  rw [← UInt32.toNat_inj, word, parity]
  rfl

namespace Sign

theorem signed_mod_two (s : Sign) (n : ℕ) : s.signed n % 2 = 0 ↔ n % 2 = 0 := by
  cases s <;> simp only [signed] <;> omega

theorem signed_half (s : Sign) {n : ℕ} (even : n % 2 = 0) : s.signed (n / 2) = s.signed n / 2 := by
  cases s <;> simp only [signed] <;> omega

theorem signed_mod (s : Sign) (n m : ℕ) : s.signed (n % m : ℕ) ≡ s.signed n [ZMOD m] := by
  have residue : ((n % m : ℕ) : ℤ) ≡ n [ZMOD m] := Int.natCast_modEq_iff.mpr (Nat.mod_modEq n m)
  cases s with
  | positive => exact residue
  | negtive => exact residue.neg

end Sign

namespace CMpl

theorem Balanced.natAbs_signed {a : CMpl} (balanced : a.Balanced) : a.signed.natAbs = a.abs := by
  rw [signed_common balanced.common, Sign.natAbs_signed]

theorem Balanced.words {a : CMpl} (balanced : a.Balanced) (nonzero : a.signed ≠ 0) : 0 < a.l.length := by
  apply Nat.pos_of_ne_zero
  intro empty
  have high : a.h.length = 0 := balanced.full.resolve_left (by omega)
  have zero : a.abs = 0 := by
    rw [abs, CMpi.abs, CMpi.abs, empty, high, Limbs.value_zero, Limbs.value_zero, Nat.zero_mul]
  exact nonzero (Int.natAbs_eq_zero.mp (balanced.natAbs_signed.trans zero))

theorem Balanced.even_iff {a : CMpl} (balanced : a.Balanced) (nonzero : a.signed ≠ 0) :
    a.l.wordAt 0 &&& 1 = 0 ↔ a.signed % 2 = 0 := by
  have words := balanced.words nonzero
  have even : 2 ∣ a.h.abs * radix ^ 8 := Dvd.dvd.mul_left (dvd_pow (by decide) (by decide)) _
  rw [CMpi.even_iff fun empty => by omega, signed_common balanced.common, Sign.signed_mod_two, abs]
  omega

theorem Balanced.half_run {a : CMpl} (balanced : a.Balanced) (nonzero : a.signed ≠ 0) (even : a.signed % 2 = 0) :
    ∃ r, a.bitShiftRight 1 = some r ∧ r.Balanced ∧ r.signed = a.signed / 2 := by
  obtain ⟨r, run, quotient, loose⟩ := a.bitShiftRight_loose balanced.toLoose Nat.one_pos (by decide) (balanced.words nonzero)
  have common : r.h.sign = r.l.sign := quotient.h_sign.trans (balanced.common.trans quotient.l_sign.symm)
  refine ⟨r, run, ⟨loose, common⟩, ?_⟩
  rw [signed_common balanced.common, Sign.signed_mod_two] at even
  rw [signed_common common, signed_common balanced.common, quotient.l_sign, quotient.value, pow_one, Sign.signed_half _ even]

end CMpl

namespace BinaryInverse
open Halving

/-- The number that stands for the modulus in the additions. -/
structure Modulus (mod : CMpl) (m : ℕ) : Prop where
  balanced : mod.Balanced
  signed : mod.signed = m
  odd : m % 2 = 1

structure Rest (a : CMpi) (n : ℕ) : Prop where
  sign : a.sign = .positive
  bounded : a.length ≤ 8
  trimmed : a.Trimmed
  blank : a.length = 0 → a.wordAt 0 = 0
  rest : a.abs = n

structure Holds (c : CMpi × CMpl) (s : Side) : Prop extends Rest c.1 s.rest where
  balanced : c.2.Balanced
  cofactor : c.2.signed = s.cofactor

theorem even_run {c : CMpi × CMpl} {s : Side} (holds : Holds c s) : even c = some (decide (s.rest % 2 = 0)) := by
  rw [even, get_eq _ (by decide), Option.bind_eq_bind, Option.bind_some, ← holds.rest]
  exact congrArg some (decide_eq_decide.mpr (CMpi.even_iff holds.blank))

private theorem doubled_run {mod junk : CMpl} {m : ℕ} (modulus : Modulus mod m) {c : CMpi × CMpl} {s : Side}
    (holds : Holds c s) (nonzero : s.cofactor ≠ 0) (fits : s.cofactor.natAbs + m < radix ^ 16)
    (exact_ : c.2.l.wordAt 0 &&& 1 ≠ 0 → c.2.AddExact mod junk.l) :
    ∃ y, (if c.2.l.wordAt 0 &&& 1 = 0 then some c.2 else c.2.add mod junk.l) = some y ∧ y.Balanced ∧
      y.signed = 2 * (s.halve m).cofactor := by
  have odd := modulus.odd
  have parity := holds.balanced.even_iff (holds.cofactor ▸ nonzero)
  rw [holds.cofactor] at parity
  unfold Side.halve
  dsimp only
  by_cases even : s.cofactor % 2 = 0
  · rw [if_pos (parity.mpr even), if_pos even]
    exact ⟨c.2, rfl, holds.balanced, by rw [holds.cofactor]; omega⟩
  · have uneven := mt parity.mp even
    obtain ⟨y, run, balanced, sum⟩ := add_balanced c.2 mod junk.l holds.balanced modulus.balanced
      (by rw [holds.cofactor, modulus.signed]; omega) (exact_ uneven)
    rw [if_neg uneven, if_neg even]
    refine ⟨y, run, balanced, ?_⟩
    rw [sum, holds.cofactor, modulus.signed]
    omega

theorem halvePass_run {mod junk : CMpl} {m x : ℕ} (modulus : Modulus mod m) {c : CMpi × CMpl} {s : Side} (holds : Holds c s)
    (tracks : Tracks m x s) (even : s.rest % 2 = 0) (some_ : 0 < s.rest) (fits : s.cofactor.natAbs + m < radix ^ 16)
    (exact_ : c.2.l.wordAt 0 &&& 1 ≠ 0 → c.2.AddExact mod junk.l) :
    ∃ c', halvePass mod junk c = some c' ∧ Holds c' (s.halve m) := by
  have odd := modulus.odd
  have below := tracks.below
  have halved : (s.halve m).rest = s.rest / 2 := rfl
  have words : 0 < c.1.length := Nat.pos_of_ne_zero fun empty => by
    have zero : c.1.abs = 0 := CMpi.abs_eq_zero.mpr fun i inside => absurd inside (by omega)
    rw [holds.rest] at zero
    omega
  obtain ⟨u, u_run, quotient⟩ := c.1.bitShiftRight_run 1 junk holds.bounded (.inr words)
  have u_rest : u.abs = (s.halve m).rest := by rw [quotient.value, holds.rest, pow_one, halved]
  have u_words : u.length ≠ 0 := fun empty => by
    have zero : u.abs = 0 := CMpi.abs_eq_zero.mpr fun i inside => absurd inside (by omega)
    omega
  obtain ⟨y, y_run, y_balanced, double⟩ := doubled_run modulus holds (tracks.cofactor_ne_zero some_ (by omega)) fits exact_
  have nonzero : (s.halve m).cofactor ≠ 0 := (tracks.halve odd even).cofactor_ne_zero (by omega) (by omega)
  obtain ⟨r, r_run, balanced, half⟩ := y_balanced.half_run (by omega) (by omega)
  refine ⟨(u, r), ?_, ⟨quotient.sign.trans holds.sign, Nat.le_trans quotient.bounded holds.bounded,
    quotient.trimmed holds.trimmed, fun empty => absurd empty u_words, u_rest⟩, balanced, ?_⟩
  · have shifted : (if c.2.l.wordAt 0 &&& 1 = 0 then c.2.bitShiftRight 1
        else (c.2.add mod junk.l).bind fun y => y.bitShiftRight 1) = some r := by
      split at y_run
      · next even =>
        rw [if_pos even, Option.some.inj y_run, r_run]
      · next odd =>
        rw [if_neg odd, y_run, Option.bind_some, r_run]
    rw [halvePass, u_run, Option.bind_eq_bind, Option.bind_some, get_eq _ (by decide), Option.bind_eq_bind, Option.bind_some]
    exact (congrArg (Option.bind · _) shifted).trans rfl
  · rw [half]
    omega

theorem halve_run {mod : CMpl} {m x D : ℕ} (modulus : Modulus mod m) {c : CMpi × CMpl} {frames : Loop.Supply CMpl} {s : Side}
    (holds : Holds c s) (tracks : Tracks m x s) (some_ : 0 < s.rest) (large : m ≤ D) (small : s.cofactor.natAbs ≤ D)
    (fits : D + m < radix ^ 16) (exact_ : HalvesExact mod (c, frames)) :
    ∃ c' rest s', halve mod (c, frames) = some (c', rest) ∧ Holds c' s' ∧ Stripped m s s' := by
  obtain ⟨c', rest, run, ⟨s', holds', -, -, -, reached⟩, left⟩ : ∃ c' rest, halve mod (c, frames) = some (c', rest) ∧
      (∃ s', Holds c' s' ∧ Tracks m x s' ∧ 0 < s'.rest ∧ s'.cofactor.natAbs ≤ D ∧
        ∀ t, Stripped m s' t → Stripped m s t) ∧ even c' = some false := by
    apply Loop.supplied_along_rule even (fun c' => ∃ s', Holds c' s' ∧ Tracks m x s' ∧ 0 < s'.rest ∧ s'.cofactor.natAbs ≤ D ∧
      ∀ t, Stripped m s' t → Stripped m s t) (fun c => c.1.abs)
    · exact ⟨s, holds, tracks, some_, small, fun _ stripped => stripped⟩
    · exact Nat.lt_of_lt_of_le c.1.abs_lt (Nat.pow_le_pow_right radix_pos (Nat.le_trans holds.bounded (by decide)))
    · exact exact_
    · intro c frames ⟨s', holds', tracks', some_', small', reached⟩
      rw [even_run holds']
      by_cases even : s'.rest % 2 = 0
      · refine .inr ⟨by rw [decide_eq_true even], fun sound => ?_⟩
        obtain ⟨c', run, next⟩ := halvePass_run modulus holds' tracks' even some_' (by omega) sound
        have halved : (s'.halve m).rest = s'.rest / 2 := rfl
        have growth := s'.natAbs_halve modulus.odd
        refine ⟨c', run, ⟨s'.halve m, next, tracks'.halve modulus.odd even, by omega, by omega, fun t stripped => ?_⟩, ?_⟩
        · exact reached t (.even even stripped)
        · rw [next.rest, holds'.rest]
          omega
      · exact .inl (by rw [decide_eq_false even])
  rw [even_run holds', Option.some.injEq, decide_eq_false_iff_not] at left
  exact ⟨c', rest, s', run, holds', reached s' (.odd (by omega))⟩

/-- Both remainders with their cofactors in memory. -/
structure Carries (c : State) (p : Pair) : Prop where
  u : Holds (c.u, c.x1) p.u
  v : Holds (c.v, c.x2) p.v

private theorem equals_one {a : CMpi} {n : ℕ} (holds : Rest a n) : a.equalsToD 1 = some (decide (n = 1)) := by
  have one : (1 : UInt32).toNat = 1 := rfl
  rw [a.equalsToD_run 1 holds.bounded fun empty => .inr (by rw [holds.blank empty]; decide), one, holds.rest]

theorem goesOn_run {c : State} {a b : ℕ} (u_rest : Rest c.u a) (v_rest : Rest c.v b) :
    goesOn c = some (decide (a ≠ 1 ∧ b ≠ 1)) := by
  rw [goesOn, equals_one u_rest, Option.bind_eq_bind, Option.bind_some, equals_one v_rest]
  by_cases left : a = 1
  · simp [left]
  · simp [left]

private theorem rest_run {a b : CMpi} {s t : ℕ} (junk : CMpi) (a_rest : Rest a s) (b_rest : Rest b t) (order : t ≤ s)
    (some_ : 0 < s) : ∃ r, a.substract b junk = some r ∧ Rest r (s - t) := by
  have words : 0 < a.length := Nat.pos_of_ne_zero fun empty => by
    have zero : a.abs = 0 := CMpi.abs_eq_zero.mpr fun i inside => absurd inside (by omega)
    rw [a_rest.rest] at zero
    omega
  obtain ⟨r, run, difference⟩ := substract_same a b junk a_rest.bounded b_rest.bounded
    (a_rest.sign.trans b_rest.sign.symm) (ordered_of_trimmed a_rest.trimmed b_rest.trimmed)
  have value : r.abs + min a.abs b.abs = max a.abs b.abs := difference.value
  have sign : r.sign = if a.abs < b.abs then b.sign.opposite else a.sign := difference.sign
  have bounded : r.length ≤ max a.length b.length := difference.bounded
  have zeros : ∀ k, r.length ≤ k → k < max a.length b.length → r.wordAt k = 0 := difference.zeros
  rw [a_rest.rest, b_rest.rest] at value sign
  rw [if_neg (Nat.not_lt.mpr order), a_rest.sign] at sign
  refine ⟨r, run, sign, ?_, difference.trimmed, fun empty => ?_, by omega⟩
  · exact Nat.le_trans bounded (Nat.max_le.mpr ⟨a_rest.bounded, b_rest.bounded⟩)
  · exact zeros 0 (Nat.le_of_eq empty) (Nat.lt_of_lt_of_le words (Nat.le_max_left _ _))

/-- The other cofactor is taken off as well; where this goes wrong something is left all the same. -/
private theorem less_run {a b : CMpi × CMpl} {s t : Side} (first : CMpi) (junk : CMpl) (a_holds : Holds a s) (b_holds : Holds b t)
    (order : t.rest ≤ s.rest) (some_ : 0 < s.rest) (fits : (s.cofactor - t.cofactor).natAbs < radix ^ 16)
    (exact_ : t.rest ≠ 1 → a.2.AddExact b.2.negated junk.l) :
    ∃ r c, a.1.substract b.1 first = some r ∧ a.2.substract b.2 junk = some c ∧ Rest r (s.rest - t.rest) ∧
      (t.rest ≠ 1 → Holds (r, c) (s.less t)) := by
  obtain ⟨r, run, rest⟩ := rest_run first a_holds.toRest b_holds.toRest order some_
  have size : (a.2.signed - b.2.signed).natAbs < radix ^ 16 := by
    rw [a_holds.cofactor, b_holds.cofactor]
    exact fits
  by_cases last : t.rest = 1
  · obtain ⟨c, c_run⟩ := substract_total a.2 b.2 junk a_holds.balanced b_holds.balanced size
    exact ⟨r, c, run, c_run, rest, fun more => absurd last more⟩
  · obtain ⟨c, c_run, balanced, cofactor⟩ := substract_balanced a.2 b.2 junk a_holds.balanced b_holds.balanced size
      (exact_ last)
    rw [a_holds.cofactor, b_holds.cofactor] at cofactor
    exact ⟨r, c, run, c_run, rest, fun _ => ⟨rest, balanced, cofactor⟩⟩

/-- Where the loop stops, with the remainder of one and its cofactor. -/
structure Ends (m x budget : ℕ) (c : State) (s : Side) : Prop where
  stops : goesOn c = some false
  one : s.rest = 1
  tracks : Tracks m x s
  bound : s.cofactor.natAbs ≤ 2 * budget
  side : c.u.equalsToD 1 = some true ∧ Holds (c.u, c.x1) s ∨ c.u.equalsToD 1 = some false ∧ Holds (c.v, c.x2) s

theorem pass_run {mod : CMpl} {m x budget : ℕ} (modulus : Modulus mod m) {c : State} {frames : Loop.Supply CMpl} {p : Pair}
    (carries : Carries c p) (sound : Sound m x budget p) (u_some : p.u.rest ≠ 0) (v_some : p.v.rest ≠ 0)
    (room : 4 * budget < radix ^ 16) (exact_ : PassExact mod (c, frames)) :
    ∃ c' rest q, pass mod (c, frames) = some (c', rest) ∧ Pass m p q ∧ Rest c'.u q.u.rest ∧ Rest c'.v q.v.rest ∧
      (Carries c' q ∨ ∃ s, Ends m x budget c' s) := by
  obtain ⟨D, least, spent, -⟩ := sound.room
  obtain ⟨u_small, v_small⟩ := sound.bound
  have large : m ≤ 2 * budget := by omega
  obtain ⟨u_exact, later_exact⟩ := exact_
  obtain ⟨⟨u, x1⟩, frames₁, s, u_run, u_holds, u_stripped⟩ := halve_run modulus carries.u sound.u
    (Nat.pos_of_ne_zero u_some) large u_small (by omega) u_exact
  obtain ⟨v_exact, less_exact⟩ := later_exact _ u_run
  obtain ⟨⟨v, x2⟩, frames₂, t, v_run, v_holds, v_stripped⟩ := halve_run modulus carries.v sound.v
    (Nat.pos_of_ne_zero v_some) large v_small (by omega) v_exact
  have s_small := u_stripped.bound modulus.odd large u_small
  have t_small := v_stripped.bound modulus.odd large v_small
  have s_odd := u_stripped.odd_rest
  have t_odd := v_stripped.odd_rest
  have u_rest : u.abs = s.rest := u_holds.rest
  have v_rest : v.abs = t.rest := v_holds.rest
  have exact_ := less_exact _ v_run
  dsimp only at exact_
  have compared := comparesTo_run u v u_holds.bounded v_holds.bounded u_holds.sign v_holds.sign
  rw [u_rest, v_rest] at compared exact_
  rw [pass, u_run, Option.bind_eq_bind, Option.bind_some]
  dsimp only
  rw [v_run, Option.bind_eq_bind, Option.bind_some]
  dsimp only
  rw [compared, Option.bind_some]
  by_cases less : s.rest < t.rest
  · have answer : (if s.rest = t.rest then (0 : ℤ) else if t.rest < s.rest then 1 else -1) = -1 := by
      rw [if_neg (Nat.ne_of_lt less), if_neg (Nat.not_lt.mpr less.le)]
    rw [if_pos less] at exact_
    obtain ⟨r, x, r_run, x_run, rest, holds⟩ := less_run (frames₂ 0).l (frames₂ 1) v_holds u_holds less.le (by omega) (by omega) exact_
    dsimp only at r_run x_run
    rw [if_pos answer, r_run, Option.bind_eq_bind, Option.bind_some, x_run, Option.bind_eq_bind,
      Option.bind_some]
    refine ⟨_, _, ⟨s, t.less s⟩, rfl, .lower u_stripped v_stripped less, u_holds.toRest, rest, ?_⟩
    by_cases last : s.rest = 1
    · refine .inr ⟨s, ?_, last, u_stripped.tracks modulus.odd sound.u, s_small, .inl ⟨?_, u_holds⟩⟩
      · rw [goesOn_run u_holds.toRest rest, decide_eq_false (fun both => both.1 last)]
      · rw [equals_one u_holds.toRest, decide_eq_true last]
    · exact .inl ⟨u_holds, holds last⟩
  · have answer : (if s.rest = t.rest then (0 : ℤ) else if t.rest < s.rest then 1 else -1) ≠ -1 := by
      split_ifs <;> omega
    rw [if_neg less] at exact_
    obtain ⟨r, x, r_run, x_run, rest, holds⟩ := less_run (frames₂ 0).l (frames₂ 1) u_holds v_holds (Nat.not_lt.mp less) (by omega) (by omega)
      exact_
    dsimp only at r_run x_run
    rw [if_neg answer, r_run, Option.bind_eq_bind, Option.bind_some, x_run, Option.bind_eq_bind,
      Option.bind_some]
    refine ⟨_, _, ⟨s.less t, t⟩, rfl, .upper u_stripped v_stripped (Nat.not_lt.mp less), rest, v_holds.toRest, ?_⟩
    by_cases last : t.rest = 1
    · refine .inr ⟨t, ?_, last, v_stripped.tracks modulus.odd sound.v, t_small, .inr ⟨?_, v_holds⟩⟩
      · rw [goesOn_run rest v_holds.toRest, decide_eq_false (fun both => both.2 last)]
      · rw [equals_one rest, decide_eq_false (by omega)]
    · exact .inl ⟨holds last, v_holds⟩

private theorem ends_of_one {m x budget : ℕ} {c : State} {p : Pair} (carries : Carries c p) (sound : Sound m x budget p)
    (stops : ¬ (p.u.rest ≠ 1 ∧ p.v.rest ≠ 1)) : ∃ s, Ends m x budget c s := by
  obtain ⟨u_small, v_small⟩ := sound.bound
  have left : goesOn c = some false := by rw [goesOn_run carries.u.toRest carries.v.toRest, decide_eq_false stops]
  by_cases one : p.u.rest = 1
  · refine ⟨p.u, left, one, sound.u, u_small, .inl ⟨?_, carries.u⟩⟩
    rw [equals_one carries.u.toRest, decide_eq_true one]
  · refine ⟨p.v, left, by omega, sound.v, v_small, .inr ⟨?_, carries.v⟩⟩
    rw [equals_one carries.u.toRest, decide_eq_false one]

theorem loop_run {mod : CMpl} {m x budget : ℕ} (modulus : Modulus mod m) {c : State} {frames : Loop.Supply CMpl} {p : Pair}
    (carries : Carries c p) (sound : Sound m x budget p) (room : 4 * budget < radix ^ 16)
    (enough : p.u.rest + p.v.rest < radix ^ 16)
    (exact_ : Loop.Along (PassExact mod) (fun s => goesOn s.1) (pass mod) (radix ^ 16) (c, frames)) :
    ∃ c' rest, Loop.whileDo (fun s : State × _ => goesOn s.1) (pass mod) (radix ^ 16) (c, frames) = some (c', rest) ∧
      ∃ s, Ends m x budget c' s := by
  obtain ⟨⟨c', rest⟩, run, invariant, left⟩ : ∃ t : State × _,
      Loop.whileDo (fun s : State × _ => goesOn s.1) (pass mod) (radix ^ 16) (c, frames) = some t ∧
        ((∃ q, Carries t.1 q ∧ Sound m x budget q) ∨ ∃ s, Ends m x budget t.1 s) ∧ goesOn t.1 = some false := by
    apply Loop.whileDo_along_rule (fun t : State × _ => (∃ q, Carries t.1 q ∧ Sound m x budget q) ∨
      ∃ s, Ends m x budget t.1 s) (fun t => t.1.u.abs + t.1.v.abs)
    · exact .inl ⟨p, carries, sound⟩
    · rw [carries.u.rest, carries.v.rest]
      exact enough
    · exact exact_
    · rintro ⟨c, frames⟩ (⟨q, carries, sound⟩ | ⟨s, ends⟩)
      · dsimp only at carries ⊢
        rw [goesOn_run carries.u.toRest carries.v.toRest]
        by_cases more : q.u.rest ≠ 1 ∧ q.v.rest ≠ 1
        · have u_some : q.u.rest ≠ 0 := fun zero => more.2 (by
            have coprime := sound.coprime
            rw [zero] at coprime
            exact (Nat.coprime_zero_left _).mp coprime)
          have v_some : q.v.rest ≠ 0 := fun zero => more.1 (by
            have coprime := sound.coprime
            rw [zero] at coprime
            exact (Nat.coprime_zero_right _).mp coprime)
          refine .inr ⟨by rw [decide_eq_true more], fun exact_ => ?_⟩
          obtain ⟨c', rest, q', run, passed, u_rest, v_rest, next⟩ := pass_run modulus carries sound u_some v_some room exact_
          obtain ⟨sound', smaller⟩ := sound.pass modulus.odd u_some v_some passed
          refine ⟨(c', rest), run, next.imp_left fun carries' => ⟨q', carries', sound'⟩, ?_⟩
          rwa [u_rest.rest, v_rest.rest, carries.u.rest, carries.v.rest]
        · exact .inl (by rw [decide_eq_false more])
      · exact .inl ends.stops
  refine ⟨c', rest, run, ?_⟩
  rcases invariant with ⟨q, carries', sound'⟩ | ended
  · rw [goesOn_run carries'.u.toRest carries'.v.toRest, Option.some.injEq, decide_eq_false_iff_not] at left
    exact ends_of_one carries' sound' left
  · exact ended

/-! The beginning. -/

private theorem digit_run (c : CMpl) (n : UInt32) :
    ∃ h l, c.h.assignD 0 = some h ∧ c.l.assignD n = some l ∧ (CMpl.mk h l).Balanced ∧ (CMpl.mk h l).signed = n.toNat := by
  obtain ⟨h, h_run, h_sign, -, h_length, -, -, h_zero⟩ := assignD_run c.h 0
  obtain ⟨l, l_run, l_sign, -, l_length, -, -, value⟩ := assignD_run c.l n
  rw [if_pos rfl] at h_length
  have bounded : l.length ≤ 1 := by
    rw [l_length]
    split <;> decide
  have trimmed : l.Trimmed := trimmed_of_le_abs fun i length => by
    have first : i = 0 := by omega
    have nonzero : n ≠ 0 := fun zero => by
      rw [if_pos zero] at l_length
      omega
    rw [first, pow_zero, value]
    exact Nat.pos_of_ne_zero fun zero => nonzero (UInt32.toNat_inj.mp zero)
  refine ⟨h, l, h_run, l_run, ⟨⟨⟨by dsimp only; omega, by dsimp only; omega, .inr h_length⟩,
    fun i length => absurd length (by dsimp only; omega), .inr trimmed⟩, h_sign.trans l_sign.symm⟩, ?_⟩
  have nothing : h.toInt = 0 := Int.natAbs_eq_zero.mp (h.natAbs_toInt.trans h_zero)
  rw [CMpl.signed, nothing, zero_mul, zero_add, CMpi.toInt_eq, l_sign, value]
  rfl

private theorem copy_run (a b : CMpi) (sign : a.sign = .positive) (bounded : a.length ≤ 8) (trimmed : a.Trimmed) (some_ : 0 < a.abs)
    {x : CMpl} (balanced : x.Balanced) : ∃ r, a.assign b = some r ∧ Holds (r, x) ⟨a.abs, x.signed⟩ := by
  obtain ⟨r, run, same, -⟩ := assign_run a b bounded
  refine ⟨r, run, ⟨same.sign.trans sign, Nat.le_trans (Nat.le_of_eq same.length) bounded, same.trimmed trimmed,
    fun empty => ?_, same.abs⟩, balanced, rfl⟩
  have zero : a.abs = 0 := trimmed.abs_eq_zero_iff.mpr (same.length.symm.trans empty)
  omega

theorem start_run (m x : CMpi) (s : State) (m_sign : m.sign = .positive) (m_bounded : m.length ≤ 8) (m_trimmed : m.Trimmed)
    (m_some : 0 < m.abs) (x_sign : x.sign = .positive) (x_bounded : x.length ≤ 8) (x_trimmed : x.Trimmed)
    (x_some : 0 < x.abs) : ∃ c, start m x s = some c ∧ Carries c ⟨⟨x.abs, 1⟩, ⟨m.abs, 0⟩⟩ := by
  obtain ⟨h1, l1, h1_run, l1_run, balanced1, one⟩ := digit_run s.x1 1
  obtain ⟨h2, l2, h2_run, l2_run, balanced2, zero⟩ := digit_run s.x2 0
  obtain ⟨u, u_run, u_holds⟩ := copy_run x s.u x_sign x_bounded x_trimmed x_some balanced1
  obtain ⟨v, v_run, v_holds⟩ := copy_run m s.v m_sign m_bounded m_trimmed m_some balanced2
  rw [one] at u_holds
  rw [zero] at v_holds
  refine ⟨⟨u, v, ⟨h1, l1⟩, ⟨h2, l2⟩⟩, ?_, u_holds, v_holds⟩
  rw [start, u_run, Option.bind_eq_bind, Option.bind_some, v_run, Option.bind_some, h1_run, Option.bind_some, l1_run,
    Option.bind_some, h2_run, Option.bind_some, l2_run, Option.bind_some]

theorem modulus_run (m : CMpi) (mod : CMpl) (sign : m.sign = .positive) (bounded : m.length ≤ 8) (trimmed : m.Trimmed)
    (odd : m.abs % 2 = 1) : ∃ mod', modulus m mod = some (m, mod') ∧ Modulus mod' m.abs ∧ mod'.h.length = 0 ∧
      mod'.h.sign = .positive ∧ mod'.l.Same m := by
  obtain ⟨h, h_run, h_sign, -, h_length, -, -, h_zero⟩ := assignD_run mod.h 0
  obtain ⟨l, l_run, same, -⟩ := assign_run m mod.l bounded
  rw [if_pos rfl] at h_length
  have regular : m.regularize = some m := by
    rw [CMpi.regularize, topLength_same ⟨rfl, rfl, fun _ _ => rfl⟩ bounded trimmed]
    rfl
  have balanced : (CMpl.mk h l).Balanced :=
    ⟨⟨⟨Nat.le_trans (Nat.le_of_eq same.length) bounded, by dsimp only; omega, .inr h_length⟩,
      fun i length => absurd length (by dsimp only; omega), .inr (same.trimmed trimmed)⟩,
      h_sign.trans (same.sign.trans sign).symm⟩
  refine ⟨⟨h, l⟩, ?_, ⟨balanced, ?_, odd⟩, h_length, h_sign, same⟩
  · rw [modulus, regular, Option.bind_eq_bind, Option.bind_some, h_run, Option.bind_some, l_run, Option.bind_some]
  · have nothing : h.toInt = 0 := Int.natAbs_eq_zero.mp (h.natAbs_toInt.trans h_zero)
    rw [CMpl.signed, nothing, zero_mul, zero_add, CMpi.toInt_eq, same.sign, same.abs, sign]
    rfl

end BinaryInverse

/-! The end: a cofactor has little in its high half, so that the division meets no tie. -/

theorem CMpi.le_normalised {m : CMpi} (some_ : 0 < m.abs) : radix ^ m.length ≤ 2 * m.normalised := by
  have power : radix ^ m.length = 2 ^ (32 * m.length) := (pow_mul 2 32 m.length).symm
  have most : Nat.size m.abs ≤ 32 * m.length := Nat.size_le.mpr (power ▸ m.abs_lt)
  have top : 2 ^ Nat.size m.abs ≤ 2 * m.abs := by
    obtain ⟨k, size⟩ := Nat.exists_eq_succ_of_ne_zero (Nat.size_pos.mpr some_).ne'
    have least : 2 ^ k ≤ m.abs := Nat.lt_size.mp (by omega)
    rw [size, Nat.pow_succ]
    omega
  calc radix ^ m.length = 2 ^ Nat.size m.abs * 2 ^ (32 * m.length - Nat.size m.abs) := by
        rw [power, ← pow_add, Nat.add_sub_cancel' most]
    _ ≤ 2 * m.abs * 2 ^ (32 * m.length - Nat.size m.abs) := Nat.mul_le_mul_right _ top
    _ = 2 * m.normalised := Nat.mul_assoc _ _ _

theorem CMpi.word_of_abs {a b : CMpi} (a_full : a.length = 8) (b_full : b.length = 8) (same : a.abs = b.abs) :
    a.word = b.word := by
  rw [CMpi.abs, CMpi.abs, a_full, b_full] at same
  have digits := Limbs.digits_eq (fun i _ => a.digit_lt i) (fun i _ => b.digit_lt i) same
  ext i inside
  have word := wordAt_eq.mpr (digits i inside)
  rwa [wordAt, wordAt, Vector.getElem?_eq_getElem inside, Vector.getElem?_eq_getElem inside, Option.getD_some,
    Option.getD_some, ← UInt32.toNat_inj] at word

namespace CMpl

private theorem untied_of_small {n : CMpl} {m : CMpi} (loose : n.Loose) (m_bounded : m.length ≤ 8) (some_ : 0 < m.abs)
    (small : n.abs < radix ^ 8 * 2 ^ 31) : n.Untied m := by
  have room : 0 < radix ^ 8 := Nat.pow_pos radix_pos
  have high : n.h.abs < 2 ^ 31 := by
    rw [h_abs n loose.l_bounded]
    exact Nat.div_lt_of_lt_mul small
  intro i inside
  obtain rfl : i = 0 := by
    have one := loose.h_trimmed.length_le (n := 1) (Nat.lt_trans high (by decide))
    omega
  have size : m.length + (0 + 9 - m.length) = 8 + 1 := by omega
  have large : radix ^ 8 * 2 ^ 31 ≤ m.normalised * radix ^ (0 + 9 - m.length) := by
    have scaled := Nat.mul_le_mul_right (radix ^ (0 + 9 - m.length)) (CMpi.le_normalised some_)
    rw [← pow_add, size, pow_succ, Nat.mul_assoc] at scaled
    have half : radix ^ 8 * radix = 2 * (radix ^ 8 * 2 ^ 31) := by
      have base : radix = 2 * 2 ^ 31 := rfl
      rw [Nat.mul_left_comm, ← base]
    rw [half] at scaled
    exact Nat.le_of_mul_le_mul_left scaled Nat.two_pos
  have less : n.abs % (m.normalised * radix ^ (0 + 9 - m.length)) / radix ^ 8 < 2 ^ 31 :=
    Nat.div_lt_of_lt_mul (Nat.lt_of_le_of_lt (Nat.mod_le _ _) small)
  have more : 2 ^ 31 ≤ m.normalised * radix ^ (0 + 9 - m.length) / radix ^ 8 :=
    (Nat.le_div_iff_mul_le room).mpr (Nat.le_trans (Nat.le_of_eq (Nat.mul_comm _ _)) large)
  exact Nat.ne_of_lt (Nat.lt_of_lt_of_le less more)

theorem mod_run (n : CMpl) (m : CMpi) (scratch : Scratch) (loose : n.Loose) (m_bounded : m.length ≤ 8) (m_trimmed : m.Trimmed)
    (m_sign : m.sign = .positive) (m_some : 0 < m.abs) (small : n.abs < radix ^ 8 * 2 ^ 31) :
    ∃ r, n.mod m scratch = some r ∧ r.h.length = 0 ∧ r.h.sign = n.l.sign ∧ r.l.length ≤ 8 ∧ r.l.abs = n.abs % m.abs ∧
      (r.l.abs ≠ 0 → r.l.sign = n.l.sign) := by
  by_cases prime : m.abs = Sm2.p
  · have full : m.length = 8 := by
      have most : radix ^ 7 < radix ^ m.length := Nat.lt_trans (by rw [prime]; decide) m.abs_lt
      have words := (Nat.pow_lt_pow_iff_right (show 1 < radix by decide)).mp most
      omega
    have same : m.word = gP.word := m.word_of_abs full rfl (prime.trans gP_abs.symm)
    obtain ⟨r, run, reduced⟩ := fastReduction_run n m scratch.inner loose.toPacked m_bounded m_sign prime
    refine ⟨r, ?_, reduced.empty, reduced.h_sign, reduced.bounded, prime ▸ reduced.value, fun some_ => reduced.l_sign (.inl some_)⟩
    rw [mod, reduction, if_pos ⟨same, full⟩, run]
  · obtain ⟨r, run, empty, h_sign, l_sign, bounded, value⟩ := reduction_run n m scratch loose m_bounded m_trimmed m_some prime
      (untied_of_small loose m_bounded m_some small)
    exact ⟨r, run, empty, h_sign, bounded, value, fun _ => l_sign⟩

end CMpl

namespace BinaryInverse
open Halving

private theorem toInt_of_signed {a : CMpl} {n : ℕ} (canonical : a.Canonical) (positive : 0 < a.signed) (less : a.signed < n)
    (fits : n ≤ radix ^ 8) : a.l.toInt = a.signed := by
  have whole := signed_common canonical.common
  have sign : a.l.sign = .positive := by
    cases sign : a.l.sign with
    | positive => rfl
    | negtive =>
      rw [sign, Sign.signed] at whole
      omega
  rw [sign, Sign.signed] at whole
  have high : a.h.abs = 0 := by
    rw [h_abs a canonical.l_bounded]
    exact Nat.div_eq_of_lt (by omega)
  have nothing : a.h.toInt = 0 := Int.natAbs_eq_zero.mp (a.h.natAbs_toInt.trans high)
  rw [CMpl.signed, nothing, zero_mul, zero_add]

private theorem lifted_run {m : CMpi} {mod y : CMpl} (junk : CMpi) (m_bounded : m.length ≤ 8) (m_sign : m.sign = .positive)
    (empty : mod.h.length = 0) (h_sign : mod.h.sign = .positive) (same : mod.l.Same m) (y_empty : y.h.length = 0)
    (common : y.h.sign = y.l.sign) (bounded : y.l.length ≤ 8) (some_ : y.l.abs ≠ 0) (less : y.l.abs < m.abs) :
    ∃ z, (if y.l.sign = .negtive then y.add mod junk else some y) = some z ∧ z.l.length ≤ 8 ∧ 0 < z.l.toInt ∧
      z.l.toInt < m.abs ∧ z.l.toInt ≡ y.l.toInt [ZMOD m.abs] := by
  have value := y.l.toInt_eq
  cases sign : y.l.sign with
  | positive =>
    rw [sign, Sign.signed] at value
    exact ⟨y, if_neg (by decide), bounded, by omega, by omega, rfl⟩
  | negtive =>
    rw [sign, Sign.signed] at value
    have modulus : mod.l.toInt = m.abs := by rw [CMpi.toInt_eq, same.sign, same.abs, m_sign, Sign.signed]
    have most : m.abs ≤ radix ^ 8 := Nat.le_trans m.abs_lt.le (Nat.pow_le_pow_right radix_pos m_bounded)
    obtain ⟨z, run, canonical, sum⟩ := add_larger y mod junk y_empty empty bounded
      (Nat.le_trans (Nat.le_of_eq same.length) m_bounded) (by rw [common, sign, h_sign]; decide) sign
      (same.sign.trans m_sign) (same.abs.symm ▸ less)
    rw [modulus] at sum
    have low := toInt_of_signed canonical (by omega) (show z.signed < (m.abs : ℕ) by omega) most
    refine ⟨z, (if_pos rfl).trans run, canonical.l_bounded, by omega, by omega, ?_⟩
    rw [low, sum]
    exact Int.add_modEq_right

theorem finish_run {m : CMpi} {mod : CMpl} (x : CMpl) (xi : CMpi) (scratch : CMpl.Scratch) (junk : CMpl) (m_bounded : m.length ≤ 8)
    (m_trimmed : m.Trimmed) (m_sign : m.sign = .positive) (empty : mod.h.length = 0) (h_sign : mod.h.sign = .positive)
    (same : mod.l.Same m) (m_some : 0 < m.abs) (balanced : x.Balanced) (small : x.signed.natAbs < radix ^ 8 * 2 ^ 31)
    (nonzero : ¬ (m.abs : ℤ) ∣ x.signed) :
    ∃ r, finish m mod x xi scratch junk = some r ∧ 0 < r.toInt ∧ r.toInt < m.abs ∧ r.toInt ≡ x.signed [ZMOD m.abs] := by
  rw [balanced.natAbs_signed] at small
  obtain ⟨y, run, y_empty, y_h_sign, bounded, value, y_sign⟩ := x.mod_run m scratch balanced.toLoose m_bounded m_trimmed
    m_sign m_some small
  have some_ : y.l.abs ≠ 0 := by
    intro zero
    rw [value] at zero
    exact nonzero (Int.natCast_dvd.mpr (balanced.natAbs_signed.symm ▸ Nat.dvd_of_mod_eq_zero zero))
  have sign := y_sign some_
  have reduced : y.l.toInt ≡ x.signed [ZMOD m.abs] := by
    rw [CMpi.toInt_eq, sign, value, signed_common balanced.common]
    exact Sign.signed_mod _ _ _
  obtain ⟨z, z_run, z_bounded, positive, below, lifted⟩ := lifted_run junk.l m_bounded m_sign empty h_sign same
    y_empty (y_h_sign.trans sign.symm) bounded some_ (value ▸ Nat.mod_lt _ m_some)
  obtain ⟨r, r_run, r_same, -⟩ := assign_run z.l xi z_bounded
  have left : r.toInt = z.l.toInt := by rw [CMpi.toInt_eq, CMpi.toInt_eq, r_same.sign, r_same.abs]
  refine ⟨r, ?_, left ▸ positive, left ▸ below, left ▸ lifted.trans reduced⟩
  rw [finish, run, Option.bind_eq_bind, Option.bind_some]
  exact (congrArg (Option.bind · _) z_run).trans r_run

private theorem sound_start {m x : ℕ} (less : x < m) (some_ : 0 < x) (coprime : x.Coprime m) (small : m < radix ^ 8) :
    ∃ budget, Sound m x budget ⟨⟨x, 1⟩, ⟨m, 0⟩⟩ ∧ budget ≤ 511 * m := by
  have base : radix = 2 ^ 32 := rfl
  rw [base, ← pow_mul] at small
  have m_log : Nat.log 2 m < 256 := Nat.log_lt_of_lt_pow (by omega) small
  have x_log : Nat.log 2 x < 256 := Nat.log_lt_of_lt_pow (by omega) (Nat.lt_trans less small)
  refine ⟨m + (Nat.log 2 x + Nat.log 2 m) * m, ⟨⟨less.le, ?_⟩, ⟨Nat.le_refl m, ?_⟩, coprime, m, Nat.le_refl m, Nat.le_refl _, ?_, ?_⟩, ?_⟩
  · rw [mul_one]
  · rw [mul_zero]
    exact (Int.modEq_zero_iff_dvd.mpr dvd_rfl).symm
  · dsimp only
    split <;> omega
  · exact Nat.zero_le _
  · have scaled := Nat.mul_le_mul_right m (show Nat.log 2 x + Nat.log 2 m ≤ 510 by omega)
    omega

/-- The result is the inverse if the loop adds and subtracts exactly. -/
theorem binaryInverse2_inverse (m x xi : CMpi) (locals : Locals) (m_bounded : m.length ≤ 8) (m_trimmed : m.Trimmed)
    (x_bounded : x.length ≤ 8) (x_trimmed : x.Trimmed) (odd : m.toInt % 2 = 1) (large : 1 < m.toInt) (some_ : 0 < x.toInt)
    (less : x.toInt < m.toInt) (coprime : Int.gcd x.toInt m.toInt = 1) (exact_ : SumsExact m x locals) :
    ∃ r, binaryInverse2 m x xi locals = some r ∧ 0 < r.toInt ∧ r.toInt < m.toInt ∧ x.toInt * r.toInt ≡ 1 [ZMOD m.toInt] := by
  obtain ⟨m_sign, m_value⟩ := m.toInt_of_pos (by omega)
  obtain ⟨x_sign, x_value⟩ := x.toInt_of_pos some_
  rw [m_value] at odd large less coprime ⊢
  rw [x_value] at some_ less coprime ⊢
  rw [Int.gcd_natCast_natCast] at coprime
  have m_odd : m.abs % 2 = 1 := by omega
  have limit : m.abs < radix ^ 8 := Nat.lt_of_lt_of_le m.abs_lt (Nat.pow_le_pow_right radix_pos m_bounded)
  obtain ⟨budget, sound, enough⟩ := sound_start (m := m.abs) (x := x.abs) (by omega) (by omega) coprime limit
  have room : 0 < radix ^ 8 := Nat.pow_pos radix_pos
  have double : 2048 * radix ^ 8 ≤ radix ^ 16 := by
    rw [radix_double]
    exact Nat.mul_le_mul_right _ (by decide)
  have bits : 1022 * radix ^ 8 ≤ radix ^ 8 * 2 ^ 31 := by
    rw [Nat.mul_comm]
    exact Nat.mul_le_mul_left _ (by decide)
  obtain ⟨c, c_run, carries⟩ := start_run m x locals.state m_sign m_bounded m_trimmed (by omega) x_sign x_bounded x_trimmed
    (by omega)
  obtain ⟨mod, mod_run, modulus, empty, h_sign, same⟩ := modulus_run m locals.mod m_sign m_bounded m_trimmed m_odd
  obtain ⟨c', frames, run, s, ends⟩ := loop_run modulus carries sound (by omega) (by dsimp only; omega)
    (exact_ c c_run _ mod_run)
  have leads := ends.tracks.leads
  have bound := ends.bound
  rw [ends.one] at leads
  have nonzero : ¬ (m.abs : ℤ) ∣ s.cofactor := fun divides => by
    have one : (m.abs : ℤ) ∣ 1 := leads.dvd_iff.mp (divides.mul_left _)
    have unit := Int.le_of_dvd Int.one_pos one
    omega
  have finished {y : CMpl} (balanced : y.Balanced) (cofactor : y.signed = s.cofactor) :
      ∃ r, finish m mod y xi locals.scratch (frames 0) = some r ∧ 0 < r.toInt ∧ r.toInt < m.abs ∧ x.abs * r.toInt ≡ 1 [ZMOD m.abs] := by
    obtain ⟨r, r_run, positive, below, residue⟩ := finish_run y xi locals.scratch (frames 0) m_bounded m_trimmed m_sign empty h_sign same
      (by omega) balanced (by rw [cofactor]; omega) (cofactor ▸ nonzero)
    exact ⟨r, r_run, positive, below, (residue.mul_left _).trans (cofactor ▸ leads)⟩
  rw [binaryInverse2, c_run, Option.bind_eq_bind, Option.bind_some, mod_run, Option.bind_eq_bind, Option.bind_some]
  dsimp only
  rw [run, Option.bind_eq_bind, Option.bind_some]
  dsimp only
  rcases ends.side with ⟨one, holds⟩ | ⟨other, holds⟩
  · rw [one, Option.bind_eq_bind, Option.bind_some]
    exact finished holds.balanced holds.cofactor
  · rw [other, Option.bind_eq_bind, Option.bind_some]
    exact finished holds.balanced holds.cofactor

def oneWord (w : UInt32) : CMpi := ⟨(Vector.replicate 8 0).setIfInBounds 0 w, 0, .positive, 1⟩

def eightWords (n : ℕ) : CMpi := ⟨.ofFn fun i => .ofNat (n / radix ^ i.val), 0, .positive, 8⟩

def zeros : Locals :=
  let zero : CMpi := oneWord 0
  let double : CMpl := ⟨zero, zero⟩
  ⟨⟨zero, zero, double, double⟩, double, fun _ => double, .clear⟩

private theorem oneWord_trimmed {w : UInt32} (some_ : w ≠ 0) : (oneWord w).Trimmed := by
  intro i length
  obtain rfl : 0 = i := Nat.succ.inj length
  exact fun zero => some_ (UInt32.toNat_inj.mp zero)

private theorem eightWords_trimmed {n : ℕ} (large : (eightWords n).digit 7 ≠ 0) : (eightWords n).Trimmed := by
  intro i length
  obtain rfl : 7 = i := Nat.succ.inj length
  exact large

theorem binaryInverse2_inverse_three :
    ∃ r, binaryInverse2 (oneWord 7) (oneWord 3) (oneWord 0) zeros = some r ∧ 0 < r.toInt ∧ r.toInt < (oneWord 7).toInt ∧
      (oneWord 3).toInt * r.toInt ≡ 1 [ZMOD (oneWord 7).toInt] :=
  binaryInverse2_inverse (oneWord 7) (oneWord 3) (oneWord 0) zeros (by decide) (oneWord_trimmed (by decide)) (by decide)
    (oneWord_trimmed (by decide)) (by decide) (by decide) (by decide) (by decide) (by decide) (by decide +kernel)

/-- An odd modulus and a number that is coprime to it, for which a difference of the loop loses 2 ^ 256. -/
def lossyModulus : CMpi := eightWords 0xeefddeccdbbcaab99a889778667556445334223112000eefddeccdbbcaab99a9
def lossyNumber : CMpi := eightWords 0x7ea484be56d36f934f1d992a203d8c193e0c101a20ea0a8fbd8dbd3a4df8a7cf

/-- The modulus itself comes out. -/
theorem binaryInverse2_not_inverse :
    ¬ ∀ (m x xi : CMpi) (locals : Locals), m.length ≤ 8 → m.Trimmed → x.length ≤ 8 → x.Trimmed → m.toInt % 2 = 1 →
      1 < m.toInt → 0 < x.toInt → x.toInt < m.toInt → Int.gcd x.toInt m.toInt = 1 →
      ∃ r, binaryInverse2 m x xi locals = some r ∧ 0 < r.toInt ∧ r.toInt < m.toInt ∧
        x.toInt * r.toInt ≡ 1 [ZMOD m.toInt] := by
  intro all
  obtain ⟨r, run, -, less, -⟩ := all lossyModulus lossyNumber (oneWord 0) zeros (by decide) (eightWords_trimmed (by decide))
    (by decide) (eightWords_trimmed (by decide)) (by decide) (by decide) (by decide) (by decide) (by decide +kernel)
  have left : (binaryInverse2 lossyModulus lossyNumber (oneWord 0) zeros).map CMpi.toInt = some lossyModulus.toInt := by
    decide +kernel
  rw [run, Option.map_some, Option.some.injEq] at left
  omega

end BinaryInverse
end MyTools.Mpi
