import MyTools.Mpi.Addition
import MyTools.Mpi.Shift
import MyTools.Sm2.Domain
import Mathlib.Data.Int.ModEq

/-! The reduction modulo the prime of the SM2 field, which folds the words of the high half. -/
namespace MyTools.Mpi
open Library CMpi

/-- `g_p` of the SM2 routines. -/
def gP : CMpi where
  word := #v[0xFFFFFFFF, 0xFFFFFFFF, 0x00000000, 0xFFFFFFFF, 0xFFFFFFFF, 0xFFFFFFFF, 0xFFFFFFFF, 0xFFFFFFFE]
  carry := 0
  sign := .positive
  length := 8

theorem gP_abs : gP.abs = Sm2.p := by decide

namespace CMpl

/-- The sign of the low half is the sign of the number. -/
def toInt (a : CMpl) : ℤ :=
  match a.l.sign with
  | .positive => a.abs
  | .negtive => -a.abs

/-- What stands for `w` at 2 ^ 256: `w * (2 ^ 224 + 2 ^ 96 - 2 ^ 64 + 1)`. -/
def foldWord (w : UInt32) (junk : CMpl) : Option CMpl := do
  let h ← junk.h.assignD 0
  let l ← junk.l.assignD 0
  let l := { l with word := #v[w, 0, 0 - w, w - 1, 0, 0, 0, w], length := 8 }
  some ⟨h, l⟩

/-- One pass of the inner loop of `CMpl_FastReduction`. -/
def foldAt (junk : CMpl) (i : ℕ) (n : CMpl) : Option CMpl := do
  let tempH ← foldWord (← n.h.get i) junk
  let tempH ← tempH.wordShiftLeft i
  let h ← n.h.put i 0
  add { n with h } tempH junk.l

/-- `CMpl_FastReduction`; each pass and the subtraction at the end find their own local variables in `frames`. -/
def fastReduction (n : CMpl) (m : CMpi) (frames : Loop.Supply CMpl) : Option CMpl := do
  let tflag := n.l.sign
  let n := { h := { n.h with sign := .positive }, l := { n.l with sign := .positive } }
  let (n, frames) ← Loop.down (fun i => Loop.whileDo (fun s => s.1.h.nonzeroWord i)
    (Loop.supplied fun junk => foldAt junk i) (radix ^ 16)) n.h.length (n, frames)
  let h := { n.h with length := 0, sign := tflag }
  let l ← (do if (← n.l.comparesTo m) = 1 then n.l.substract m (frames 0).l else some n.l)
  if (← l.comparesTo m) = 0 then some ⟨h, ← l.assignD 0⟩ else some ⟨h, { l with sign := tflag }⟩

theorem p_eq : Sm2.p + radix ^ 7 + radix ^ 3 + 1 = radix ^ 8 + radix ^ 2 := by decide

private theorem fold_value {w : UInt32} (nonzero : w ≠ 0) :
    w.toNat + (0 - w).toNat * radix ^ 2 + (w - 1).toNat * radix ^ 3 + w.toNat * radix ^ 7 + w.toNat * Sm2.p =
      w.toNat * radix ^ 8 := by
  have positive : 0 < w.toNat := Nat.pos_of_ne_zero fun zero => nonzero (UInt32.toNat_inj.mp zero)
  have below : w.toNat < radix := w.toNat_lt
  have size : radix = 4294967296 := rfl
  have minus : (0 - w).toNat + w.toNat = radix := by
    rw [UInt32.toNat_sub]
    have zero : (0 : UInt32).toNat = 0 := rfl
    omega
  have less : (w - 1).toNat + 1 = w.toNat := by
    rw [UInt32.toNat_sub]
    have one : (1 : UInt32).toNat = 1 := rfl
    omega
  have prime := p_eq
  generalize w.toNat = x at *
  generalize (0 - w).toNat = y at *
  generalize (w - 1).toNat = z at *
  generalize radix = B at *
  generalize Sm2.p = P at *
  subst less
  nlinarith

private theorem foldWord_run {w : UInt32} (nonzero : w ≠ 0) (junk : CMpl) :
    ∃ t, foldWord w junk = some t ∧ t.Positive ∧ t.h.length = 0 ∧ t.l.length = 8 ∧
      t.abs + w.toNat * Sm2.p = w.toNat * radix ^ 8 := by
  obtain ⟨h, h_run, h_sign, -, h_length, -, -, h_abs⟩ := assignD_run junk.h 0
  obtain ⟨l, l_run, l_sign, -⟩ := assignD_run junk.l 0
  rw [if_pos rfl] at h_length
  refine ⟨⟨h, { l with word := #v[w, 0, 0 - w, w - 1, 0, 0, 0, w], length := 8 }⟩, ?_, ?_, h_length, rfl, ?_⟩
  · rw [foldWord, h_run, Option.bind_eq_bind, Option.bind_some, l_run, Option.bind_some]
  · exact ⟨l_sign, h_sign, Nat.le_refl 8, h_length ▸ Nat.zero_le 8⟩
  · have low : ({ l with word := #v[w, 0, 0 - w, w - 1, 0, 0, 0, w], length := 8 } : CMpi).abs =
        w.toNat + (0 - w).toNat * radix ^ 2 + (w - 1).toNat * radix ^ 3 + w.toNat * radix ^ 7 := by
      simp [CMpi.abs, Limbs.value_succ, digit, wordAt]
    have empty : (0 : UInt32).toNat = 0 := rfl
    rw [← fold_value nonzero, abs, h_abs, low, empty, Nat.zero_mul, Nat.add_zero]

theorem abs_lt_double {n : CMpl} {i : ℕ} (bounded : n.l.length ≤ 8) (short : i ≤ 8)
    (high : n.h.abs < radix ^ i) : n.abs < radix ^ 16 := by
  calc n.abs < (n.h.abs + 1) * radix ^ 8 := n.abs_lt bounded
    _ ≤ radix ^ 8 * radix ^ 8 :=
      Nat.mul_le_mul_right (radix ^ 8) (Nat.lt_of_lt_of_le high (Nat.pow_le_pow_right radix_pos short))
    _ = radix ^ 16 := radix_double.symm

private theorem abs_clear (a : CMpi) {i : ℕ} (inside : i < a.length) (bounded : a.length ≤ 8) :
    (a.set i 0).abs + a.digit i * radix ^ i = a.abs := by
  have updated := Limbs.value_update (B := radix) (f := a.digit) (g := (a.set i 0).digit) inside fun j _ apart =>
    digit_set_ne a apart 0
  have empty : (0 : UInt32).toNat = 0 := rfl
  rw [digit_set_self a (Nat.lt_of_lt_of_le inside bounded), empty, Nat.zero_mul, Nat.add_zero] at updated
  exact updated

private theorem foldAt_run (junk : CMpl) {i : ℕ} {n : CMpl} (positive : n.Positive) (full : n.l.length = 8)
    (inside : i < n.h.length) (nonzero : n.h.wordAt i ≠ 0) :
    ∃ r, foldAt junk i n = some r ∧ r.Positive ∧ r.l.length = 8 ∧ n.h.length ≤ r.h.length ∧
      r.abs + n.h.digit i * radix ^ i * Sm2.p = n.abs := by
  have bounded := positive.h_bounded
  have below : i < 8 := Nat.lt_of_lt_of_le inside bounded
  obtain ⟨t, t_run, t_positive, t_short, t_full, t_value⟩ := foldWord_run nonzero junk
  have packed : t.Packed := ⟨t_positive.l_bounded, t_positive.h_bounded, .inl t_full⟩
  have some_ : t.abs ≠ 0 := by
    intro zero
    have less : Sm2.p < radix ^ 8 := by decide
    have digits : 0 < n.h.digit i := Nat.pos_of_ne_zero fun zero => nonzero (wordAt_eq_zero.mpr zero)
    rw [zero, Nat.zero_add] at t_value
    exact absurd (Nat.eq_of_mul_eq_mul_left digits t_value) less.ne
  obtain ⟨u, u_run, shifted, u_full, u_short⟩ := wordShiftLeft_run t i packed some_
  have u_value := shifted.abs packed (by omega)
  have u_positive : u.Positive := ⟨shifted.l_sign.trans t_positive.l_sign, shifted.h_sign.trans t_positive.h_sign,
    shifted.l_bounded, shifted.h_bounded⟩
  have cleared := abs_clear n.h inside bounded
  let rest : CMpl := { n with h := n.h.set i 0 }
  have rest_positive : rest.Positive := ⟨positive.l_sign, positive.h_sign, positive.l_bounded, bounded⟩
  have total : rest.abs + u.abs + n.h.digit i * radix ^ i * Sm2.p = n.abs := by
    calc _ = n.l.abs + (n.h.set i 0).abs * radix ^ 8 +
          radix ^ i * (t.abs + (n.h.wordAt i).toNat * Sm2.p) := by
          rw [u_value, abs, toNat_wordAt]; ring
      _ = n.l.abs + ((n.h.set i 0).abs + n.h.digit i * radix ^ i) * radix ^ 8 := by
          rw [t_value, toNat_wordAt]; ring
      _ = n.abs := by rw [cleared, abs]
  have limit : n.abs < radix ^ 16 := abs_lt_double positive.l_bounded bounded n.h.abs_lt
  obtain ⟨r, run, added⟩ := add_positive rest u junk.l rest_positive u_positive (.inl full) (by omega)
  refine ⟨r, ?_, added.toPositive, ?_, added.h_longer, ?_⟩
  · simp only [foldAt, get_eq n.h below, put_eq n.h below, Option.bind_eq_bind, Option.bind_some, t_run, u_run]
    exact run
  · have longer : max n.l.length u.l.length ≤ r.l.length := added.l_longer
    have short := added.l_bounded
    omega
  · rw [added.value, total]

/-- While word `i` of the high half is folded, the words above it are clear. -/
private structure Folding (N length i : ℕ) (n : CMpl) : Prop extends Positive n where
  full : 0 < length → n.l.length = 8
  longer : length ≤ n.h.length
  high : n.h.abs < radix ^ i
  value : n.abs ≡ N [MOD Sm2.p]

private theorem abs_of_zero {a : CMpi} {i : ℕ} (inside : i < a.length) (clear : a.digit i = 0)
    (high : a.abs < radix ^ (i + 1)) : a.abs < radix ^ i := by
  have whole : a.abs = Limbs.value radix a.limb (i + 1) := by
    obtain ⟨m, size⟩ := Nat.exists_eq_add_of_le (Nat.succ_le_of_lt inside)
    rw [a.abs_eq_value (Nat.le_of_eq size), Nat.succ_eq_add_one, Limbs.value_add] at high ⊢
    have nothing : Limbs.value radix (fun k => a.limb (i + 1 + k)) m = 0 := by
      by_contra more
      have large := Nat.le_mul_of_pos_right (radix ^ (i + 1)) (Nat.pos_of_ne_zero more)
      omega
    rw [nothing, Nat.mul_zero, Nat.add_zero]
  rw [whole, Limbs.value_succ, limb_inside a inside, clear, Nat.zero_mul, Nat.add_zero]
  exact Limbs.value_lt fun k _ => a.limb_lt k

private theorem folding_word (frames : Loop.Supply CMpl) {N length i : ℕ} {n : CMpl} (folding : Folding N length (i + 1) n)
    (inside : i < length) :
    ∃ r, Loop.whileDo (fun s : CMpl × _ => s.1.h.nonzeroWord i) (Loop.supplied fun junk => foldAt junk i) (radix ^ 16)
        (n, frames) = some r ∧ Folding N length i r.1 := by
  have test {n : CMpl} (folding : Folding N length (i + 1) n) :
      n.h.nonzeroWord i = some (decide (n.h.wordAt i ≠ 0)) := by
    have below : i < 8 := Nat.lt_of_lt_of_le inside (Nat.le_trans folding.longer folding.h_bounded)
    simp only [nonzeroWord, get_eq n.h below, Option.bind_eq_bind, Option.bind_some]
  have short : i + 1 ≤ 8 := Nat.le_trans inside (Nat.le_trans folding.longer folding.h_bounded)
  obtain ⟨r, rest, run, folding', left⟩ : ∃ r rest, Loop.whileDo (fun s : CMpl × _ => s.1.h.nonzeroWord i)
      (Loop.supplied fun junk => foldAt junk i) (radix ^ 16) (n, frames) = some (r, rest) ∧ Folding N length (i + 1) r ∧
        r.h.nonzeroWord i = some false := by
    apply Loop.supplied_rule (fun n : CMpl => n.h.nonzeroWord i) (Folding N length (i + 1)) abs
    · exact folding
    · exact abs_lt_double folding.l_bounded short folding.high
    · intro n junk folding
      rw [test folding]
      by_cases clear : n.h.wordAt i = 0
      · exact .inl (by rw [decide_eq_false (not_not.mpr clear)])
      · have full := folding.full (Nat.zero_lt_of_lt inside)
        have stored := Nat.lt_of_lt_of_le inside folding.longer
        obtain ⟨r, run, positive, r_full, longer, value⟩ := foldAt_run junk folding.toPositive full stored clear
        have digit : 0 < n.h.digit i := Nat.pos_of_ne_zero fun zero => clear (wordAt_eq_zero.mpr zero)
        have taken : 0 < n.h.digit i * radix ^ i * Sm2.p :=
          Nat.mul_pos (Nat.mul_pos digit (Nat.pow_pos radix_pos)) Sm2.p_prime.pos
        refine .inr ⟨by rw [decide_eq_true clear], r, run, ⟨positive, fun _ => r_full, ?_, ?_, ?_⟩, by omega⟩
        · exact Nat.le_trans folding.longer longer
        · have whole := n.abs_lt folding.l_bounded
          have room : (n.h.abs + 1) * radix ^ 8 ≤ radix ^ (i + 1) * radix ^ 8 :=
            Nat.mul_le_mul_right (radix ^ 8) (Nat.succ_le_of_lt folding.high)
          have part : r.h.abs * radix ^ 8 ≤ r.abs := Nat.le_add_left _ _
          exact Nat.lt_of_mul_lt_mul_right (a := radix ^ 8) (by omega)
        · refine Nat.ModEq.trans ?_ folding.value
          rw [← value]
          exact (Nat.add_mul_modulus_modEq_iff.mpr rfl).symm
  have clear : r.h.digit i = 0 := by
    rw [test folding', Option.some.injEq, decide_eq_false_iff_not, not_not] at left
    exact wordAt_eq_zero.mp left
  refine ⟨(r, rest), run, folding'.toPositive, folding'.full, folding'.longer, ?_, folding'.value⟩
  exact abs_of_zero (Nat.lt_of_lt_of_le inside folding'.longer) clear folding'.high

/-- The magnitude is reduced, and the sign is kept where there is one. -/
structure Reduced (n r : CMpl) : Prop where
  empty : r.h.length = 0
  h_sign : r.h.sign = n.l.sign
  bounded : r.l.length ≤ 8
  value : r.l.abs = n.abs % Sm2.p
  l_sign : r.l.abs ≠ 0 ∨ n.l.sign = .positive → r.l.sign = n.l.sign

private theorem subtracted {l m : CMpi} (junk : CMpi) (bounded : l.length ≤ 8) (m_bounded : m.length ≤ 8)
    (l_sign : l.sign = .positive) (m_sign : m.sign = .positive) (prime : m.abs = Sm2.p) :
    ∃ r, (do if (← l.comparesTo m) = 1 then l.substract m junk else some l) = some r ∧
      r.sign = .positive ∧ r.length ≤ 8 ∧ r.abs ≤ Sm2.p ∧ r.abs ≡ l.abs [MOD Sm2.p] := by
  rw [comparesTo_run l m bounded m_bounded l_sign m_sign, Option.bind_eq_bind, Option.bind_some, prime]
  by_cases more : Sm2.p < l.abs
  · have ordered : Ordered l m := by
      have large : radix ^ 7 < l.abs := Nat.lt_trans (by decide) more
      have full : 7 < l.length := (Nat.pow_lt_pow_iff_right (show 1 < radix by decide)).mp (Nat.lt_trans large l.abs_lt)
      rw [Ordered, prime, if_neg (Nat.not_lt.mpr more.le)]
      omega
    obtain ⟨r, run, difference⟩ := substract_same l m junk bounded m_bounded (l_sign.trans m_sign.symm) ordered
    have value : r.abs + min l.abs m.abs = max l.abs m.abs := difference.value
    have sign : r.sign = if l.abs < m.abs then m.sign.opposite else l.sign := difference.sign
    have length : r.length ≤ max l.length m.length := difference.bounded
    have limit : l.abs < radix ^ 8 := Nat.lt_of_lt_of_le l.abs_lt (Nat.pow_le_pow_right radix_pos bounded)
    have double : radix ^ 8 ≤ Sm2.p + Sm2.p := by decide
    rw [prime, Nat.min_eq_right more.le, Nat.max_eq_left more.le] at value
    rw [prime, if_neg (Nat.not_lt.mpr more.le)] at sign
    rw [if_neg more.ne', if_pos more, if_pos rfl, run]
    refine ⟨r, rfl, sign.trans l_sign, Nat.le_trans length (Nat.max_le.mpr ⟨bounded, m_bounded⟩), by omega, ?_⟩
    rw [← value]
    exact (Nat.add_modulus_modEq_iff.mpr rfl).symm
  · have other : (if l.abs = Sm2.p then (0 : ℤ) else if Sm2.p < l.abs then 1 else -1) ≠ 1 := by
      rw [if_neg more]
      split <;> decide
    rw [if_neg other]
    exact ⟨l, rfl, l_sign, bounded, Nat.not_lt.mp more, rfl⟩

theorem fastReduction_run (n : CMpl) (m : CMpi) (frames : Loop.Supply CMpl) (packed : n.Packed) (m_bounded : m.length ≤ 8)
    (m_sign : m.sign = .positive) (prime : m.abs = Sm2.p) :
    ∃ r, n.fastReduction m frames = some r ∧ Reduced n r := by
  obtain ⟨l_bounded, h_bounded, full⟩ := packed
  unfold fastReduction
  apply Loop.seq_rule fun s : CMpl × _ => Folding n.abs n.h.length 0 s.1
  · apply Loop.down_rule fun i (s : CMpl × _) => Folding n.abs n.h.length i s.1
    · refine ⟨⟨rfl, rfl, l_bounded, h_bounded⟩, fun some_ => ?_, Nat.le_refl _, n.h.abs_lt, rfl⟩
      exact full.resolve_right (Nat.ne_of_gt some_)
    · intro i s inside folding
      exact folding_word s.2 folding inside
  · rintro ⟨s, frames⟩ ⟨positive, -, -, high, value⟩
    dsimp only at positive high value ⊢
    have whole : s.abs = s.l.abs := by
      rw [abs, Nat.lt_one_iff.mp high, Nat.zero_mul, Nat.add_zero]
    apply Loop.seq_rule fun l => l.sign = .positive ∧ l.length ≤ 8 ∧ l.abs ≤ Sm2.p ∧ l.abs ≡ s.l.abs [MOD Sm2.p]
    · exact subtracted (frames 0).l positive.l_bounded m_bounded positive.l_sign m_sign prime
    · rintro l ⟨sign, bounded, most, same⟩
      have residue : l.abs % Sm2.p = n.abs % Sm2.p := same.trans (whole ▸ value)
      rw [comparesTo_run l m bounded m_bounded sign m_sign, Option.bind_eq_bind, Option.bind_some, prime]
      by_cases equal : l.abs = Sm2.p
      · obtain ⟨r, run, r_sign, -, length, -, -, zero⟩ := assignD_run l 0
        rw [if_pos rfl] at length
        have none_left : r.abs = 0 := zero
        rw [if_pos equal, if_pos rfl, run]
        refine ⟨_, rfl, rfl, rfl, length ▸ Nat.zero_le 8, ?_, ?_⟩
        · rw [none_left, ← residue, equal, Nat.mod_self]
        · rintro (some_ | n_sign)
          · exact absurd none_left some_
          · exact r_sign.trans n_sign.symm
      · have other : (if l.abs = Sm2.p then (0 : ℤ) else if Sm2.p < l.abs then 1 else -1) ≠ 0 := by
          rw [if_neg equal]
          split <;> decide
        rw [if_neg other]
        refine ⟨_, rfl, rfl, rfl, bounded, ?_, fun _ => rfl⟩
        rw [abs_resize, ← residue, Nat.mod_eq_of_lt (Nat.lt_of_le_of_ne most equal), CMpi.abs]

/-- The low half is left with the residue nearest to zero on the side of the number. -/
theorem fastReduction_residue (n : CMpl) (m : CMpi) (frames : Loop.Supply CMpl) (packed : n.Packed) (m_bounded : m.length ≤ 8)
    (m_sign : m.sign = .positive) (prime : m.abs = Sm2.p) :
    ∃ r, n.fastReduction m frames = some r ∧ r.h.length = 0 ∧ r.l.toInt ≡ n.toInt [ZMOD Sm2.p] ∧
      |r.l.toInt| < Sm2.p ∧ (r.l.toInt ≠ 0 → r.l.sign = n.l.sign) := by
  obtain ⟨r, run, empty, -, -, value, l_sign⟩ := fastReduction_run n m frames packed m_bounded m_sign prime
  have less : r.l.abs < Sm2.p := value ▸ Nat.mod_lt _ Sm2.p_prime.pos
  have residue : (r.l.abs : ℤ) ≡ n.abs [ZMOD Sm2.p] := by
    rw [Int.natCast_modEq_iff, value]
    exact Nat.mod_modEq _ _
  have magnitude : |r.l.toInt| = r.l.abs := by rw [Int.abs_eq_natAbs, natAbs_toInt]
  refine ⟨r, run, empty, ?_, ?_, fun some_ => l_sign (.inl fun zero => some_ ?_)⟩
  · by_cases zero : r.l.abs = 0
    · have none_left : r.l.toInt = 0 := by rw [← Int.natAbs_eq_zero, natAbs_toInt, zero]
      have divides : (n.abs : ℤ) ≡ 0 [ZMOD Sm2.p] := by
        rw [zero] at residue
        exact residue.symm
      rw [none_left]
      unfold toInt
      cases n.l.sign with
      | positive => exact divides.symm
      | negtive => exact divides.neg.symm
    · have sign := l_sign (.inl zero)
      unfold CMpi.toInt toInt
      rw [sign]
      cases n.l.sign with
      | positive => exact residue
      | negtive => exact residue.neg
  · rw [magnitude]
    exact_mod_cast less
  · rw [← Int.natAbs_eq_zero, natAbs_toInt, zero]

theorem fastReduction_residue_negtive :
    ∃ r, fastReduction ⟨{ gP with length := 1 }, { gP with sign := .negtive }⟩ gP (fun _ => ⟨gP, gP⟩) = some r ∧ r.h.length = 0 ∧
      r.l.toInt ≡ toInt ⟨{ gP with length := 1 }, { gP with sign := .negtive }⟩ [ZMOD Sm2.p] ∧ |r.l.toInt| < Sm2.p ∧
      (r.l.toInt ≠ 0 → r.l.sign = .negtive) :=
  fastReduction_residue ⟨{ gP with length := 1 }, { gP with sign := .negtive }⟩ gP (fun _ => ⟨gP, gP⟩)
    ⟨by decide, by decide, by decide⟩ (by decide) rfl gP_abs

end CMpl
end MyTools.Mpi
