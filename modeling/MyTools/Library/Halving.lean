import Mathlib.Data.Int.ModEq
import Mathlib.Data.Nat.Log
import Mathlib.Data.Nat.Prime.Basic
import Mathlib.RingTheory.Coprime.Lemmas
import Mathlib.Tactic.Linarith

/-! The binary form of extended Euclid, for an odd modulus: even remainders are halved with their
cofactors, and of two odd ones the smaller is taken off the larger. The cofactors are not reduced, but
they grow by half of the modulus at most when a difference is halved. -/
namespace MyTools.Library.Halving

structure Side where
  rest : ℕ
  cofactor : ℤ

def Side.halve (m : ℕ) (s : Side) : Side :=
  ⟨s.rest / 2, if s.cofactor % 2 = 0 then s.cofactor / 2 else (s.cofactor + m) / 2⟩

def Side.less (s t : Side) : Side := ⟨s.rest - t.rest, s.cofactor - t.cofactor⟩

/-- Halved until it is odd. -/
inductive Stripped (m : ℕ) : Side → Side → Prop
  | odd {s : Side} (odd : s.rest % 2 = 1) : Stripped m s s
  | even {s t : Side} (even : s.rest % 2 = 0) (later : Stripped m (s.halve m) t) : Stripped m s t

structure Pair where
  u : Side
  v : Side

inductive Pass (m : ℕ) (p : Pair) : Pair → Prop
  | lower {u v : Side} (left : Stripped m p.u u) (right : Stripped m p.v v) (less : u.rest < v.rest) : Pass m p ⟨u, v.less u⟩
  | upper {u v : Side} (left : Stripped m p.u u) (right : Stripped m p.v v) (more : v.rest ≤ u.rest) : Pass m p ⟨u.less v, v⟩

/-- The cofactor leads from `x` to the remainder. -/
structure Tracks (m x : ℕ) (s : Side) : Prop where
  below : s.rest ≤ m
  leads : (x : ℤ) * s.cofactor ≡ s.rest [ZMOD m]

variable {m x : ℕ} {s t : Side}

private theorem cancel_two (odd : m % 2 = 1) {a b : ℤ} (double : 2 * a ≡ 2 * b [ZMOD m]) : a ≡ b [ZMOD m] := by
  have coprime : IsCoprime (m : ℤ) 2 :=
    Nat.isCoprime_iff_coprime.mpr (Nat.coprime_two_right.mpr (Nat.odd_iff.mpr odd))
  rw [Int.modEq_iff_dvd, ← mul_sub] at double
  exact Int.modEq_iff_dvd.mpr (coprime.dvd_of_dvd_mul_left double)

theorem Tracks.halve (odd : m % 2 = 1) (tracks : Tracks m x s) (even : s.rest % 2 = 0) : Tracks m x (s.halve m) := by
  have below := tracks.below
  have double : (s.rest : ℤ) = 2 * (s.rest / 2 : ℕ) := by omega
  have twice : 2 * (x * (s.halve m).cofactor) ≡ x * s.cofactor [ZMOD m] := by
    unfold Side.halve
    split
    · next whole =>
      have half : s.cofactor = 2 * (s.cofactor / 2) := by omega
      rw [mul_left_comm, ← half]
    · next uneven =>
      have half : s.cofactor + m = 2 * ((s.cofactor + m) / 2) := by omega
      rw [mul_left_comm, ← half, mul_add]
      exact Int.modEq_iff_dvd.mpr ⟨-x, by ring⟩
  refine ⟨Nat.le_trans (Nat.div_le_self _ _) below, cancel_two odd ?_⟩
  calc 2 * (x * (s.halve m).cofactor) ≡ x * s.cofactor [ZMOD m] := twice
    _ ≡ s.rest [ZMOD m] := tracks.leads
    _ = 2 * ((s.halve m).rest : ℤ) := double

theorem Tracks.cofactor_ne_zero (tracks : Tracks m x s) (some_ : 0 < s.rest) (less : s.rest < m) : s.cofactor ≠ 0 := by
  intro zero
  have leads := tracks.leads
  rw [zero, mul_zero] at leads
  have divides : m ∣ s.rest := Int.natCast_dvd_natCast.mp (by simpa using Int.modEq_iff_dvd.mp leads)
  exact absurd (Nat.le_of_dvd some_ divides) (Nat.not_le.mpr less)

theorem Tracks.less (s_tracks : Tracks m x s) (t_tracks : Tracks m x t) (order : t.rest ≤ s.rest) :
    Tracks m x (s.less t) := by
  refine ⟨Nat.le_trans (Nat.sub_le _ _) s_tracks.below, ?_⟩
  unfold Side.less
  rw [mul_sub, Nat.cast_sub order]
  exact s_tracks.leads.sub t_tracks.leads

theorem Side.natAbs_halve (odd : m % 2 = 1) (s : Side) : 2 * (s.halve m).cofactor.natAbs ≤ s.cofactor.natAbs + m := by
  unfold Side.halve
  split <;> dsimp only <;> omega

theorem Stripped.odd_rest (stripped : Stripped m s t) : t.rest % 2 = 1 := by
  induction stripped with
  | odd odd => exact odd
  | even _ _ ih => exact ih

theorem Stripped.dvd (stripped : Stripped m s t) : t.rest ∣ s.rest := by
  induction stripped with
  | odd _ => exact dvd_rfl
  | even even _ ih => exact ih.trans ⟨2, (Nat.div_mul_cancel (Nat.dvd_of_mod_eq_zero even)).symm⟩

theorem Stripped.tracks (odd : m % 2 = 1) (stripped : Stripped m s t) (tracks : Tracks m x s) : Tracks m x t := by
  induction stripped with
  | odd _ => exact tracks
  | even even _ ih => exact ih (tracks.halve odd even)

theorem Stripped.bound (m_odd : m % 2 = 1) (stripped : Stripped m s t) {D : ℕ} (large : m ≤ D) (small : s.cofactor.natAbs ≤ D) :
    t.cofactor.natAbs ≤ D := by
  induction stripped with
  | odd _ => exact small
  | @even s _ _ _ ih =>
    have halved := s.natAbs_halve m_odd
    exact ih (by omega)

theorem Stripped.eq_of_odd (stripped : Stripped m s t) (odd : s.rest % 2 = 1) : t = s := by
  cases stripped with
  | odd _ => rfl
  | even even _ => omega

/-- Of a remainder that was even half is left at most, and half of the bound of its cofactor with half of the modulus. -/
theorem Stripped.half (m_odd : m % 2 = 1) (stripped : Stripped m s t) (even : s.rest % 2 = 0) {D : ℕ}
    (small : s.cofactor.natAbs ≤ 2 * D) : 2 * t.rest ∣ s.rest ∧ t.cofactor.natAbs ≤ D + m := by
  cases stripped with
  | odd odd => omega
  | even _ later =>
    have halved := s.natAbs_halve m_odd
    constructor
    · obtain ⟨k, whole⟩ := later.dvd
      refine ⟨k, ?_⟩
      have half : s.rest = 2 * (s.halve m).rest := by
        have split := Nat.div_add_mod s.rest 2
        rw [even, Nat.add_zero] at split
        exact split.symm
      rw [half, whole, Nat.mul_assoc]
    · exact later.bound m_odd (by omega) (by omega)

/-- What the passes keep; `budget` is spent by the modulus for every bit that the remainders lose. -/
structure Sound (m x budget : ℕ) (p : Pair) : Prop where
  u : Tracks m x p.u
  v : Tracks m x p.v
  coprime : p.u.rest.Coprime p.v.rest
  room : ∃ D, m ≤ D ∧ D + (Nat.log 2 p.u.rest + Nat.log 2 p.v.rest) * m ≤ budget ∧
    p.u.cofactor.natAbs ≤ (if p.u.rest % 2 = 0 then 2 * D else D) ∧
    p.v.cofactor.natAbs ≤ (if p.v.rest % 2 = 0 then 2 * D else D)

variable {budget : ℕ} {p q : Pair}

theorem Sound.bound (sound : Sound m x budget p) :
    p.u.cofactor.natAbs ≤ 2 * budget ∧ p.v.cofactor.natAbs ≤ 2 * budget := by
  obtain ⟨D, -, spent, u_small, v_small⟩ := sound.room
  have part : D ≤ budget := Nat.le_trans (Nat.le_add_right _ _) spent
  split_ifs at u_small v_small <;> omega

theorem Sound.stripped (odd : m % 2 = 1) (sound : Sound m x budget p) (u_some : p.u.rest ≠ 0) (v_some : p.v.rest ≠ 0) {u v : Side}
    (left : Stripped m p.u u) (right : Stripped m p.v v) :
    ∃ D, m ≤ D ∧ D + (Nat.log 2 u.rest + Nat.log 2 v.rest) * m ≤ budget ∧ u.cofactor.natAbs ≤ D ∧
      v.cofactor.natAbs ≤ D := by
  obtain ⟨D, large, spent, u_small, v_small⟩ := sound.room
  have drop {a b : ℕ} (some_ : a ≠ 0) (divides : 2 * b ∣ a) : Nat.log 2 b + 1 ≤ Nat.log 2 a := by
    have positive : b ≠ 0 := by
      rintro rfl
      exact some_ (Nat.eq_zero_of_zero_dvd divides)
    have order := Nat.le_of_dvd (Nat.pos_of_ne_zero some_) divides
    calc Nat.log 2 b + 1 = Nat.log 2 (b * 2) := (Nat.log_mul_base Nat.one_lt_two positive).symm
      _ ≤ Nat.log 2 a := Nat.log_mono_right (by omega)
  by_cases u_even : p.u.rest % 2 = 0
  · have v_odd : p.v.rest % 2 = 1 := by
      by_contra even
      have both := Nat.dvd_gcd (Nat.dvd_of_mod_eq_zero u_even) (Nat.dvd_of_mod_eq_zero (show p.v.rest % 2 = 0 by omega))
      rw [sound.coprime] at both
      omega
    obtain rfl := right.eq_of_odd v_odd
    rw [if_pos u_even] at u_small
    rw [if_neg (by omega)] at v_small
    obtain ⟨divides, bound⟩ := left.half odd u_even u_small
    have scaled := Nat.mul_le_mul_right m (drop u_some divides)
    refine ⟨D + m, by omega, ?_, bound, by omega⟩
    rw [Nat.add_mul] at spent scaled ⊢
    omega
  · obtain rfl := left.eq_of_odd (by omega)
    rw [if_neg u_even] at u_small
    by_cases v_even : p.v.rest % 2 = 0
    · rw [if_pos v_even] at v_small
      obtain ⟨divides, bound⟩ := right.half odd v_even v_small
      have scaled := Nat.mul_le_mul_right m (drop v_some divides)
      refine ⟨D + m, by omega, ?_, by omega, bound⟩
      rw [Nat.add_mul] at spent scaled ⊢
      omega
    · obtain rfl := right.eq_of_odd (by omega)
      rw [if_neg v_even] at v_small
      exact ⟨D, large, spent, u_small, v_small⟩

theorem Sound.odd_rests (sound : Sound m x budget p) (u_some : p.u.rest ≠ 0) (v_some : p.v.rest ≠ 0) {u v : Side}
    (left : Stripped m p.u u) (right : Stripped m p.v v) :
    u.rest % 2 = 1 ∧ v.rest % 2 = 1 ∧ u.rest.Coprime v.rest ∧ u.rest + v.rest ≤ p.u.rest + p.v.rest := by
  have u_order := Nat.le_of_dvd (Nat.pos_of_ne_zero u_some) left.dvd
  have v_order := Nat.le_of_dvd (Nat.pos_of_ne_zero v_some) right.dvd
  have coprime : u.rest.Coprime v.rest := (sound.coprime.coprime_dvd_left left.dvd).coprime_dvd_right right.dvd
  exact ⟨left.odd_rest, right.odd_rest, coprime, Nat.add_le_add u_order v_order⟩

theorem Sound.pass (odd : m % 2 = 1) (sound : Sound m x budget p) (u_some : p.u.rest ≠ 0) (v_some : p.v.rest ≠ 0)
    (pass : Pass m p q) : Sound m x budget q ∧ q.u.rest + q.v.rest < p.u.rest + p.v.rest := by
  cases pass with
  | @lower u v left right less =>
    obtain ⟨D, large, spent, u_small, v_small⟩ := sound.stripped odd u_some v_some left right
    obtain ⟨u_odd, v_odd, coprime, order⟩ := sound.odd_rests u_some v_some left right
    have even : (v.rest - u.rest) % 2 = 0 := by omega
    refine ⟨⟨left.tracks odd sound.u, (right.tracks odd sound.v).less (left.tracks odd sound.u) less.le, ?_,
      D, large, ?_, ?_, ?_⟩, ?_⟩
    · exact (Nat.coprime_sub_self_right less.le).mpr coprime
    · have log : Nat.log 2 (v.rest - u.rest) ≤ Nat.log 2 v.rest := Nat.log_mono_right (Nat.sub_le _ _)
      have scaled := Nat.mul_le_mul_right m (Nat.add_le_add_left log (Nat.log 2 u.rest))
      exact Nat.le_trans (Nat.add_le_add_left scaled D) spent
    · dsimp only
      rw [if_neg (by omega)]
      exact u_small
    · refine Nat.le_trans ?_ (Nat.le_of_eq (if_pos even).symm)
      dsimp only [Side.less]
      omega
    · dsimp only [Side.less]
      omega
  | @upper u v left right more =>
    obtain ⟨D, large, spent, u_small, v_small⟩ := sound.stripped odd u_some v_some left right
    obtain ⟨u_odd, v_odd, coprime, order⟩ := sound.odd_rests u_some v_some left right
    have even : (u.rest - v.rest) % 2 = 0 := by omega
    refine ⟨⟨(left.tracks odd sound.u).less (right.tracks odd sound.v) more, right.tracks odd sound.v, ?_,
      D, large, ?_, ?_, ?_⟩, ?_⟩
    · exact (Nat.coprime_sub_self_left more).mpr coprime
    · have log : Nat.log 2 (u.rest - v.rest) ≤ Nat.log 2 u.rest := Nat.log_mono_right (Nat.sub_le _ _)
      have scaled := Nat.mul_le_mul_right m (Nat.add_le_add_right log (Nat.log 2 v.rest))
      exact Nat.le_trans (Nat.add_le_add_left scaled D) spent
    · refine Nat.le_trans ?_ (Nat.le_of_eq (if_pos even).symm)
      dsimp only [Side.less]
      omega
    · dsimp only
      rw [if_neg (by omega)]
      exact v_small
    · dsimp only [Side.less]
      omega

end MyTools.Library.Halving
