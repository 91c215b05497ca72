import MyTools.Mpi.Division

/-! The divisor of the last loop of the reduction, one more than the top word of the modulus. It wraps to
zero for a top word of ones, but then the modulus is its own divisor, and the loop before has left less. -/
namespace MyTools.Mpi
open Library CMpi

namespace CMpl

/-- `CMpl_Reduction` comes to the division of its last loop, with the divisor `ui`. -/
def DividesBy (n : CMpl) (m : CMpi) (scratch : Scratch) (ui : UInt32) : Prop :=
  ¬ (m.word = gP.word ∧ m.length = 8) ∧
    ∃ mt odiv s l, modulusWords m scratch = some mt ∧ divisorWords mt scratch = some odiv ∧
      ¬ n.l.length + n.h.length + 1 ≤ odiv.length ∧
      divide odiv n.unsigned scratch.temp scratch.tdiv (scratch.inner.after 1) = some s ∧
      Loop.Reached (fun s : (CMpi × CMpi) × _ => lastTest mt s.1) (Loop.supplied fun junk : CMpl => lastPass mt junk.l)
        ((s.n.l, s.temp.l), s.frames) l ∧ lastTest mt l.1 = some true ∧
      ∃ top, mt.topWord = some top ∧ ui = top + 1

theorem bounded_of_largerThanAbs {a b : CMpi} {larger : Bool} (bounded : a.length ≤ 8) (run : a.largerThanAbs b = some larger) :
    b.length ≤ 8 := by
  by_contra longer
  obtain ⟨k, size⟩ : ∃ k, max a.length b.length = k + 1 := Nat.exists_eq_succ_of_ne_zero (by omega)
  have outside : b.get k = none := Vector.getElem?_eq_none (by omega)
  rw [largerThanAbs, size, Loop.scan, if_neg (by omega), if_pos (by omega), outside] at run
  cases run

private theorem divide_left {odiv : CMpi} (divisor : Divisor odiv) {n temp tdiv : CMpl} {frames : Loop.Supply CMpl} {s : Work}
    (run : divide odiv n temp tdiv frames = some s) : odiv.largerThanAbs s.n.l = some true := by
  obtain ⟨h, -, run⟩ := Option.bind_eq_some_iff.mp run
  obtain ⟨top, -, run⟩ := Option.bind_eq_some_iff.mp run
  obtain ⟨w, -, run⟩ := Option.bind_eq_some_iff.mp run
  obtain ⟨l, -, run⟩ := Option.bind_eq_some_iff.mp run
  have bounded := divisor.bounded
  have positive := divisor.some_
  cases count : l.length + 1 - odiv.length with
  | zero =>
    rw [count] at run
    obtain rfl := Option.some.inj run
    have less : l.abs < odiv.abs := by
      obtain ⟨i, length⟩ := Nat.exists_eq_succ_of_ne_zero divisor.some_.ne'
      have large := divisor.trimmed.le_abs length
      exact Nat.lt_of_lt_of_le l.abs_lt (Nat.le_trans (Nat.pow_le_pow_right radix_pos (by omega)) large)
    rw [largerThanAbs_run odiv _ bounded (by dsimp only; omega), decide_eq_true less]
  | succ count' =>
    rw [count] at run
    obtain ⟨middle, last⟩ := Loop.down_last run
    obtain ⟨upper, -, last⟩ := Option.bind_eq_some_iff.mp last
    obtain ⟨word, -, last⟩ := Option.bind_eq_some_iff.mp last
    obtain ⟨temp', -, last⟩ := Option.bind_eq_some_iff.mp last
    obtain ⟨tdiv', tdiv_run, last⟩ := Option.bind_eq_some_iff.mp last
    obtain ⟨first, -, last⟩ := Option.bind_eq_some_iff.mp last
    obtain ⟨⟨n', frames'⟩, loop, last⟩ := Option.bind_eq_some_iff.mp last
    obtain rfl := Option.some.inj last
    have ended := Loop.whileDo_left loop
    have stopped : lowTest tdiv' n' = some false := ended
    obtain ⟨larger, compared, left⟩ := Option.bind_eq_some_iff.mp stopped
    have whole : larger = true := by
      cases larger with
      | true => rfl
      | false => cases left
    obtain rfl := whole
    have low : odiv.length - 1 + 0 + 1 - odiv.length = 0 := by omega
    have fits : odiv.abs * radix ^ 0 < radix ^ 16 := by
      rw [pow_zero, Nat.mul_one]
      exact Nat.lt_of_lt_of_le odiv.abs_lt (Nat.pow_le_pow_right radix_pos (show odiv.length ≤ 16 by omega))
    obtain ⟨placed, placed_run, at_⟩ := divisorAt_run divisor (j := 0) middle.tdiv fits
    rw [low, placed_run, Option.some.injEq] at tdiv_run
    subst tdiv_run
    have value := at_.value
    rw [pow_zero, Nat.mul_one] at value
    have l_bounded := at_.l_bounded
    have n_bounded := bounded_of_largerThanAbs l_bounded compared
    have order : placed.l.abs ≤ odiv.abs := by
      rw [← value, abs]
      exact Nat.le_add_right _ _
    rw [largerThanAbs_run _ _ l_bounded n_bounded, Option.some.injEq, decide_eq_true_iff] at compared
    rw [largerThanAbs_run odiv _ bounded n_bounded, decide_eq_true (Nat.lt_of_lt_of_le compared order)]

private theorem flag_eq_zero {top : UInt32} {flag : ℕ} (wrapped : top + 1 = 0) (small : top.toNat * 2 ^ flag < radix) :
    flag = 0 := by
  have value : top.toNat + 1 = radix := by
    have sum := congrArg UInt32.toNat wrapped
    have size : radix = 4294967296 := rfl
    have below := top.toNat_lt
    rw [UInt32.toNat_add] at sum
    simp only [UInt32.reduceToNat] at sum
    omega
  by_contra some_
  have double : 2 ≤ 2 ^ flag := Nat.le_self_pow some_ 2
  have large := Nat.mul_le_mul_left top.toNat double
  have size : radix = 4294967296 := rfl
  omega

/-- The search for the first bit of the modulus ends, and the division of the last loop is not one by zero. -/
theorem reduction_divisor_ne_zero (n : CMpl) (m : CMpi) (scratch : Scratch) (m_bounded : m.length ≤ 8) (m_some : 0 < m.abs) :
    (∃ mt top flag, modulusWords m scratch = some mt ∧ mt.topWord = some top ∧ leadingZeros top = some flag ∧ flag < 32) ∧
      ∀ ui, DividesBy n m scratch ui → ui ≠ 0 := by
  obtain ⟨mt, run, sign, bounded, trimmed, value⟩ := modulusWords_run m scratch m_bounded
  obtain ⟨top, flag, odiv, top_run, flag_run, flag_small, small, odiv_run, divisor, length, scaled⟩ :=
    divisorWords_run mt scratch sign bounded trimmed (value ▸ m_some)
  refine ⟨⟨mt, top, flag, run, top_run, flag_run, flag_small⟩, ?_⟩
  rintro ui ⟨-, mt', odiv', s, l, run', odiv_run', -, divided, reached, tested, top', top_run', rfl⟩ wrapped
  obtain rfl := Option.some.inj (run.symm.trans run')
  obtain rfl := Option.some.inj (odiv_run.symm.trans odiv_run')
  obtain rfl := Option.some.inj (top_run.symm.trans top_run')
  rw [flag_eq_zero wrapped small, pow_zero, Nat.mul_one] at scaled
  have larger := divide_left divisor divided
  have n_bounded := bounded_of_largerThanAbs divisor.bounded larger
  have stops : lastTest mt (s.n.l, s.temp.l) = some false := by
    rw [largerThanAbs_run odiv _ divisor.bounded n_bounded, scaled] at larger
    rw [lastTest, largerThanAbs_run mt _ bounded n_bounded, larger]
    rfl
  rw [reached.eq_start (show lastTest mt ((s.n.l, s.temp.l), s.frames).1 = some false from stops), stops] at tested
  cases tested

/-- The modulus 2 ^ 32 - 1, whose top word is the last one. -/
def topOnes : CMpi := ⟨#v[0xFFFFFFFF, 0, 0, 0, 0, 0, 0, 0], 0, .positive, 1⟩

theorem reduction_divisor_ne_zero_topOnes :
    (∃ mt top flag, modulusWords topOnes .clear = some mt ∧ mt.topWord = some top ∧ leadingZeros top = some flag ∧ flag < 32) ∧
      ∀ ui, DividesBy twoPow287 topOnes .clear ui → ui ≠ 0 :=
  reduction_divisor_ne_zero twoPow287 topOnes .clear (by decide) (by decide)

end CMpl
end MyTools.Mpi
