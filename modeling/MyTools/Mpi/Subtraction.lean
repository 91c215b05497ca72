import MyTools.Mpi.Addition

/-! The subtraction of numbers of two halves where the difference is not negative. -/
namespace MyTools.Mpi
open Library CMpi

namespace CMpi

/-- Above its length `r` holds zeros or what `a` held there. -/
def Cleared (a r : CMpi) : Prop := ∀ k, r.length ≤ k → r.wordAt k = 0 ∨ a.length ≤ k ∧ r.wordAt k = a.wordAt k

theorem Cleared.trans {a b c : CMpi} (first : Cleared a b) (second : Cleared b c) : Cleared a c := by
  intro k above
  rcases second k above with zero | ⟨outside, same⟩
  · exact .inl zero
  · rw [same]
    exact first k outside

theorem Sum.cleared {a b r : CMpi} (sum : Sum a b r) : Cleared a r := by
  intro k above
  rcases sum.above k above with same | zero
  · exact .inr ⟨Nat.le_trans (Nat.le_trans (Nat.le_max_left _ _) sum.longer) above, same⟩
  · exact .inl zero

private theorem cleared_of_zeros {a r : CMpi} {n : ℕ} (longer : a.length ≤ n)
    (zeros : ∀ k, r.length ≤ k → k < n → r.wordAt k = 0) (above : ∀ k, n ≤ k → r.wordAt k = a.wordAt k) :
    Cleared a r := by
  intro k outside
  rcases Nat.lt_or_ge k n with below | beyond
  · exact .inl (zeros k outside below)
  · exact .inr ⟨Nat.le_trans longer beyond, above k beyond⟩

theorem Difference.cleared {a b r : CMpi} (difference : Difference a b r) : Cleared a r :=
  cleared_of_zeros (Nat.le_max_left _ _) difference.zeros difference.above

theorem Cancelled.cleared {a b r : CMpi} (cancelled : Cancelled a b r) : Cleared a r :=
  cleared_of_zeros (Nat.le_max_left _ _) cancelled.zeros cancelled.above

theorem ordered_of_trimmed {a b : CMpi} (a_trimmed : a.Trimmed) (b_trimmed : b.Trimmed) : Ordered a b := by
  unfold Ordered
  split
  · next less => exact a_trimmed.length_le (Nat.lt_trans less b.abs_lt)
  · next more => exact b_trimmed.length_le (Nat.lt_of_le_of_lt (Nat.not_lt.mp more) a.abs_lt)

theorem abs_widened {a : CMpi} {n : ℕ} (longer : a.length ≤ n) (zeros : ∀ k, a.length ≤ k → k < n → a.wordAt k = 0) :
    ({ a with length := n } : CMpi).abs = a.abs := by
  rw [abs_resize, Limbs.value_of_zeros longer fun k low high => wordAt_eq_zero.mp (zeros k low high), abs]

end CMpi

namespace CMpl

/-- A number that is not negative, without leading zero words. -/
structure Tidy (a : CMpl) : Prop extends Positive a where
  full : a.h.abs = 0 ∨ a.l.length = 8
  h_trimmed : a.h.Trimmed
  l_trimmed : a.h.abs = 0 → a.l.Trimmed

/-- As `Tidy`, but a low half of eight words may have leading zero words. -/
structure Level (a : CMpl) : Prop extends Positive a where
  full : a.h.abs = 0 ∨ a.l.length = 8
  h_trimmed : a.h.Trimmed
  level : a.l.length = 8 ∨ a.l.Trimmed

theorem Tidy.level {a : CMpl} (tidy : a.Tidy) : a.Level :=
  ⟨tidy.toPositive, tidy.full, tidy.h_trimmed, tidy.full.symm.imp_right tidy.l_trimmed⟩

/-- What `CMpl_Substract` leaves when `b` is not larger than `a`. -/
structure Lowered (a b r : CMpl) : Prop extends Tidy r where
  value : r.abs + b.abs = a.abs
  h_cleared : Cleared a.h r.h
  l_cleared : Cleared a.l r.l

theorem h_le_of_le {a b : CMpl} (a_bounded : a.l.length ≤ 8) (order : b.abs ≤ a.abs) : b.h.abs ≤ a.h.abs := by
  have whole := a.abs_lt a_bounded
  have part : b.h.abs * radix ^ 8 ≤ b.abs := Nat.le_add_left _ _
  exact Nat.lt_succ_iff.mp (Nat.lt_of_mul_lt_mul_right (a := radix ^ 8) (by rw [Nat.succ_eq_add_one]; omega))

theorem Level.ordered_l {a b : CMpl} (a_level : a.Level) (b_tidy : b.Tidy) (order : b.abs ≤ a.abs)
    (wide : a.h.abs = 0 ∨ b.l.length = 8 ∨ b.l.length = 0) : Ordered a.l b.l := by
  have high := h_le_of_le a_level.l_bounded order
  have a_bounded := a_level.l_bounded
  have b_bounded := b_tidy.l_bounded
  have ordered_of_empty (empty : a.h.abs = 0) : Ordered a.l b.l := by
    have b_empty : b.h.abs = 0 := by omega
    rw [abs, abs, empty, b_empty, Nat.zero_mul, Nat.add_zero, Nat.add_zero] at order
    rcases a_level.level with full | trimmed
    · rw [Ordered, if_neg (Nat.not_lt.mpr order)]
      omega
    · exact ordered_of_trimmed trimmed (b_tidy.l_trimmed b_empty)
  rcases wide with empty | full | nothing
  · exact ordered_of_empty empty
  · rcases a_level.full with empty | a_full
    · exact ordered_of_empty empty
    · unfold Ordered
      split <;> omega
  · have zero : b.l.abs = 0 := CMpi.abs_eq_zero.mpr fun i inside => absurd inside (by omega)
    rw [Ordered, zero, if_neg (Nat.not_lt_zero _), nothing]
    exact Nat.zero_le _

private def ones (sign : Sign) (junk : CMpi) : CMpi :=
  { junk with word := .replicate 8 0xffffffff, length := 8, sign }

private def one (sign : Sign) (junk : CMpi) : CMpi := { ((ones sign junk).set 1 0).set 0 1 with length := 1, sign }

private theorem ones_abs (sign : Sign) (junk : CMpi) : (ones sign junk).abs + 1 = radix ^ 8 := by
  have digits : (ones sign junk).abs = Limbs.value radix (fun _ => 0xffffffff) 8 := by
    apply Limbs.value_congr
    intro i inside
    have below : i < 8 := inside
    have full : (ones sign junk).wordAt i = 0xffffffff := by simp [CMpi.wordAt, ones, below]
    rw [digit, full]
    rfl
  rw [digits]
  decide

private theorem one_abs (sign : Sign) (junk : CMpi) : (one sign junk).abs = 1 := by
  rw [one, abs_resize, Limbs.value_succ, digit_set_self _ (by decide)]
  rfl

private theorem one_trimmed (sign : Sign) (junk : CMpi) : (one sign junk).Trimmed := trimmed_of_le_abs fun i length => by
  obtain rfl : 0 = i := Nat.succ.inj length
  exact Nat.le_of_eq (one_abs sign junk).symm

private theorem complement_run (l junk : CMpi) {t : Sign} (apart : l.sign ≠ t) (l_bounded : l.length ≤ 8) :
    ∃ x, l.add (ones t junk) junk = some x ∧ x.abs + l.abs + 1 = radix ^ 8 ∧ (x.abs ≠ 0 → x.sign = t) ∧ x.Trimmed ∧
      x.length ≤ 8 ∧ Cleared l x ∧ ∀ k, x.length ≤ k → k < 8 → x.wordAt k = 0 := by
  have limit : l.abs < radix ^ l.length := l.abs_lt
  have most := Nat.pow_le_pow_right radix_pos l_bounded
  have full : (ones t junk).length = 8 := rfl
  have value := ones_abs t junk
  have ordered : if l.sign = .positive then Ordered l (ones t junk) else Ordered (ones t junk) l := by
    split
    · unfold Ordered
      split
      · exact l_bounded
      · next large =>
        by_contra short
        have fewer := Nat.pow_lt_pow_right (show 1 < radix by decide) (Nat.not_le.mp short)
        rw [full] at fewer
        omega
    · rw [Ordered, if_neg (by omega)]
      exact l_bounded
  obtain ⟨x, run, cancelled⟩ := add_opposite l (ones t junk) junk l_bounded (Nat.le_of_eq full) apart ordered
  have x_value := cancelled.value
  have longest : max l.length (ones t junk).length = 8 := by omega
  refine ⟨x, run, by omega, fun nonzero => ?_, cancelled.trimmed, longest ▸ cancelled.bounded, cancelled.cleared,
    longest ▸ cancelled.zeros⟩
  rw [cancelled.sign, if_pos (by omega)]
  rfl

private theorem increment_run (x junk : CMpi) {t : Sign} (signed : x.abs ≠ 0 → x.sign = t) (trimmed : x.Trimmed)
    (bounded : x.length ≤ 8) (fits : x.abs + 1 < radix ^ 8) (zeros : ∀ k, x.length ≤ k → k < 8 → x.wordAt k = 0) :
    ∃ y, x.add (one t junk) junk = some y ∧ y.sign = t ∧ y.length ≤ 8 ∧ y.abs = x.abs + 1 ∧ y.Trimmed ∧ Cleared x y ∧
      ∀ k, y.length ≤ k → k < 8 → y.wordAt k = 0 := by
  have length : (one t junk).length = 1 := rfl
  have value := one_abs t junk
  by_cases same : x.sign = t
  · obtain ⟨y, run, sum⟩ := add_same x (one t junk) junk bounded (show 1 ≤ 8 by decide) same
    have y_value : y.abs + y.carry.toNat * radix ^ 8 = x.abs + (one t junk).abs := sum.value
    have clear : y.carry.toNat = 0 := by
      by_contra carry
      have more := Nat.mul_le_mul_right (radix ^ 8) (Nat.pos_of_ne_zero carry)
      omega
    rw [clear, Nat.zero_mul, Nat.add_zero, value] at y_value
    have longer : max x.length (one t junk).length ≤ y.length := sum.longer
    refine ⟨y, run, sum.sign.trans same, sum.bounded, y_value,
      sum.trimmed (UInt32.toNat_inj.mp clear) trimmed (one_trimmed t junk), sum.cleared, fun k outside below => ?_⟩
    rcases sum.above k outside with kept | zero
    · exact kept.trans (zeros k (by omega) below)
    · exact zero
  · have nothing : x.abs = 0 := not_not.mp (mt signed same)
    have empty := trimmed.length_eq_zero nothing
    have ordered : if x.sign = .positive then Ordered x (one t junk) else Ordered (one t junk) x := by
      split
      · exact ordered_of_trimmed trimmed (one_trimmed t junk)
      · exact ordered_of_trimmed (one_trimmed t junk) trimmed
    obtain ⟨y, run, cancelled⟩ := add_opposite x (one t junk) junk bounded (show 1 ≤ 8 by decide) same ordered
    have y_value := cancelled.value
    have y_bounded := cancelled.bounded
    refine ⟨y, run, ?_, by omega, by omega, cancelled.trimmed, cancelled.cleared, fun k outside below => ?_⟩
    · rw [cancelled.sign, if_pos (by omega)]
      rfl
    · rcases Nat.lt_or_ge k (max x.length (one t junk).length) with inner | outer
      · exact cancelled.zeros k outside inner
      · exact (cancelled.above k outer).trans (zeros k (by omega) below)

private theorem decrement_run (h junk : CMpi) (bounded : h.length ≤ 8) (some_ : 0 < h.abs) :
    ∃ r, h.substract (one h.sign junk) junk = some r ∧ r.sign = h.sign ∧ r.length ≤ 8 ∧ r.abs + 1 = h.abs ∧
      r.Trimmed ∧ Cleared h r := by
  have value := one_abs h.sign junk
  have length : (one h.sign junk).length = 1 := rfl
  have words : 0 < h.length := Nat.pos_of_ne_zero fun empty => by
    have zero : h.abs = 0 := CMpi.abs_eq_zero.mpr fun i inside => absurd inside (by omega)
    omega
  have ordered : Ordered h (one h.sign junk) := by
    rw [Ordered, value, if_neg (Nat.not_lt.mpr some_)]
    exact words
  obtain ⟨r, run, difference⟩ := substract_same h (one h.sign junk) junk bounded (show 1 ≤ 8 by decide) rfl ordered
  have r_value : r.abs + min h.abs (one h.sign junk).abs = max h.abs (one h.sign junk).abs := difference.value
  have r_sign : r.sign = if h.abs < (one h.sign junk).abs then _ else h.sign := difference.sign
  have r_bounded : r.length ≤ max h.length 1 := difference.bounded
  rw [if_neg (by omega)] at r_sign
  exact ⟨r, run, r_sign, by omega, by omega, difference.trimmed, difference.cleared⟩

private theorem evenOut_eq {h l x y r : CMpi} (junk : CMpi) (complement : l.add (ones h.sign junk) junk = some x)
    (increment : x.add (one h.sign junk) junk = some y) (decrement : h.substract (one h.sign junk) junk = some r) :
    evenOut h l junk = some (r, y) := by
  have filled : (ones h.sign junk).put 1 0 = some ((ones h.sign junk).set 1 0) := put_eq _ (by decide) 0
  have stored : ((ones h.sign junk).set 1 0).put 0 1 = some (((ones h.sign junk).set 1 0).set 0 1) := put_eq _ (by decide) 1
  unfold evenOut
  change (l.add (ones h.sign junk) junk).bind _ = _
  rw [complement, Option.bind_some]
  change ((ones h.sign junk).put 1 0).bind _ = _
  rw [filled, Option.bind_some]
  change (((ones h.sign junk).set 1 0).put 0 1).bind _ = _
  rw [stored, Option.bind_some]
  change (x.add (one h.sign junk) junk).bind _ = _
  rw [increment, Option.bind_some]
  change (h.substract (one h.sign junk) junk).bind _ = _
  rw [decrement, Option.bind_some]

/-- A high half that lends 2 ^ 256 to the low half. -/
private structure Evened (h l h' l' : CMpi) : Prop where
  h_sign : h'.sign = h.sign
  l_sign : l'.sign = h.sign
  h_bounded : h'.length ≤ 8
  l_bounded : l'.length ≤ 8
  h_value : h'.abs + 1 = h.abs
  l_value : l'.abs + l.abs = radix ^ 8
  h_trimmed : h'.Trimmed
  l_trimmed : l'.Trimmed
  h_cleared : Cleared h h'
  l_cleared : Cleared l l'
  zeros : ∀ k, l'.length ≤ k → k < 8 → l'.wordAt k = 0

private theorem evenOut_run {h l : CMpi} (junk : CMpi) (apart : l.sign ≠ h.sign) (h_bounded : h.length ≤ 8)
    (l_bounded : l.length ≤ 8) (h_some : 0 < h.abs) (l_some : 0 < l.abs) :
    ∃ h' l', evenOut h l junk = some (h', l') ∧ Evened h l h' l' := by
  obtain ⟨x, x_run, x_value, signed, x_trimmed, x_bounded, x_cleared, x_zeros⟩ := complement_run l junk apart l_bounded
  obtain ⟨y, y_run, y_sign, y_bounded, y_value, y_trimmed, y_cleared, y_zeros⟩ := increment_run x junk signed x_trimmed
    x_bounded (by omega) x_zeros
  obtain ⟨r, r_run, r_sign, r_bounded, r_value, r_trimmed, r_cleared⟩ := decrement_run h junk h_bounded h_some
  exact ⟨r, y, evenOut_eq junk x_run y_run r_run, r_sign, y_sign, r_bounded, y_bounded, r_value, by omega, r_trimmed,
    y_trimmed, r_cleared, x_cleared.trans y_cleared, y_zeros⟩

/-- A low half that is zero overflows when 2 ^ 256 is put into it, and the carry is left behind. -/
private theorem evenOut_zero {h l : CMpi} (junk : CMpi) (apart : l.sign ≠ h.sign) (h_bounded : h.length ≤ 8)
    (l_bounded : l.length ≤ 8) (h_some : 0 < h.abs) (l_zero : l.abs = 0) :
    ∃ h' l', evenOut h l junk = some (h', l') ∧ h'.sign = h.sign ∧ l'.sign = h.sign ∧ h'.length ≤ 8 ∧ l'.length = 8 ∧
      h'.abs + 1 = h.abs ∧ l'.abs = 0 := by
  have large : 1 < radix ^ 8 := Nat.one_lt_pow (by decide) (by decide)
  obtain ⟨x, x_run, x_value, signed, -, x_bounded, -, -⟩ := complement_run l junk apart l_bounded
  obtain ⟨y, y_run, sum⟩ := add_same x (one h.sign junk) junk x_bounded (show 1 ≤ 8 by decide) (signed (by omega))
  obtain ⟨r, r_run, r_sign, r_bounded, r_value, -⟩ := decrement_run h junk h_bounded h_some
  have value := one_abs h.sign junk
  have y_value : y.abs + y.carry.toNat * radix ^ 8 = x.abs + (one h.sign junk).abs := sum.value
  have y_limit := Nat.lt_of_lt_of_le y.abs_lt (Nat.pow_le_pow_right radix_pos sum.bounded)
  have carry : y.carry.toNat ≠ 0 := fun zero => by
    rw [zero, Nat.zero_mul] at y_value
    omega
  have more := Nat.mul_le_mul_right (radix ^ 8) (Nat.pos_of_ne_zero carry)
  refine ⟨r, y, evenOut_eq junk x_run y_run r_run, r_sign, sum.sign.trans (signed (by omega)), r_bounded, ?_, r_value,
    by omega⟩
  by_contra short
  have clear := sum.carried (Nat.lt_of_le_of_ne sum.bounded short)
  exact carry (congrArg UInt32.toNat clear)

/-- The low half takes its eight words below a high half. -/
private def padded (h l : CMpi) : CMpl :=
  ⟨h, if l.length < 8 ∧ decide (h.abs = 0) = false then { l with length := 8 } else l⟩

/-- The halves of a number that has been put together from `h` and `l`. -/
structure Reconciled (h l : CMpi) (r : CMpl) : Prop where
  l_sign : r.l.sign = if h.abs = 0 then l.sign else h.sign
  h_sign : r.h.sign = r.l.sign
  l_bounded : r.l.length ≤ 8
  h_bounded : r.h.length ≤ 8
  full : r.h.abs = 0 ∨ r.l.length = 8
  h_trimmed : r.h.Trimmed
  l_trimmed : r.h.abs = 0 → r.l.Trimmed
  h_cleared : Cleared h r.h
  l_cleared : Cleared l r.l
  value : r.abs = if h.abs = 0 ∨ l.sign = h.sign then l.abs + h.abs * radix ^ 8 else h.abs * radix ^ 8 - l.abs

private theorem padded_low {h l : CMpi} (l_bounded : l.length ≤ 8) (l_trimmed : l.Trimmed)
    (zeros : h.abs ≠ 0 → ∀ k, l.length ≤ k → k < 8 → l.wordAt k = 0) :
    (padded h l).l.sign = l.sign ∧ (padded h l).l.length ≤ 8 ∧ (h.abs = 0 ∨ (padded h l).l.length = 8) ∧
      (h.abs = 0 → (padded h l).l.Trimmed) ∧ Cleared l (padded h l).l ∧ (padded h l).l.abs = l.abs := by
  unfold padded
  split
  · next short =>
    have some_ : h.abs ≠ 0 := of_decide_eq_false short.2
    refine ⟨rfl, Nat.le_refl 8, .inr rfl, fun zero => absurd zero some_, ?_, abs_widened l_bounded (zeros some_)⟩
    exact fun k outside => .inl (wordAt_outside _ outside)
  · next kept =>
    refine ⟨rfl, l_bounded, ?_, fun _ => l_trimmed, fun k outside => .inr ⟨outside, rfl⟩, rfl⟩
    by_cases zero : h.abs = 0
    · exact .inl zero
    · have full : ¬ l.length < 8 := fun short => kept ⟨short, decide_eq_false zero⟩
      exact .inr (Nat.le_antisymm l_bounded (Nat.not_lt.mp full))

private theorem padded_reconciled {h l h' l' : CMpi} (h_sign : h'.sign = l'.sign)
    (l_sign : l'.sign = if h.abs = 0 then l.sign else h.sign) (h_bounded : h'.length ≤ 8) (l_bounded : l'.length ≤ 8)
    (h_trimmed : h'.Trimmed) (l_trimmed : l'.Trimmed) (h_cleared : Cleared h h') (l_cleared : Cleared l l')
    (zeros : h'.abs ≠ 0 → ∀ k, l'.length ≤ k → k < 8 → l'.wordAt k = 0)
    (value : l'.abs + h'.abs * radix ^ 8 =
      if h.abs = 0 ∨ l.sign = h.sign then l.abs + h.abs * radix ^ 8 else h.abs * radix ^ 8 - l.abs) :
    Reconciled h l (padded h' l') := by
  obtain ⟨sign, bounded, full, trimmed, cleared, low⟩ := padded_low l_bounded l_trimmed zeros
  refine ⟨sign.trans l_sign, h_sign.trans sign.symm, bounded, h_bounded, full, h_trimmed, trimmed, h_cleared,
    l_cleared.trans cleared, ?_⟩
  rw [abs, low]
  exact value

/-- The two halves of a sum are brought together, unless a zero would have to be filled up. -/
theorem reconcile_run {h l : CMpi} (junk : CMpi) (h_bounded : h.length ≤ 8) (l_bounded : l.length ≤ 8)
    (carry : l.carry = 0) (h_trimmed : h.Trimmed) (l_trimmed : l.Trimmed)
    (zeros : h.abs ≠ 0 → ∀ k, l.length ≤ k → k < 8 → l.wordAt k = 0)
    (lends : h.abs ≠ 0 → l.sign ≠ h.sign → l.abs ≠ 0) :
    ∃ r, reconcile ⟨h, l⟩ junk = some r ∧ Reconciled h l r := by
  unfold reconcile
  rw [equalsToD_zero _ h_bounded, Option.bind_eq_bind, Option.bind_some]
  dsimp only
  by_cases aligned : h.abs = 0 ∨ l.sign = h.sign
  · let signed : CMpi := if decide (h.abs = 0) = true then { h with sign := l.sign } else h
    have sign : signed.sign = l.sign := by
      by_cases zero : h.abs = 0
      · simp only [signed, zero, decide_true, if_true]
      · simp only [signed, zero, decide_false, Bool.false_eq_true, if_false]
        exact (aligned.resolve_left zero).symm
    have same : signed.abs = h.abs ∧ signed.length = h.length ∧ signed.word = h.word := by
      simp only [signed]
      split <;> exact ⟨rfl, rfl, rfl⟩
    have trimmed : signed.Trimmed := trimmed_of_le_abs fun i length => by
      rw [same.1]
      exact h_trimmed.le_abs (same.2.1.symm.trans length)
    have kept : carryOver signed l junk = some (signed, l) := if_neg (not_not.mpr carry)
    refine ⟨padded signed l, ?_, padded_reconciled sign ?_ (same.2.1 ▸ h_bounded) l_bounded trimmed l_trimmed ?_
      (fun k outside => .inr ⟨outside, rfl⟩) (same.1 ▸ zeros) ?_⟩
    · rw [if_pos sign.symm, kept, Option.bind_eq_bind, Option.bind_some]
      dsimp only
      rw [equalsToD_zero _ (same.2.1 ▸ h_bounded)]
      rfl
    · split
      · rfl
      · next some_ => exact aligned.resolve_left some_
    · intro k outside
      refine .inr ⟨same.2.1 ▸ outside, ?_⟩
      rw [CMpi.wordAt, CMpi.wordAt, same.2.2]
    · rw [if_pos aligned, same.1]
  · obtain ⟨some_, apart⟩ := not_or.mp aligned
    obtain ⟨h', l', run, evened⟩ := evenOut_run junk apart h_bounded l_bounded (Nat.pos_of_ne_zero some_)
      (Nat.pos_of_ne_zero (lends some_ apart))
    have h_value := evened.h_value
    have l_value := evened.l_value
    refine ⟨padded h' l', ?_, padded_reconciled (evened.h_sign.trans evened.l_sign.symm) ?_ evened.h_bounded
      evened.l_bounded evened.h_trimmed evened.l_trimmed evened.h_cleared evened.l_cleared (fun _ => evened.zeros) ?_⟩
    · rw [decide_eq_false some_, if_neg Bool.false_ne_true, if_neg apart, run, Option.bind_eq_bind, Option.bind_some]
      dsimp only
      rw [equalsToD_zero _ evened.h_bounded]
      rfl
    · rw [if_neg some_]
      exact evened.l_sign
    · rw [if_neg aligned, ← h_value, Nat.add_mul]
      omega

theorem reconcile_lost {h l : CMpi} (junk : CMpi) (h_bounded : h.length ≤ 8) (l_bounded : l.length ≤ 8)
    (some_ : h.abs ≠ 0) (apart : l.sign ≠ h.sign) (zero : l.abs = 0) :
    ∃ r, reconcile ⟨h, l⟩ junk = some r ∧ r.l.sign = h.sign ∧ r.h.sign = h.sign ∧
      r.abs + radix ^ 8 = h.abs * radix ^ 8 := by
  obtain ⟨h', l', run, h_sign, l_sign, h'_bounded, full, h_value, l_value⟩ := evenOut_zero junk apart h_bounded l_bounded
    (Nat.pos_of_ne_zero some_) zero
  have kept : ¬ (l'.length < 8 ∧ decide (h'.abs = 0) = false) := fun short => by
    have less := short.1
    omega
  refine ⟨⟨h', l'⟩, ?_, l_sign, h_sign, ?_⟩
  · unfold reconcile
    rw [equalsToD_zero _ h_bounded, Option.bind_eq_bind, Option.bind_some]
    dsimp only
    rw [decide_eq_false some_, if_neg Bool.false_ne_true, if_neg apart, run, Option.bind_eq_bind, Option.bind_some]
    dsimp only
    rw [equalsToD_zero _ h'_bounded, Option.bind_some]
    exact congrArg (fun l => some (CMpl.mk h' l)) (if_neg kept)
  · rw [abs, l_value, ← h_value, Nat.zero_add, Nat.succ_mul]

theorem substract_run (a b junk : CMpl) (a_level : a.Level) (b_tidy : b.Tidy) (order : b.abs ≤ a.abs)
    (wide : a.h.abs = 0 ∨ b.l.length = 8 ∨ b.l.length = 0) :
    ∃ r, a.substract b junk = some r ∧ Lowered a b r := by
  obtain ⟨h, h_run, h_same, -, -⟩ := assign_run b.h junk.h b_tidy.h_bounded
  obtain ⟨l, l_run, l_same, -, -⟩ := assign_run b.l junk.l b_tidy.l_bounded
  have high := h_le_of_le a_level.l_bounded order
  let minus_h : CMpi := { h with sign := .negtive }
  let minus_l : CMpi := { l with sign := .negtive }
  have h_abs : minus_h.abs = b.h.abs := h_same.abs
  have l_abs : minus_l.abs = b.l.abs := l_same.abs
  have h_length : minus_h.length = b.h.length := h_same.length
  have l_length : minus_l.length = b.l.length := l_same.length
  have opposite {s : Sign} (positive : s = .positive) : s ≠ .negtive := by
    rw [positive]
    decide
  obtain ⟨l', l'_run, l_less⟩ := add_opposite a.l minus_l junk.l a_level.l_bounded (l_length ▸ b_tidy.l_bounded)
    (opposite a_level.l_sign) (by
      rw [if_pos a_level.l_sign, Ordered, l_abs, l_length]
      exact a_level.ordered_l b_tidy order wide)
  obtain ⟨h', h'_run, h_less⟩ := add_opposite a.h minus_h junk.l a_level.h_bounded (h_length ▸ b_tidy.h_bounded)
    (opposite a_level.h_sign) (by
      rw [if_pos a_level.h_sign, Ordered, h_abs, h_length]
      exact ordered_of_trimmed a_level.h_trimmed b_tidy.h_trimmed)
  have l_value := l_less.value
  have h_value := h_less.value
  have l_sign := l_less.sign
  have h_sign := h_less.sign
  rw [l_abs] at l_value l_sign
  rw [h_abs, a_level.h_sign, if_neg (Nat.not_lt.mpr high), ite_self] at h_sign
  rw [h_abs, Nat.min_eq_right high, Nat.max_eq_left high] at h_value
  have whole : b.l.abs + b.h.abs * radix ^ 8 ≤ a.l.abs + a.h.abs * radix ^ 8 := order
  have product := congrArg (· * radix ^ 8) h_value
  simp only [Nat.add_mul] at product
  have l_positive (less : ¬ a.l.abs < b.l.abs) : l'.sign = .positive := by
    rw [l_sign, if_neg less, a_level.l_sign, ite_self]
  have l_negtive (less : a.l.abs < b.l.abs) : l'.sign = .negtive := by rw [l_sign, if_pos less]
  have l_nonzero (negtive : l'.sign ≠ .positive) : l'.abs ≠ 0 := fun zero => negtive (l_positive (by omega))
  have low_positive (equal : h'.abs = 0) : l'.sign = .positive := l_positive (by rw [equal, Nat.zero_mul] at product; omega)
  obtain ⟨r, run, result⟩ := reconcile_run (h := h') (l := l') junk.l
    (Nat.le_trans h_less.bounded (Nat.max_le.mpr ⟨a_level.h_bounded, h_length ▸ b_tidy.h_bounded⟩))
    (Nat.le_trans l_less.bounded (Nat.max_le.mpr ⟨a_level.l_bounded, l_length ▸ b_tidy.l_bounded⟩))
    l_less.carry h_less.trimmed l_less.trimmed (fun some_ k outside below => by
      have full : a.l.length = 8 := a_level.full.resolve_left (by omega)
      exact l_less.zeros k outside (Nat.lt_of_lt_of_le (full ▸ below) (Nat.le_max_left _ _)))
    (fun _ apart => l_nonzero (h_sign ▸ apart))
  have sign : r.l.sign = .positive := by
    rw [result.l_sign]
    split
    · next equal => exact low_positive equal
    · exact h_sign
  have tidy : r.Tidy := ⟨⟨sign, result.h_sign.trans sign, result.l_bounded, result.h_bounded⟩, result.full,
    result.h_trimmed, result.l_trimmed⟩
  refine ⟨r, ?_, tidy, ?_, h_less.cleared.trans result.h_cleared, l_less.cleared.trans result.l_cleared⟩
  · rw [substract, h_run, Option.bind_eq_bind, Option.bind_some, l_run, Option.bind_some, b_tidy.l_sign]
    change (a.l.add minus_l junk.l).bind _ = _
    rw [l'_run, Option.bind_some]
    change (a.h.add minus_h junk.l).bind _ = _
    rw [h'_run, Option.bind_some, run]
  · rw [result.value]
    change _ + (b.l.abs + b.h.abs * radix ^ 8) = a.l.abs + a.h.abs * radix ^ 8
    by_cases less : a.l.abs < b.l.abs
    · have some_ : h'.abs ≠ 0 := fun equal => by
        have positive := low_positive equal
        rw [l_negtive less] at positive
        cases positive
      rw [l_negtive less, h_sign, if_neg (not_or.mpr ⟨some_, by decide⟩)]
      omega
    · rw [l_positive less, h_sign, if_pos (.inr rfl)]
      omega

end CMpl
end MyTools.Mpi
