import MyTools.Miracl.Epoint
import MyTools.Miracl.Window

/-! `ecurve_mult` of `mrcurve.c`: a table of odd multiples, made affine with one inversion, and a pass over
the windows of the non-adjacent form from the top. -/
namespace MyTools.Miracl
open Library SignedDigits

/-- `MR_ECC_STORE_N` -/
def storeN : ℕ := 8

/-- `logb2(x) - 1`, for a number that is not zero. -/
def topBit (x : ℕ) : ℕ := x.log2

/-- `premult`, with the result in another number; `none` is `MR_ERR_OVERFLOW`. -/
def premult (x n : ℕ) : Option ℕ := if n * x < 2 ^ (32 * nib) then some (n * x) else none

namespace Ecurve
variable {E : Curve} (curve : Ecurve E)

/-- `table[MR_ECC_STORE_N-1]`, before the other entries are made. -/
def twice (pt : Epoint) : Epoint := curve.ecurveDouble (epointCopy (epointCopy pt .blank) .blank)

/-- `table[i]`, for `i` below `MR_ECC_STORE_N-1`. -/
def oddMultiple (pt : Epoint) : (i : ℕ) → Epoint
  | 0 => epointCopy pt .blank
  | i + 1 => curve.ecurveAdd (curve.twice pt) (epointCopy (oddMultiple pt i) .blank)

def precomputation (pt : Epoint) (i : ℕ) : Epoint :=
  if i = storeN - 1 then curve.ecurveAdd (curve.oddMultiple pt (storeN - 2)) (curve.twice pt)
  else curve.oddMultiple pt i

/-- What is done with a window: the table and the point. -/
def addWindow (n : ℤ) (nbs nzs : ℕ) (table : ℕ → Epoint) (pt : Epoint) : (ℕ → Epoint) × Epoint :=
  let pt := curve.ecurveDouble^[nbs] pt
  let pt := if 0 < n then curve.ecurveAdd (table (n / 2).toNat) pt else pt
  let (table, pt) :=
    if n < 0 then
      let (p, pt) := curve.ecurveSub (table (-n / 2).toNat) pt
      (Function.update table (-n / 2).toNat p, pt)
    else (table, pt)
  (table, curve.ecurveDouble^[nzs] pt)

/-- `for (i = nb - 1; i >= 1;)`; the window is its value, `nbs` and `nzs`. -/
def windows (w9 w10 i : ℕ) (table : ℕ → Epoint) (pt : Epoint) : Epoint :=
  if inside : 0 < i then
    let window := nafWindow w9 w10 i storeN
    let state := curve.addWindow window.1 window.2.1 window.2.2 table pt
    windows w9 w10 (i - (window.2.1 + window.2.2)) state.1 state.2
  else pt
termination_by i
decreasing_by
  have bits := nafWindow_bits w9 w10 inside (show 0 < storeN by decide)
  omega

/-- `none` is a pending error; `e` has the sign of the big number. -/
def ecurveMult (e : ℤ) (pa pt : Epoint) : Option Epoint :=
  if e = 0 then some (curve.atInfinity pt)
  else
    let pt := epointCopy pa pt
    let pt := if e < 0 then curve.epointNegate pt else pt
    let w9 := e.natAbs
    if w9 = 1 then some pt
    else do
      let w10 ← premult w9 3
      let table ← curve.epointMultiNorm storeN (curve.precomputation pt)
      some (curve.windows w9 w10 (topBit w10) table (curve.atInfinity pt))

variable {curve : Ecurve E} {P Q : Epoint} {point other : E.weierstrass.Point}

theorem doubles_shows (shows : curve.Shows P point) (count : ℕ) :
    curve.Shows (curve.ecurveDouble^[count] P) ((2 : ℤ) ^ count • point) := by
  induction count with
  | zero =>
    rw [pow_zero, one_zsmul]
    exact shows
  | succ count ih =>
    rw [Function.iterate_succ_apply', pow_succ', mul_zsmul, two_zsmul]
    exact ecurveDouble_shows ih

def Tabled (curve : Ecurve E) (table : ℕ → Epoint) (point : E.weierstrass.Point) : Prop :=
  ∀ i, i < storeN → curve.Shows (table i) ((2 * i + 1 : ℤ) • point)

theorem twice_shows (shows : curve.Shows P point) : curve.Shows (curve.twice P) ((2 : ℤ) • point) := by
  rw [two_zsmul]
  exact ecurveDouble_shows (epointCopy_shows (epointCopy_shows shows _) _)

theorem oddMultiple_shows (shows : curve.Shows P point) (i : ℕ) :
    curve.Shows (curve.oddMultiple P i) ((2 * i + 1 : ℤ) • point) := by
  induction i with
  | zero =>
    rw [Nat.cast_zero, mul_zero, zero_add, one_zsmul]
    exact epointCopy_shows shows _
  | succ i ih =>
    have next := ecurveAdd_shows (twice_shows shows) (epointCopy_shows ih .blank)
    rw [← add_zsmul] at next
    rw [show (2 * ((i + 1 : ℕ) : ℤ) + 1) = 2 * i + 1 + 2 by push_cast; ring]
    exact next

theorem precomputation_shows (shows : curve.Shows P point) : Tabled curve (curve.precomputation P) point := by
  intro i inside
  rw [precomputation]
  split
  · next last =>
    have sum := ecurveAdd_shows (oddMultiple_shows shows (storeN - 2)) (twice_shows shows)
    rw [← add_zsmul] at sum
    rw [last]
    exact sum
  · exact oddMultiple_shows shows i

theorem half_lt {n : ℤ} (positive : 0 < n) (small : n ≤ 2 * storeN - 1) (odd : n % 2 = 1) :
    (n / 2).toNat < storeN ∧ 2 * ((n / 2).toNat : ℤ) + 1 = n := by
  omega

theorem addWindow_shows {table : ℕ → Epoint} {n : ℤ} (tabled : Tabled curve table point)
    (shows : curve.Shows P other) (small : |n| ≤ 2 * storeN - 1) (odd : n = 0 ∨ n % 2 = 1) (nbs nzs : ℕ) :
    Tabled curve (curve.addWindow n nbs nzs table P).1 point ∧
      curve.Shows (curve.addWindow n nbs nzs table P).2 ((2 : ℤ) ^ nzs • ((2 : ℤ) ^ nbs • other + n • point)) := by
  have doubled := doubles_shows shows nbs
  rw [abs_le] at small
  rw [addWindow]
  rcases lt_trichotomy n 0 with negative | zero | positive
  · have place := half_lt (n := -n) (by omega) (by omega) (by omega)
    have entry := tabled _ place.1
    rw [place.2] at entry
    obtain ⟨kept, difference⟩ := ecurveSub_shows entry doubled
    rw [neg_zsmul, sub_neg_eq_add] at difference
    simp only [if_neg (show ¬0 < n by omega), if_pos negative, kept, Function.update_eq_self]
    exact ⟨tabled, doubles_shows difference nzs⟩
  · subst zero
    rw [zero_zsmul, add_zero]
    exact ⟨tabled, doubles_shows doubled nzs⟩
  · have place := half_lt positive small.2 (by omega)
    have entry := tabled _ place.1
    rw [place.2] at entry
    simp only [if_pos positive, if_neg (show ¬n < 0 by omega)]
    exact ⟨tabled, doubles_shows (ecurveAdd_shows entry doubled) nzs⟩

theorem windows_shows {table : ℕ → Epoint} (w9 w10 i : ℕ) (tabled : Tabled curve table point)
    (shows : curve.Shows P (upper w10 w9 (i + 1) • point)) :
    curve.Shows (curve.windows w9 w10 i table P) (upper w10 w9 1 • point) := by
  induction i using Nat.strong_induction_on generalizing table P with
  | _ i ih =>
    rw [windows]
    split
    · next inside =>
      obtain ⟨n, nbs, nzs, run, windowed⟩ := nafWindow_spec w9 w10 inside (show 0 < storeN by decide)
      obtain ⟨tabled', shows'⟩ := addWindow_shows tabled shows windowed.small windowed.odd nbs nzs
      simp only [run]
      have bits := windowed.bits
      refine ih _ (by omega) tabled' ?_
      have value : upper w10 w9 (i - (nbs + nzs) + 1) • point =
          (2 : ℤ) ^ nzs • ((2 : ℤ) ^ nbs • upper w10 w9 (i + 1) • point + n • point) := by
        rw [windowed.value, ← mul_zsmul', ← add_zsmul, ← mul_zsmul']
        congr 1
        ring
      rw [value]
      exact shows'
    · next zero =>
      rw [show i = 0 by omega] at shows
      exact shows

theorem lt_topBit (x : ℕ) : x < 2 ^ (topBit x + 1) := Nat.lt_log2_self

theorem signed_shows (pa : curve.Shows P point) (old : Epoint) (e : ℤ) :
    curve.Shows (if e < 0 then curve.epointNegate (epointCopy P old) else epointCopy P old)
      (if e < 0 then -point else point) := by
  have copied := epointCopy_shows pa old
  split
  · exact epointNegate_shows copied
  · exact copied

theorem natAbs_zsmul_signed (e : ℤ) (point : E.weierstrass.Point) :
    (e.natAbs : ℤ) • (if e < 0 then -point else point) = e • point := by
  split
  · next negative => rw [Int.ofNat_natAbs_of_nonpos negative.le, neg_zsmul, zsmul_neg, neg_neg]
  · next positive => rw [Int.natAbs_of_nonneg (Int.not_lt.mp positive)]

theorem ecurveMult_shows {e : ℤ} (room : 3 * e.natAbs < 2 ^ (32 * nib)) (pa : curve.Shows P point) (old : Epoint)
    (usable : 1 < e.natAbs → ∀ i, i < storeN → (2 * i + 1) • point ≠ 0) :
    ∃ Q, curve.ecurveMult e P old = some Q ∧ curve.Shows Q (e • point) := by
  have start := signed_shows pa old e
  have product := natAbs_zsmul_signed e point
  rw [ecurveMult]
  split
  · next zero =>
    rw [zero, zero_zsmul]
    exact ⟨_, rfl, atInfinity_shows old⟩
  · next nonzero =>
    dsimp only
    generalize (if e < 0 then curve.epointNegate (epointCopy P old) else epointCopy P old) = pt at start ⊢
    split
    · next one =>
      rw [one, Nat.cast_one, one_zsmul] at product
      rw [← product]
      exact ⟨pt, rfl, start⟩
    · next several =>
      have finite (i : ℕ) (inside : i < storeN) : (2 * i + 1 : ℤ) • (if e < 0 then -point else point) ≠ 0 := by
        have multiple := usable (by omega) i inside
        rw [← natCast_zsmul] at multiple
        push_cast at multiple
        split
        · rw [zsmul_neg]
          exact neg_ne_zero.mpr multiple
        · exact multiple
      obtain ⟨table, norm, tabled⟩ := epointMultiNorm_shows (show 2 ≤ storeN by decide) (precomputation_shows start) finite
      have top : upper (3 * e.natAbs) e.natAbs (topBit (3 * e.natAbs) + 1) = 0 := by
        have large := lt_topBit (3 * e.natAbs)
        exact upper_of_lt large (by omega)
      have begun : curve.Shows (curve.atInfinity pt)
          (upper (3 * e.natAbs) e.natAbs (topBit (3 * e.natAbs) + 1) • if e < 0 then -point else point) := by
        rw [top, zero_zsmul]
        exact atInfinity_shows pt
      have shown := windows_shows e.natAbs (3 * e.natAbs) _ tabled begun
      rw [upper_threefold, product] at shown
      rw [premult, if_pos room, Option.bind_eq_bind, Option.bind_some, norm]
      exact ⟨_, rfl, shown⟩

/-! The group of the curve -/

def affineOf : Coordinates → ℕ × ℕ × ℕ
  | .infinity => (0, 0, 0)
  | .affine x y => (x, y, y % 2)

theorem epointGet_affineOf {Q : E.Point} (shows : curve.Shows P Q.point) :
    curve.epointGet P = some (affineOf Q.coordinates) := by
  obtain ⟨coordinates, on⟩ := Q
  cases coordinates with
  | infinity => exact epointGet_zero shows
  | affine x y =>
    have get := epointGet_some shows
    rwa [ZMod.val_natCast, ZMod.val_natCast, Nat.mod_eq_of_lt on.1, Nat.mod_eq_of_lt on.2.1] at get

theorem point_ne_zero {Q : E.Point} {x y : ℕ} (finite : Q.coordinates = .affine x y) : Q.point ≠ 0 := by
  intro zero
  have same : Q = 0 := Curve.Point.point_injective zero
  rw [same] at finite
  exact Coordinates.noConfusion finite

theorem nsmul_point_ne_zero {Q : E.Point} {k : ℕ} (nonzero : k • Q ≠ 0) : k • Q.point ≠ 0 := by
  intro zero
  rw [← Curve.Point.point_nsmul, ← Curve.Point.point_zero] at zero
  exact nonzero (Curve.Point.point_injective zero)

theorem epointSet_group (curve : Ecurve E) {Q : E.Point} {x y : ℕ} (finite : Q.coordinates = .affine x y) (pa : Epoint) :
    (curve.epointSet x y pa).1 = true ∧ curve.Shows (curve.epointSet x y pa).2 Q.point := by
  obtain ⟨coordinates, on⟩ := Q
  dsimp only at finite
  subst finite
  have nonsingular := Curve.OnCurve.nonsingular E on
  exact ⟨(epointSet_iff x y pa).mpr nonsingular.1, epointSet_shows nonsingular pa⟩

/-- The multiple that is read out is the one of the group. -/
theorem ecurveMult_group (curve : Ecurve E) {Q : E.Point} {x y : ℕ} (finite : Q.coordinates = .affine x y) {e : ℤ}
    (room : 3 * e.natAbs < 2 ^ (32 * nib)) (usable : 1 < e.natAbs → ∀ i, i < storeN → (2 * i + 1) • Q ≠ 0) (pa pt : Epoint) :
    (curve.epointSet x y pa).1 = true ∧
      ((curve.ecurveMult e (curve.epointSet x y pa).2 pt).bind curve.epointGet) =
        some (affineOf (e • Q).coordinates) := by
  obtain ⟨accepted, point⟩ := curve.epointSet_group finite pa
  obtain ⟨R, run, shown⟩ := ecurveMult_shows room point pt fun large i inside =>
    nsmul_point_ne_zero (usable large i inside)
  rw [← Curve.Point.point_zsmul] at shown
  rw [run]
  exact ⟨accepted, epointGet_affineOf shown⟩

end Ecurve

/-- A curve with the point (0, 0), which is its own negative. -/
def five : Curve := ⟨5, 1, 0, Nat.prime_five, by decide, by decide⟩

def origin : five.Point := ⟨.affine 0 0, by decide⟩

theorem five_fits : 2 * five.p ≤ 2 ^ (32 * nib) := (lt_of_words (show 2 * 5 < 2 ^ (32 * 1) by decide) (by decide)).le

theorem origin_odd (i : ℕ) : (2 * i + 1) • origin ≠ 0 := by
  have double : (2 : ℕ) • origin = 0 := by
    rw [two_nsmul]
    exact Curve.Point.ext (by decide)
  rw [add_nsmul, mul_comm, mul_nsmul', double, nsmul_zero, zero_add, one_nsmul]
  exact fun zero => Coordinates.noConfusion (congrArg Curve.Point.coordinates zero)

theorem ecurveMult_group_origin : ∃ curve : Ecurve five, ecurveInit five five_fits = some curve ∧
    (curve.ecurveMult (-21) (curve.epointSet 0 0 .blank).2 .blank).bind curve.epointGet =
      some (Ecurve.affineOf ((-21 : ℤ) • origin).coordinates) := by
  obtain ⟨curve, init⟩ := ecurveInit_some five five_fits
  have room : 3 * (-21 : ℤ).natAbs < 2 ^ (32 * nib) := lt_of_words (show 3 * 21 < 2 ^ (32 * 1) by decide) (by decide)
  exact ⟨curve, init, (curve.ecurveMult_group rfl room (fun _ i _ => origin_odd i) .blank .blank).2⟩

end MyTools.Miracl
