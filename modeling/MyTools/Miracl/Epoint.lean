import MyTools.Library.Curve
import MyTools.Miracl.Residue

/-! The points of `mrcurve.c` in projective coordinates `(X/Z², Y/Z³)`, with n-residues for coordinates,
and the group law that its routines compute. -/
namespace MyTools.Miracl
open Library
open WeierstrassCurve

/-- `MR_EPOINT_GENERAL`, `MR_EPOINT_NORMALIZED`, `MR_EPOINT_INFINITY` -/
inductive Marker where
  | general
  | normalized
  | infinity
  deriving DecidableEq, Repr

structure Epoint where
  X : ℕ
  Y : ℕ
  Z : ℕ
  marker : Marker
  deriving DecidableEq, Repr

/-- `epoint_init_mem` -/
def Epoint.blank : Epoint := ⟨0, 0, 0, .infinity⟩

/-- `MR_TOOBIG` -/
def curveTooBig : ℤ := 2 ^ 30

def size (x : ℕ) : ℤ := if (x : ℤ) < curveTooBig then x else curveTooBig

/-- `Asize` and `Bsize`: the coefficient itself, when it or its negative is small. -/
def coefficientSize (p a : ℕ) : ℤ :=
  if |size a| = curveTooBig ∧ size (p - a % p) < curveTooBig then -size (p - a % p) else size a

structure Ecurve (E : Curve) where
  residues : Residues E.p
  /-- The sum of two residues is a big number. -/
  fits : 2 * E.p ≤ 2 ^ (32 * nib)
  A : ℕ
  B : ℕ
  Asize : ℤ
  Bsize : ℤ
  is_A : residues.Is A E.a
  is_B : residues.Is B E.b
  Asize_le : |Asize| ≤ curveTooBig
  Bsize_le : |Bsize| ≤ curveTooBig
  Asize_value : |Asize| < curveTooBig → (Asize : ZMod E.p) = E.a
  Bsize_value : |Bsize| < curveTooBig → (Bsize : ZMod E.p) = E.b

theorem abs_size_le (x : ℕ) : |size x| ≤ curveTooBig := by
  unfold size curveTooBig
  split
  · next small => rw [abs_of_nonneg (Int.natCast_nonneg x)]; exact small.le
  · rw [abs_of_nonneg (by norm_num)]

theorem size_of_lt {x : ℕ} (small : |size x| < curveTooBig) : size x = x := by
  unfold size at small ⊢
  split
  · rfl
  · next large =>
    rw [if_neg large] at small
    exact absurd small (by unfold curveTooBig; norm_num)

theorem coefficientSize_value (E : Curve) (a : ℕ) (small : |coefficientSize E.p a| < curveTooBig) :
    (coefficientSize E.p a : ZMod E.p) = a := by
  unfold coefficientSize at small ⊢
  split_ifs at small ⊢
  · rw [abs_neg] at small
    have bound : a % E.p ≤ E.p := (Nat.mod_lt _ E.prime.pos).le
    rw [size_of_lt small, Int.cast_neg, Int.cast_natCast, Nat.cast_sub bound, ZMod.natCast_self, ZMod.natCast_mod,
      zero_sub, neg_neg]
  · rw [size_of_lt small, Int.cast_natCast]

theorem abs_coefficientSize_le (p a : ℕ) : |coefficientSize p a| ≤ curveTooBig := by
  unfold coefficientSize
  split
  · rw [abs_neg]
    exact abs_size_le _
  · exact abs_size_le _

/-- The big numbers of the arguments are not negative. -/
def ecurveInit (E : Curve) (fits : 2 * E.p ≤ 2 ^ (32 * nib)) : Option (Ecurve E) :=
  match prepared : prepareMonty E.p with
  | none => none
  | some monty =>
    let residues : Residues E.p := ⟨monty, prepareMonty_n prepared⟩
    some ⟨residues, fits, monty.nres E.a, monty.nres E.b, coefficientSize E.p E.a, coefficientSize E.p E.b,
      Residues.is_nres (r := residues) E.a, Residues.is_nres (r := residues) E.b,
      abs_coefficientSize_le _ _, abs_coefficientSize_le _ _, coefficientSize_value E E.a, coefficientSize_value E E.b⟩

theorem ecurveInit_some (E : Curve) (fits : 2 * E.p ≤ 2 ^ (32 * nib)) : ∃ curve, ecurveInit E fits = some curve := by
  obtain ⟨monty, prepared⟩ := prepareMonty_of_odd E.large (Nat.odd_iff.mp (E.prime.odd_of_ne_two E.large.ne'))
  rw [ecurveInit]
  split
  · next none => rw [prepared] at none; cases none
  · exact ⟨_, rfl⟩

namespace Ecurve
variable {E : Curve} (curve : Ecurve E)

def monty : Monty := curve.residues.monty

/-- `nres(convert(n))` -/
def nresInt (n : ℤ) : ℕ :=
  let w := curve.monty.nres n.natAbs
  if n < 0 then curve.monty.nresNegate w else w

def epointGetrhs (x : ℕ) : ℕ :=
  let y := curve.monty.nresModmult x (curve.monty.nresModmult x x)
  let w1 := if |curve.Asize| = curveTooBig then curve.monty.nresModmult x curve.A else curve.monty.nresPremult x curve.Asize
  let y := curve.monty.nresModadd y w1
  if |curve.Bsize| = curveTooBig then curve.monty.nresModadd y curve.B
  else curve.monty.nresModadd y (curve.nresInt curve.Bsize)

/-- `epoint_set(NULL, NULL, 0, p)` -/
def atInfinity (P : Epoint) : Epoint := { P with X := curve.monty.one, Y := curve.monty.one, marker := .infinity }

/-- `epoint_set` with two coordinates. -/
def epointSet (x y : ℕ) (P : Epoint) : Bool × Epoint :=
  let P := { P with X := curve.monty.nres x }
  let w3 := curve.epointGetrhs P.X
  let P := { P with Y := curve.monty.nres y }
  let w1 := curve.monty.nresModmult P.Y P.Y
  if w1 = w3 then (true, { P with marker := .normalized }) else (false, P)

/-- `none` is the error `MR_ERR_COMPOSITE_MODULUS`. -/
def epointNorm (P : Epoint) : Option Epoint :=
  if P.marker ≠ .general then some P
  else
    let (gcd, w8) := curve.monty.nresModdiv curve.monty.one P.Z
    if 1 < gcd then none
    else
      let w1 := curve.monty.nresModmult w8 w8
      some ⟨curve.monty.nresModmult P.X w1, curve.monty.nresModmult P.Y (curve.monty.nresModmult w1 w8),
        curve.monty.one, .normalized⟩

/-- The coordinates and the lowest bit of the second. -/
def epointGet (P : Epoint) : Option (ℕ × ℕ × ℕ) :=
  if P.marker = .infinity then some (0, 0, 0)
  else do
    let P ← curve.epointNorm P
    let w1 := curve.monty.redc P.Y
    some (curve.monty.redc P.X, w1, w1 % 2)

/-- `epoint_multi_norm`; `none` is a pending error. -/
def epointMultiNorm (m : ℕ) (p : ℕ → Epoint) : Option (ℕ → Epoint) := do
  let work ← curve.monty.nresMultiInverse m fun i => if (p i).marker = .normalized then curve.monty.one else (p i).Z
  some fun i =>
    let w1 := curve.monty.nresModmult (work i) (work i)
    ⟨curve.monty.nresModmult (p i).X w1, curve.monty.nresModmult (p i).Y (curve.monty.nresModmult w1 (work i)),
      curve.monty.one, .normalized⟩

/-- `w8` of `ecurve_double`, the numerator of the slope. -/
def tangent (P : Epoint) : ℕ :=
  let monty := curve.monty
  let w6 := if P.marker = .normalized then monty.nres 1 else monty.nresModmult P.Z P.Z
  if |curve.Asize| < curveTooBig then
    if curve.Asize = -3 then
      let w3 := monty.nresModmult (monty.nresModsub P.X w6) (monty.nresModadd P.X w6)
      monty.nresModadd (monty.nresModadd w3 w3) w3
    else
      let w1 := monty.nresModmult P.X P.X
      let w8 := monty.nresModadd (monty.nresModadd w1 w1) w1
      if curve.Asize ≠ 0 then monty.nresModadd w8 (monty.nresPremult (monty.nresModmult w6 w6) curve.Asize) else w8
  else
    let w3 := monty.nresModmult (monty.nresModmult w6 w6) curve.A
    let w1 := monty.nresModmult P.X P.X
    monty.nresModadd (monty.nresModadd (monty.nresModadd w1 w1) w1) w3

def ecurveDouble (P : Epoint) : Epoint :=
  if P.marker = .infinity then P
  else if P.Y = 0 then curve.atInfinity P
  else
    let monty := curve.monty
    let w8 := curve.tangent P
    let w2 := monty.nresModmult P.Y P.Y
    let w3 := monty.nresModmult P.X w2
    let w3 := monty.nresModadd w3 w3
    let w3 := monty.nresModadd w3 w3
    let X := monty.nresModmult w8 w8
    let X := monty.nresModsub X w3
    let X := monty.nresModsub X w3
    let Z := if P.marker = .normalized then P.Y else monty.nresModmult P.Z P.Y
    let Z := monty.nresModadd Z Z
    let w7 := monty.nresModadd w2 w2
    let w2 := monty.nresModmult w7 w7
    let w2 := monty.nresModadd w2 w2
    let w3 := monty.nresModsub w3 X
    let Y := monty.nresModmult w8 w3
    ⟨X, monty.nresModsub Y w2, Z, .general⟩

/-- The coordinates of `p` and `pa` over a common denominator: the differences `w1` and `w8`, and `w4` and `w5`. -/
def crossed (p pa : Epoint) : ℕ × ℕ × ℕ × ℕ :=
  let monty := curve.monty
  let w6 := monty.nresModmult p.Z p.Z
  let w1 := if p.marker ≠ .normalized then monty.nresModmult pa.X w6 else pa.X
  let w8 := if p.marker ≠ .normalized then monty.nresModmult pa.Y (monty.nresModmult w6 p.Z) else pa.Y
  let w6 := if pa.marker = .normalized then monty.one else monty.nresModmult pa.Z pa.Z
  let w4 := monty.nresModmult p.X w6
  let w6 := if pa.marker ≠ .normalized then monty.nresModmult w6 pa.Z else w6
  let w5 := monty.nresModmult p.Y w6
  (monty.nresModsub w1 w4, monty.nresModsub w8 w5, w4, w5)

/-- What `pa` becomes when the abscissas differ. -/
def chord (p pa : Epoint) (w1 w8 w4 w5 : ℕ) : Epoint :=
  let monty := curve.monty
  let w4 := monty.nresModadd w1 (monty.nresModadd w4 w4)
  let w5 := monty.nresModadd w8 (monty.nresModadd w5 w5)
  let Z :=
    if p.marker ≠ .normalized then
      monty.nresModmult (if pa.marker ≠ .normalized then monty.nresModmult pa.Z p.Z else p.Z) w1
    else if pa.marker ≠ .normalized then monty.nresModmult pa.Z w1 else w1
  let w6 := monty.nresModmult w1 w1
  let w1 := monty.nresModmult w1 w6
  let w6 := monty.nresModmult w6 w4
  let w4 := monty.nresModmult w8 w8
  let X := monty.nresModsub w4 w6
  let w6 := monty.nresModsub w6 X
  let w6 := monty.nresModsub w6 X
  let w2 := monty.nresModmult w8 w6
  let w1 := monty.nresModmult w1 w5
  ⟨X, monty.nresDiv2 (monty.nresModsub w2 w1), Z, .general⟩

/-- `none` when the point should have been doubled. -/
def ecurvePadd (p pa : Epoint) : Option Epoint :=
  let (w1, w8, w4, w5) := curve.crossed p pa
  if w1 = 0 then
    if w8 = 0 then none else some (curve.atInfinity pa)
  else some (curve.chord p pa w1 w8 w4 w5)

/-- `epoint_copy`: what `b` becomes. -/
def epointCopy (a b : Epoint) : Epoint := ⟨a.X, a.Y, if a.marker = .general then a.Z else b.Z, a.marker⟩

/-- `pa = pa + p` for two objects. -/
def ecurveAdd (p pa : Epoint) : Epoint :=
  if pa.marker = .infinity then epointCopy p pa
  else if p.marker = .infinity then pa
  else (curve.ecurvePadd p pa).getD (curve.ecurveDouble pa)

def epointNegate (p : Epoint) : Epoint :=
  if p.marker = .infinity then p else { p with Y := if p.Y ≠ 0 then curve.monty.n - p.Y else p.Y }

/-- `pa = pa - p`; `p` is negated on the way and is changed back. -/
def ecurveSub (p pa : Epoint) : Epoint × Epoint :=
  if p.marker = .infinity then (p, pa)
  else
    let p := curve.epointNegate p
    let pa := curve.ecurveAdd p pa
    (curve.epointNegate p, pa)

inductive Shows : Epoint → E.weierstrass.Point → Prop
  | zero {P : Epoint} (marker : P.marker = .infinity) : Shows P 0
  | some {P : Epoint} {X Y Z : ZMod E.p} (on : E.weierstrass.Nonsingular X Y) (unit : Z ≠ 0)
      (hx : curve.residues.Is P.X (X * Z ^ 2)) (hy : curve.residues.Is P.Y (Y * Z ^ 3))
      (hz : (P.marker = .normalized ∧ Z = 1) ∨ (P.marker = .general ∧ curve.residues.Is P.Z Z)) : Shows P (.some X Y on)

variable {curve : Ecurve E} {P Q : Epoint} {point other : E.weierstrass.Point}

theorem is_one : curve.residues.Is curve.monty.one 1 := Residues.is_one

theorem is_nresInt (n : ℤ) : curve.residues.Is (curve.nresInt n) n := by
  have multiple : curve.residues.Is (curve.monty.nres n.natAbs) n.natAbs := Residues.is_nres n.natAbs
  rw [nresInt]
  split
  · next negative =>
    have sign : ((n.natAbs : ℕ) : ZMod E.p) = -(n : ZMod E.p) := by
      rw [← Int.cast_natCast, Int.ofNat_natAbs_of_nonpos negative.le, Int.cast_neg]
    have negated := multiple.negate
    rwa [sign, neg_neg] at negated
  · next positive =>
    have sign : ((n.natAbs : ℕ) : ZMod E.p) = (n : ZMod E.p) := by
      rw [← Int.cast_natCast, Int.natAbs_of_nonneg (Int.not_lt.mp positive)]
    rwa [sign] at multiple

theorem is_getrhs {x : ℕ} {X : ZMod E.p} (hx : curve.residues.Is x X) :
    curve.residues.Is (curve.epointGetrhs x) (X ^ 3 + E.a * X + E.b) := by
  have linear : curve.residues.Is (if |curve.Asize| = curveTooBig then curve.monty.nresModmult x curve.A
      else curve.monty.nresPremult x curve.Asize) (E.a * X) := by
    split
    · exact (hx.modmult curve.is_A).of_eq (mul_comm _ _)
    · next other =>
      have small := lt_of_le_of_ne curve.Asize_le other
      exact (hx.premult curve.Asize).of_eq (by rw [curve.Asize_value small])
  have cubic := (hx.modmult (hx.modmult hx)).modadd linear
  rw [epointGetrhs]
  split
  · exact (cubic.modadd curve.is_B).of_eq (by ring)
  · next other =>
    have small := lt_of_le_of_ne curve.Bsize_le other
    exact (cubic.modadd (is_nresInt curve.Bsize)).of_eq (by rw [curve.Bsize_value small]; ring)

theorem epointSet_iff (x y : ℕ) (P : Epoint) :
    (curve.epointSet x y P).1 = true ↔ E.weierstrass.Equation (x : ZMod E.p) y := by
  have square : curve.residues.Is (curve.monty.nresModmult (curve.monty.nres y) (curve.monty.nres y)) (y * y) :=
    (Residues.is_nres y).modmult (Residues.is_nres y)
  have right : curve.residues.Is (curve.epointGetrhs (curve.monty.nres x)) ((x : ZMod E.p) ^ 3 + E.a * x + E.b) :=
    is_getrhs (Residues.is_nres x)
  rw [E.equation_iff, sq, ← square.eq_iff right]
  simp only [epointSet]
  split
  · next same => exact iff_of_true rfl same
  · next apart => exact iff_of_false Bool.false_ne_true apart

theorem epointSet_shows {x y : ℕ} (on : E.weierstrass.Nonsingular (x : ZMod E.p) y) (P : Epoint) :
    curve.Shows (curve.epointSet x y P).2 (.some x y on) := by
  have accepted : (curve.epointSet x y P).1 = true := (epointSet_iff x y P).mpr on.1
  simp only [epointSet] at accepted ⊢
  split
  · refine .some on one_ne_zero ?_ ?_ (.inl ⟨rfl, rfl⟩)
    · exact (Residues.is_nres x).of_eq (by rw [one_pow, mul_one])
    · exact (Residues.is_nres y).of_eq (by rw [one_pow, mul_one])
  · next apart =>
    rw [if_neg apart] at accepted
    exact absurd accepted Bool.false_ne_true

theorem atInfinity_shows (P : Epoint) : curve.Shows (curve.atInfinity P) 0 := .zero rfl

theorem shows_normalized {X Y Z : ZMod E.p} {x y w : ℕ} (on : E.weierstrass.Nonsingular X Y) (unit : Z ≠ 0)
    (hx : curve.residues.Is x (X * Z ^ 2)) (hy : curve.residues.Is y (Y * Z ^ 3)) (hw : curve.residues.Is w Z⁻¹) :
    curve.Shows ⟨curve.monty.nresModmult x (curve.monty.nresModmult w w),
      curve.monty.nresModmult y (curve.monty.nresModmult (curve.monty.nresModmult w w) w), curve.monty.one,
      .normalized⟩ (.some X Y on) := by
  refine .some on one_ne_zero ?_ ?_ (.inl ⟨rfl, rfl⟩)
  · exact (hx.modmult (hw.modmult hw)).of_eq (by field_simp)
  · exact (hy.modmult ((hw.modmult hw).modmult hw)).of_eq (by field_simp)

theorem epointNorm_shows (shows : curve.Shows P point) :
    ∃ P', curve.epointNorm P = some P' ∧ curve.Shows P' point ∧ P'.marker ≠ .general := by
  rw [epointNorm]
  split
  · next marker => exact ⟨P, rfl, shows, marker⟩
  · next marker =>
    rw [ne_eq, not_not] at marker
    cases shows with
    | zero infinite => rw [infinite] at marker; cases marker
    | @some X Y Z on unit hx hy hz =>
      obtain ⟨normalized, -⟩ | ⟨-, hz⟩ := hz
      · rw [normalized] at marker
        cases marker
      have one : curve.residues.Is curve.monty.one 1 := is_one
      obtain ⟨gcd, inverse⟩ := one.moddiv hz unit
      rw [one_div] at inverse
      have start : (curve.monty.nresModdiv curve.monty.one P.Z).1 = 1 := gcd
      simp only [start, Nat.lt_irrefl, if_false]
      exact ⟨_, rfl, shows_normalized on unit hx hy inverse, Marker.noConfusion⟩

theorem epointGet_zero (shows : curve.Shows P 0) : curve.epointGet P = some (0, 0, 0) := by
  generalize whole : (0 : E.weierstrass.Point) = point at shows
  cases shows with
  | zero infinite => rw [epointGet, if_pos infinite]
  | some => cases whole

theorem epointGet_some {X Y : ZMod E.p} {on : E.weierstrass.Nonsingular X Y} (shows : curve.Shows P (.some X Y on)) :
    curve.epointGet P = some (X.val, Y.val, Y.val % 2) := by
  obtain ⟨P', norm, shown, marker⟩ := epointNorm_shows shows
  have finite : P.marker ≠ .infinity := by
    cases shows with
    | some on unit hx hy hz => rcases hz with ⟨marker, -⟩ | ⟨marker, -⟩ <;> simp [marker]
  cases shown with
  | @some _ _ Z _ unit hx hy hz =>
    obtain ⟨-, rfl⟩ | ⟨general, -⟩ := hz
    · rw [one_pow, mul_one] at hx hy
      have value {x : ℕ} {u : ZMod E.p} (hu : curve.residues.Is x u) : curve.monty.redc x = u.val := by
        rw [← hu.redc, ZMod.val_natCast, Nat.mod_eq_of_lt (Residues.redc_lt hu.fits), monty]
      rw [epointGet, if_neg finite, norm]
      exact congrArg₂ (fun x y => some (x, y, y % 2)) (value hx) (value hy)
    · exact absurd general marker

/-! The group law -/

theorem is_tangent {X Z : ZMod E.p} (hx : curve.residues.Is P.X (X * Z ^ 2))
    (hz : (P.marker = .normalized ∧ Z = 1) ∨ (P.marker = .general ∧ curve.residues.Is P.Z Z)) :
    curve.residues.Is (curve.tangent P) ((3 * X ^ 2 + E.a) * Z ^ 4) := by
  have square : curve.residues.Is (if P.marker = .normalized then curve.monty.nres 1
      else curve.monty.nresModmult P.Z P.Z) (Z ^ 2) := by
    obtain ⟨marker, one⟩ | ⟨marker, hz⟩ := hz
    · rw [if_pos marker, one, one_pow]
      exact is_one
    · rw [if_neg (by rw [marker]; exact Marker.noConfusion)]
      exact (hz.modmult hz).of_eq (sq Z).symm
  have threefold : curve.residues.Is (curve.monty.nresModadd (curve.monty.nresModadd (curve.monty.nresModmult P.X P.X)
      (curve.monty.nresModmult P.X P.X)) (curve.monty.nresModmult P.X P.X)) (3 * X ^ 2 * Z ^ 4) :=
    (((hx.modmult hx).modadd (hx.modmult hx)).modadd (hx.modmult hx)).of_eq (by ring)
  rw [tangent]
  dsimp only
  split
  · next small =>
    have coefficient := curve.Asize_value small
    split
    · next three =>
      rw [three] at coefficient
      have product := (hx.modsub square).modmult (hx.modadd square)
      exact ((product.modadd product).modadd product).of_eq (by rw [← coefficient]; push_cast; ring)
    · split
      · exact (threefold.modadd ((square.modmult square).premult curve.Asize)).of_eq (by rw [coefficient]; ring)
      · next zero =>
        rw [ne_eq, not_not] at zero
        rw [zero, Int.cast_zero] at coefficient
        exact threefold.of_eq (by rw [← coefficient]; ring)
  · exact (threefold.modadd ((square.modmult square).modmult curve.is_A)).of_eq (by ring)

theorem double_slope {X Y : ZMod E.p} (apart : Y ≠ E.weierstrass.negY X Y) :
    E.weierstrass.slope X X Y Y = (3 * X ^ 2 + E.a) / (2 * Y) := by
  rw [Affine.slope_of_Y_ne rfl apart]
  simp only [Affine.negY]
  congr 1 <;> ring

theorem ecurveDouble_shows (shows : curve.Shows P point) : curve.Shows (curve.ecurveDouble P) (point + point) := by
  rw [ecurveDouble]
  cases shows with
  | zero infinite =>
    rw [if_pos infinite, add_zero]
    exact .zero infinite
  | @some X Y Z on unit hx hy hz =>
    have finite : P.marker ≠ .infinity := by rcases hz with ⟨marker, -⟩ | ⟨marker, -⟩ <;> simp [marker]
    have flat : P.Y = 0 ↔ Y = 0 := by
      rw [hy.eq_zero_iff, mul_eq_zero, or_iff_left (pow_ne_zero 3 unit)]
    rw [if_neg finite]
    split
    · next zero =>
      have self : Y = E.weierstrass.negY X Y := by simp [Affine.negY, flat.mp zero]
      rw [Affine.Point.add_self_of_Y_eq self]
      exact atInfinity_shows P
    · next steep =>
      have nonzero := mt flat.mpr steep
      have two := E.two_ne_zero
      have apart : Y ≠ E.weierstrass.negY X Y := by
        intro self
        have sum : 2 * Y = 0 := by linear_combination (self.trans (by simp [Affine.negY]) : Y = -Y)
        exact mul_ne_zero two nonzero sum
      have slope := double_slope apart
      have w8 := is_tangent hx hz
      have w2 := hy.modmult hy
      have w3 := (hx.modmult w2).modadd (hx.modmult w2)
      have w3 := w3.modadd w3
      have x := ((w8.modmult w8).modsub w3).modsub w3
      have z : curve.residues.Is (if P.marker = .normalized then P.Y else curve.monty.nresModmult P.Z P.Y)
          (Y * Z ^ 4) := by
        obtain ⟨marker, one⟩ | ⟨marker, hz⟩ := hz
        · rw [if_pos marker]
          exact hy.of_eq (by rw [one]; ring)
        · rw [if_neg (by rw [marker]; exact Marker.noConfusion)]
          exact (hz.modmult hy).of_eq (by ring)
      have w7 := w2.modadd w2
      have w2 := (w7.modmult w7).modadd (w7.modmult w7)
      have y := (w8.modmult (w3.modsub x)).modsub w2
      have z' : curve.residues.Is (curve.monty.nresModadd (if P.marker = .normalized then P.Y
          else curve.monty.nresModmult P.Z P.Y) (if P.marker = .normalized then P.Y
          else curve.monty.nresModmult P.Z P.Y)) (2 * Y * Z ^ 4) := (z.modadd z).of_eq (by ring)
      rw [Affine.Point.add_self_of_Y_ne apart]
      refine .some _ (mul_ne_zero (mul_ne_zero two nonzero) (pow_ne_zero 4 unit)) ?_ ?_ (.inr ⟨rfl, z'⟩)
      · refine x.of_eq ?_
        rw [Affine.addX, slope]
        field_simp
        ring
      · refine y.of_eq ?_
        rw [Affine.addY, Affine.negAddY, Affine.negY, Affine.addX, slope]
        field_simp
        ring

theorem is_scaled {X Y Z W : ZMod E.p} {x y : ℕ} (hx : curve.residues.Is x (X * Z ^ 2))
    (hy : curve.residues.Is y (Y * Z ^ 3))
    (hw : (Q.marker = .normalized ∧ W = 1) ∨ (Q.marker = .general ∧ curve.residues.Is Q.Z W)) :
    curve.residues.Is (if Q.marker ≠ .normalized then curve.monty.nresModmult x (curve.monty.nresModmult Q.Z Q.Z)
        else x) (X * (Z * W) ^ 2) ∧
      curve.residues.Is (if Q.marker ≠ .normalized then curve.monty.nresModmult y
        (curve.monty.nresModmult (curve.monty.nresModmult Q.Z Q.Z) Q.Z) else y) (Y * (Z * W) ^ 3) := by
  obtain ⟨marker, one⟩ | ⟨marker, hw⟩ := hw
  · rw [if_neg (not_not.mpr marker), if_neg (not_not.mpr marker), one, mul_one]
    exact ⟨hx, hy⟩
  · have general : Q.marker ≠ .normalized := by rw [marker]; exact Marker.noConfusion
    rw [if_pos general, if_pos general]
    exact ⟨(hx.modmult (hw.modmult hw)).of_eq (by ring), (hy.modmult ((hw.modmult hw).modmult hw)).of_eq (by ring)⟩

theorem is_denominator {Z W V : ZMod E.p} {w : ℕ} (hv : curve.residues.Is w V)
    (hz : (P.marker = .normalized ∧ Z = 1) ∨ (P.marker = .general ∧ curve.residues.Is P.Z Z))
    (hw : (Q.marker = .normalized ∧ W = 1) ∨ (Q.marker = .general ∧ curve.residues.Is Q.Z W)) :
    curve.residues.Is
      (if P.marker ≠ .normalized then
        curve.monty.nresModmult (if Q.marker ≠ .normalized then curve.monty.nresModmult Q.Z P.Z else P.Z) w
      else if Q.marker ≠ .normalized then curve.monty.nresModmult Q.Z w else w) (W * Z * V) := by
  obtain ⟨first, one⟩ | ⟨first, hz⟩ := hz
  · rw [if_neg (not_not.mpr first), one, mul_one]
    obtain ⟨second, one⟩ | ⟨second, hw⟩ := hw
    · rw [if_neg (not_not.mpr second), one, one_mul]
      exact hv
    · rw [if_pos (by rw [second]; exact Marker.noConfusion)]
      exact hw.modmult hv
  · rw [if_pos (by rw [first]; exact Marker.noConfusion)]
    obtain ⟨second, one⟩ | ⟨second, hw⟩ := hw
    · rw [if_neg (not_not.mpr second), one, one_mul]
      exact hz.modmult hv
    · rw [if_pos (by rw [second]; exact Marker.noConfusion)]
      exact (hw.modmult hz).modmult hv

section
variable {X Y Z X' Y' W : ZMod E.p} (unit : Z ≠ 0) (unit' : W ≠ 0)
  (hz : (P.marker = .normalized ∧ Z = 1) ∨ (P.marker = .general ∧ curve.residues.Is P.Z Z))
  (hw : (Q.marker = .normalized ∧ W = 1) ∨ (Q.marker = .general ∧ curve.residues.Is Q.Z W))

include hz hw in
theorem is_crossed (hx : curve.residues.Is P.X (X * Z ^ 2)) (hy : curve.residues.Is P.Y (Y * Z ^ 3))
    (hx' : curve.residues.Is Q.X (X' * W ^ 2)) (hy' : curve.residues.Is Q.Y (Y' * W ^ 3)) :
    curve.residues.Is (curve.crossed P Q).1 ((X' - X) * (Z * W) ^ 2) ∧
      curve.residues.Is (curve.crossed P Q).2.1 ((Y' - Y) * (Z * W) ^ 3) ∧
      curve.residues.Is (curve.crossed P Q).2.2.1 (X * (Z * W) ^ 2) ∧
      curve.residues.Is (curve.crossed P Q).2.2.2 (Y * (Z * W) ^ 3) := by
  obtain ⟨w1, w8⟩ := is_scaled hx' hy' hz
  have w6 : curve.residues.Is (if Q.marker = .normalized then curve.monty.one
      else curve.monty.nresModmult Q.Z Q.Z) (W ^ 2) := by
    obtain ⟨marker, one⟩ | ⟨marker, hw⟩ := hw
    · rw [if_pos marker, one, one_pow]
      exact is_one
    · rw [if_neg (by rw [marker]; exact Marker.noConfusion)]
      exact (hw.modmult hw).of_eq (sq W).symm
  have w6' : curve.residues.Is (if Q.marker ≠ .normalized then curve.monty.nresModmult
      (if Q.marker = .normalized then curve.monty.one else curve.monty.nresModmult Q.Z Q.Z) Q.Z
      else if Q.marker = .normalized then curve.monty.one else curve.monty.nresModmult Q.Z Q.Z) (W ^ 3) := by
    obtain ⟨marker, one⟩ | ⟨marker, hw⟩ := hw
    · rw [if_neg (not_not.mpr marker)]
      exact w6.of_eq (by rw [one, one_pow, one_pow])
    · rw [if_pos (by rw [marker]; exact Marker.noConfusion)]
      exact (w6.modmult hw).of_eq (by ring)
  have w4 := hx.modmult w6
  have w5 := hy.modmult w6'
  refine ⟨(w1.modsub w4).of_eq ?_, (w8.modsub w5).of_eq ?_, w4.of_eq ?_, w5.of_eq ?_⟩ <;> ring

include unit unit' hz hw in
theorem chord_shows (on : E.weierstrass.Nonsingular X Y) (on' : E.weierstrass.Nonsingular X' Y') (apart : X' ≠ X)
    {w1 w8 w4 w5 : ℕ} (h1 : curve.residues.Is w1 ((X' - X) * (Z * W) ^ 2))
    (h8 : curve.residues.Is w8 ((Y' - Y) * (Z * W) ^ 3)) (h4 : curve.residues.Is w4 (X * (Z * W) ^ 2))
    (h5 : curve.residues.Is w5 (Y * (Z * W) ^ 3)) :
    curve.Shows (curve.chord P Q w1 w8 w4 w5)
      (Affine.Point.some X' Y' on' + Affine.Point.some X Y on) := by
  have two := E.two_ne_zero
  have both : Z * W ≠ 0 := mul_ne_zero unit unit'
  have nonzero : X' - X ≠ 0 := sub_ne_zero.mpr apart
  have z := is_denominator h1 hz hw
  have sum := h1.modadd (h4.modadd h4)
  have sum' := h8.modadd (h5.modadd h5)
  have w6 := (h1.modmult h1).modmult sum
  have x := (h8.modmult h8).modsub w6
  have w2 := h8.modmult ((w6.modsub x).modsub x)
  have y := (w2.modsub ((h1.modmult (h1.modmult h1)).modmult sum')).div2
  rw [Affine.Point.add_of_X_ne apart]
  refine .some _ (mul_ne_zero (mul_ne_zero unit' unit) (mul_ne_zero nonzero (pow_ne_zero 2 both))) ?_ ?_
    (.inr ⟨rfl, z⟩)
  · refine x.of_eq ?_
    rw [Affine.slope_of_X_ne apart, Affine.addX]
    field_simp
    ring
  · refine y.of_eq ?_
    rw [Affine.slope_of_X_ne apart, Affine.addY, Affine.negAddY, Affine.negY, Affine.addX]
    field_simp
    ring

end

theorem ecurvePadd_shows (p : curve.Shows P point) (pa : curve.Shows Q other) (finite : P.marker ≠ .infinity)
    (finite' : Q.marker ≠ .infinity) :
    (curve.ecurvePadd P Q = none ∧ point = other) ∨
      ∃ sum, curve.ecurvePadd P Q = some sum ∧ curve.Shows sum (other + point) := by
  cases p with
  | zero infinite => exact absurd infinite finite
  | @some X Y Z on unit hx hy hz =>
  cases pa with
  | zero infinite => exact absurd infinite finite'
  | @some X' Y' W on' unit' hx' hy' hw =>
    obtain ⟨h1, h8, h4, h5⟩ := is_crossed hz hw hx hy hx' hy'
    rw [ecurvePadd]
    generalize curve.crossed P Q = terms at h1 h8 h4 h5 ⊢
    obtain ⟨w1, w8, w4, w5⟩ := terms
    have both : Z * W ≠ 0 := mul_ne_zero unit unit'
    have same_x := h1.eq_zero_iff
    rw [mul_eq_zero, or_iff_left (pow_ne_zero 2 both), sub_eq_zero] at same_x
    have same_y := h8.eq_zero_iff
    rw [mul_eq_zero, or_iff_left (pow_ne_zero 3 both), sub_eq_zero] at same_y
    dsimp only at same_x same_y ⊢
    by_cases zero : w1 = 0
    · have equal := same_x.mp zero
      subst equal
      rw [if_pos zero]
      by_cases zero' : w8 = 0
      · have equal := same_y.mp zero'
        subst equal
        rw [if_pos zero']
        exact .inl ⟨rfl, rfl⟩
      · have opposite := (Affine.Y_eq_of_X_eq on'.1 on.1 rfl).resolve_left (mt same_y.mpr zero')
        rw [if_neg zero', Affine.Point.add_of_Y_eq rfl opposite]
        exact .inr ⟨_, rfl, atInfinity_shows Q⟩
    · rw [if_neg zero]
      exact .inr ⟨_, rfl, chord_shows unit unit' hz hw on on' (mt same_x.mpr zero) h1 h8 h4 h5⟩

theorem epointCopy_shows (shows : curve.Shows P point) (Q : Epoint) : curve.Shows (epointCopy P Q) point := by
  cases shows with
  | zero infinite => exact .zero infinite
  | some on unit hx hy hz =>
    refine .some on unit hx hy ?_
    obtain ⟨marker, one⟩ | ⟨marker, hz⟩ := hz
    · exact .inl ⟨marker, one⟩
    · refine .inr ⟨marker, ?_⟩
      rw [epointCopy, if_pos marker]
      exact hz

theorem ecurveAdd_shows (p : curve.Shows P point) (pa : curve.Shows Q other) :
    curve.Shows (curve.ecurveAdd P Q) (other + point) := by
  rw [ecurveAdd]
  split
  · next infinite =>
    cases pa with
    | zero => rw [zero_add]; exact epointCopy_shows p Q
    | some on unit hx hy hz => rcases hz with ⟨marker, -⟩ | ⟨marker, -⟩ <;> simp [marker] at infinite
  · next finite' =>
    split
    · next infinite =>
      cases p with
      | zero => rw [add_zero]; exact pa
      | some on unit hx hy hz => rcases hz with ⟨marker, -⟩ | ⟨marker, -⟩ <;> simp [marker] at infinite
    · next finite =>
      obtain ⟨refused, rfl⟩ | ⟨sum, added, shown⟩ := ecurvePadd_shows p pa finite finite'
      · rw [refused]
        exact ecurveDouble_shows pa
      · rw [added]
        exact shown

theorem epointNegate_shows (p : curve.Shows P point) : curve.Shows (curve.epointNegate P) (-point) := by
  rw [epointNegate]
  cases p with
  | zero infinite =>
    rw [if_pos infinite, neg_zero]
    exact .zero infinite
  | @some X Y Z on unit hx hy hz =>
    have finite : P.marker ≠ .infinity := by rcases hz with ⟨marker, -⟩ | ⟨marker, -⟩ <;> simp [marker]
    rw [if_neg finite]
    refine .some _ unit hx ?_ hz
    have negated := hy.negate
    have same : curve.residues.monty.nresNegate P.Y = if P.Y ≠ 0 then curve.monty.n - P.Y else P.Y := by
      rw [Monty.nresNegate, monty]
      split <;> simp_all
    rw [same] at negated
    refine negated.of_eq ?_
    simp only [Affine.negY]
    ring

theorem epointNegate_epointNegate (p : curve.Shows P point) : curve.epointNegate (curve.epointNegate P) = P := by
  cases p with
  | zero infinite => rw [epointNegate, epointNegate, if_pos infinite, if_pos infinite]
  | @some X Y Z on unit hx hy hz =>
    have finite : P.marker ≠ .infinity := by rcases hz with ⟨marker, -⟩ | ⟨marker, -⟩ <;> simp [marker]
    have below : P.Y < curve.monty.n := hy.lt.trans_eq curve.residues.modulus.symm
    rw [epointNegate, epointNegate, if_neg finite, if_neg finite]
    cases P with
    | mk x y z marker =>
      rw [Epoint.mk.injEq]
      refine ⟨rfl, ?_, rfl, rfl⟩
      dsimp only at below ⊢
      split_ifs <;> omega

theorem ecurveSub_shows (p : curve.Shows P point) (pa : curve.Shows Q other) :
    (curve.ecurveSub P Q).1 = P ∧ curve.Shows (curve.ecurveSub P Q).2 (other - point) := by
  rw [ecurveSub]
  split
  · next infinite =>
    cases p with
    | zero => rw [sub_zero]; exact ⟨rfl, pa⟩
    | some on unit hx hy hz => rcases hz with ⟨marker, -⟩ | ⟨marker, -⟩ <;> simp [marker] at infinite
  · rw [sub_eq_add_neg]
    exact ⟨epointNegate_epointNegate p, ecurveAdd_shows (epointNegate_shows p) pa⟩

theorem epointMultiNorm_shows {m : ℕ} {p : ℕ → Epoint} {points : ℕ → E.weierstrass.Point} (several : 2 ≤ m)
    (shows : ∀ i, i < m → curve.Shows (p i) (points i)) (finite : ∀ i, i < m → points i ≠ 0) :
    ∃ p', curve.epointMultiNorm m p = some p' ∧ ∀ i, i < m → curve.Shows (p' i) (points i) := by
  have coordinate (i : ℕ) : ∃ Z : ZMod E.p, i < m → Z ≠ 0 ∧
      curve.residues.Is (if (p i).marker = .normalized then curve.monty.one else (p i).Z) Z ∧
      ∃ X Y, ∃ on : E.weierstrass.Nonsingular X Y, points i = .some X Y on ∧
        curve.residues.Is (p i).X (X * Z ^ 2) ∧ curve.residues.Is (p i).Y (Y * Z ^ 3) := by
    by_cases inside : i < m
    · have shown := shows i inside
      have nonzero := finite i inside
      generalize points i = point at shown nonzero ⊢
      cases shown with
      | zero => exact absurd rfl nonzero
      | @some X Y Z on unit hx hy hz =>
        refine ⟨Z, fun _ => ⟨unit, ?_, X, Y, on, rfl, hx, hy⟩⟩
        obtain ⟨marker, one⟩ | ⟨marker, hz⟩ := hz
        · rw [if_pos marker, one]
          exact is_one
        · rw [if_neg (by rw [marker]; exact Marker.noConfusion)]
          exact hz
    · exact ⟨0, fun inside' => absurd inside' inside⟩
  choose Z spec using coordinate
  obtain ⟨work, run, inverse⟩ := Residues.is_multiInverse several (fun i inside => (spec i inside).2.1)
    (fun i inside => (spec i inside).1)
  rw [epointMultiNorm]
  change ∃ p', (curve.residues.monty.nresMultiInverse m _ >>= _) = some p' ∧ _
  rw [run]
  refine ⟨_, rfl, fun i inside => ?_⟩
  obtain ⟨unit, -, X, Y, on, same, hx, hy⟩ := spec i inside
  rw [same]
  exact shows_normalized on unit hx hy (inverse i inside)

end Ecurve
end MyTools.Miracl
