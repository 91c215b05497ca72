import Mathlib.AlgebraicGeometry.EllipticCurve.Affine.Point
import MyTools.Library.Inverse

/-! Short Weierstrass curves over a prime field, computed on natural coordinates.
The arithmetic is executable; it is the chord and tangent law of Mathlib's affine
points, from which the group structure is taken over. -/
namespace MyTools.Library

/-- A curve `y² = x³ + a x + b` over the field of `p` elements. -/
structure Curve where
  p : ℕ
  a : ℕ
  b : ℕ
  prime : p.Prime
  large : 2 < p
  nonsingular : (4 * a ^ 3 + 27 * b ^ 2) % p ≠ 0

inductive Coordinates where
  | infinity
  | affine (x y : ℕ)
  deriving DecidableEq, Repr

namespace Curve
open Coordinates
open WeierstrassCurve

variable (E : Curve)

instance : Fact E.p.Prime := ⟨E.prime⟩

def plus (m n : ℕ) : ℕ := (m + n) % E.p
def minus (m n : ℕ) : ℕ := (m + (E.p - n % E.p)) % E.p
def times (m n : ℕ) : ℕ := m * n % E.p
def inverse (m : ℕ) : ℕ := Inverse.cofactor (m % E.p) E.p % E.p

theorem plus_lt (m n : ℕ) : E.plus m n < E.p := Nat.mod_lt _ E.prime.pos
theorem minus_lt (m n : ℕ) : E.minus m n < E.p := Nat.mod_lt _ E.prime.pos
theorem times_lt (m n : ℕ) : E.times m n < E.p := Nat.mod_lt _ E.prime.pos

theorem cast_mod (m : ℕ) : ((m % E.p : ℕ) : ZMod E.p) = m := ZMod.natCast_mod m E.p

@[simp] theorem cast_plus (m n : ℕ) : (E.plus m n : ZMod E.p) = m + n := by
  rw [plus, E.cast_mod, Nat.cast_add]

@[simp] theorem cast_times (m n : ℕ) : (E.times m n : ZMod E.p) = m * n := by
  rw [times, E.cast_mod, Nat.cast_mul]

@[simp] theorem cast_minus (m n : ℕ) : (E.minus m n : ZMod E.p) = m - n := by
  have small : n % E.p ≤ E.p := (Nat.mod_lt _ E.prime.pos).le
  rw [minus, E.cast_mod, Nat.cast_add, Nat.cast_sub small, ZMod.natCast_self, E.cast_mod]
  ring

theorem cast_inverse {m : ℕ} (unit : (m : ZMod E.p) ≠ 0) : (E.inverse m : ZMod E.p) = (m : ZMod E.p)⁻¹ := by
  rw [inverse, E.cast_mod, Inverse.cofactor_eq_inv E.p _ (by rwa [E.cast_mod]), E.cast_mod]

theorem cast_eq_iff {m n : ℕ} (hm : m < E.p) (hn : n < E.p) : (m : ZMod E.p) = n ↔ m = n := by
  rw [ZMod.natCast_eq_natCast_iff', Nat.mod_eq_of_lt hm, Nat.mod_eq_of_lt hn]

theorem cast_eq_zero_iff {m : ℕ} (hm : m < E.p) : (m : ZMod E.p) = 0 ↔ m = 0 := by
  rw [← Nat.cast_zero, E.cast_eq_iff hm E.prime.pos]

/-! Points. -/

def rhs (x : ℕ) : ℕ := (x * x * x + E.a * x + E.b) % E.p

def OnCurve : Coordinates → Prop
  | infinity => True
  | affine x y => x < E.p ∧ y < E.p ∧ y * y % E.p = E.rhs x

instance (P : Coordinates) : Decidable (E.OnCurve P) :=
  match P with
  | infinity => .isTrue trivial
  | affine x y => inferInstanceAs (Decidable (x < E.p ∧ y < E.p ∧ y * y % E.p = E.rhs x))

def neg : Coordinates → Coordinates
  | infinity => infinity
  | affine x y => affine x (E.minus 0 y)

/-- The third point of a line of the given slope, reflected. -/
def chord (slope x₁ x₂ y₁ : ℕ) : Coordinates :=
  let x := E.minus (E.minus (E.times slope slope) x₁) x₂
  affine x (E.minus (E.times slope (E.minus x₁ x)) y₁)

def add : Coordinates → Coordinates → Coordinates
  | infinity, Q => Q
  | P, infinity => P
  | affine x₁ y₁, affine x₂ y₂ =>
    if x₁ = x₂ then
      if E.plus y₁ y₂ = 0 then infinity else
        E.chord (E.times (E.plus (E.times 3 (E.times x₁ x₁)) E.a) (E.inverse (E.times 2 y₁))) x₁ x₂ y₁
    else E.chord (E.times (E.minus y₁ y₂) (E.inverse (E.minus x₁ x₂))) x₁ x₂ y₁

/-- Projective coordinates: `(x, y, z)` stands for `(x / z², y / z³)`, so that a
scalar multiple divides only once. -/
structure Jacobian where
  x : ℕ
  y : ℕ
  z : ℕ

def Jacobian.double (J : Jacobian) : Jacobian :=
  let yy := E.times J.y J.y
  let zz := E.times J.z J.z
  let s := E.times 4 (E.times J.x yy)
  let m := E.plus (E.times 3 (E.times J.x J.x)) (E.times E.a (E.times zz zz))
  let x := E.minus (E.times m m) (E.times 2 s)
  ⟨x, E.minus (E.times m (E.minus s x)) (E.times 8 (E.times yy yy)), E.times 2 (E.times J.y J.z)⟩

def Jacobian.addAffine (J : Jacobian) (x y : ℕ) : Jacobian :=
  if J.z = 0 then ⟨x, y, 1⟩ else
    let zz := E.times J.z J.z
    let h := E.minus (E.times x zz) J.x
    let r := E.minus (E.times y (E.times zz J.z)) J.y
    if h = 0 then (if r = 0 then J.double E else ⟨0, 0, 0⟩) else
      let hh := E.times h h
      let v := E.times J.x hh
      let x' := E.minus (E.minus (E.times r r) (E.times h hh)) (E.times 2 v)
      ⟨x', E.minus (E.times r (E.minus v x')) (E.times J.y (E.times h hh)), E.times h J.z⟩

def Jacobian.normalise (J : Jacobian) : Coordinates :=
  if J.z = 0 then infinity else
    let i := E.inverse J.z
    let ii := E.times i i
    affine (E.times J.x ii) (E.times J.y (E.times ii i))

/-- Double and add over the low `bits` bits of the scalar. -/
def ladder (x y : ℕ) : (bits k : ℕ) → Jacobian
  | 0, _ => ⟨0, 0, 0⟩
  | bits + 1, k =>
    let twice := (ladder x y bits (k / 2)).double E
    if k % 2 = 1 then twice.addAffine E x y else twice

def mul (k : ℕ) : Coordinates → Coordinates
  | infinity => infinity
  | affine x y => (E.ladder x y (k.log2 + 1) k).normalise E

/-! The points that the coordinates denote. -/

abbrev weierstrass : Affine (ZMod E.p) := ⟨0, 0, 0, E.a, E.b⟩

theorem two_ne_zero : (2 : ZMod E.p) ≠ 0 := by
  intro zero
  have two : 2 = 0 := (E.cast_eq_zero_iff E.large).mp (by exact_mod_cast zero)
  omega

theorem discriminant_ne_zero : WeierstrassCurve.Δ E.weierstrass ≠ 0 := by
  have base : (4 * E.a ^ 3 + 27 * E.b ^ 2 : ZMod E.p) ≠ 0 := by
    intro zero
    apply E.nonsingular
    have divides := (ZMod.natCast_eq_zero_iff (4 * E.a ^ 3 + 27 * E.b ^ 2) E.p).mp (by push_cast; exact zero)
    exact Nat.mod_eq_zero_of_dvd divides
  have value : WeierstrassCurve.Δ E.weierstrass = -2 ^ 4 * (4 * E.a ^ 3 + 27 * E.b ^ 2) := by
    simp only [WeierstrassCurve.Δ, WeierstrassCurve.b₂, WeierstrassCurve.b₄, WeierstrassCurve.b₆,
      WeierstrassCurve.b₈]
    ring
  rw [value]
  exact mul_ne_zero (neg_ne_zero.mpr (pow_ne_zero 4 E.two_ne_zero)) base

theorem equation_iff (X Y : ZMod E.p) : E.weierstrass.Equation X Y ↔ Y ^ 2 = X ^ 3 + E.a * X + E.b := by
  rw [Affine.equation_iff]
  constructor <;> intro h <;> linear_combination h

theorem equation_cast (x y : ℕ) :
    E.weierstrass.Equation (x : ZMod E.p) y ↔ y * y % E.p = E.rhs x := by
  rw [rhs, ← Nat.ModEq, ← ZMod.natCast_eq_natCast_iff, equation_iff]
  push_cast
  constructor <;> intro h <;> linear_combination h

theorem OnCurve.nonsingular {x y : ℕ} (on : E.OnCurve (affine x y)) :
    E.weierstrass.Nonsingular (x : ZMod E.p) y :=
  (Affine.equation_iff_nonsingular_of_Δ_ne_zero E.discriminant_ne_zero).mp
    ((E.equation_cast x y).mpr on.2.2)

def toPoint : (P : Coordinates) → E.OnCurve P → E.weierstrass.Point
  | infinity, _ => 0
  | affine x y, on => .some (x : ZMod E.p) (y : ZMod E.p) (OnCurve.nonsingular E on)

/-- The coordinates are reduced, lie on the curve and denote the given point. -/
def Denotes (P : Coordinates) (point : E.weierstrass.Point) : Prop :=
  ∃ on : E.OnCurve P, E.toPoint P on = point

theorem zero_denotes : E.Denotes infinity 0 := ⟨trivial, rfl⟩

theorem affine_denotes {x y : ℕ} {X Y : ZMod E.p} (hx : x < E.p) (hy : y < E.p)
    (sameX : (x : ZMod E.p) = X) (sameY : (y : ZMod E.p) = Y) (point : E.weierstrass.Nonsingular X Y) :
    E.Denotes (affine x y) (.some X Y point) := by
  subst sameX sameY
  exact ⟨⟨hx, hy, (E.equation_cast x y).mp point.1⟩, rfl⟩

theorem Denotes.neg {P : Coordinates} {point : E.weierstrass.Point} (denotes : E.Denotes P point) :
    E.Denotes (E.neg P) (-point) := by
  obtain ⟨on, rfl⟩ := denotes
  cases P with
  | infinity => exact E.zero_denotes
  | affine x y =>
    refine E.affine_denotes on.1 (E.minus_lt _ _) rfl ?_ _
    simp [Affine.negY]

theorem chord_denotes {slope x₁ x₂ y₁ : ℕ} {ℓ : ZMod E.p} (same : (slope : ZMod E.p) = ℓ)
    (point : E.weierstrass.Nonsingular (E.weierstrass.addX (x₁ : ZMod E.p) x₂ ℓ)
      (E.weierstrass.addY (x₁ : ZMod E.p) x₂ y₁ ℓ)) :
    E.Denotes (E.chord slope x₁ x₂ y₁) (.some _ _ point) := by
  subst same
  refine E.affine_denotes (E.minus_lt _ _) (E.minus_lt _ _) ?_ ?_ point
  · simp only [cast_minus, cast_times, Affine.addX]
    ring
  · simp only [cast_minus, cast_times, Affine.addY, Affine.negAddY, Affine.negY, Affine.addX]
    ring

theorem opposite_iff (y₁ y₂ : ℕ) (x : ZMod E.p) :
    (y₁ : ZMod E.p) = E.weierstrass.negY x y₂ ↔ E.plus y₁ y₂ = 0 := by
  rw [← E.cast_eq_zero_iff (E.plus_lt y₁ y₂), cast_plus]
  simp [Affine.negY, eq_neg_iff_add_eq_zero]

theorem Denotes.add {P Q : Coordinates} {p q : E.weierstrass.Point}
    (hp : E.Denotes P p) (hq : E.Denotes Q q) : E.Denotes (E.add P Q) (p + q) := by
  obtain ⟨onP, rfl⟩ := hp
  obtain ⟨onQ, rfl⟩ := hq
  cases P with
  | infinity => rw [show E.toPoint infinity onP = 0 from rfl, zero_add]; exact ⟨onQ, rfl⟩
  | affine x₁ y₁ =>
    cases Q with
    | infinity => rw [show E.toPoint infinity onQ = 0 from rfl, add_zero]; exact ⟨onP, rfl⟩
    | affine x₂ y₂ =>
      have same_x : (x₁ : ZMod E.p) = x₂ ↔ x₁ = x₂ := E.cast_eq_iff onP.1 onQ.1
      have opposite := E.opposite_iff y₁ y₂ (x₂ : ZMod E.p)
      simp only [toPoint, Curve.add]
      split
      · rename_i equal
        split
        · rename_i inverse
          rw [Affine.Point.add_of_Y_eq (same_x.mpr equal) (opposite.mpr inverse)]
          exact E.zero_denotes
        · rename_i other
          have apart := mt opposite.mp other
          have same_y := Affine.Y_eq_of_Y_ne (OnCurve.nonsingular E onP).1 (OnCurve.nonsingular E onQ).1
            (same_x.mpr equal) apart
          have unit : (E.times 2 y₁ : ZMod E.p) ≠ 0 := by
            intro zero
            rw [cast_times, Nat.cast_ofNat] at zero
            apply apart
            simp only [Affine.negY, ← same_y]
            linear_combination zero
          rw [Affine.Point.add_of_Y_ne apart]
          refine E.chord_denotes ?_ _
          rw [cast_times, E.cast_inverse unit, Affine.slope_of_Y_ne (same_x.mpr equal) apart, div_eq_mul_inv]
          simp only [cast_plus, cast_times, Nat.cast_ofNat, Affine.negY]
          congr 1
          · ring
          · congr 1; ring
      · rename_i different
        have apart := mt same_x.mp different
        rw [Affine.Point.add_of_X_ne apart]
        refine E.chord_denotes ?_ _
        rw [cast_times, E.cast_inverse (by rwa [cast_minus, sub_ne_zero]), Affine.slope_of_X_ne apart,
          div_eq_mul_inv, cast_minus, cast_minus]

/-- Reduced projective coordinates stand for the affine point they are a multiple of. -/
structure Stands (J : Jacobian) (point : E.weierstrass.Point) : Prop where
  x_lt : J.x < E.p
  y_lt : J.y < E.p
  z_lt : J.z < E.p
  value : (J.z = 0 ∧ point = 0) ∨ (J.z ≠ 0 ∧ ∃ X Y, ∃ on : E.weierstrass.Nonsingular X Y,
    point = .some X Y on ∧ (J.x : ZMod E.p) = X * J.z ^ 2 ∧ (J.y : ZMod E.p) = Y * J.z ^ 3)

theorem stands_zero : E.Stands ⟨0, 0, 0⟩ 0 :=
  ⟨E.prime.pos, E.prime.pos, E.prime.pos, .inl ⟨rfl, rfl⟩⟩

theorem Stands.double {J : Jacobian} {point : E.weierstrass.Point} (stands : E.Stands J point) :
    E.Stands (J.double E) (point + point) := by
  have z_lt : (J.double E).z < E.p := E.times_lt _ _
  refine ⟨E.minus_lt _ _, E.minus_lt _ _, z_lt, ?_⟩
  obtain ⟨zero, rfl⟩ | ⟨nonzero, X, Y, on, rfl, hx, hy⟩ := stands.value
  · refine .inl ⟨?_, add_zero 0⟩
    simp [Jacobian.double, zero, times]
  · have hz : (J.z : ZMod E.p) ≠ 0 := mt (E.cast_eq_zero_iff stands.z_lt).mp nonzero
    have z' : ((J.double E).z : ZMod E.p) = 2 * (Y * J.z ^ 3 * J.z) := by
      simp only [Jacobian.double, cast_times, Nat.cast_ofNat, hy]
    by_cases flat : Y = 0
    · have self : Y = E.weierstrass.negY X Y := by simp [Affine.negY, flat]
      refine .inl ⟨?_, Affine.Point.add_self_of_Y_eq self⟩
      rw [← E.cast_eq_zero_iff z_lt, z', flat]
      ring
    · have apart : Y ≠ E.weierstrass.negY X Y := by
        intro self
        have sum : 2 * Y = 0 := by linear_combination (self.trans (by simp [Affine.negY]) : Y = -Y)
        exact (mul_ne_zero E.two_ne_zero flat) sum
      have two := E.two_ne_zero
      have tangent : E.weierstrass.slope X X Y Y = (3 * X ^ 2 + E.a) / (2 * Y) := by
        rw [Affine.slope_of_Y_ne rfl apart]
        simp only [Affine.negY]
        congr 1 <;> ring
      refine .inr ⟨?_, _, _, _, Affine.Point.add_self_of_Y_ne apart, ?_, ?_⟩
      · rw [ne_eq, ← E.cast_eq_zero_iff z_lt, z']
        exact mul_ne_zero two (mul_ne_zero (mul_ne_zero flat (pow_ne_zero 3 hz)) hz)
      · rw [z', Affine.addX, tangent]
        simp only [Jacobian.double, cast_minus, cast_plus, cast_times, Nat.cast_ofNat, hx, hy]
        field_simp
        ring
      · rw [z', Affine.addY, Affine.negAddY, Affine.negY, Affine.addX, tangent]
        simp only [Jacobian.double, cast_minus, cast_plus, cast_times, Nat.cast_ofNat, hx, hy]
        field_simp
        ring

theorem Stands.addAffine {J : Jacobian} {point : E.weierstrass.Point} (stands : E.Stands J point)
    {x y : ℕ} (other : E.OnCurve (affine x y)) :
    E.Stands (J.addAffine E x y) (point + E.toPoint (affine x y) other) := by
  unfold Jacobian.addAffine
  split
  · rename_i zero
    obtain ⟨_, rfl⟩ | ⟨nonzero, _⟩ := stands.value
    · have one := Nat.lt_trans Nat.one_lt_two E.large
      rw [zero_add]
      exact ⟨other.1, other.2.1, one, .inr ⟨one_ne_zero, _, _, OnCurve.nonsingular E other, rfl, by simp, by simp⟩⟩
    · exact absurd zero nonzero
  · rename_i nonzero
    obtain ⟨zero, _⟩ | ⟨_, X, Y, on, rfl, hx, hy⟩ := stands.value
    · exact absurd zero nonzero
    have hz : (J.z : ZMod E.p) ≠ 0 := mt (E.cast_eq_zero_iff stands.z_lt).mp nonzero
    have h_cast : (E.minus (E.times x (E.times J.z J.z)) J.x : ZMod E.p) = (x - X) * J.z ^ 2 := by
      simp only [cast_minus, cast_times, hx]; ring
    have r_cast : (E.minus (E.times y (E.times (E.times J.z J.z) J.z)) J.y : ZMod E.p) = (y - Y) * J.z ^ 3 := by
      simp only [cast_minus, cast_times, hy]; ring
    have h_zero : E.minus (E.times x (E.times J.z J.z)) J.x = 0 ↔ X = x := by
      rw [← E.cast_eq_zero_iff (E.minus_lt _ _), h_cast, mul_eq_zero, or_iff_left (pow_ne_zero 2 hz),
        sub_eq_zero, eq_comm]
    have r_zero : E.minus (E.times y (E.times (E.times J.z J.z) J.z)) J.y = 0 ↔ Y = y := by
      rw [← E.cast_eq_zero_iff (E.minus_lt _ _), r_cast, mul_eq_zero, or_iff_left (pow_ne_zero 3 hz),
        sub_eq_zero, eq_comm]
    dsimp only
    split
    · rename_i same
      have sameX := h_zero.mp same
      split
      · rename_i equal
        have sameY := r_zero.mp equal
        subst sameX sameY
        exact stands.double E
      · rename_i apart
        have opposite := (Affine.Y_eq_of_X_eq on.1 (OnCurve.nonsingular E other).1 sameX).resolve_left
          (mt r_zero.mpr apart)
        rw [toPoint, Affine.Point.add_of_Y_eq sameX opposite]
        exact E.stands_zero
    · rename_i different
      have apart := mt h_zero.mpr different
      have gap : (x - X : ZMod E.p) ≠ 0 := sub_ne_zero.mpr (Ne.symm apart)
      have gap' : (X - x : ZMod E.p) ≠ 0 := sub_ne_zero.mpr apart
      have flip : (X - x : ZMod E.p) = -(x - X) := (neg_sub _ _).symm
      refine ⟨E.minus_lt _ _, E.minus_lt _ _, E.times_lt _ _,
        .inr ⟨?_, _, _, _, Affine.Point.add_of_X_ne apart, ?_, ?_⟩⟩
      · rw [ne_eq, ← E.cast_eq_zero_iff (E.times_lt _ _), cast_times, h_cast]
        exact mul_ne_zero (mul_ne_zero gap (pow_ne_zero 2 hz)) hz
      · rw [Affine.slope_of_X_ne apart]
        simp only [cast_minus, cast_times, Nat.cast_ofNat, hx, hy, Affine.addX]
        rw [flip]
        field_simp
        ring
      · rw [Affine.slope_of_X_ne apart]
        simp only [cast_minus, cast_times, Nat.cast_ofNat, hx, hy, Affine.addX, Affine.addY,
          Affine.negAddY, Affine.negY]
        rw [flip]
        field_simp
        ring

theorem Stands.ladder {x y : ℕ} (on : E.OnCurve (affine x y)) (bits k : ℕ) (fits : k < 2 ^ bits) :
    E.Stands (E.ladder x y bits k) (k • E.toPoint (affine x y) on) := by
  induction bits generalizing k with
  | zero =>
    have zero : k = 0 := by simpa using fits
    rw [zero, zero_nsmul]
    exact E.stands_zero
  | succ bits ih =>
    have twice := (ih (k / 2) (by rw [pow_succ] at fits; omega)).double E
    rw [← add_nsmul] at twice
    unfold Curve.ladder
    rcases Nat.mod_two_eq_zero_or_one k with even | odd
    · rw [show k / 2 + k / 2 = k by omega] at twice
      simpa only [even, zero_ne_one, if_false] using twice
    · have sum := twice.addAffine E on
      rw [← succ_nsmul, show k / 2 + k / 2 + 1 = k by omega] at sum
      simpa only [odd, if_true] using sum

theorem Stands.normalise {J : Jacobian} {point : E.weierstrass.Point} (stands : E.Stands J point) :
    E.Denotes (J.normalise E) point := by
  unfold Jacobian.normalise
  obtain ⟨zero, rfl⟩ | ⟨nonzero, X, Y, on, rfl, hx, hy⟩ := stands.value
  · rw [if_pos zero]
    exact E.zero_denotes
  · have hz : (J.z : ZMod E.p) ≠ 0 := mt (E.cast_eq_zero_iff stands.z_lt).mp nonzero
    rw [if_neg nonzero]
    refine E.affine_denotes (E.times_lt _ _) (E.times_lt _ _) ?_ ?_ on
    · rw [cast_times, cast_times, E.cast_inverse hz, hx]
      field_simp
    · rw [cast_times, cast_times, cast_times, E.cast_inverse hz, hy]
      field_simp

theorem Denotes.mul {P : Coordinates} {point : E.weierstrass.Point} (denotes : E.Denotes P point) (k : ℕ) :
    E.Denotes (E.mul k P) (k • point) := by
  obtain ⟨on, rfl⟩ := denotes
  cases P with
  | infinity => rw [show E.toPoint infinity on = 0 from rfl, nsmul_zero]; exact E.zero_denotes
  | affine x y => exact (Stands.ladder E on _ k Nat.lt_log2_self).normalise E

theorem denotes_self {P : Coordinates} (on : E.OnCurve P) : E.Denotes P (E.toPoint P on) := ⟨on, rfl⟩

/-- A point of the curve: coordinates with the evidence that they lie on it. -/
structure Point where
  coordinates : Coordinates
  on_curve : E.OnCurve coordinates

namespace Point
variable {E}

@[ext] theorem ext {P Q : E.Point} (same : P.coordinates = Q.coordinates) : P = Q := by
  cases P; cases Q; cases same; rfl

def point (P : E.Point) : E.weierstrass.Point := E.toPoint P.coordinates P.on_curve

theorem point_injective : Function.Injective (point : E.Point → E.weierstrass.Point) := by
  rintro ⟨P, onP⟩ ⟨Q, onQ⟩ same
  apply Point.ext
  change E.toPoint P onP = E.toPoint Q onQ at same
  cases P with
  | infinity =>
    cases Q with
    | infinity => rfl
    | affine x y => exact absurd same (by simp [toPoint])
  | affine x₁ y₁ =>
    cases Q with
    | infinity => exact absurd same (by simp [toPoint])
    | affine x₂ y₂ =>
      simp only [toPoint, Affine.Point.some.injEq, E.cast_eq_iff onP.1 onQ.1,
        E.cast_eq_iff onP.2.1 onQ.2.1] at same
      exact congrArg₂ affine same.1 same.2

instance : DecidableEq E.Point := fun P Q =>
  decidable_of_iff (P.coordinates = Q.coordinates) ⟨Point.ext, congrArg coordinates⟩

instance : Zero E.Point := ⟨infinity, trivial⟩
instance : Neg E.Point := ⟨fun P => ⟨E.neg P.coordinates, ((E.denotes_self P.on_curve).neg E).fst⟩⟩
instance : Add E.Point :=
  ⟨fun P Q => ⟨E.add P.coordinates Q.coordinates,
    ((E.denotes_self P.on_curve).add E (E.denotes_self Q.on_curve)).fst⟩⟩
instance : Sub E.Point := ⟨fun P Q => P + -Q⟩
instance : SMul ℕ E.Point :=
  ⟨fun k P => ⟨E.mul k P.coordinates, ((E.denotes_self P.on_curve).mul E k).fst⟩⟩
instance : SMul ℤ E.Point := ⟨fun k P => if 0 ≤ k then k.toNat • P else -(k.natAbs • P)⟩

theorem point_zero : (0 : E.Point).point = 0 := rfl
theorem point_neg (P : E.Point) : (-P).point = -P.point := ((E.denotes_self P.on_curve).neg E).snd
theorem point_add (P Q : E.Point) : (P + Q).point = P.point + Q.point :=
  ((E.denotes_self P.on_curve).add E (E.denotes_self Q.on_curve)).snd
theorem point_sub (P Q : E.Point) : (P - Q).point = P.point - Q.point := by
  rw [sub_eq_add_neg, ← point_neg, ← point_add]; rfl
theorem point_nsmul (k : ℕ) (P : E.Point) : (k • P).point = k • P.point :=
  ((E.denotes_self P.on_curve).mul E k).snd
theorem point_zsmul (k : ℤ) (P : E.Point) : (k • P).point = k • P.point := by
  change (if 0 ≤ k then k.toNat • P else -(k.natAbs • P)).point = k • P.point
  split
  · rename_i positive
    rw [point_nsmul, ← natCast_zsmul, Int.toNat_of_nonneg positive]
  · rw [point_neg, point_nsmul, ← natCast_zsmul, ← neg_zsmul]
    congr 1; omega

/-- The executable operations form the group of the curve. -/
instance : AddCommGroup E.Point :=
  point_injective.addCommGroup point point_zero point_add point_neg point_sub
    (fun P k => point_nsmul k P) (fun P k => point_zsmul k P)

theorem coordinates_nsmul (k : ℕ) (P : E.Point) : (k • P).coordinates = E.mul k P.coordinates := rfl

end Point
end Curve
end MyTools.Library
