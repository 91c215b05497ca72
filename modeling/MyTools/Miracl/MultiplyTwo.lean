import MyTools.Miracl.JointForm
import MyTools.Miracl.Multiply

/-! `ecurve_mult2` of `mrcurve.c`: the sum of two multiples, with the digits of both scalars taken together. -/
namespace MyTools.Miracl
open Library SignedDigits
open WeierstrassCurve

/-- `p1`, `p2` and `ps`. -/
structure Joint where
  p1 : Epoint
  p2 : Epoint
  sum : Epoint
  difference : Epoint

namespace Ecurve
variable {E : Curve} (curve : Ecurve E)

/-- `t2` of `ecurve_add_sub`. -/
def gapInverse (P Q : Epoint) : ℕ :=
  curve.monty.nres (curve.monty.invmodp (curve.monty.redc (curve.monty.nresModsub P.X Q.X))).2

/-- `PP` and `PM` of `ecurve_add_sub`, and the points, which are changed back; `none` is
`MR_ERR_BAD_PARAMETERS`. -/
def ecurveAddSub (P Q : Epoint) : Option Joint :=
  if P.marker = .general ∨ Q.marker = .general then none
  else if P.X = Q.X then
    let PP := curve.ecurveAdd Q (epointCopy P .blank)
    let (Q, PM) := curve.ecurveSub Q (epointCopy P .blank)
    some ⟨P, Q, PP, PM⟩
  else
    let monty := curve.monty
    let t2 := curve.gapInverse P Q
    let sum := monty.nresModadd P.X Q.X
    let lam := monty.nresModmult (monty.nresModsub P.Y Q.Y) t2
    let X := monty.nresModsub (monty.nresModmult lam lam) sum
    let Y := monty.nresModsub (monty.nresModmult (monty.nresModsub Q.X X) lam) Q.Y
    let lam := monty.nresModmult (monty.nresModadd P.Y Q.Y) t2
    let X' := monty.nresModsub (monty.nresModmult lam lam) sum
    let Y' := monty.nresModadd (monty.nresModmult (monty.nresModsub Q.X X') lam) Q.Y
    some ⟨P, Q, ⟨X, Y, Epoint.blank.Z, .normalized⟩, ⟨X', Y', Epoint.blank.Z, .normalized⟩⟩

/-- What is done with the bits of both scalars at one place. -/
def addDigits (points : Joint) (e1 h1 e2 h2 : Bool) (pt : Epoint) : Joint × Epoint :=
  if e1 ≠ h1 then
    if e2 = h2 then
      if h1 then (points, curve.ecurveAdd points.p1 pt)
      else
        let (p1, pt) := curve.ecurveSub points.p1 pt
        ({ points with p1 }, pt)
    else if h1 then
      if h2 then (points, curve.ecurveAdd points.sum pt) else (points, curve.ecurveAdd points.difference pt)
    else if h2 then
      let (difference, pt) := curve.ecurveSub points.difference pt
      ({ points with difference }, pt)
    else
      let (sum, pt) := curve.ecurveSub points.sum pt
      ({ points with sum }, pt)
  else if e2 ≠ h2 then
    if h2 then (points, curve.ecurveAdd points.p2 pt)
    else
      let (p2, pt) := curve.ecurveSub points.p2 pt
      ({ points with p2 }, pt)
  else (points, pt)

/-- `while (bb >= 0)`, with `bb + 1` passes left. -/
def digits (form : Jsf) : (left : ℕ) → (points : Joint) → (pt : Epoint) → Epoint
  | 0, _, pt => pt
  | bb + 1, points, pt =>
    let pt := curve.ecurveDouble pt
    let (points, pt) := curve.addDigits points (form.u1m.testBit bb) (form.u1p.testBit bb) (form.u0m.testBit bb)
      (form.u0p.testBit bb) pt
    digits form bb points pt

/-- `logb2` -/
def bitLength (x : ℕ) : ℕ := if x = 0 then 0 else x.log2 + 1

/-- `none` is a pending error, or a digit stored behind a number. -/
def ecurveMult2 (e : ℤ) (p : Epoint) (ea : ℤ) (pa pt : Epoint) : Option Epoint :=
  if e = 0 then curve.ecurveMult ea pa pt
  else do
    let pa ← curve.epointNorm pa
    let p2 := epointCopy pa .blank
    let p2 := if ea < 0 then curve.epointNegate p2 else p2
    let p ← curve.epointNorm p
    let p1 := epointCopy p .blank
    let p1 := if e < 0 then curve.epointNegate p1 else p1
    let points ← curve.ecurveAddSub p1 p2
    let form ← mrJsf ea.natAbs e.natAbs
    let left := if form.u1p ≤ form.u0p then bitLength form.u0p else bitLength form.u1p
    some (curve.digits form left points (curve.atInfinity pt))

variable {curve : Ecurve E} {P Q R : Epoint} {p q point : E.weierstrass.Point}

theorem gapInverse_is {X X' : ZMod E.p} (hx : curve.residues.Is P.X X) (hx' : curve.residues.Is Q.X X')
    (apart : X ≠ X') : curve.residues.Is (curve.gapInverse P Q) (X - X')⁻¹ := by
  obtain ⟨-, value⟩ := Residues.invmodp_spec (r := curve.residues) (hx.modsub hx').redc (sub_ne_zero.mpr apart)
  have inverse : curve.residues.Is (curve.gapInverse P Q)
      (curve.residues.monty.invmodp (curve.residues.monty.redc (curve.residues.monty.nresModsub P.X Q.X))).2 :=
    Residues.is_nres _
  rwa [value] at inverse

structure Represents (curve : Ecurve E) (points : Joint) (p q : E.weierstrass.Point) : Prop where
  p1 : curve.Shows points.p1 p
  p2 : curve.Shows points.p2 q
  sum : curve.Shows points.sum (p + q)
  difference : curve.Shows points.difference (p - q)

theorem Shows.of_eq (shows : curve.Shows P p) (same : p = q) : curve.Shows P q := same ▸ shows

theorem Shows.affine (shows : curve.Shows P p) (normal : P.marker = .normalized) :
    ∃ X Y, ∃ on : E.weierstrass.Nonsingular X Y, p = .some X Y on ∧ curve.residues.Is P.X X ∧ curve.residues.Is P.Y Y := by
  cases shows with
  | zero infinite => rw [infinite] at normal; cases normal
  | @some X Y Z on unit hx hy hz =>
    obtain ⟨-, rfl⟩ | ⟨general, -⟩ := hz
    · rw [one_pow, mul_one] at hx hy
      exact ⟨X, Y, on, rfl, hx, hy⟩
    · rw [general] at normal
      cases normal

theorem ecurveAddSub_shows (hp : curve.Shows P p) (hq : curve.Shows Q q) (p_normal : P.marker = .normalized)
    (q_normal : Q.marker = .normalized) : ∃ points, curve.ecurveAddSub P Q = some points ∧ Represents curve points p q := by
  have neither : ¬(P.marker = .general ∨ Q.marker = .general) := by
    rw [p_normal, q_normal]
    decide
  rw [ecurveAddSub, if_neg neither]
  split
  · have sum := ecurveAdd_shows hq (epointCopy_shows hp .blank)
    obtain ⟨kept, difference⟩ := ecurveSub_shows hq (epointCopy_shows hp .blank)
    refine ⟨_, rfl, hp, ?_, sum, difference⟩
    change curve.Shows (curve.ecurveSub Q (epointCopy P .blank)).1 q
    rw [kept]
    exact hq
  · next different =>
    obtain ⟨X, Y, on, rfl, hx, hy⟩ := hp.affine p_normal
    obtain ⟨X', Y', on', rfl, hx', hy'⟩ := hq.affine q_normal
    have apart : X ≠ X' := mt (hx.eq_iff hx').mpr different
    have nonzero : X - X' ≠ 0 := sub_ne_zero.mpr apart
    have t2 := gapInverse_is hx hx' apart
    have sum := hx.modadd hx'
    refine ⟨_, rfl, hp, hq, ?_, ?_⟩
    · have lam := (hy.modsub hy').modmult t2
      have x := (lam.modmult lam).modsub sum
      have y := ((hx'.modsub x).modmult lam).modsub hy'
      rw [Affine.Point.add_of_X_ne apart]
      refine .some _ one_ne_zero (x.of_eq ?_) (y.of_eq ?_) (.inl ⟨rfl, rfl⟩)
      · rw [Affine.slope_of_X_ne apart, Affine.addX]
        field_simp
        ring
      · rw [Affine.slope_of_X_ne apart, Affine.addY, Affine.negAddY, Affine.negY, Affine.addX]
        field_simp
        ring
    · have lam := (hy.modadd hy').modmult t2
      have x := (lam.modmult lam).modsub sum
      have y := ((hx'.modsub x).modmult lam).modadd hy'
      rw [sub_eq_add_neg, Affine.Point.neg_some, Affine.Point.add_of_X_ne apart]
      refine .some _ one_ne_zero (x.of_eq ?_) (y.of_eq ?_) (.inl ⟨rfl, rfl⟩)
      · rw [Affine.slope_of_X_ne apart, Affine.addX, Affine.negY]
        field_simp
        ring
      · rw [Affine.slope_of_X_ne apart, Affine.addY, Affine.negAddY, Affine.negY, Affine.addX, Affine.negY]
        field_simp
        ring

theorem addDigits_shows {points : Joint} (represents : Represents curve points p q) (e1 h1 e2 h2 : Bool)
    (shows : curve.Shows R point) :
    Represents curve (curve.addDigits points e1 h1 e2 h2 R).1 p q ∧
      curve.Shows (curve.addDigits points e1 h1 e2 h2 R).2
        (point + ((h1.toNat - e1.toNat : ℤ) • p + (h2.toNat - e2.toNat : ℤ) • q)) := by
  have plus_p := ecurveAdd_shows represents.p1 shows
  have plus_q := ecurveAdd_shows represents.p2 shows
  have plus_sum := ecurveAdd_shows represents.sum shows
  have plus_difference := ecurveAdd_shows represents.difference shows
  obtain ⟨same_p, minus_p⟩ := ecurveSub_shows represents.p1 shows
  obtain ⟨same_q, minus_q⟩ := ecurveSub_shows represents.p2 shows
  obtain ⟨same_sum, minus_sum⟩ := ecurveSub_shows represents.sum shows
  obtain ⟨same_difference, minus_difference⟩ := ecurveSub_shows represents.difference shows
  have kept_p : Represents curve { points with p1 := (curve.ecurveSub points.p1 R).1 } p q := by rwa [same_p]
  have kept_q : Represents curve { points with p2 := (curve.ecurveSub points.p2 R).1 } p q := by rwa [same_q]
  have kept_sum : Represents curve { points with sum := (curve.ecurveSub points.sum R).1 } p q := by rwa [same_sum]
  have kept_difference : Represents curve
      { points with difference := (curve.ecurveSub points.difference R).1 } p q := by rwa [same_difference]
  match e1, h1, e2, h2 with
  | false, false, false, false => exact ⟨represents, shows.of_eq (by simp)⟩
  | false, false, true, true => exact ⟨represents, shows.of_eq (by simp)⟩
  | true, true, false, false => exact ⟨represents, shows.of_eq (by simp)⟩
  | true, true, true, true => exact ⟨represents, shows.of_eq (by simp)⟩
  | false, false, false, true => exact ⟨represents, plus_q.of_eq (by simp)⟩
  | true, true, false, true => exact ⟨represents, plus_q.of_eq (by simp)⟩
  | false, false, true, false => exact ⟨kept_q, minus_q.of_eq (by simp [sub_eq_add_neg])⟩
  | true, true, true, false => exact ⟨kept_q, minus_q.of_eq (by simp [sub_eq_add_neg])⟩
  | false, true, false, false => exact ⟨represents, plus_p.of_eq (by simp)⟩
  | false, true, true, true => exact ⟨represents, plus_p.of_eq (by simp)⟩
  | true, false, false, false => exact ⟨kept_p, minus_p.of_eq (by simp [sub_eq_add_neg])⟩
  | true, false, true, true => exact ⟨kept_p, minus_p.of_eq (by simp [sub_eq_add_neg])⟩
  | false, true, false, true => exact ⟨represents, plus_sum.of_eq (by simp)⟩
  | false, true, true, false => exact ⟨represents, plus_difference.of_eq (by simp [sub_eq_add_neg])⟩
  | true, false, false, true => exact ⟨kept_difference, minus_difference.of_eq (by simp; abel)⟩
  | true, false, true, false => exact ⟨kept_sum, minus_sum.of_eq (by simp; abel)⟩

theorem digits_shows (form : Jsf) (left : ℕ) {points : Joint} (represents : Represents curve points p q)
    (shows : curve.Shows R (upper form.u1p form.u1m left • p + upper form.u0p form.u0m left • q)) :
    curve.Shows (curve.digits form left points R) (upper form.u1p form.u1m 0 • p + upper form.u0p form.u0m 0 • q) := by
  induction left generalizing points R with
  | zero => exact shows
  | succ bb ih =>
    have doubled := ecurveDouble_shows shows
    obtain ⟨kept, added⟩ := addDigits_shows represents (form.u1m.testBit bb) (form.u1p.testBit bb)
      (form.u0m.testBit bb) (form.u0p.testBit bb) doubled
    refine ih kept ?_
    rw [upper_eq form.u1p form.u1m bb, upper_eq form.u0p form.u0m bb, add_zsmul, add_zsmul, two_mul, two_mul, add_zsmul,
      add_zsmul]
    refine added.of_eq ?_
    unfold digit
    abel

theorem lt_bitLength (x : ℕ) : x < 2 ^ bitLength x := by
  unfold bitLength
  split
  · next zero => rw [zero]; exact Nat.one_pos
  · exact Nat.lt_log2_self

theorem bitLength_mono {x y : ℕ} (order : x ≤ y) : x < 2 ^ bitLength y := order.trans_lt (lt_bitLength y)

theorem upper_top {form : Jsf} (below : form.u0m ≤ form.u0p) (below' : form.u1m ≤ form.u1p) :
    upper form.u1p form.u1m (if form.u1p ≤ form.u0p then bitLength form.u0p else bitLength form.u1p) = 0 ∧
      upper form.u0p form.u0m (if form.u1p ≤ form.u0p then bitLength form.u0p else bitLength form.u1p) = 0 := by
  split
  · next order =>
    exact ⟨upper_of_lt (bitLength_mono order) (bitLength_mono (below'.trans order)),
      upper_of_lt (lt_bitLength _) (bitLength_mono below)⟩
  · next order =>
    have order := (Nat.not_le.mp order).le
    exact ⟨upper_of_lt (lt_bitLength _) (bitLength_mono below'),
      upper_of_lt (bitLength_mono order) (bitLength_mono (below.trans order))⟩

theorem normal_shows (shows : curve.Shows P p) (nonzero : p ≠ 0) (e : ℤ) :
    ∃ P', curve.epointNorm P = some P' ∧
      curve.Shows (if e < 0 then curve.epointNegate (epointCopy P' .blank) else epointCopy P' .blank)
        (if e < 0 then -p else p) ∧
      (if e < 0 then curve.epointNegate (epointCopy P' .blank) else epointCopy P' .blank).marker = .normalized := by
  obtain ⟨P', norm, shown, marker⟩ := epointNorm_shows shows
  have normal : P'.marker = .normalized := by
    cases shown with
    | zero => exact absurd rfl nonzero
    | some on unit hx hy hz =>
      obtain ⟨normal, -⟩ | ⟨general, -⟩ := hz
      · exact normal
      · exact absurd general marker
  refine ⟨P', norm, signed_shows shown .blank e, ?_⟩
  have copied : (epointCopy P' .blank).marker = .normalized := normal
  split
  · rw [epointNegate]
    split
    · exact copied
    · exact copied
  · exact copied

theorem ecurveMult2_shows {e ea : ℤ} (room : 3 * e.natAbs < 2 ^ (32 * nib)) (room' : 3 * ea.natAbs < 2 ^ (32 * nib))
    (hp : curve.Shows P p) (hq : curve.Shows Q q) (old : Epoint) (finite : e ≠ 0 → p ≠ 0 ∧ q ≠ 0)
    (usable : e = 0 → 1 < ea.natAbs → ∀ i, i < storeN → (2 * i + 1) • q ≠ 0) :
    ∃ S, curve.ecurveMult2 e P ea Q old = some S ∧ curve.Shows S (e • p + ea • q) := by
  rw [ecurveMult2]
  split
  · next zero =>
    rw [zero, zero_zsmul, zero_add]
    exact ecurveMult_shows room' hq old (usable zero)
  · next nonzero =>
    obtain ⟨p_finite, q_finite⟩ := finite nonzero
    obtain ⟨Q', norm, shown, normal⟩ := normal_shows hq q_finite ea
    obtain ⟨P', norm', shown', normal'⟩ := normal_shows hp p_finite e
    obtain ⟨points, run, represents⟩ := ecurveAddSub_shows shown' shown normal' normal
    obtain ⟨form, digits, value, value'⟩ := mrJsf_value (room_for_digits room') (room_for_digits room)
    rw [norm, norm']
    dsimp only [Option.bind_eq_bind, Option.bind_some]
    rw [run, Option.bind_some, digits]
    refine ⟨_, rfl, ?_⟩
    -- the digits -1 make no larger number than the digits 1
    have below : form.u0m ≤ form.u0p := by omega
    have below' : form.u1m ≤ form.u1p := by omega
    obtain ⟨top, top'⟩ := upper_top below below'
    generalize (if form.u1p ≤ form.u0p then bitLength form.u0p else bitLength form.u1p) = left at top top' ⊢
    have start : curve.Shows (curve.atInfinity old) (upper form.u1p form.u1m left • (if e < 0 then -p else p) +
        upper form.u0p form.u0m left • (if ea < 0 then -q else q)) := by
      rw [top, top', zero_zsmul, zero_zsmul, add_zero]
      exact atInfinity_shows old
    have result := digits_shows form left represents start
    rwa [upper_zero, upper_zero, value, value', natAbs_zsmul_signed, natAbs_zsmul_signed] at result

theorem ecurveMult2_group (curve : Ecurve E) {P Q : E.Point} {x y x' y' : ℕ} (finite : P.coordinates = .affine x y)
    (finite' : Q.coordinates = .affine x' y') {e ea : ℤ}
    (room : 3 * e.natAbs < 2 ^ (32 * nib)) (room' : 3 * ea.natAbs < 2 ^ (32 * nib))
    (usable : e = 0 → 1 < ea.natAbs → ∀ i, i < storeN → (2 * i + 1) • Q ≠ 0) (p pa pt : Epoint) :
    ((curve.ecurveMult2 e (curve.epointSet x y p).2 ea (curve.epointSet x' y' pa).2 pt).bind curve.epointGet) =
      some (affineOf (e • P + ea • Q).coordinates) := by
  have first := curve.epointSet_group finite p
  have second := curve.epointSet_group finite' pa
  obtain ⟨R, run, shown⟩ := ecurveMult2_shows room room' first.2 second.2 pt
    (fun _ => ⟨point_ne_zero finite, point_ne_zero finite'⟩)
    (fun zero large i inside => nsmul_point_ne_zero (usable zero large i inside))
  rw [← Curve.Point.point_zsmul, ← Curve.Point.point_zsmul, ← Curve.Point.point_add] at shown
  rw [run]
  exact epointGet_affineOf shown

end Ecurve

/-- The joint digits of 5 and 3, with the second point subtracted. -/
theorem ecurveMult2_group_origin : ∃ curve : Ecurve five, ecurveInit five five_fits = some curve ∧
    (curve.ecurveMult2 5 (curve.epointSet 0 0 .blank).2 (-3) (curve.epointSet 0 0 .blank).2 .blank).bind curve.epointGet =
      some (Ecurve.affineOf ((5 : ℤ) • origin + (-3 : ℤ) • origin).coordinates) := by
  obtain ⟨curve, init⟩ := ecurveInit_some five five_fits
  exact ⟨curve, init, curve.ecurveMult2_group rfl rfl (lt_of_words (show 3 * 5 < 2 ^ (32 * 1) by decide) (by decide))
    (lt_of_words (show 3 * 3 < 2 ^ (32 * 1) by decide) (by decide)) (fun zero => absurd zero (by decide)) .blank .blank .blank⟩

end MyTools.Miracl
