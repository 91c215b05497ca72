import MyTools.Miracl.MultiplyTwo
import MyTools.Sm2.Miracl

/-! The scalar multiple of the protocols, with exact points, is what the library computes with projective
coordinates and signed windows. -/
namespace MyTools.Sm2
open Library
open MyTools.Miracl (nib lt_of_words)

theorem store_lt_n {i : ℕ} (inside : i < Miracl.storeN) : 2 * i + 1 < n := by
  have large : 15 < n := by norm_num [n]
  unfold Miracl.storeN at inside
  omega

theorem ne_zero_of_affine {P : Point} {x y : ℕ} (finite : P.coordinates = .affine x y) : P ≠ 0 := by
  intro zero
  rw [zero] at finite
  exact Coordinates.noConfusion finite

/-- The odd multiples in the table are not at infinity, since the order of the point is a large prime. -/
theorem odd_nsmul_ne_zero {P : Point} (order : n • P = 0) (nonzero : P ≠ 0) {i : ℕ} (inside : i < Miracl.storeN) :
    (2 * i + 1) • P ≠ 0 := by
  have exact_order : addOrderOf P = n := addOrderOf_eq_prime order nonzero
  intro zero
  have divides := addOrderOf_dvd_of_nsmul_eq_zero zero
  rw [exact_order] at divides
  have small := store_lt_n inside
  exact absurd (Nat.le_of_dvd (by omega) divides) (by omega)

theorem ecc256_fits : 2 * ecc256.p ≤ 2 ^ (32 * nib) :=
  (lt_of_words (show 2 * p < 2 ^ (32 * 9) by decide +kernel) (by decide)).le

/-- `ecurve_mult` on a point of the group, from `epoint_set` to `epoint_get`. -/
theorem ecurveMult_refines (curve : Miracl.Ecurve ecc256) {P : Point} (order : n • P = 0) {x y : ℕ}
    (finite : P.coordinates = .affine x y) {e : ℕ} (room : 3 * e < 2 ^ (32 * nib)) (pa pt : Miracl.Epoint) (old : Point) :
    ∃ Q, (Miracl.ecurveMult e P old).run mirsys = some (Q, mirsys) ∧
      (curve.ecurveMult e (curve.epointSet x y pa).2 pt).bind curve.epointGet =
        some (Miracl.Ecurve.affineOf Q.coordinates) := by
  refine ⟨e • P, Miracl.ecurveMult_room room P old, ?_⟩
  rw [← natCast_zsmul]
  exact (curve.ecurveMult_group finite (e := e) room
    (fun _ i inside => odd_nsmul_ne_zero order (ne_zero_of_affine finite) inside) pa pt).2

theorem thousand_room : 3 * 1000 < 2 ^ (32 * nib) := lt_of_words (show 3 * 1000 < 2 ^ (32 * 1) by decide) (by decide)

theorem ecurveMult_refines_base : ∃ curve : Miracl.Ecurve ecc256, Miracl.ecurveInit ecc256 ecc256_fits = some curve ∧
    ∃ Q, (Miracl.ecurveMult 1000 base 0).run mirsys = some (Q, mirsys) ∧
      (curve.ecurveMult 1000 (curve.epointSet gx gy .blank).2 .blank).bind curve.epointGet =
        some (Miracl.Ecurve.affineOf Q.coordinates) := by
  obtain ⟨curve, init⟩ := Miracl.ecurveInit_some ecc256 ecc256_fits
  exact ⟨curve, init, ecurveMult_refines curve n_nsmul_base rfl thousand_room .blank .blank 0⟩

/-- `ecurve_mult2`, with which a signature is verified. -/
theorem ecurveMult2_refines (curve : Miracl.Ecurve ecc256) {P Q : Point} (order : n • Q = 0) {x y x' y' : ℕ}
    (finite : P.coordinates = .affine x y) (finite' : Q.coordinates = .affine x' y') {e ea : ℕ}
    (room : 3 * e < 2 ^ (32 * nib)) (room' : 3 * ea < 2 ^ (32 * nib)) (p pa pt : Miracl.Epoint) (old : Point) :
    ∃ R, (Miracl.ecurveMult2 e P ea Q old).run mirsys = some (R, mirsys) ∧
      (curve.ecurveMult2 e (curve.epointSet x y p).2 ea (curve.epointSet x' y' pa).2 pt).bind curve.epointGet =
        some (Miracl.Ecurve.affineOf R.coordinates) := by
  refine ⟨e • P + ea • Q, Miracl.ecurveMult2_room room room' P Q old, ?_⟩
  rw [← natCast_zsmul, ← natCast_zsmul]
  have signed : 3 * (e : ℤ).natAbs < 2 ^ (32 * nib) := room
  have signed' : 3 * (ea : ℤ).natAbs < 2 ^ (32 * nib) := room'
  exact curve.ecurveMult2_group finite finite' signed signed'
    (fun _ _ i inside => odd_nsmul_ne_zero order (ne_zero_of_affine finite') inside) p pa pt

theorem ecurveMult2_refines_base : ∃ curve : Miracl.Ecurve ecc256, Miracl.ecurveInit ecc256 ecc256_fits = some curve ∧
    ∃ R, (Miracl.ecurveMult2 1000 base 3 base 0).run mirsys = some (R, mirsys) ∧
      (curve.ecurveMult2 1000 (curve.epointSet gx gy .blank).2 3 (curve.epointSet gx gy .blank).2 .blank).bind
        curve.epointGet = some (Miracl.Ecurve.affineOf R.coordinates) := by
  obtain ⟨curve, init⟩ := Miracl.ecurveInit_some ecc256 ecc256_fits
  have three_room : 3 * 3 < 2 ^ (32 * nib) := lt_of_words (show 3 * 3 < 2 ^ (32 * 1) by decide) (by decide)
  exact ⟨curve, init, ecurveMult2_refines curve n_nsmul_base rfl rfl thousand_room three_room .blank .blank .blank 0⟩

end MyTools.Sm2
