import Mathlib.Algebra.BigOperators.Intervals
import Mathlib.Algebra.Field.ZMod
import Mathlib.Tactic.FieldSimp
import Mathlib.Tactic.LinearCombination
import MyTools.Miracl.Redc

/-! Arithmetic with n-residues, the numbers that stand for an element of the field times the power of
the radix: the routines of `mrmonty.c`, and which element their results stand for. -/
namespace MyTools.Miracl
open Library

namespace Monty
variable (monty : Monty)

def nres (x : ℕ) : ℕ := x % monty.n * radix ^ monty.rn % monty.n

/-- `mr_mip->one` -/
def one : ℕ := monty.nres 1

def nresModadd (x y : ℕ) : ℕ := if monty.n ≤ x + y then x + y - monty.n else x + y

def nresModsub (x y : ℕ) : ℕ := if y ≤ x then x - y else monty.n - (y - x)

def nresNegate (x : ℕ) : ℕ := if x = 0 then 0 else monty.n - x

def nresModmult (x y : ℕ) : ℕ := if x = 0 ∨ y = 0 then 0 else monty.redc (x * y)

def nresDiv2 (x : ℕ) : ℕ := (if x % 2 ≠ 0 then x + monty.n else x) / 2

/-- The multiples that `nres_premult` adds up itself. -/
def premultSmall (x : ℕ) : (k : ℕ) → ℕ
  | 1 => x
  | 2 => monty.nresModadd x x
  | 3 => monty.nresModadd x (monty.nresModadd x x)
  | 4 => monty.nresModadd (monty.nresModadd x x) (monty.nresModadd x x)
  | 5 => monty.nresModadd x (monty.nresModadd (monty.nresModadd x x) (monty.nresModadd x x))
  | 6 => monty.nresModadd (monty.nresModadd x x) (monty.nresModadd (monty.nresModadd x x) (monty.nresModadd x x))
  | k => x * k % monty.n

def nresPremult (x : ℕ) (k : ℤ) : ℕ :=
  if k = 0 then 0
  else
    let w := monty.premultSmall x k.natAbs
    if k < 0 then monty.nresNegate w else w

def invmodp (x : ℕ) : ℕ × ℕ := (Nat.gcd x monty.n, Inverse.cofactor x monty.n)

def nresModdiv (x y : ℕ) : ℕ × ℕ :=
  let (gcd, w6) := monty.invmodp (monty.redc y)
  (gcd, if gcd ≠ 1 then 0 else monty.nresModmult x (monty.nres w6))

/-- `w[i]` of `nres_multi_inverse` on the way up. -/
def multiUp (x : ℕ → ℕ) : (i : ℕ) → ℕ
  | 0 => 1
  | 1 => x 0
  | i + 2 => monty.nresModmult (multiUp x (i + 1)) (x (i + 1))

/-- `w5` on the way down, after `count` steps from `x[m-1]`. -/
def multiDown (x : ℕ → ℕ) (m : ℕ) : (count : ℕ) → ℕ
  | 0 => x (m - 1)
  | count + 1 => monty.nresModmult (multiDown x m count) (x (m - 2 - count))

/-- `nres_multi_inverse` for `m` at least 2; `none` is `MR_ERR_DIV_BY_ZERO`. -/
def nresMultiInverse (m : ℕ) (x : ℕ → ℕ) : Option (ℕ → ℕ) :=
  let w6 := monty.nresModmult (monty.multiUp x (m - 1)) (x (m - 1))
  if w6 = 0 then none
  else
    let w6 := (monty.invmodp (monty.redc (monty.redc w6))).2
    some fun i =>
      if i = m - 1 then monty.nresModmult (monty.multiUp x (m - 1)) w6
      else if i = 0 then monty.nresModmult (monty.multiDown x m (m - 2)) w6
      else monty.nresModmult (monty.nresModmult (monty.multiUp x i) (monty.multiDown x m (m - 2 - i))) w6

end Monty

structure Residues (p : ℕ) where
  monty : Monty
  modulus : monty.n = p

variable {p : ℕ} [Fact p.Prime]

/-- What an element is multiplied with. -/
def Residues.R (r : Residues p) : ZMod p := (radix : ZMod p) ^ r.monty.rn

/-- The number is the n-residue of the element. -/
structure Residues.Is (r : Residues p) (x : ℕ) (v : ZMod p) : Prop where
  lt : x < p
  value : (x : ZMod p) = v * r.R

namespace Residues

omit [Fact p.Prime] in
theorem odd (r : Residues p) : p % 2 = 1 := by
  obtain ⟨rest, whole⟩ := number_from r.monty.modulus r.monty.positive
  have start : number r.monty.modulus 0 = 0 := rfl
  rw [start, Nat.zero_add, Nat.pow_zero, Nat.one_mul] at whole
  have inverse := congrArg UInt32.toNat r.monty.negative_inverse
  rw [UInt32.toNat_add, UInt32.toNat_mul] at inverse
  have low : (r.monty.modulus 0).toNat % 2 = 1 := by
    by_contra even
    have product : r.monty.ndash.toNat * (r.monty.modulus 0).toNat % 2 = 0 := by
      rw [Nat.mul_mod, show (r.monty.modulus 0).toNat % 2 = 0 by omega, Nat.mul_zero, Nat.zero_mod]
    have one : (1 : UInt32).toNat = 1 := rfl
    have zero : (0 : UInt32).toNat = 0 := rfl
    rw [one, zero] at inverse
    omega
  have same : p = (r.monty.modulus 0).toNat + radix * rest := r.modulus.symm.trans whole
  have base : radix = 2 * 2 ^ 31 := rfl
  rw [same, base, Nat.mul_assoc, Nat.add_mul_mod_self_left, low]

theorem two_ne_zero (r : Residues p) : (2 : ZMod p) ≠ 0 := by
  intro zero
  have divides : p ∣ 2 := (ZMod.natCast_eq_zero_iff 2 p).mp (by exact_mod_cast zero)
  have two : p = 2 := (Nat.prime_dvd_prime_iff_eq Fact.out Nat.prime_two).mp divides
  have odd := r.odd
  omega

theorem R_ne_zero (r : Residues p) : r.R ≠ 0 := by
  have base : (radix : ZMod p) = 2 ^ 32 := by
    unfold radix
    push_cast
    norm_num
  rw [R, base]
  exact pow_ne_zero _ (pow_ne_zero _ r.two_ne_zero)

variable {r : Residues p} {x y : ℕ} {u v : ZMod p}

theorem is_zero : r.Is 0 0 := ⟨(Fact.out : p.Prime).pos, by rw [Nat.cast_zero, zero_mul]⟩

theorem Is.of_eq (hx : r.Is x u) (same : u = v) : r.Is x v := same ▸ hx

theorem Is.eq_iff (hx : r.Is x u) (hy : r.Is y v) : x = y ↔ u = v := by
  have cast : (x : ZMod p) = y ↔ x = y := by
    rw [ZMod.natCast_eq_natCast_iff', Nat.mod_eq_of_lt hx.lt, Nat.mod_eq_of_lt hy.lt]
  rw [← cast, hx.value, hy.value, mul_left_inj' r.R_ne_zero]

theorem Is.eq_zero_iff (hx : r.Is x u) : x = 0 ↔ u = 0 := hx.eq_iff is_zero

theorem is_nres (x : ℕ) : r.Is (r.monty.nres x) x := by
  rw [Monty.nres, r.modulus]
  constructor
  · exact Nat.mod_lt _ (Fact.out : p.Prime).pos
  · rw [ZMod.natCast_mod, Nat.cast_mul, ZMod.natCast_mod, Nat.cast_pow, R]

theorem is_one : r.Is r.monty.one 1 := by
  have one := is_nres (r := r) 1
  rwa [Nat.cast_one] at one

theorem Is.modadd (hx : r.Is x u) (hy : r.Is y v) : r.Is (r.monty.nresModadd x y) (u + v) := by
  have x_lt := hx.lt
  have y_lt := hy.lt
  rw [Monty.nresModadd, r.modulus]
  split
  · next large =>
    refine ⟨by omega, ?_⟩
    rw [Nat.cast_sub large, Nat.cast_add, ZMod.natCast_self, sub_zero, hx.value, hy.value, add_mul]
  · next small =>
    exact ⟨Nat.not_le.mp small, by rw [Nat.cast_add, hx.value, hy.value, add_mul]⟩

theorem Is.modsub (hx : r.Is x u) (hy : r.Is y v) : r.Is (r.monty.nresModsub x y) (u - v) := by
  have x_lt := hx.lt
  have y_lt := hy.lt
  rw [Monty.nresModsub, r.modulus]
  split
  · next order => exact ⟨by omega, by rw [Nat.cast_sub order, hx.value, hy.value, sub_mul]⟩
  · next order =>
    refine ⟨by omega, ?_⟩
    rw [Nat.cast_sub (by omega), Nat.cast_sub (by omega), ZMod.natCast_self, hx.value, hy.value]
    ring

theorem Is.negate (hx : r.Is x u) : r.Is (r.monty.nresNegate x) (-u) := by
  have x_lt := hx.lt
  rw [Monty.nresNegate, r.modulus]
  split
  · next zero => rw [hx.eq_zero_iff.mp zero, neg_zero]; exact is_zero
  · next nonzero =>
    exact ⟨by omega, by rw [Nat.cast_sub x_lt.le, ZMod.natCast_self, hx.value, zero_sub, neg_mul]⟩

omit [Fact p.Prime] in
theorem redc_lt {x : ℕ} (fits : x < p * radix ^ r.monty.rn) : r.monty.redc x < p := by
  have spec := r.monty.redc_spec (x := x) (by rwa [r.modulus])
  rw [r.modulus] at spec
  exact spec.1

theorem redc_value {x : ℕ} (fits : x < p * radix ^ r.monty.rn) : (r.monty.redc x : ZMod p) * r.R = x := by
  have spec := r.monty.redc_spec (x := x) (by rwa [r.modulus])
  rw [r.modulus] at spec
  have same := (ZMod.natCast_eq_natCast_iff _ _ _).mpr spec.2
  rwa [Nat.cast_mul, Nat.cast_pow] at same

omit [Fact p.Prime] in
theorem p_lt : p < radix ^ r.monty.rn := by
  have bound := number_lt r.monty.modulus r.monty.rn
  have same : number r.monty.modulus r.monty.rn = p := r.modulus
  rwa [same] at bound

theorem Is.fits (hx : r.Is x u) : x < p * radix ^ r.monty.rn :=
  Nat.lt_of_lt_of_le hx.lt (Nat.le_mul_of_pos_right _ (Nat.pow_pos radix_pos))

theorem Is.redc (hx : r.Is x u) : (r.monty.redc x : ZMod p) = u := by
  have value := redc_value hx.fits
  rw [hx.value] at value
  exact mul_right_cancel₀ r.R_ne_zero value

theorem Is.modmult (hx : r.Is x u) (hy : r.Is y v) : r.Is (r.monty.nresModmult x y) (u * v) := by
  rw [Monty.nresModmult]
  split
  · next zero =>
    have product : u * v = 0 := by
      rcases zero with zero | zero
      · rw [hx.eq_zero_iff.mp zero, zero_mul]
      · rw [hy.eq_zero_iff.mp zero, mul_zero]
    rw [product]
    exact is_zero
  · have fits : x * y < p * radix ^ r.monty.rn := Nat.mul_lt_mul'' hx.lt (hy.lt.trans p_lt)
    refine ⟨redc_lt fits, mul_right_cancel₀ r.R_ne_zero ?_⟩
    rw [redc_value fits, Nat.cast_mul, hx.value, hy.value]
    ring

theorem Is.div2 (hx : r.Is x u) : r.Is (r.monty.nresDiv2 x) (u / 2) := by
  have x_lt := hx.lt
  have odd := r.odd
  have two := r.two_ne_zero
  rw [Monty.nresDiv2, r.modulus]
  have half : 2 * ((if x % 2 ≠ 0 then x + p else x) / 2) = if x % 2 ≠ 0 then x + p else x := by
    split <;> omega
  refine ⟨by split <;> omega, ?_⟩
  have cast : (2 : ZMod p) * (((if x % 2 ≠ 0 then x + p else x) / 2 : ℕ) : ZMod p) = x := by
    have same := congrArg (Nat.cast : ℕ → ZMod p) half
    rw [Nat.cast_mul] at same
    rw [show ((2 : ℕ) : ZMod p) = 2 from Nat.cast_two] at same
    rw [same]
    split
    · rw [Nat.cast_add, ZMod.natCast_self, add_zero]
    · rfl
  rw [hx.value] at cast
  field_simp
  rw [← cast]
  ring

theorem Is.premultSmall (hx : r.Is x u) (k : ℕ) : r.Is (r.monty.premultSmall x k) (k * u) := by
  have double := hx.modadd hx
  have fourfold := double.modadd double
  have large : r.Is (x * k % r.monty.n) (k * u) := by
    rw [r.modulus]
    refine ⟨Nat.mod_lt _ (Fact.out : p.Prime).pos, ?_⟩
    rw [ZMod.natCast_mod, Nat.cast_mul, hx.value]
    ring
  match k with
  | 0 => exact large
  | 1 =>
    rw [Nat.cast_one, one_mul]
    exact hx
  | 2 =>
    rw [show ((2 : ℕ) : ZMod p) * u = u + u by push_cast; ring]
    exact double
  | 3 =>
    rw [show ((3 : ℕ) : ZMod p) * u = u + (u + u) by push_cast; ring]
    exact hx.modadd double
  | 4 =>
    rw [show ((4 : ℕ) : ZMod p) * u = u + u + (u + u) by push_cast; ring]
    exact fourfold
  | 5 =>
    rw [show ((5 : ℕ) : ZMod p) * u = u + (u + u + (u + u)) by push_cast; ring]
    exact hx.modadd fourfold
  | 6 =>
    rw [show ((6 : ℕ) : ZMod p) * u = u + u + (u + u + (u + u)) by push_cast; ring]
    exact double.modadd fourfold
  | k + 7 => exact large

theorem Is.premult (hx : r.Is x u) (k : ℤ) : r.Is (r.monty.nresPremult x k) (k * u) := by
  rw [Monty.nresPremult]
  split
  · next zero =>
    rw [zero, Int.cast_zero, zero_mul]
    exact is_zero
  · have multiple := hx.premultSmall k.natAbs
    split
    · next negative =>
      have sign : ((k.natAbs : ℕ) : ZMod p) = -(k : ZMod p) := by
        rw [← Int.cast_natCast, Int.ofNat_natAbs_of_nonpos negative.le, Int.cast_neg]
      have negated := multiple.negate
      rwa [sign, neg_mul, neg_neg] at negated
    · next positive =>
      have sign : ((k.natAbs : ℕ) : ZMod p) = (k : ZMod p) := by
        rw [← Int.cast_natCast, Int.natAbs_of_nonneg (Int.not_lt.mp positive)]
      rwa [sign] at multiple

theorem invmodp_spec {x : ℕ} {v : ZMod p} (value : (x : ZMod p) = v) (nonzero : v ≠ 0) :
    (r.monty.invmodp x).1 = 1 ∧ ((r.monty.invmodp x).2 : ZMod p) = v⁻¹ := by
  have unit : (x : ZMod p) ≠ 0 := value ▸ nonzero
  have coprime : Nat.Coprime x p := ((Nat.Prime.coprime_iff_not_dvd Fact.out).mpr fun divides =>
    unit ((ZMod.natCast_eq_zero_iff x p).mpr divides)).symm
  rw [Monty.invmodp, r.modulus]
  exact ⟨coprime, (Inverse.cofactor_eq_inv p x unit).trans (by rw [value])⟩

theorem Is.moddiv (hx : r.Is x u) (hy : r.Is y v) (nonzero : v ≠ 0) :
    (r.monty.nresModdiv x y).1 = 1 ∧ r.Is (r.monty.nresModdiv x y).2 (u / v) := by
  obtain ⟨gcd, value⟩ := invmodp_spec (r := r) hy.redc nonzero
  have inverse := is_nres (r := r) (r.monty.invmodp (r.monty.redc y)).2
  rw [value] at inverse
  simp only [Monty.nresModdiv, gcd, ne_eq, not_true_eq_false, if_false, true_and]
  rw [div_eq_mul_inv]
  exact hx.modmult inverse

theorem cofactor_le {x : ℕ} (positive : 0 < x) : Inverse.cofactor x p ≤ p := by
  obtain ⟨inv, -⟩ := Inverse.Invariant.run (p + 1) _ (Inverse.Invariant.initial x p positive (Fact.out : p.Prime).pos)
    (Nat.lt_succ_self p)
  rw [Inverse.cofactor]
  have bounded := inv.bounded
  split
  · exact Nat.sub_le _ _
  · exact bounded

theorem Is.inverse_twice (hx : r.Is x u) (nonzero : u ≠ 0) :
    r.Is (r.monty.invmodp (r.monty.redc (r.monty.redc x))).2 u⁻¹ := by
  have once := hx.redc
  have below := redc_lt hx.fits
  have fits : r.monty.redc x < p * radix ^ r.monty.rn :=
    Nat.lt_of_lt_of_le below (Nat.le_mul_of_pos_right _ (Nat.pow_pos radix_pos))
  have twice := redc_value fits
  rw [once] at twice
  have divided : (r.monty.redc (r.monty.redc x) : ZMod p) = u / r.R := eq_div_of_mul_eq r.R_ne_zero twice
  have unit : u / r.R ≠ 0 := div_ne_zero nonzero r.R_ne_zero
  obtain ⟨-, value⟩ := invmodp_spec (r := r) divided unit
  have same : ((r.monty.invmodp (r.monty.redc (r.monty.redc x))).2 : ZMod p) = u⁻¹ * r.R := by
    rw [value, inv_div, div_eq_inv_mul]
  refine ⟨?_, same⟩
  have positive : 0 < r.monty.redc (r.monty.redc x) := Nat.pos_of_ne_zero fun zero => by
    rw [zero, Nat.cast_zero] at divided
    exact unit divided.symm
  have most : (r.monty.invmodp (r.monty.redc (r.monty.redc x))).2 ≤ p := by
    rw [Monty.invmodp, r.modulus]
    exact cofactor_le positive
  apply Nat.lt_of_le_of_ne most
  intro whole
  rw [whole, ZMod.natCast_self] at same
  exact mul_ne_zero (inv_ne_zero nonzero) r.R_ne_zero same.symm

section
variable {m : ℕ} {x : ℕ → ℕ} {v : ℕ → ZMod p}

theorem is_multiUp (all : ∀ i, i < m → r.Is (x i) (v i)) {i : ℕ} (positive : 0 < i) (inside : i ≤ m) :
    r.Is (r.monty.multiUp x i) (∏ j ∈ Finset.range i, v j) := by
  induction i with
  | zero => exact absurd positive (Nat.lt_irrefl 0)
  | succ i ih =>
    cases i with
    | zero =>
      rw [Finset.prod_range_one]
      exact all 0 (by omega)
    | succ i =>
      rw [Finset.prod_range_succ, Monty.multiUp]
      exact (ih (Nat.succ_pos i) (by omega)).modmult (all (i + 1) (by omega))

theorem is_multiDown (all : ∀ i, i < m → r.Is (x i) (v i)) {count : ℕ} (inside : count + 1 ≤ m) :
    r.Is (r.monty.multiDown x m count) (∏ j ∈ Finset.Ico (m - 1 - count) m, v j) := by
  induction count with
  | zero =>
    have single : Finset.Ico (m - 1 - 0) m = {m - 1} := by
      rw [Nat.sub_zero]
      nth_rewrite 2 [← Nat.sub_add_cancel (show 1 ≤ m by omega)]
      exact Nat.Ico_succ_singleton (m - 1)
    rw [single, Finset.prod_singleton]
    exact all (m - 1) (by omega)
  | succ count ih =>
    have next : m - 1 - count = m - 2 - count + 1 := by omega
    have split := Finset.prod_eq_prod_Ico_succ_bot (show m - 2 - count < m by omega) v
    rw [show m - 1 - (count + 1) = m - 2 - count by omega, split, mul_comm, ← next, Monty.multiDown]
    exact (ih (by omega)).modmult (all (m - 2 - count) (by omega))

theorem prod_split {i : ℕ} (inside : i < m) :
    ∏ j ∈ Finset.range m, v j = (∏ j ∈ Finset.range i, v j) * v i * ∏ j ∈ Finset.Ico (i + 1) m, v j := by
  rw [← Finset.prod_range_succ, Finset.prod_range_mul_prod_Ico _ inside]

theorem is_multiInverse (several : 2 ≤ m) (all : ∀ i, i < m → r.Is (x i) (v i)) (nonzero : ∀ i, i < m → v i ≠ 0) :
    ∃ w, r.monty.nresMultiInverse m x = some w ∧ ∀ i, i < m → r.Is (w i) (v i)⁻¹ := by
  have up {i : ℕ} (positive : 0 < i) (inside : i < m) := is_multiUp all positive inside.le
  have product : r.Is (r.monty.nresModmult (r.monty.multiUp x (m - 1)) (x (m - 1))) (∏ j ∈ Finset.range m, v j) := by
    have last := (up (show 0 < m - 1 by omega) (by omega)).modmult (all (m - 1) (by omega))
    rwa [← Finset.prod_range_succ, Nat.sub_add_cancel (by omega)] at last
  have unit : ∏ j ∈ Finset.range m, v j ≠ 0 :=
    Finset.prod_ne_zero_iff.mpr fun j member => nonzero j (Finset.mem_range.mp member)
  rw [Monty.nresMultiInverse]
  generalize r.monty.nresModmult (r.monty.multiUp x (m - 1)) (x (m - 1)) = w6 at product
  have inverse : r.Is (r.monty.invmodp (r.monty.redc (r.monty.redc w6))).2 (∏ j ∈ Finset.range m, v j)⁻¹ :=
    product.inverse_twice unit
  dsimp only
  rw [if_neg (fun zero => unit (product.eq_zero_iff.mp zero))]
  refine ⟨_, rfl, fun i inside => ?_⟩
  have split := prod_split (v := v) inside
  have left_unit : ∏ j ∈ Finset.range i, v j ≠ 0 := fun zero => unit (by rw [split, zero, zero_mul, zero_mul])
  have right_unit : ∏ j ∈ Finset.Ico (i + 1) m, v j ≠ 0 := fun zero => unit (by rw [split, zero, mul_zero])
  have here := nonzero i inside
  have cancel : (∏ j ∈ Finset.range i, v j) * (∏ j ∈ Finset.Ico (i + 1) m, v j) * (∏ j ∈ Finset.range m, v j)⁻¹ =
      (v i)⁻¹ := by
    rw [split]
    field_simp
  rw [← cancel]
  split_ifs with last first
  · have none_right : ∏ j ∈ Finset.Ico (i + 1) m, v j = 1 := by
      rw [Finset.Ico_eq_empty (by omega), Finset.prod_empty]
    rw [none_right, mul_one, last]
    exact (up (show 0 < m - 1 by omega) (by omega)).modmult inverse
  · have down := is_multiDown all (show m - 2 + 1 ≤ m by omega)
    rw [show m - 1 - (m - 2) = i + 1 by omega] at down
    rw [first, Finset.prod_range_zero, one_mul, ← first]
    exact down.modmult inverse
  · have down := is_multiDown all (show m - 2 - i + 1 ≤ m by omega)
    rw [show m - 1 - (m - 2 - i) = i + 1 by omega] at down
    exact ((up (Nat.pos_of_ne_zero first) inside).modmult down).modmult inverse

end

end Residues
end MyTools.Miracl
