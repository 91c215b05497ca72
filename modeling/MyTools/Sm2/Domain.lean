import MyTools.Library.Certificate
import MyTools.Library.Curve
import Mathlib.GroupTheory.OrderOfElement
import Mathlib.Tactic.NormNum.Prime

/-! The domain parameters `Ecc256`: the curve, its base point and the prime order
of the base point. -/
namespace MyTools.Sm2
open Library Library.Certificate

def p : ℕ := 0xFFFFFFFEFFFFFFFFFFFFFFFFFFFFFFFFFFFFFFFF00000000FFFFFFFFFFFFFFFF
def a : ℕ := 0xFFFFFFFEFFFFFFFFFFFFFFFFFFFFFFFFFFFFFFFF00000000FFFFFFFFFFFFFFFC
def b : ℕ := 0x28E9FA9E9D9F5E344D5A9E4BCF6509A7F39789F515AB8F92DDBCBD414D940E93
def n : ℕ := 0xFFFFFFFEFFFFFFFFFFFFFFFFFFFFFFFF7203DF6B21C6052B53BBF40939D54123
def gx : ℕ := 0x32C4AE2C1F1981195F9904466A39C9948FE30BBFF2660BE1715A4589334C74C7
def gy : ℕ := 0xBC3736A2F4F6779C59BDCEE36B692153D0A9877CC62A474002DF32E52139F0A0

private def smallPrimes : List ℕ := [
  2, 3, 5, 7, 11, 13, 31, 41, 43, 53, 59, 61, 67, 71, 79, 97, 103, 127, 181, 233, 337, 367, 719,
  769, 823, 1013, 1213, 2473, 3049, 4957, 5303, 5711, 5801, 7759, 12149, 14057, 30223, 34511,
  54983, 71209, 84163, 110899, 179429, 363761]

private theorem smallPrimes_prime : ∀ q ∈ smallPrimes, q.Prime := by
  simp only [smallPrimes, List.forall_mem_cons, List.not_mem_nil, false_implies, implies_true, and_true]
  norm_num

/-- Entry 9 is the field prime, entry 23 the order of the base point. -/
private def certificate : List Entry := [
  ⟨348253387243, 3, [2, 3, 61, 5303, 179429]⟩,
  ⟨3017783777, 3, [2, 2, 2, 2, 2, 7, 7, 337, 5711]⟩,
  ⟨4641351449027, 2, [2, 769, 3017783777]⟩,
  ⟨8214737, 3, [2, 2, 2, 2, 67, 79, 97]⟩,
  ⟨417514796639753, 3, [2, 2, 2, 7, 367, 2473, 8214737]⟩,
  ⟨3079049, 3, [2, 2, 2, 7, 54983]⟩,
  ⟨6158099, 2, [2, 3079049]⟩,
  ⟨4773264379806847, 3, [2, 3, 7, 11, 823, 34511, 363761]⟩,
  ⟨66013261729388519804782124120027, 2, [2, 13, 1213, 71209, 6158099, 4773264379806847]⟩,
  ⟨115792089210356248756420345214020892766250353991924191454421193933289684991999, 13, [2, 43, 30223, 348253387243, 4641351449027, 417514796639753, 66013261729388519804782124120027]⟩,
  ⟨117774739, 2, [2, 3, 3, 59, 110899]⟩,
  ⟨1413296869, 6, [2, 2, 3, 117774739]⟩,
  ⟨10042883, 2, [2, 1013, 4957]⟩,
  ⟨2368433183657, 3, [2, 2, 2, 41, 719, 10042883]⟩,
  ⟨3258964060712033, 3, [2, 2, 2, 2, 2, 43, 2368433183657]⟩,
  ⟨17965699, 2, [2, 3, 71, 181, 233]⟩,
  ⟨107615843, 2, [2, 43, 103, 12149]⟩,
  ⟨2566129871, 7, [2, 5, 3049, 84163]⟩,
  ⟨9061163, 2, [2, 11, 71, 5801]⟩,
  ⟨5636460199499, 2, [2, 31, 79, 127, 9061163]⟩,
  ⟨101456283590983, 3, [2, 3, 3, 5636460199499]⟩,
  ⟨18120927127286907576013935251791662753637, 6, [2, 2, 3, 3, 17965699, 107615843, 2566129871, 101456283590983]⟩,
  ⟨125197554539772723432468576818475380947471091418362477724521, 3, [2, 2, 2, 5, 53, 3258964060712033, 18120927127286907576013935251791662753637]⟩,
  ⟨115792089210356248756420345214020892766061623724957744567843809356293439045923, 3, [2, 3, 7759, 14057, 1413296869, 125197554539772723432468576818475380947471091418362477724521]⟩]

private theorem certificate_accepted : accepted smallPrimes certificate = true := by decide +kernel

theorem p_prime : p.Prime :=
  prime_of_accepted _ _ smallPrimes_prime certificate_accepted
    (certificate.get ⟨9, by decide⟩) (List.get_mem _ _)

theorem n_prime : n.Prime :=
  prime_of_accepted _ _ smallPrimes_prime certificate_accepted
    (certificate.get ⟨23, by decide⟩) (List.get_mem _ _)

theorem n_pos : 0 < n := by decide +kernel
theorem one_lt_n : 1 < n := by decide +kernel
theorem n_lt_p : n < p := by decide +kernel
theorem p_lt : p < 2 ^ 256 := by decide +kernel
theorem n_lt : n < 2 ^ 256 := n_lt_p.trans p_lt

instance : Fact n.Prime := ⟨n_prime⟩

def ecc256 : Curve where
  p := p
  a := a
  b := b
  prime := p_prime
  large := by decide +kernel
  nonsingular := by decide +kernel

abbrev Point := ecc256.Point

def base : Point := ⟨.affine gx gy, by decide +kernel⟩

theorem base_ne_zero : base ≠ 0 := by
  intro same
  exact Coordinates.noConfusion (congrArg Curve.Point.coordinates same)

theorem n_nsmul_base : n • base = 0 := by
  have computed : ecc256.mul n base.coordinates = .infinity := by decide +kernel
  exact Curve.Point.ext ((Curve.Point.coordinates_nsmul n base).trans computed)

theorem addOrderOf_base : addOrderOf base = n :=
  addOrderOf_eq_prime n_nsmul_base base_ne_zero

theorem nsmul_base_eq_iff (k l : ℕ) : k • base = l • base ↔ k % n = l % n := by
  rw [nsmul_eq_nsmul_iff_modEq, addOrderOf_base, Nat.ModEq]

theorem nsmul_base_eq_zero_iff (k : ℕ) : k • base = 0 ↔ k % n = 0 := by
  rw [← zero_nsmul base, nsmul_base_eq_iff, Nat.zero_mod]

theorem nsmul_base_ne_zero {d : ℕ} (positive : 0 < d) (small : d < n) : d • base ≠ 0 := by
  rw [ne_eq, nsmul_base_eq_zero_iff, Nat.mod_eq_of_lt small]
  exact positive.ne'

/-- A private key of the range that `[1, n - 1]` denotes. -/
structure PrivateKey where
  d : ℕ
  positive : 0 < d
  small : d < n

def PrivateKey.publicKey (key : PrivateKey) : Point := key.d • base

theorem PrivateKey.publicKey_ne_zero (key : PrivateKey) : key.publicKey ≠ 0 :=
  nsmul_base_ne_zero key.positive key.small

end MyTools.Sm2
