import Mathlib.Data.Nat.ModEq
import Mathlib.Data.UInt
import MyTools.Library.Inverse
import MyTools.Library.Limbs

/-! Montgomery's reduction as `redc` of `mrmonty.c` makes it, word by word, with a carry that is added
one round late. -/
namespace MyTools.Miracl
open Library

def radix : ℕ := 2 ^ 32

/-- The words of a big number after `mirsys(20, 0)`. -/
def nib : ℕ := 21

theorem lt_of_words {x words : ℕ} (short : x < 2 ^ (32 * words)) (few : words ≤ nib) : x < 2 ^ (32 * nib) :=
  short.trans_le (pow_le_pow_right₀ one_le_two (Nat.mul_le_mul_left 32 few))

def word (x i : ℕ) : UInt32 := .ofNat (x / radix ^ i)

/-- The number that the first `count` words make. -/
def number (w : ℕ → UInt32) (count : ℕ) : ℕ := Limbs.value radix (fun i => (w i).toNat) count

structure Monty where
  modulus : ℕ → UInt32
  rn : ℕ
  ndash : UInt32
  /-- `ndash` is `N' mod b`. -/
  negative_inverse : ndash * modulus 0 + 1 = 0
  positive : 0 < rn

def Monty.n (monty : Monty) : ℕ := number monty.modulus monty.rn

/-- `dble.d = (mr_large)m * modulus->w[j] + carry + w0->w[i+j]`, for `count` values of `j`. -/
def addProduct (m : UInt32) (modulus : ℕ → UInt32) (i : ℕ) (w0 : ℕ → UInt32) : (count : ℕ) → UInt32 × (ℕ → UInt32)
  | 0 => (0, w0)
  | j + 1 =>
    let (carry, w0) := addProduct m modulus i w0 j
    let d : UInt64 := m.toUInt64 * (modulus j).toUInt64 + carry.toUInt64 + (w0 (i + j)).toUInt64
    ((d >>> 32).toUInt32, Function.update w0 (i + j) d.toUInt32)

/-- A pass of the loop over `i`; the pair is `delay_carry` and `w0`. -/
def Monty.pass (monty : Monty) (i : ℕ) (state : UInt32 × (ℕ → UInt32)) : UInt32 × (ℕ → UInt32) :=
  let (delay, w0) := state
  let (carry, w0) := addProduct (monty.ndash * w0 i) monty.modulus i w0 monty.rn
  let w0 := Function.update w0 (monty.rn + i) (w0 (monty.rn + i) + delay)
  let delay := if w0 (monty.rn + i) < delay then 1 else 0
  let w0 := Function.update w0 (monty.rn + i) (w0 (monty.rn + i) + carry)
  (if w0 (monty.rn + i) < carry then 1 else delay, w0)

def Monty.passes (monty : Monty) (x : ℕ) : (count : ℕ) → UInt32 × (ℕ → UInt32)
  | 0 => (0, word x)
  | i + 1 => monty.pass i (monty.passes x i)

/-- `redc`: the upper words and the last carry, with the modulus subtracted at most once. -/
def Monty.redc (monty : Monty) (x : ℕ) : ℕ :=
  let (delay, w0) := monty.passes x monty.rn
  let y := number (fun i => w0 (monty.rn + i)) monty.rn + delay.toNat * radix ^ monty.rn
  if monty.n ≤ y then y - monty.n else y

theorem radix_pos : 0 < radix := by decide

theorem number_lt (w : ℕ → UInt32) (count : ℕ) : number w count < radix ^ count :=
  Limbs.value_lt fun i _ => (w i).toNat_lt

theorem number_word (x count : ℕ) : number (word x) count = x % radix ^ count := by
  induction count with
  | zero => rw [Nat.pow_zero, Nat.mod_one]; rfl
  | succ count ih =>
    have digit : (word x count).toNat = x / radix ^ count % radix := UInt32.toNat_ofNat'
    rw [number, Limbs.value_succ, digit, Nat.mod_pow_succ, Nat.mul_comm (radix ^ count)]
    exact congrArg (· + _) ih

theorem number_update (w : ℕ → UInt32) {j count : ℕ} (inside : j < count) (x : UInt32) :
    number (Function.update w j x) count + (w j).toNat * radix ^ j = number w count + x.toNat * radix ^ j := by
  have update := Limbs.value_update (B := radix) (f := fun i => (w i).toNat)
    (g := fun i => (Function.update w j x i).toNat) inside fun i _ other => by
      rw [Function.update_of_ne other]
  rw [Function.update_self] at update
  exact update

theorem toNat_double (m n carry w : UInt32) :
    (m.toUInt64 * n.toUInt64 + carry.toUInt64 + w.toUInt64).toNat = m.toNat * n.toNat + carry.toNat + w.toNat := by
  have m_bound := m.toNat_lt
  have n_bound := n.toNat_lt
  have carry_bound := carry.toNat_lt
  have w_bound := w.toNat_lt
  have product : m.toNat * n.toNat ≤ (2 ^ 32 - 1) * (2 ^ 32 - 1) := Nat.mul_le_mul (by omega) (by omega)
  rw [UInt64.toNat_add, UInt64.toNat_add, UInt64.toNat_mul, UInt32.toNat_toUInt64, UInt32.toNat_toUInt64,
    UInt32.toNat_toUInt64, UInt32.toNat_toUInt64, Nat.mod_eq_of_lt (show m.toNat * n.toNat < 2 ^ 64 by omega),
    Nat.mod_eq_of_lt (show m.toNat * n.toNat + carry.toNat < 2 ^ 64 by omega), Nat.mod_eq_of_lt (by omega)]

theorem toNat_halves (d : UInt64) : d.toUInt32.toNat + (d >>> 32).toUInt32.toNat * radix = d.toNat := by
  have bound := d.toNat_lt
  have high : (d >>> 32).toNat = d.toNat / 2 ^ 32 := by
    rw [UInt64.toNat_shiftRight]
    exact Nat.shiftRight_eq_div_pow _ _
  rw [UInt64.toNat_toUInt32, UInt64.toNat_toUInt32, high, Nat.mod_eq_of_lt (show d.toNat / 2 ^ 32 < 2 ^ 32 by omega)]
  unfold radix
  omega

theorem addProduct_spec (m : UInt32) (modulus : ℕ → UInt32) (i : ℕ) (w0 : ℕ → UInt32) {count size : ℕ}
    (inside : i + count ≤ size) :
    number (addProduct m modulus i w0 count).2 size + (addProduct m modulus i w0 count).1.toNat * radix ^ (i + count) =
      number w0 size + m.toNat * number modulus count * radix ^ i := by
  induction count with
  | zero => simp [addProduct, number]
  | succ j ih =>
    have before := ih (by omega)
    rw [addProduct]
    generalize addProduct m modulus i w0 j = state at before ⊢
    obtain ⟨carry, w⟩ := state
    have stored := number_update w (show i + j < size by omega)
      (m.toUInt64 * (modulus j).toUInt64 + carry.toUInt64 + (w (i + j)).toUInt64).toUInt32
    have halves := toNat_halves (m.toUInt64 * (modulus j).toUInt64 + carry.toUInt64 + (w (i + j)).toUInt64)
    rw [toNat_double] at halves
    have next : number modulus (j + 1) = number modulus j + (modulus j).toNat * radix ^ j := rfl
    have power : radix ^ (i + (j + 1)) = radix * radix ^ (i + j) := by rw [← Nat.add_assoc, pow_succ']
    have apart : radix ^ (i + j) = radix ^ j * radix ^ i := by rw [pow_add, Nat.mul_comm]
    have scaled := congrArg (· * radix ^ (i + j)) halves
    rw [next, power]
    rw [apart] at stored before scaled ⊢
    linarith

theorem toNat_add_overflow (a b : UInt32) :
    (a + b).toNat + (if a + b < b then 1 else 0) * radix = a.toNat + b.toNat := by
  have a_bound := a.toNat_lt
  have b_bound := b.toNat_lt
  have sum := UInt32.toNat_add a b
  simp only [UInt32.lt_iff_toNat_lt, sum]
  unfold radix
  split <;> omega

theorem number_add (w : ℕ → UInt32) {j size : ℕ} (inside : j < size) (delay carry : UInt32) (small : delay.toNat ≤ 1) :
    let w' := Function.update w j (w j + delay)
    let delay' : UInt32 := if w' j < delay then 1 else 0
    let w'' := Function.update w' j (w' j + carry)
    let delay'' : UInt32 := if w'' j < carry then 1 else delay'
    number w'' size + delay''.toNat * radix ^ (j + 1) = number w size + (delay.toNat + carry.toNat) * radix ^ j ∧
      delay''.toNat ≤ 1 := by
  intro w' delay' w'' delay''
  have first : number w' size + (w j).toNat * radix ^ j = number w size + (w j + delay).toNat * radix ^ j :=
    number_update w inside (w j + delay)
  have second : number w'' size + (w' j).toNat * radix ^ j = number w' size + (w' j + carry).toNat * radix ^ j :=
    number_update w' inside (w' j + carry)
  have middle : w' j = w j + delay := Function.update_self ..
  have last : w'' j = w' j + carry := Function.update_self ..
  have overflow := toNat_add_overflow (w j) delay
  have overflow' := toNat_add_overflow (w j + delay) carry
  have a_bound := (w j).toNat_lt
  have carry_bound := carry.toNat_lt
  -- only one of the two sums can overflow
  have total : (w j + delay + carry).toNat + delay''.toNat * radix = (w j).toNat + delay.toNat + carry.toNat ∧
      delay''.toNat ≤ 1 := by
    have value : delay'' = if w j + delay + carry < carry then 1 else if w j + delay < delay then 1 else 0 := by
      simp only [delay'', delay', last, middle]
    rw [value]
    have zero : (0 : UInt32).toNat = 0 := rfl
    have one : (1 : UInt32).toNat = 1 := rfl
    have base : radix = 2 ^ 32 := rfl
    rw [base] at overflow overflow' ⊢
    by_cases beyond : w j + delay + carry < carry
    · rw [if_pos beyond, one]
      rw [if_pos beyond] at overflow'
      by_cases before : w j + delay < delay
      · rw [if_pos before] at overflow
        omega
      · rw [if_neg before] at overflow
        omega
    · rw [if_neg beyond]
      rw [if_neg beyond] at overflow'
      by_cases before : w j + delay < delay
      · rw [if_pos before] at overflow ⊢
        rw [one]
        omega
      · rw [if_neg before] at overflow ⊢
        rw [zero]
        omega
  refine ⟨?_, total.2⟩
  have scaled := congrArg (· * radix ^ j) total.1
  rw [middle] at second
  rw [pow_succ']
  linarith

/-- The number that a state of the loop stands for before pass `i`. -/
def Monty.total (monty : Monty) (i : ℕ) (state : UInt32 × (ℕ → UInt32)) : ℕ :=
  number state.2 (monty.rn + monty.rn) + state.1.toNat * radix ^ (monty.rn + i)

theorem number_from (w : ℕ → UInt32) {j size : ℕ} (inside : j < size) :
    ∃ upper, number w size = number w j + radix ^ j * ((w j).toNat + radix * upper) := by
  obtain ⟨count, rfl⟩ := Nat.exists_eq_add_of_lt inside
  refine ⟨Limbs.value radix (fun i => (w (j + (1 + i))).toNat) count, ?_⟩
  have outer := Limbs.value_add radix (fun i => (w i).toNat) j (1 + count)
  have inner := Limbs.value_add radix (fun i => (w (j + i)).toNat) 1 count
  have one : Limbs.value radix (fun i => (w (j + i)).toNat) 1 = (w j).toNat := by
    rw [Limbs.value_succ, Limbs.value_zero, Nat.pow_zero, Nat.mul_one, Nat.zero_add, Nat.add_zero]
  rw [one, Nat.pow_one] at inner
  rw [inner] at outer
  rw [number, Nat.add_assoc, Nat.add_comm count, outer, number]

theorem Monty.digit_dvd (monty : Monty) (x : UInt32) :
    radix ∣ x.toNat + (monty.ndash * x).toNat * (monty.modulus 0).toNat := by
  have zero : x + monty.ndash * x * monty.modulus 0 = 0 := by
    have factor : x + monty.ndash * x * monty.modulus 0 = x * (monty.ndash * monty.modulus 0 + 1) := by
      rw [UInt32.mul_add, UInt32.mul_one, UInt32.add_comm, ← UInt32.mul_assoc, UInt32.mul_comm x]
    rw [factor, monty.negative_inverse, UInt32.mul_zero]
  have same : (x.toNat + (monty.ndash * x).toNat * (monty.modulus 0).toNat % 2 ^ 32) % 2 ^ 32 = 0 := by
    rw [← UInt32.toNat_mul, ← UInt32.toNat_add, zero]
    rfl
  rw [Nat.add_mod_mod] at same
  exact Nat.dvd_of_mod_eq_zero same

section
variable (monty : Monty) {i : ℕ} {state : UInt32 × (ℕ → UInt32)}

theorem Monty.pass_spec (inside : i < monty.rn) (small : state.1.toNat ≤ 1) :
    monty.total (i + 1) (monty.pass i state) =
        monty.total i state + (monty.ndash * state.2 i).toNat * monty.n * radix ^ i ∧
      (monty.pass i state).1.toNat ≤ 1 := by
  obtain ⟨delay, w⟩ := state
  have product := addProduct_spec (monty.ndash * w i) monty.modulus i w
    (show i + monty.rn ≤ monty.rn + monty.rn by omega)
  rw [Monty.pass, Monty.total, Monty.total]
  generalize addProduct (monty.ndash * w i) monty.modulus i w monty.rn = added at product
  obtain ⟨carry, w1⟩ := added
  obtain ⟨sum, small'⟩ := number_add w1 (show monty.rn + i < monty.rn + monty.rn by omega) delay carry small
  refine ⟨?_, small'⟩
  rw [Nat.add_comm i] at product
  have summed : number _ _ + _ * radix ^ (monty.rn + i + 1) = _ := sum
  rw [Monty.n]
  change number _ _ + _ * radix ^ (monty.rn + i + 1) = _
  linarith

theorem Monty.pass_dvd (inside : i < monty.rn) (small : state.1.toNat ≤ 1) (before : radix ^ i ∣ monty.total i state) :
    radix ^ (i + 1) ∣ monty.total (i + 1) (monty.pass i state) := by
  obtain ⟨upper, whole⟩ := number_from state.2 (show i < monty.rn + monty.rn by omega)
  obtain ⟨rest, modulus⟩ := number_from monty.modulus monty.positive
  have start : number monty.modulus 0 = 0 := rfl
  rw [start, Nat.zero_add, Nat.pow_zero, Nat.one_mul] at modulus
  have late : radix ^ (monty.rn + i) = radix ^ i * (radix * radix ^ (monty.rn - 1)) := by
    rw [← pow_succ', ← pow_add]
    congr 1
    have positive := monty.positive
    omega
  -- what is below word `i` is divisible by its weight, and so zero
  have low : number state.2 i = 0 := by
    have divides : radix ^ i ∣ number state.2 i := by
      rw [Monty.total, whole, late, Nat.add_assoc, ← Nat.mul_assoc, Nat.mul_comm state.1.toNat, Nat.mul_assoc,
        ← Nat.mul_add] at before
      exact (Nat.dvd_add_left (Nat.dvd_mul_right _ _)).mp before
    exact Nat.eq_zero_of_dvd_of_lt divides (number_lt state.2 i)
  have digit : radix ∣ (state.2 i).toNat + (monty.ndash * state.2 i).toNat * (monty.modulus 0).toNat :=
    monty.digit_dvd (state.2 i)
  rw [(monty.pass_spec inside small).1, Monty.total, whole, low, late, Monty.n, modulus, pow_succ]
  have regroup : 0 + radix ^ i * ((state.2 i).toNat + radix * upper) +
        state.1.toNat * (radix ^ i * (radix * radix ^ (monty.rn - 1))) +
        (monty.ndash * state.2 i).toNat * ((monty.modulus 0).toNat + radix * rest) * radix ^ i =
      radix ^ i * ((state.2 i).toNat + (monty.ndash * state.2 i).toNat * (monty.modulus 0).toNat +
        radix * (upper + state.1.toNat * radix ^ (monty.rn - 1) + (monty.ndash * state.2 i).toNat * rest)) := by ring
  rw [regroup]
  exact Nat.mul_dvd_mul_left _ (Nat.dvd_add digit (Nat.dvd_mul_right _ _))

theorem Monty.passes_spec (x : ℕ) {count : ℕ} (inside : count ≤ monty.rn) :
    ∃ M, M < radix ^ count ∧ monty.total count (monty.passes x count) = x % radix ^ (monty.rn + monty.rn) + M * monty.n ∧
      radix ^ count ∣ monty.total count (monty.passes x count) ∧ (monty.passes x count).1.toNat ≤ 1 := by
  induction count with
  | zero =>
    refine ⟨0, Nat.one_pos, ?_, one_dvd _, Nat.zero_le _⟩
    simp [Monty.total, Monty.passes, number_word]
  | succ i ih =>
    obtain ⟨M, below, total, divides, small⟩ := ih (by omega)
    obtain ⟨next, small'⟩ := monty.pass_spec (show i < monty.rn by omega) small
    have word_bound := (monty.ndash * (monty.passes x i).2 i).toNat_lt
    refine ⟨M + (monty.ndash * (monty.passes x i).2 i).toNat * radix ^ i, ?_, ?_,
      monty.pass_dvd (by omega) small divides, small'⟩
    · have most : (monty.ndash * (monty.passes x i).2 i).toNat * radix ^ i ≤ (radix - 1) * radix ^ i :=
        Nat.mul_le_mul_right _ (by unfold radix; omega)
      have split : radix ^ (i + 1) = (radix - 1) * radix ^ i + radix ^ i := by
        rw [pow_succ', ← Nat.succ_mul]
        rfl
      omega
    · rw [Monty.passes, next, total]
      ring

theorem Monty.redc_spec {x : ℕ} (fits : x < monty.n * radix ^ monty.rn) :
    monty.redc x < monty.n ∧ monty.redc x * radix ^ monty.rn ≡ x [MOD monty.n] := by
  obtain ⟨M, below, total, divides, small⟩ := monty.passes_spec x (Nat.le_refl monty.rn)
  have n_lt : monty.n < radix ^ monty.rn := number_lt _ _
  have whole : x % radix ^ (monty.rn + monty.rn) = x := by
    apply Nat.mod_eq_of_lt
    rw [pow_add]
    exact Nat.lt_of_lt_of_le fits (Nat.mul_le_mul_right _ n_lt.le)
  have parts (w : ℕ → UInt32) (delay : UInt32) : monty.total monty.rn (delay, w) = number w monty.rn +
      radix ^ monty.rn * (number (fun i => w (monty.rn + i)) monty.rn + delay.toNat * radix ^ monty.rn) := by
    have upper : number w (monty.rn + monty.rn) =
        number w monty.rn + radix ^ monty.rn * number (fun i => w (monty.rn + i)) monty.rn := Limbs.value_add radix _ _ _
    rw [Monty.total, upper, pow_add]
    ring
  rw [Monty.redc]
  generalize monty.passes x monty.rn = state at total divides small
  obtain ⟨delay, w⟩ := state
  rw [parts] at total divides
  dsimp only
  generalize number (fun i => w (monty.rn + i)) monty.rn + delay.toNat * radix ^ monty.rn = y at total divides ⊢
  have low : number w monty.rn = 0 :=
    Nat.eq_zero_of_dvd_of_lt ((Nat.dvd_add_left (Nat.dvd_mul_right _ _)).mp divides) (number_lt w _)
  rw [low, Nat.zero_add, whole] at total
  have same : y * radix ^ monty.rn ≡ x [MOD monty.n] := by
    rw [Nat.mul_comm, total]
    exact (Nat.modEq_iff_dvd' (Nat.le_add_right _ _)).mpr (by rw [Nat.add_sub_cancel_left]; exact Nat.dvd_mul_left _ _) |>.symm
  have bound : y < 2 * monty.n := by
    have product : M * monty.n ≤ radix ^ monty.rn * monty.n := Nat.mul_le_mul_right _ below.le
    apply Nat.lt_of_mul_lt_mul_left (a := radix ^ monty.rn)
    rw [total]
    linarith
  by_cases large : monty.n ≤ y
  · rw [if_pos large]
    refine ⟨by omega, ?_⟩
    have subtracted : y - monty.n ≡ y [MOD monty.n] := by
      exact (Nat.mod_eq_sub_mod large).symm
    exact (subtracted.mul_right _).trans same
  · rw [if_neg large]
    exact ⟨Nat.not_le.mp large, same⟩

end

/-! `prepare_monty` -/

def wordCount (n : ℕ) : ℕ := n.log2 / 32 + 1

theorem lt_wordCount (n : ℕ) : n < radix ^ wordCount n := by
  have bound := Nat.lt_log2_self (n := n)
  have power : radix ^ wordCount n = 2 ^ (32 * wordCount n) := by rw [radix, ← pow_mul]
  rw [power]
  exact bound.trans_le (Nat.pow_le_pow_right Nat.two_pos (by unfold wordCount; omega))

theorem word_zero (n : ℕ) : word n 0 = .ofNat n := by rw [word, Nat.pow_zero, Nat.div_one]

/-- `ndash = base - w14`, where `w14` is the inverse of the lowest word. -/
def ndashOf (n : ℕ) : UInt32 := 0 - .ofNat (Inverse.cofactor (n % radix) radix)

theorem negative_cofactor {n : ℕ} (odd : Nat.gcd (n % radix) radix = 1) : ndashOf n * word n 0 + 1 = 0 := by
  have unit := Inverse.mul_cofactor_of_coprime (n % radix) radix (by decide) odd
  rw [← Nat.cast_mul, ← Nat.cast_one, ZMod.natCast_eq_natCast_iff] at unit
  have product : UInt32.ofNat (Inverse.cofactor (n % radix) radix) * word n 0 = 1 := by
    apply UInt32.toNat_inj.mp
    rw [UInt32.toNat_mul, word_zero, UInt32.toNat_ofNat', UInt32.toNat_ofNat', Nat.mod_mul_mod, Nat.mul_comm]
    exact unit
  rw [ndashOf, UInt32.zero_sub, UInt32.neg_mul, product]
  rfl

/-- `none` is the error `MR_ERR_BAD_MODULUS`. -/
def prepareMonty (n : ℕ) : Option Monty :=
  if n ≤ 2 then none
  else if odd : Nat.gcd (n % radix) radix = 1 then
    some ⟨word n, wordCount n, ndashOf n, negative_cofactor odd, Nat.succ_pos _⟩
  else none

theorem prepareMonty_n {n : ℕ} {monty : Monty} (prepared : prepareMonty n = some monty) : monty.n = n := by
  rw [prepareMonty] at prepared
  split at prepared
  · cases prepared
  · split at prepared
    · obtain rfl := Option.some.inj prepared
      exact (number_word n (wordCount n)).trans (Nat.mod_eq_of_lt (lt_wordCount n))
    · cases prepared

theorem prepareMonty_of_odd {n : ℕ} (large : 2 < n) (odd : n % 2 = 1) : ∃ monty, prepareMonty n = some monty := by
  have coprime : Nat.gcd (n % radix) radix = 1 := by
    have low : (n % radix) % 2 = 1 := by unfold radix; omega
    exact Nat.Coprime.pow_right 32 (Nat.coprime_two_right.mpr (Nat.odd_iff.mpr low))
  exact ⟨_, by rw [prepareMonty, if_neg (Nat.not_le.mpr large), dif_pos coprime]⟩

end MyTools.Miracl
