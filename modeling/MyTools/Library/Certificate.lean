import Mathlib.NumberTheory.LucasPrimality
import Mathlib.Data.List.Prime

/-! Primality certificates that the kernel can evaluate. An entry names a number,
a Lucas witness and the prime factors of its predecessor; every factor must be
certified before it is used, so a checked list certifies all of its numbers. -/
namespace MyTools.Library.Certificate

/-- Square and multiply over the low `bits` bits of the exponent, accumulating in `acc`. -/
def powMod (m : ℕ) : (bits : ℕ) → (base exponent acc : ℕ) → ℕ
  | 0, _, _, acc => acc % m
  | bits + 1, base, exponent, acc =>
    powMod m bits (base * base % m) (exponent / 2) (if exponent % 2 = 1 then acc * base % m else acc)

theorem powMod_spec (m bits base exponent acc : ℕ) (fits : exponent < 2 ^ bits) :
    powMod m bits base exponent acc = acc * base ^ exponent % m := by
  induction bits generalizing base exponent acc with
  | zero =>
    have zero : exponent = 0 := by simpa using fits
    simp [powMod, zero]
  | succ bits ih =>
    have half : exponent / 2 < 2 ^ bits := by rw [pow_succ] at fits; omega
    have square : (base * base % m) ^ (exponent / 2) ≡ base ^ (2 * (exponent / 2)) [MOD m] := by
      rw [pow_mul, sq]
      exact (Nat.mod_modEq _ _).pow _
    rw [powMod, ih _ _ _ half]
    rcases Nat.mod_two_eq_zero_or_one exponent with even | odd
    · have whole : base ^ exponent = base ^ (2 * (exponent / 2)) := by congr 1; omega
      rw [if_neg (by omega), whole]
      exact Nat.ModEq.mul_left acc square
    · have whole : base ^ exponent = base * base ^ (2 * (exponent / 2)) := by
        rw [← pow_succ']; congr 1; omega
      rw [if_pos odd, whole, ← mul_assoc]
      exact Nat.ModEq.mul (Nat.mod_modEq _ _) square

structure Entry where
  number : ℕ
  witness : ℕ
  factors : List ℕ

def Entry.power (entry : Entry) (exponent : ℕ) : ℕ :=
  powMod entry.number (entry.number.log2 + 1) entry.witness exponent 1

/-- Lucas' test of one entry against the numbers certified so far. -/
def Entry.accepted (certified : List ℕ) (entry : Entry) : Bool :=
  decide (2 ≤ entry.number) && entry.factors.all (certified.contains ·) &&
    entry.factors.prod == entry.number - 1 && entry.power (entry.number - 1) == 1 &&
    entry.factors.all (fun q => entry.power ((entry.number - 1) / q) != 1)

def accepted : (certified : List ℕ) → List Entry → Bool
  | _, [] => true
  | certified, entry :: entries => entry.accepted certified && accepted (entry.number :: certified) entries

theorem Entry.power_eq_one (entry : Entry) (large : 2 ≤ entry.number) (exponent : ℕ)
    (bounded : exponent ≤ entry.number) :
    entry.power exponent = 1 ↔ (entry.witness : ZMod entry.number) ^ exponent = 1 := by
  have fits : exponent < 2 ^ (entry.number.log2 + 1) := lt_of_le_of_lt bounded Nat.lt_log2_self
  have cast := ZMod.natCast_eq_natCast_iff' (entry.witness ^ exponent) 1 entry.number
  rw [Nat.cast_pow, Nat.cast_one, Nat.mod_eq_of_lt (show 1 < entry.number by omega)] at cast
  rw [Entry.power, powMod_spec _ _ _ _ _ fits, one_mul, cast]

theorem Entry.prime_of_accepted (certified : List ℕ) (entry : Entry)
    (primes : ∀ q ∈ certified, q.Prime) (ok : entry.accepted certified = true) : entry.number.Prime := by
  simp only [Entry.accepted, Bool.and_eq_true, decide_eq_true_eq, List.all_eq_true,
    List.contains_iff_mem, beq_iff_eq, bne_iff_ne, ne_eq] at ok
  obtain ⟨⟨⟨⟨large, known⟩, product⟩, full⟩, partial_ne⟩ := ok
  refine lucas_primality entry.number (entry.witness : ZMod entry.number) ?_ ?_
  · exact (entry.power_eq_one large _ (by omega)).mp full
  · intro q prime divides
    rw [← product] at divides
    obtain ⟨f, member, dvd⟩ := (Prime.dvd_prod_iff prime.prime).mp divides
    have same : q = f := (Nat.prime_dvd_prime_iff_eq prime (primes f (known f member))).mp dvd
    have bounded : (entry.number - 1) / q ≤ entry.number :=
      (Nat.div_le_self _ _).trans (Nat.sub_le _ _)
    exact fun one => partial_ne f member (same ▸ (entry.power_eq_one large _ bounded).mpr one)

theorem prime_of_accepted (certified : List ℕ) (entries : List Entry)
    (primes : ∀ q ∈ certified, q.Prime) (ok : accepted certified entries = true) :
    ∀ entry ∈ entries, entry.number.Prime := by
  induction entries generalizing certified with
  | nil => simp
  | cons entry entries ih =>
    simp only [accepted, Bool.and_eq_true] at ok
    have head := entry.prime_of_accepted certified primes ok.1
    have tail := ih (entry.number :: certified)
      (by simpa using ⟨head, primes⟩) ok.2
    simpa using ⟨head, tail⟩

end MyTools.Library.Certificate
