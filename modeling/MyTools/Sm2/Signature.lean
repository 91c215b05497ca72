import MyTools.Library.Exchange
import MyTools.Sm2.Miracl

/-! `sm2_sign` and `sm2_verify`. The draws of the random generator are a list that
the signing loop consumes; the loop is not left when the list ends. -/
namespace MyTools.Sm2
open Library MyTools.Sm2.Miracl

/-- The variables that `sm2_sign` carries around `sm2_sign_again`. -/
structure SignState where
  k : ℕ
  r : ℕ
  s : ℕ
  a : ℕ
  b : ℕ
  g : Point

/-- One pass of the loop after a non-zero draw; `false` is a jump back. -/
def signAttempt (e key1 : ℕ) (v : SignState) : Miracl (Bool × SignState) := do
  let g ← ecurveMult v.k v.g v.g
  let (r, _) ← epointGet g v.r v.r
  let r ← add e r r
  let r ← divide r n
  if r = 0 then return (false, { v with g, r })
  let a ← add r v.k v.a
  if a = n then return (false, { v with g, r, a })
  let b ← add key1 1 v.b
  let b ← xgcd b n
  let a ← multiply r key1 a
  let a ← divide a n
  let a ← (if a ≤ v.k then subtract v.k a a else do
    let a ← subtract n a a
    add v.k a a)
  -- the third argument is the first one, so nothing is added
  let s ← mad a b none n v.s
  return (decide (s ≠ 0), { v with g, r, a, b, s })

def signAgain (e key1 : ℕ) : (draws : List ℕ) → SignState → Miracl SignState
  | [], _ => fun _ => none
  | raw :: draws, v => do
    let k ← bigrand raw n v.k
    if k = 0 then signAgain e key1 draws { v with k }
    else do
      let (done, v) ← signAttempt e key1 { v with k }
      if done then return v else signAgain e key1 draws v

structure Signature where
  cr : Octets
  rlen : ℤ
  cs : Octets
  slen : ℤ
  deriving DecidableEq

def sm2Sign (hash : Bytes) (hashlen : ℤ) (privkey : Bytes) (privkeylen : ℤ) (draws : List ℕ)
    (out : Signature) : Option (ℤ × Signature) := call do
  let key1 ← bytesToBig privkeylen privkey 0
  let (_, g) ← epointSet gx gy epointInit
  let e ← bytesToBig hashlen hash 0
  let v ← signAgain e key1 draws ⟨0, 0, 0, a, b, g⟩
  let (rlen, cr) ← bigToBytes v.r out.cr
  let (slen, cs) ← bigToBytes v.s out.cs
  return (1, ⟨cr, rlen, cs, slen⟩)

def sm2Verify (hash : Bytes) (hashlen : ℤ) (cr : Bytes) (rlen : ℤ) (cs : Bytes) (slen : ℤ)
    (wx : Bytes) (wxlen : ℤ) (wy : Bytes) (wylen : ℤ) : Option ℤ := call do
  let (_, g) ← epointSet gx gy epointInit
  let x ← bytesToBig wxlen wx gx
  let y ← bytesToBig wylen wy gy
  let (valid, w) ← epointSet x y epointInit
  if valid = false then return 0
  let e ← bytesToBig hashlen hash 0
  let r ← bytesToBig rlen cr 0
  let s ← bytesToBig slen cs 0
  if n ≤ r ∨ r = 0 then return 0
  if n ≤ s ∨ s = 0 then return 0
  let a ← add s r a
  let a ← divide a n
  if a = 0 then return 0
  let g ← ecurveMult2 s g a w g
  let (v, _) ← epointGet g 0 0
  let v ← add v e v
  let v ← divide v n
  return if v = r then 1 else 0

/-! What one pass computes. -/

/-- The first half of a signature whose point is `pt`. -/
def firstHalf (e : ℕ) (pt : Point) : ℕ := (e + abscissa pt) % n

/-- `k - r d`, up to a multiple of `n`. -/
def numerator (d r k : ℕ) : ℕ := if r * d % n ≤ k then k - r * d % n else k + (n - r * d % n)

def secondHalf (d r k : ℕ) : ℕ := numerator d r k * Inverse.cofactor (d + 1) n % n

theorem firstHalf_lt (e : ℕ) (pt : Point) : firstHalf e pt < n := Nat.mod_lt _ n_pos
theorem secondHalf_lt {d r k : ℕ} : secondHalf d r k < n := Nat.mod_lt _ n_pos

/-- The draw is rejected: one of the three jumps back is taken. -/
def Rejected (e d : ℕ) (pt : Point) (k : ℕ) : Prop :=
  firstHalf e pt = 0 ∨ firstHalf e pt + k = n ∨ secondHalf d (firstHalf e pt) k = 0

instance (e d : ℕ) (pt : Point) (k : ℕ) : Decidable (Rejected e d pt k) := by
  unfold Rejected; infer_instance

theorem signAttempt_run {e d : ℕ} (he : e < 2 ^ 256) (hd : d < n) (v : SignState) (hk : v.k < n) :
    ∃ v' : SignState, (signAttempt e d v).run mirsys =
        some ((decide (¬ Rejected e d (v.k • v.g) v.k), v'), mirsys) ∧
      v'.k = v.k ∧ v'.g = v.k • v.g ∧ (¬ Rejected e d (v.k • v.g) v.k →
        v'.r = firstHalf e (v.k • v.g) ∧ v'.s = secondHalf d (firstHalf e (v.k • v.g)) v.k) := by
  have n_lt := n_lt
  have r_lt : firstHalf e (v.k • v.g) < n := Nat.mod_lt _ n_pos
  have x_lt := (abscissa_lt (v.k • v.g)).trans p_lt
  have a_lt := Nat.mod_lt (firstHalf e (v.k • v.g) * d) n_pos
  have add_x := add_run he x_lt
  have first : (divide (e + abscissa (v.k • v.g)) n).run mirsys = some (firstHalf e (v.k • v.g), mirsys) := rfl
  have add_k := add_run (r_lt.trans n_lt) (hk.trans n_lt)
  by_cases zero : firstHalf e (v.k • v.g) = 0
  · have rejected : Rejected e d (v.k • v.g) v.k := .inl zero
    refine ⟨{ v with g := v.k • v.g, r := firstHalf e (v.k • v.g) }, ?_, rfl, rfl, absurd rejected⟩
    simp only [signAttempt, StateT.run_bind, ecurveMult_run (hk.trans n_lt), Option.bind_eq_bind, Option.bind_some,
      epointGet_run, add_x, first, if_pos zero, decide_eq_false (not_not.mpr rejected)]
    rfl
  by_cases whole : firstHalf e (v.k • v.g) + v.k = n
  · have rejected : Rejected e d (v.k • v.g) v.k := .inr (.inl whole)
    refine ⟨{ v with g := v.k • v.g, r := firstHalf e (v.k • v.g), a := firstHalf e (v.k • v.g) + v.k }, ?_,
      rfl, rfl, absurd rejected⟩
    simp only [signAttempt, StateT.run_bind, ecurveMult_run (hk.trans n_lt), Option.bind_eq_bind, Option.bind_some,
      epointGet_run, add_x, first, if_neg zero, add_k, if_pos whole, decide_eq_false (not_not.mpr rejected)]
    rfl
  have add_one := add_run (hd.trans n_lt) (show 1 < 2 ^ 256 by decide)
  have times_d := multiply_run (r_lt.trans n_lt) (hd.trans n_lt)
  have difference (r : ℕ) : (if r * d % n ≤ v.k then subtract v.k (r * d % n) (r * d % n) else do
      let a ← subtract n (r * d % n) (r * d % n)
      add v.k a a).run mirsys = some (numerator d r v.k, mirsys) := by
    unfold numerator
    split
    · rfl
    · have wrap := add_run (x := v.k) (y := n - r * d % n) (by omega) (by omega)
      simp only [StateT.run_bind, subtract_run, Option.bind_eq_bind, Option.bind_some, wrap]
  have last (r s : ℕ) : (mad (numerator d r v.k) (Inverse.cofactor (d + 1) n) none n s).run mirsys =
      some (secondHalf d r v.k, mirsys) := rfl
  have same : decide (¬ Rejected e d (v.k • v.g) v.k) =
      decide (secondHalf d (firstHalf e (v.k • v.g)) v.k ≠ 0) := by
    simp only [Rejected, zero, whole, false_or, ne_eq]
  refine ⟨⟨v.k, firstHalf e (v.k • v.g), secondHalf d (firstHalf e (v.k • v.g)) v.k,
    numerator d (firstHalf e (v.k • v.g)) v.k, Inverse.cofactor (d + 1) n, v.k • v.g⟩, ?_, rfl, rfl,
    fun _ => ⟨rfl, rfl⟩⟩
  rw [same]
  simp only [signAttempt, StateT.run_bind, ecurveMult_run (hk.trans n_lt), Option.bind_eq_bind, Option.bind_some,
    epointGet_run, add_x, first, if_neg zero, add_k, if_neg whole, add_one, xgcd_run, times_d, divide_run,
    difference, last]
  rfl

/-- The multiple of the base point that is in `g` and the last draw when the loop is
left, `multiple` being in `g` before it. -/
def lastAttempt (e d : ℕ) : (draws : List ℕ) → (multiple : ℕ) → Option (ℕ × ℕ)
  | [], _ => none
  | raw :: draws, multiple =>
    let k := raw % n
    if k = 0 then lastAttempt e d draws multiple
    else if Rejected e d ((k * multiple) • base) k then lastAttempt e d draws (k * multiple)
    else some (k * multiple, k)

/-- A draw that leaves the loop while `g` holds the given multiple. -/
structure Final (e d multiple k : ℕ) : Prop where
  positive : k ≠ 0
  small : k < n
  kept : ¬ Rejected e d (multiple • base) k

theorem Final.first_ne {e d multiple k : ℕ} (final : Final e d multiple k) : firstHalf e (multiple • base) ≠ 0 :=
  fun zero => final.kept (.inl zero)

theorem Final.second_ne {e d multiple k : ℕ} (final : Final e d multiple k) :
    secondHalf d (firstHalf e (multiple • base)) k ≠ 0 :=
  fun zero => final.kept (.inr (.inr zero))

theorem lastAttempt_final {e d : ℕ} (draws : List ℕ) (multiple : ℕ) {last k : ℕ}
    (attempt : lastAttempt e d draws multiple = some (last, k)) : Final e d last k := by
  induction draws generalizing multiple with
  | nil => cases attempt
  | cons raw draws ih =>
    simp only [lastAttempt] at attempt
    split at attempt
    · exact ih multiple attempt
    · rename_i nonzero
      split at attempt
      · exact ih _ attempt
      · rename_i kept
        cases attempt
        exact ⟨nonzero, Nat.mod_lt _ n_pos, kept⟩

theorem signAgain_run {e d : ℕ} (he : e < 2 ^ 256) (hd : d < n) (draws : List ℕ) (multiple : ℕ)
    (v : SignState) (hg : v.g = multiple • base) :
    match lastAttempt e d draws multiple with
    | none => (signAgain e d draws v).run mirsys = none
    | some (last, k) => ∃ v', (signAgain e d draws v).run mirsys = some (v', mirsys) ∧
        v'.r = firstHalf e (last • base) ∧ v'.s = secondHalf d (firstHalf e (last • base)) k := by
  induction draws generalizing multiple v with
  | nil => rfl
  | cons raw draws ih =>
    by_cases zero : raw % n = 0
    · simp only [lastAttempt, signAgain, StateT.run_bind, bigrand_run, Option.bind_eq_bind, Option.bind_some,
        if_pos zero]
      exact ih multiple { v with k := raw % n } hg
    · have small : raw % n < n := Nat.mod_lt _ n_pos
      have product : (raw % n) • v.g = (raw % n * multiple) • base := by rw [hg, mul_nsmul']
      obtain ⟨v', run, -, hg', halves⟩ := signAttempt_run he hd { v with k := raw % n } small
      simp only [product] at run hg' halves
      simp only [lastAttempt, signAgain, StateT.run_bind, bigrand_run, Option.bind_eq_bind, Option.bind_some,
        if_neg zero, run]
      by_cases rejected : Rejected e d ((raw % n * multiple) • base) (raw % n)
      · rw [if_pos rejected, decide_eq_false (not_not.mpr rejected)]
        exact ih (raw % n * multiple) v' hg'
      · rw [if_neg rejected, decide_eq_true rejected]
        exact ⟨v', rfl, halves rejected⟩

/-! The equation that verification checks. -/

/-- What `sm2_verify` checks of the halves `r` and `s` under the public key `pt`. -/
def Accepts (e r s : ℕ) (pt : Point) : Prop :=
  (r < n ∧ r ≠ 0) ∧ (s < n ∧ s ≠ 0) ∧ (s + r) % n ≠ 0 ∧
    (abscissa (s • base + ((s + r) % n) • pt) + e) % n = r

instance (e r s : ℕ) (pt : Point) : Decidable (Accepts e r s pt) := by unfold Accepts; infer_instance

theorem sm2Verify_run (hash cr cs : Octets) {pt : Point} (finite : pt ≠ 0) :
    sm2Verify hash.toList 32 cr.toList 32 cs.toList 32 (octets (abscissa pt)).toList 32
      (octets (ordinate pt)).toList 32 = some (if Accepts hash.value cr.value cs.value pt then 1 else 0) := by
  have x_value := octets_value ((abscissa_lt pt).trans p_lt)
  have y_value := octets_value ((ordinate_lt pt).trans p_lt)
  have set_base : (epointSet gx gy epointInit).run mirsys = some ((true, base), mirsys) :=
    epointSet_run base_ne_zero epointInit
  have total := add_run cs.value_lt cr.value_lt
  have v_lt := (abscissa_lt (cs.value • base + ((cs.value + cr.value) % n) • pt)).trans p_lt
  have last := add_run v_lt hash.value_lt
  have valid : ¬ true = false := Bool.noConfusion
  by_cases r_ok : n ≤ cr.value ∨ cr.value = 0
  · rw [if_neg fun accepts => by have := accepts.1; omega]
    simp only [sm2Verify, call, StateT.run_bind, set_base, Option.bind_eq_bind, Option.bind_some,
      bytesToBig_octets, x_value, y_value, epointSet_run finite, if_neg valid, if_pos r_ok]
    rfl
  by_cases s_ok : n ≤ cs.value ∨ cs.value = 0
  · rw [if_neg fun accepts => by have := accepts.2.1; omega]
    simp only [sm2Verify, call, StateT.run_bind, set_base, Option.bind_eq_bind, Option.bind_some,
      bytesToBig_octets, x_value, y_value, epointSet_run finite, if_neg valid, if_neg r_ok, if_pos s_ok]
    rfl
  by_cases sum_ok : (cs.value + cr.value) % n = 0
  · rw [if_neg fun accepts => accepts.2.2.1 sum_ok]
    simp only [sm2Verify, call, StateT.run_bind, set_base, Option.bind_eq_bind, Option.bind_some,
      bytesToBig_octets, x_value, y_value, epointSet_run finite, if_neg valid, if_neg r_ok, if_neg s_ok, total,
      divide_run, if_pos sum_ok]
    rfl
  · have same : Accepts hash.value cr.value cs.value pt ↔
        (abscissa (cs.value • base + ((cs.value + cr.value) % n) • pt) + hash.value) % n = cr.value :=
      ⟨fun accepts => accepts.2.2.2, fun equal => ⟨by omega, by omega, sum_ok, equal⟩⟩
    simp only [sm2Verify, call, StateT.run_bind, set_base, Option.bind_eq_bind, Option.bind_some,
      bytesToBig_octets, x_value, y_value, epointSet_run finite, if_neg valid, if_neg r_ok, if_neg s_ok, total,
      divide_run, if_neg sum_ok, ecurveMult2_run cs.value_lt (mod_n_lt _), epointGet_run, last, same]
    rfl

/-- The signature that belongs to the point of `multiple` and to the draw `k`. -/
def signatureOf (e d multiple k : ℕ) : Signature :=
  let r := firstHalf e (multiple • base)
  ⟨octets r, 32, octets (secondHalf d r k), 32⟩

theorem sm2Sign_run (hash : Octets) {d : ℕ} (hd : d < n) (draws : List ℕ) (out : Signature) :
    sm2Sign hash.toList 32 (octets d).toList 32 draws out =
      (lastAttempt hash.value d draws 1).map fun attempt => (1, signatureOf hash.value d attempt.1 attempt.2) := by
  have d_value := octets_value (hd.trans n_lt)
  have set_base : (epointSet gx gy epointInit).run mirsys = some ((true, base), mirsys) :=
    epointSet_run base_ne_zero epointInit
  have loop := signAgain_run hash.value_lt hd draws 1 ⟨0, 0, 0, a, b, base⟩ (one_nsmul base).symm
  rcases attempt : lastAttempt hash.value d draws 1 with _ | ⟨multiple, k⟩
  · simp only [attempt] at loop
    simp only [sm2Sign, call, StateT.run_bind, bytesToBig_octets, d_value, set_base, Option.bind_eq_bind,
      Option.bind_some, loop]
    rfl
  · simp only [attempt] at loop
    obtain ⟨v, run, first, second⟩ := loop
    have final := lastAttempt_final draws 1 attempt
    simp only [sm2Sign, call, StateT.run_bind, bytesToBig_octets, d_value, set_base, Option.bind_eq_bind,
      Option.bind_some, run, first, second, bigToBytes_run final.first_ne ((firstHalf_lt _ _).trans n_lt),
      bigToBytes_run final.second_ne (secondHalf_lt.trans n_lt)]
    rfl

theorem numerator_cast (d r k : ℕ) : (numerator d r k : ZMod n) = k - r * d := by
  have below := (Nat.mod_lt (r * d) n_pos).le
  unfold numerator
  split
  · rename_i order
    rw [Nat.cast_sub order, ZMod.natCast_mod, Nat.cast_mul]
  · rw [Nat.cast_add, Nat.cast_sub below, ZMod.natCast_self, ZMod.natCast_mod, Nat.cast_mul]
    ring

theorem secondHalf_mul {d : ℕ} (unit : Nat.Coprime (d + 1) n) (r k : ℕ) :
    (secondHalf d r k * (1 + d) : ZMod n) = k - r * d := by
  have inverse := Inverse.mul_cofactor_of_coprime (d + 1) n one_lt_n unit
  push_cast at inverse
  rw [secondHalf, ZMod.natCast_mod, Nat.cast_mul, numerator_cast]
  linear_combination (k - r * d : ZMod n) * inverse

theorem coprime_succ {d : ℕ} (hd : d + 1 < n) : Nat.Coprime (d + 1) n :=
  (Nat.coprime_of_lt_prime (Nat.succ_ne_zero d) hd n_prime).symm

/-- A finished attempt is accepted exactly when `g` held the multiple of the last draw,
as far as the abscissa modulo `n` tells. -/
theorem Final.accepts_iff {e d multiple k : ℕ} (final : Final e d multiple k) (unit : Nat.Coprime (d + 1) n) :
    Accepts e (firstHalf e (multiple • base)) (secondHalf d (firstHalf e (multiple • base)) k) (d • base) ↔
      abscissa (multiple • base) ≡ abscissa (k • base) [MOD n] := by
  have r_ne := final.first_ne
  have s_ne := final.second_ne
  have rk_ne : firstHalf e (multiple • base) + k ≠ n := fun whole => final.kept (.inr (.inl whole))
  have small := final.small
  have equation := secondHalf_mul unit (firstHalf e (multiple • base)) k
  have r_lt := firstHalf_lt e (multiple • base)
  have s_lt := secondHalf_lt (d := d) (r := firstHalf e (multiple • base)) (k := k)
  generalize hr : firstHalf e (multiple • base) = r at *
  generalize secondHalf d r k = s at *
  have sum_ne : (s + r) % n ≠ 0 := by
    intro zero
    have sum : ((s + r : ℕ) : ZMod n) = 0 := (ZMod.natCast_eq_zero_iff _ _).mpr (Nat.dvd_of_mod_eq_zero zero)
    have whole : ((r + k : ℕ) : ZMod n) = 0 := by
      push_cast at sum ⊢
      linear_combination (1 + d : ZMod n) * sum - equation
    obtain ⟨c, hc⟩ := (ZMod.natCast_eq_zero_iff _ _).mp whole
    rcases c with _ | _ | c
    · omega
    · omega
    · have large : n * 2 ≤ n * (c + 1 + 1) := Nat.mul_le_mul_left n (by omega)
      omega
  have point : s • base + ((s + r) % n) • d • base = k • base :=
    Exchange.signature n_nsmul_base (by rw [ZMod.natCast_mod]; push_cast; ring) equation
  have reduced : Accepts e r s (d • base) ↔ (abscissa (k • base) + e) % n = r := by
    rw [← point]
    exact ⟨fun accepts => accepts.2.2.2, fun equal => ⟨⟨r_lt, r_ne⟩, ⟨s_lt, s_ne⟩, sum_ne, equal⟩⟩
  rw [reduced, ← hr, firstHalf, Nat.add_comm e]
  exact ⟨fun same => (Nat.ModEq.add_right_cancel' e same).symm, fun same => (same.add_right e).symm⟩

/-- A private key with which `1 + d` can be inverted. -/
structure SigningKey where
  d : ℕ
  positive : 1 ≤ d
  bounded : d ≤ n - 2

def SigningKey.publicKey (key : SigningKey) : Point := key.d • base

theorem SigningKey.small (key : SigningKey) : key.d + 1 < n := by
  have bounded := key.bounded
  have large : 2 < n := by decide +kernel
  omega

theorem SigningKey.publicKey_ne_zero (key : SigningKey) : key.publicKey ≠ 0 :=
  nsmul_base_ne_zero key.positive (Nat.lt_of_succ_lt key.small)

/-- The verification of what `sm2_sign` has written, under a public key. -/
def verifyOutput (hash : Octets) (sig : Signature) (pt : Point) : Option ℤ :=
  sm2Verify hash.toList 32 sig.cr.toList sig.rlen sig.cs.toList sig.slen
    (octets (abscissa pt)).toList 32 (octets (ordinate pt)).toList 32

theorem verifyOutput_signatureOf (hash : Octets) (d multiple k : ℕ) {pt : Point} (finite : pt ≠ 0) :
    verifyOutput hash (signatureOf hash.value d multiple k) pt =
      some (if Accepts hash.value (firstHalf hash.value (multiple • base))
        (secondHalf d (firstHalf hash.value (multiple • base)) k) pt then 1 else 0) := by
  have verdict := sm2Verify_run hash (octets (firstHalf hash.value (multiple • base)))
    (octets (secondHalf d (firstHalf hash.value (multiple • base)) k)) finite
  rwa [octets_value ((firstHalf_lt _ _).trans n_lt), octets_value (secondHalf_lt.trans n_lt)] at verdict

/-- What is signed verifies exactly when the multiple of the base point that the jumps
back have left in `g` has the abscissa of the last draw's multiple, modulo `n`. -/
theorem sm2Sign_sm2Verify_iff (key : SigningKey) (hash : Octets) (draws : List ℕ) (out : Signature) :
    (∀ ret sig, sm2Sign hash.toList 32 (octets key.d).toList 32 draws out = some (ret, sig) →
      verifyOutput hash sig key.publicKey = some 1) ↔
    ∀ multiple k, lastAttempt hash.value key.d draws 1 = some (multiple, k) →
      abscissa (multiple • base) ≡ abscissa (k • base) [MOD n] := by
  have signed := sm2Sign_run hash (Nat.lt_of_succ_lt key.small) draws out
  have verified (multiple k : ℕ) := verifyOutput_signatureOf hash key.d multiple k key.publicKey_ne_zero
  constructor
  · intro accepted multiple k attempt
    rw [attempt] at signed
    have one := accepted _ _ signed
    rw [verified] at one
    refine ((lastAttempt_final draws 1 attempt).accepts_iff (coprime_succ key.small)).mp ?_
    by_contra refused
    rw [SigningKey.publicKey, if_neg refused] at one
    cases one
  · intro same ret sig run
    rw [signed] at run
    obtain ⟨⟨multiple, k⟩, attempt, equal⟩ := Option.map_eq_some_iff.mp run
    cases equal
    have accepts := ((lastAttempt_final draws 1 attempt).accepts_iff (coprime_succ key.small)).mpr
      (same multiple k attempt)
    rw [verified, SigningKey.publicKey, if_pos accepts]

/-- The hash is chosen so that the draw 2 gives `r = 0`; the draw 3 is then multiplied
into the point of the draw 2. -/
theorem sm2Sign_retry_rejected :
    let key : SigningKey := ⟨5, by decide, by decide +kernel⟩
    let hash := octets (n - abscissa (2 • base))
    let sig := signatureOf hash.value key.d 6 3
    sm2Sign hash.toList 32 (octets key.d).toList 32 [2, 3] ⟨octets 0, 0, octets 0, 0⟩ = some (1, sig) ∧
      verifyOutput hash sig key.publicKey = some 0 := by
  intro key hash sig
  have attempt : lastAttempt hash.value key.d [2, 3] 1 = some (6, 3) := by decide +kernel
  have apart : ¬ abscissa (6 • base) ≡ abscissa (3 • base) [MOD n] := by decide +kernel
  have refused := mt ((lastAttempt_final [2, 3] 1 attempt).accepts_iff (coprime_succ key.small)).mp apart
  constructor
  · rw [sm2Sign_run hash (Nat.lt_of_succ_lt key.small), attempt]
    rfl
  · rw [verifyOutput_signatureOf hash key.d 6 3 key.publicKey_ne_zero, SigningKey.publicKey, if_neg refused]

end MyTools.Sm2
