import MyTools.Sm2.Encryption
import MyTools.Sm2.KeyStream

/-! When the loop of `sm2_encrypt` is left. The passes multiply the points that the passes before have left, and
store coordinates over those of the pass before, unless they are zero. -/
namespace MyTools.Sm2
open Library MyTools.Sm2.Miracl

structure Plaintext where
  bytes : Bytes
  fits : bytes.length < 2 ^ 31

/-- What the passes have put into `zl` and `zr`, and the multiples that they have made of the points. -/
structure Secret where
  multiple : ℕ
  zl : Octets
  zr : Octets

def Secret.next (pt : Point) (s : Secret) (raw : ℕ) : Secret :=
  if raw % n = 0 then s else
  ⟨raw % n * s.multiple, filled (abscissa ((raw % n * s.multiple) • pt)) s.zl,
    filled (ordinate ((raw % n * s.multiple) • pt)) s.zr⟩

section
variable (sm3 : Bytes → Octets)

def Secret.stream (s : Secret) (klen : ℕ) : Bytes := kdfStream sm3 (s.zl.toList ++ s.zr.toList) klen

/-- The pass of a draw makes a key stream of which some octet is not zero. -/
def Secret.Leaves (pt : Point) (klen : ℕ) (s : Secret) (raw : ℕ) : Prop :=
  raw % n ≠ 0 ∧ Usable ((s.next pt raw).stream sm3 klen)

/-- `sm2_encrypt` with the sums of its lengths, which are of type `int`. -/
def sm2EncryptCall (malloc : Malloc) (msg : Bytes) (msglen : ℤ) (wx : Bytes) (wxlen : ℤ) (wy : Bytes)
    (wylen : ℤ) (draws : List ℕ) (zl zr : Octets) (outmsg : Bytes) : Option (ℤ × Bytes) := do
  let _ ← intSum (msglen + 64)
  let (ret, outmsg) ← sm2Encrypt sm3 malloc msg msglen wx wxlen wy wylen draws zl zr outmsg
  return (← intSum ret, outmsg)

/-! One pass. -/

theorem write_coordinate {c : ℕ} (fits : c < 2 ^ 256) {offset : ℕ} {mem : Bytes} (room : offset + 32 ≤ mem.length) :
    ∃ mem', (bigToBytesAt c offset mem).run mirsys = some (mem', mirsys) ∧ mem'.length = mem.length := by
  by_cases zero : c = 0
  · refine ⟨mem, ?_, rfl⟩
    simp only [bigToBytesAt, guarded_mirsys, if_pos zero]
    rfl
  · obtain ⟨mem', written, length⟩ := Bytes.write_run mem offset (octets c).toList (Int.natCast_nonneg offset)
      (by rw [Vector.length_toList]; omega)
    exact ⟨mem', by rw [bigToBytesAt_run zero fits, written]; rfl, length⟩

structure Carries (pt : Point) (klen : ℕ) (v : EncryptState) (s : Secret) : Prop where
  g : v.g = s.multiple • base
  w : v.w = s.multiple • pt
  zl : v.zl = s.zl
  zr : v.zr = s.zr
  room : klen + 96 ≤ v.outmsg.length
  proper : s.multiple % n ≠ 0

theorem proper_mul {k l : ℕ} (first : k % n ≠ 0) (second : l % n ≠ 0) : k * l % n ≠ 0 := by
  intro zero
  rcases n_prime.dvd_mul.mp (Nat.dvd_of_mod_eq_zero zero) with divides | divides
  · exact first (Nat.mod_eq_zero_of_dvd divides)
  · exact second (Nat.mod_eq_zero_of_dvd divides)

theorem multiple_ne_zero (key : PrivateKey) {k : ℕ} (proper : k % n ≠ 0) : k • key.publicKey ≠ 0 := by
  have unit : key.d % n ≠ 0 := by
    rw [Nat.mod_eq_of_lt key.small]
    exact Nat.ne_of_gt key.positive
  rw [PrivateKey.publicKey, ← mul_nsmul', ne_eq, nsmul_base_eq_zero_iff]
  exact proper_mul proper unit

theorem pass_run (key : PrivateKey) {msg : Bytes} (fits : msg.length < 2 ^ 31) {v : EncryptState} {s : Secret}
    (carries : Carries key.publicKey msg.length v s) {raw : ℕ} (nonzero : raw % n ≠ 0) (draws : List ℕ) :
    (Usable ((s.next key.publicKey raw).stream sm3 msg.length) → ∃ out,
      (sm2EncryptAgain sm3 msg msg.length (raw :: draws) v).run mirsys = some (((msg.length : ℤ) + 64 + 32, out), mirsys)) ∧
    (¬ Usable ((s.next key.publicKey raw).stream sm3 msg.length) → ∃ v',
      (sm2EncryptAgain sm3 msg msg.length (raw :: draws) v).run mirsys =
        (sm2EncryptAgain sm3 msg msg.length draws v').run mirsys ∧
      Carries key.publicKey msg.length v' (s.next key.publicKey raw)) := by
  have proper := proper_mul (Nat.mod_mod raw n ▸ nonzero) carries.proper
  have next : s.next key.publicKey raw = ⟨raw % n * s.multiple,
      filled (abscissa ((raw % n * s.multiple) • key.publicKey)) s.zl,
      filled (ordinate ((raw % n * s.multiple) • key.publicKey)) s.zr⟩ := if_neg nonzero
  have hg : (raw % n) • v.g = (raw % n * s.multiple) • base := by rw [carries.g, mul_nsmul']
  have hw : (raw % n) • v.w = (raw % n * s.multiple) • key.publicKey := by rw [carries.w, mul_nsmul']
  have finite : ¬ pointAtInfinity v.w = true := by
    rw [carries.w]
    simpa [pointAtInfinity] using multiple_ne_zero key carries.proper
  have room := carries.room
  generalize ephemeral_eq : (raw % n * s.multiple) • base = ephemeral at *
  generalize shared_eq : (raw % n * s.multiple) • key.publicKey = shared at *
  have low : 0 + 32 ≤ v.outmsg.length := by omega
  obtain ⟨m₁, first, length₁⟩ := write_coordinate ((abscissa_lt ephemeral).trans p_lt) low
  have high : 32 + 32 ≤ m₁.length := by omega
  obtain ⟨m₂, second, length₂⟩ := write_coordinate ((ordinate_lt ephemeral).trans p_lt) high
  have keys := kdf_run sm3 (filled (abscissa shared) s.zl) (filled (ordinate shared) s.zr) msg.length (m₂.drop 96)
    (by rw [List.length_drop]; omega)
  have stream : (s.next key.publicKey raw).stream sm3 msg.length = kdfStream sm3
    ((filled (abscissa shared) s.zl).toList ++ (filled (ordinate shared) s.zr).toList) msg.length := by rw [next]; rfl
  rw [← stream] at keys
  have x_filled := bigToBytes_filled ((abscissa_lt shared).trans p_lt) s.zl
  have y_filled := bigToBytes_filled ((ordinate_lt shared).trans p_lt) s.zr
  generalize (s.next key.publicKey raw).stream sm3 msg.length = octets at *
  have length : octets.length = msg.length := stream ▸ length_kdfStream sm3 _ _
  simp only [sm2EncryptAgain, StateT.run_bind, bigrand_run, Option.bind_eq_bind, Option.bind_some, if_neg nonzero,
    ecurveMult_run (mod_n_lt _), hg, epointGet_run, first, second, if_neg finite, hw, carries.zl, carries.zr, x_filled, y_filled, keys,
    lift_some]
  constructor
  · intro usable
    have front : m₂.take 96 = m₂.take 64 ++ (m₂.drop 64).take 32 := by rw [← List.take_add]
    have point : (m₂.take 64).length = 64 := by
      rw [List.length_take]
      omega
    have gap : ((m₂.drop 64).take 32).length = 32 := by
      rw [List.length_take, List.length_drop]
      omega
    have text := sm2EncryptText_run sm3 (show msg.length < 2 ^ 64 by omega) (filled (abscissa shared) s.zl)
      (filled (ordinate shared) s.zr) ((m₂.drop 96).drop msg.length) point gap length
    have one : ¬ (1 : ℤ) = 0 := one_ne_zero
    simp only [if_pos usable, if_neg one, front, text, lift_some]
    exact ⟨_, rfl⟩
  · intro unusable
    simp only [if_neg unusable, if_true]
    refine ⟨_, rfl, ?_⟩
    rw [next]
    refine ⟨ephemeral_eq.symm, shared_eq.symm, rfl, rfl, ?_, proper⟩
    simp only [List.length_append, List.length_take, List.length_drop, length]
    omega

/-! All passes. -/

def Secret.after (pt : Point) (s : Secret) (draws : List ℕ) : Secret := draws.foldl (Secret.next pt) s

/-- One of the draws leaves the loop. -/
def Secret.Left (pt : Point) (klen : ℕ) : (s : Secret) → (draws : List ℕ) → Prop
  | _, [] => False
  | s, raw :: draws => s.Leaves sm3 pt klen raw ∨ Left pt klen (s.next pt raw) draws

theorem Secret.left_concat {pt : Point} {klen : ℕ} (s : Secret) (draws : List ℕ) (raw : ℕ) :
    s.Left sm3 pt klen (draws ++ [raw]) ↔ s.Left sm3 pt klen draws ∨ (s.after pt draws).Leaves sm3 pt klen raw := by
  induction draws generalizing s with
  | nil => exact ⟨fun left => .inr (left.resolve_right id), fun left => .inl (left.resolve_left id)⟩
  | cons first draws ih =>
    rw [List.cons_append, Left, Left, ih, or_assoc]
    rfl

theorem again_run (key : PrivateKey) {msg : Bytes} (fits : msg.length < 2 ^ 31) (draws : List ℕ) {v : EncryptState}
    {s : Secret} (carries : Carries key.publicKey msg.length v s) :
    (s.Left sm3 key.publicKey msg.length draws → ∃ out,
      (sm2EncryptAgain sm3 msg msg.length draws v).run mirsys = some (((msg.length : ℤ) + 64 + 32, out), mirsys)) ∧
    (¬ s.Left sm3 key.publicKey msg.length draws → (sm2EncryptAgain sm3 msg msg.length draws v).run mirsys = none) := by
  induction draws generalizing v s with
  | nil => exact ⟨False.elim, fun _ => rfl⟩
  | cons raw draws ih =>
    by_cases zero : raw % n = 0
    · have skipped : (sm2EncryptAgain sm3 msg msg.length (raw :: draws) v).run mirsys =
          (sm2EncryptAgain sm3 msg msg.length draws { v with k := raw % n }).run mirsys := by
        simp only [sm2EncryptAgain, StateT.run_bind, bigrand_run, Option.bind_eq_bind, Option.bind_some, if_pos zero]
      have same : s.next key.publicKey raw = s := if_pos zero
      have stays : ¬ s.Leaves sm3 key.publicKey msg.length raw := fun leaves => leaves.1 zero
      obtain ⟨g, w, zl, zr, room, proper⟩ := carries
      rw [skipped, Secret.Left, same, or_iff_right stays]
      exact ih ⟨g, w, zl, zr, room, proper⟩
    · obtain ⟨leaves, goes_on⟩ := pass_run sm3 key fits carries zero draws
      rw [Secret.Left, Secret.Leaves, and_iff_right zero]
      by_cases usable : Usable ((s.next key.publicKey raw).stream sm3 msg.length)
      · exact ⟨fun _ => leaves usable, fun stays => absurd (.inl usable) stays⟩
      · obtain ⟨v', run, carries'⟩ := goes_on usable
        rw [run, or_iff_right usable]
        exact ih carries'

/-- A call of `sm2_encrypt` with buffers that are large enough. -/
structure EncryptCall (text : Plaintext) where
  blocks : (size : ℕ) → Vector UInt8 size
  zl : Octets
  zr : Octets
  outmsg : Bytes
  room : text.bytes.length + 96 ≤ outmsg.length

namespace EncryptCall
variable {text : Plaintext} (c : EncryptCall text)

/-- No result: the draws have been used up in the loop. -/
def run (key : PrivateKey) (draws : List ℕ) : Option (ℤ × Bytes) :=
  sm2EncryptCall sm3 (granted c.blocks) text.bytes text.bytes.length (xOctets key.publicKey).toList 32
    (yOctets key.publicKey).toList 32 draws c.zl c.zr c.outmsg

def start : Secret := ⟨1, c.zl, c.zr⟩

theorem run_spec (key : PrivateKey) (draws : List ℕ) :
    (c.start.Left sm3 key.publicKey text.bytes.length draws ∧ text.bytes.length + 96 < 2 ^ 31 →
      ∃ out, c.run sm3 key draws = some ((text.bytes.length : ℤ) + 96, out)) ∧
    (¬ (c.start.Left sm3 key.publicKey text.bytes.length draws ∧ text.bytes.length + 96 < 2 ^ 31) →
      c.run sm3 key draws = none) := by
  have proper : 1 % n ≠ 0 := by
    rw [Nat.mod_eq_of_lt one_lt_n]
    exact one_ne_zero
  have carries : Carries key.publicKey text.bytes.length ⟨0, 0, 0, 0, 0, base, key.publicKey, c.zl, c.zr, c.outmsg⟩
      c.start :=
    ⟨(one_nsmul base).symm, (one_nsmul _).symm, rfl, rfl, c.room, proper⟩
  obtain ⟨leaves, stays⟩ := again_run sm3 key text.fits draws carries
  have loop := sm2Encrypt_again sm3 c.blocks text.bytes key.publicKey_ne_zero draws c.zl c.zr c.outmsg
  by_cases left : c.start.Left sm3 key.publicKey text.bytes.length draws
  · obtain ⟨out, run⟩ := leaves left
    have total : (text.bytes.length : ℤ) + 64 + 32 = text.bytes.length + 96 := by ring
    rw [run, Option.map_some, total] at loop
    dsimp only at loop
    rw [and_iff_right left, EncryptCall.run, sm2EncryptCall, loop]
    constructor
    · intro short
      have first : intSum (text.bytes.length + 64) = some (text.bytes.length + 64 : ℤ) := intSum_run (by omega)
      have second : intSum (text.bytes.length + 96) = some (text.bytes.length + 96 : ℤ) := intSum_run (by omega)
      rw [first, Option.bind_eq_bind, Option.bind_some, Option.bind_eq_bind, Option.bind_some]
      dsimp only
      rw [second]
      exact ⟨out, rfl⟩
    · intro long
      have second : intSum (text.bytes.length + 96) = none := if_neg (by omega)
      cases first : intSum (text.bytes.length + 64) with
      | none => rfl
      | some sum =>
        rw [Option.bind_eq_bind, Option.bind_some, Option.bind_eq_bind, Option.bind_some]
        dsimp only
        rw [second]
        rfl
  · refine ⟨fun both => absurd both.1 left, fun _ => ?_⟩
    rw [stays left, Option.map_none] at loop
    rw [EncryptCall.run, sm2EncryptCall, loop]
    exact Option.bind_fun_none _

/-- A pass with a key stream that is not all zeros, of one octet at least, leaves the loop with the documented
length; and some draws do. -/
def CanLeave (key : PrivateKey) : Prop :=
  (∀ draws raw, c.run sm3 key draws = none →
    (c.start.after key.publicKey draws).Leaves sm3 key.publicKey (max text.bytes.length 1) raw →
    ∃ out, c.run sm3 key (draws ++ [raw]) = some ((text.bytes.length : ℤ) + 96, out)) ∧
  ∃ draws, c.run sm3 key draws ≠ none

theorem stays_empty (empty : text.bytes.length = 0) (key : PrivateKey) (draws : List ℕ) :
    c.run sm3 key draws = none := by
  have never (s : Secret) : ¬ s.Left sm3 key.publicKey 0 draws := by
    induction draws generalizing s with
    | nil => exact id
    | cons raw draws ih =>
      rintro (leaves | left)
      · have nothing := leaves.2
        rw [Secret.stream, List.eq_nil_of_length_eq_zero (length_kdfStream sm3 _ 0)] at nothing
        cases nothing
      · exact ih _ left
  apply (c.run_spec sm3 key draws).2
  rw [empty]
  exact fun both => never _ both.1

theorem leaves_first (key : PrivateKey) (some_ : 1 ≤ text.bytes.length) :
    ∃ raw, c.start.Leaves Sm3.sm3 key.publicKey text.bytes.length raw := by
  have unit : (key.d : ZMod n) ≠ 0 := by
    rw [ne_eq, ZMod.natCast_eq_zero_iff]
    exact fun divides => Nat.not_le.mpr key.small (Nat.le_of_dvd key.positive divides)
  have inverse : (((key.d : ZMod n)⁻¹).val : ZMod n) = (key.d : ZMod n)⁻¹ := ZMod.natCast_zmod_val _
  have small : ((key.d : ZMod n)⁻¹).val % n = ((key.d : ZMod n)⁻¹).val := Nat.mod_eq_of_lt (ZMod.val_lt _)
  have one : ((key.d : ZMod n)⁻¹).val * key.d % n = 1 % n := by
    rw [← ZMod.natCast_eq_natCast_iff', Nat.cast_mul, inverse, inv_mul_cancel₀ unit, Nat.cast_one]
  have shared : (((key.d : ZMod n)⁻¹).val % n * 1) • key.publicKey = base := by
    rw [small, Nat.mul_one, PrivateKey.publicKey, ← mul_nsmul', (nsmul_base_eq_iff _ 1).mpr one, one_nsmul]
  have nonzero : ((key.d : ZMod n)⁻¹).val % n ≠ 0 := by
    intro zero
    rw [Nat.mul_mod, zero, Nat.zero_mul, Nat.zero_mod, Nat.mod_eq_of_lt one_lt_n] at one
    cases one
  have octet : kdfStream Sm3.sm3 ((xOctets base).toList ++ (yOctets base).toList) 1 = [199] := by decide +kernel
  have coordinates : NonzeroCoordinates base := by decide +kernel
  have next : c.start.next key.publicKey ((key.d : ZMod n)⁻¹).val =
      ⟨((key.d : ZMod n)⁻¹).val % n * 1, xOctets base, yOctets base⟩ := by
    rw [Secret.next, if_neg nonzero]
    dsimp only [start]
    rw [shared, filled, if_neg coordinates.abscissa_ne, filled, if_neg coordinates.ordinate_ne]
    rfl
  refine ⟨((key.d : ZMod n)⁻¹).val, nonzero, ?_⟩
  rw [next, Usable, List.any_eq_true]
  refine ⟨199, ?_, by decide⟩
  rw [kdfStream_take Sm3.sm3 _ some_] at octet
  exact List.mem_of_mem_take (octet ▸ List.mem_singleton_self 199)

/-- Just the messages that are not empty and whose documented length is an `int`. -/
theorem canLeave_iff (key : PrivateKey) :
    c.CanLeave Sm3.sm3 key ↔ 1 ≤ text.bytes.length ∧ text.bytes.length + 96 < 2 ^ 31 := by
  constructor
  · rintro ⟨-, draws, left⟩
    by_contra condition
    apply left
    by_cases empty : text.bytes.length = 0
    · exact c.stays_empty Sm3.sm3 empty key draws
    · apply (c.run_spec Sm3.sm3 key draws).2
      exact fun both => condition ⟨Nat.pos_of_ne_zero empty, both.2⟩
  · rintro ⟨some_, short⟩
    constructor
    · intro draws raw stays leaves
      rw [Nat.max_eq_left some_] at leaves
      apply (c.run_spec Sm3.sm3 key (draws ++ [raw])).1
      exact ⟨(Secret.left_concat Sm3.sm3 c.start draws raw).mpr (.inr leaves), short⟩
    · obtain ⟨raw, leaves⟩ := c.leaves_first key some_
      obtain ⟨out, run⟩ := (c.run_spec Sm3.sm3 key [raw]).1 ⟨.inl leaves, short⟩
      refine ⟨[raw], ?_⟩
      rw [run]
      exact Option.some_ne_none _

def emptyCall : EncryptCall ⟨[], fits_nil⟩ where
  blocks size := .replicate size 0
  zl := .replicate 32 0
  zr := .replicate 32 0
  outmsg := List.replicate 96 0
  room := by decide

theorem emptyCall_not_canLeave : ¬ emptyCall.CanLeave Sm3.sm3 ⟨1, Nat.one_pos, one_lt_n⟩ := by
  rintro ⟨-, draws, left⟩
  exact left (emptyCall.stays_empty Sm3.sm3 rfl _ draws)

end EncryptCall
end
end MyTools.Sm2
