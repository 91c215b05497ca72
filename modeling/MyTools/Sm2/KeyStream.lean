import MyTools.Library.Buffer
import MyTools.Sm2.Hash
import MyTools.Sm3.Standard

/-! `kdf` and `kdf_key` with their arrays: the counter is stored behind the secret, the last octets come from a
local digest. Both write the key stream. -/
namespace MyTools.Sm2
open Library

structure KdfState (size : ℕ) where
  buf : Vector UInt8 size
  kbuf : Bytes
  p : ℕ
  ct : UInt32

section
variable (sm3 : Bytes → Octets) {size : ℕ}

/-- The counter goes behind the `zlen` octets of `buf`, and both are hashed. -/
def counted (zlen : ℕ) (buf : Vector UInt8 size) (ct : UInt32) : Option (Vector UInt8 size × Octets) := do
  let buf ← Buffer.store buf zlen
    [((ct >>> 24) &&& 0xFF).toUInt8, ((ct >>> 16) &&& 0xFF).toUInt8, ((ct >>> 8) &&& 0xFF).toUInt8, (ct &&& 0xFF).toUInt8]
  return (buf, sm3 (← Bytes.read buf.toList (zlen + 4)))

def kdfPass (zlen : ℕ) (s : KdfState size) : Option (KdfState size) := do
  let (buf, digest) ← counted sm3 zlen s.buf s.ct
  return ⟨buf, ← s.kbuf.write s.p digest.toList, s.p + 32, s.ct + 1⟩

/-- The text of both routines behind the copy of the secret. -/
def kdfLoop (zlen : ℕ) (buf : Vector UInt8 size) (digest : Octets) (klen : ℤ) (kbuf : Bytes) : Option Bytes := do
  let m := klen.tdiv 32
  let n := klen.tmod 32
  let s ← Loop.up (fun _ s => kdfPass sm3 zlen s) m.toNat ⟨buf, kbuf, 0, 1⟩
  let digest ← (if n ≠ 0 then do return (← counted sm3 zlen s.buf s.ct).2 else some digest)
  s.kbuf.write s.p (← Bytes.read digest.toList (sizeT n))

/-- `buf` and `digest` are not initialized. -/
def kdfRun (buf : Vector UInt8 70) (digest zl zr : Octets) (klen : ℤ) (kbuf : Bytes) : Option (ℤ × Bytes) := do
  let buf ← Buffer.store buf 0 zl.toList
  let buf ← Buffer.store buf 32 zr.toList
  let kbuf ← kdfLoop sm3 64 buf digest klen kbuf
  let left ← Loop.find (fun i => do return (← kbuf[i]?) != 0) 0 klen.toNat
  return (if left then 1 else 0, kbuf)

def kdfKeyRun (malloc : Malloc) (digest : Octets) (z : Bytes) (zlen klen : ℤ) (kbuf : Bytes) : Option (ℤ × Bytes) :=
  match malloc (sizeT (zlen + 4)) with
  | none => some (0, kbuf)
  | some buf => do
    let buf ← Buffer.store buf 0 (← z.read (sizeT zlen))
    let kbuf ← kdfLoop sm3 zlen.toNat buf digest klen kbuf
    return (1, kbuf)

end

section
variable (sm3 : Bytes → Octets) {size : ℕ}

theorem counter_octets (ct : UInt32) :
    [((ct >>> 24) &&& 0xFF).toUInt8, ((ct >>> 16) &&& 0xFF).toUInt8, ((ct >>> 8) &&& 0xFF).toUInt8, (ct &&& 0xFF).toUInt8] =
      Bytes.ofNat 4 ct.toNat := by
  have low (x : UInt32) : (x &&& 0xFF).toUInt8 = x.toUInt8 := by
    apply UInt8.toNat_inj.mp
    have mask : (x &&& 0xFF).toNat = x.toNat % 2 ^ 8 := by
      rw [UInt32.toNat_and]
      exact Nat.and_two_pow_sub_one_eq_mod x.toNat 8
    rw [UInt32.toNat_toUInt8, UInt32.toNat_toUInt8, mask, Nat.mod_mod]
  have value : Bytes.value (Sm3.bigEndian ct) = Bytes.value (Bytes.ofNat 4 ct.toNat) := by
    rw [Sm3.value_bigEndian, Bytes.value_ofNat_of_lt ct.toNat_lt]
  rw [low, low, low, low]
  exact Bytes.value_injective (Bytes.length_ofNat 4 ct.toNat).symm value

theorem counted_run {zlen : ℕ} (fits : zlen + 4 ≤ size) {z : Bytes} {buf : Vector UInt8 size} (front : buf.toList.take zlen = z)
    (ct : UInt32) :
    ∃ buf', counted sm3 zlen buf ct = some (buf', sm3 (z ++ Bytes.ofNat 4 ct.toNat)) ∧ buf'.toList.take zlen = z := by
  obtain ⟨buf', stored, list⟩ := Buffer.store_run buf zlen (Bytes.ofNat 4 ct.toNat) (by rw [Bytes.length_ofNat]; exact fits)
  have length : z.length = zlen := by rw [← front, List.length_take, Vector.length_toList]; omega
  have whole : (z ++ Bytes.ofNat 4 ct.toNat).length = zlen + 4 := by rw [List.length_append, length, Bytes.length_ofNat]
  rw [front] at list
  have read : Bytes.read buf'.toList (zlen + 4) = some (z ++ Bytes.ofNat 4 ct.toNat) := by
    rw [Bytes.read_of_le (by rw [Vector.length_toList]; exact fits), list, List.take_left' whole]
  refine ⟨buf', ?_, ?_⟩
  · rw [counted, counter_octets, stored, Option.bind_eq_bind, Option.bind_some, read]
    rfl
  · rw [list, List.append_assoc, List.take_left' length]

/-- The first `i` blocks of the stream are stored. -/
structure Streamed (z : Bytes) (zlen : ℕ) (kbuf : Bytes) (i : ℕ) (s : KdfState size) : Prop where
  front : s.buf.toList.take zlen = z
  stored : s.kbuf = kdfStreamFrom sm3 z i 1 ++ kbuf.drop (32 * i)
  p : s.p = 32 * i
  ct : s.ct.toNat = i + 1

theorem kdfPass_run {zlen : ℕ} (fits : zlen + 4 ≤ size) {z kbuf : Bytes} {i : ℕ} {s : KdfState size}
    (holds : Streamed sm3 z zlen kbuf i s) (room : 32 * (i + 1) ≤ kbuf.length) (small : i + 2 < 2 ^ 32) :
    ∃ s', kdfPass sm3 zlen s = some s' ∧ Streamed sm3 z zlen kbuf (i + 1) s' := by
  obtain ⟨buf', hashed, front⟩ := counted_run sm3 fits holds.front s.ct
  have written := Bytes.write_fill (kdfStreamFrom sm3 z i 1) (kbuf.drop (32 * i)) (kdfBlock sm3 z (i + 1)) (32 * i : ℕ)
    (by rw [length_kdfStreamFrom]) (by rw [length_kdfBlock, List.length_drop]; omega)
  rw [length_kdfBlock, List.drop_drop, ← Nat.mul_succ, Nat.add_comm i 1, ← kdfStreamFrom_succ, Nat.add_comm 1 i] at written
  refine ⟨⟨buf', kdfStreamFrom sm3 z (i + 1) 1 ++ kbuf.drop (32 * (i + 1)), s.p + 32, s.ct + 1⟩, ?_, ?_⟩
  · rw [kdfPass, hashed, Option.bind_eq_bind, Option.bind_some, holds.ct, holds.stored, holds.p]
    dsimp only
    rw [show (sm3 (z ++ Bytes.ofNat 4 (i + 1))).toList = kdfBlock sm3 z (i + 1) from rfl, written]
    rfl
  · refine ⟨front, rfl, ?_, ?_⟩
    · rw [holds.p]
      rfl
    · rw [UInt32.toNat_add, holds.ct]
      exact Nat.mod_eq_of_lt small

theorem kdfPasses_run {zlen : ℕ} (fits : zlen + 4 ≤ size) {z kbuf : Bytes} {buf : Vector UInt8 size}
    (front : buf.toList.take zlen = z) {m : ℕ} (room : 32 * m ≤ kbuf.length) (small : m + 1 < 2 ^ 32) :
    ∃ s, Loop.up (fun _ s => kdfPass sm3 zlen s) m (⟨buf, kbuf, 0, 1⟩ : KdfState size) = some s ∧
      Streamed sm3 z zlen kbuf m s := by
  apply Loop.up_rule (Streamed sm3 z zlen kbuf)
  · exact ⟨front, rfl, rfl, rfl⟩
  · intro i s inside holds
    exact kdfPass_run sm3 fits holds (by omega) (by omega)

theorem kdfLoop_eq {zlen : ℕ} (fits : zlen + 4 ≤ size) {z kbuf : Bytes} {buf : Vector UInt8 size}
    (front : buf.toList.take zlen = z) (digest : Octets) {klen : ℕ} (small : klen < 2 ^ 31) (room : klen ≤ kbuf.length) :
    kdfLoop sm3 zlen buf digest klen kbuf = kdfFill sm3 z klen kbuf := by
  have quotient : ((klen : ℤ).tdiv 32).toNat = klen / 32 := by
    rw [Int.tdiv_eq_ediv_of_nonneg (Int.natCast_nonneg klen)]; omega
  have remainder : (klen : ℤ).tmod 32 = (klen % 32 : ℕ) := by
    rw [Int.tmod_eq_emod_of_nonneg (Int.natCast_nonneg klen)]; omega
  have size_rest : sizeT (klen % 32 : ℕ) = klen % 32 := sizeT_natCast (by omega)
  have whole : 32 * (klen / 32) ≤ kbuf.length := by omega
  obtain ⟨s, run, holds⟩ := kdfPasses_run sm3 fits front whole (by omega)
  have blocks := kdfBlocks_run sm3 z (klen / 32) 1 [] kbuf (by omega)
  rw [List.length_nil, List.nil_append, List.nil_append, ← holds.stored] at blocks
  simp only [kdfLoop, kdfFill, quotient, remainder, size_rest, run, blocks, Option.bind_eq_bind, Option.bind_some, holds.p]
  by_cases none_left : klen % 32 = 0
  · have zero : ¬ ((klen % 32 : ℕ) : ℤ) ≠ 0 := by omega
    rw [if_neg zero, if_neg zero, Option.bind_some, none_left]
    rfl
  · have some_left : ((klen % 32 : ℕ) : ℤ) ≠ 0 := by omega
    obtain ⟨buf', hashed, -⟩ := counted_run sm3 fits holds.front s.ct
    rw [if_pos some_left, if_pos some_left, hashed, holds.ct]
    rfl

theorem scan_run {kbuf : Bytes} {klen : ℕ} (room : klen ≤ kbuf.length) :
    Loop.find (fun i => do return (← kbuf[i]?) != 0) 0 klen = some ((kbuf.take klen).any (· != 0)) := by
  have tested (i : ℕ) (_ : 0 ≤ i) (below : i < 0 + klen) :
      (do return (← kbuf[i]?) != 0 : Option Bool) = some (decide (kbuf[i]? ≠ some 0)) := by
    have inside : i < kbuf.length := by omega
    rw [List.getElem?_eq_getElem inside]
    exact congrArg some (by simp [bne, Bool.beq_eq_decide_eq])
  obtain ⟨found, run, spec⟩ := Loop.find_rule (fun i => kbuf[i]? ≠ some 0) tested
  rw [run, Option.some.injEq, Bool.eq_iff_iff, spec, List.any_eq_true]
  constructor
  · rintro ⟨i, -, below, some_⟩
    have inside : i < kbuf.length := by omega
    rw [List.getElem?_eq_getElem inside] at some_
    refine ⟨kbuf[i], List.mem_iff_getElem?.mpr ⟨i, ?_⟩, bne_iff_ne.mpr fun zero => some_ (congrArg some zero)⟩
    rw [List.getElem?_take_of_lt (by omega), List.getElem?_eq_getElem inside]
  · rintro ⟨x, member, some_⟩
    obtain ⟨i, place⟩ := List.mem_iff_getElem?.mp member
    obtain ⟨inside, -⟩ := List.getElem?_eq_some_iff.mp place
    rw [List.length_take] at inside
    rw [List.getElem?_take_of_lt (by omega)] at place
    refine ⟨i, Nat.zero_le i, by omega, ?_⟩
    rw [place]
    exact fun zero => bne_iff_ne.mp some_ (Option.some.inj zero)

theorem kdfRun_eq (zl zr : Octets) {klen : ℕ} (small : klen < 2 ^ 31) {kbuf : Bytes} (room : klen ≤ kbuf.length)
    (buf : Vector UInt8 70) (digest : Octets) :
    kdfRun sm3 buf digest zl zr klen kbuf = kdf sm3 zl zr klen kbuf := by
  have size (octets : Octets) : octets.toList.length = 32 := Vector.length_toList
  obtain ⟨b, first, list⟩ := Buffer.store_run buf 0 zl.toList (by rw [size]; decide)
  obtain ⟨b', second, list'⟩ := Buffer.store_run b 32 zr.toList (by rw [size]; decide)
  have front : b'.toList.take 64 = zl.toList ++ zr.toList := by
    rw [list', list, List.take_zero, List.nil_append, List.take_left' (size zl)]
    exact List.take_left' (by rw [List.length_append, size, size])
  have filled := kdfFill_run sm3 (zl.toList ++ zr.toList) kbuf room
  have long : klen ≤ (kdfStream sm3 (zl.toList ++ zr.toList) klen ++ kbuf.drop klen).length := by
    rw [List.length_append, length_kdfStream]
    exact Nat.le_add_right _ _
  rw [kdfRun, kdf, first, Option.bind_eq_bind, Option.bind_some, second, Option.bind_some,
    kdfLoop_eq sm3 (by decide) front digest small room, filled, Option.bind_eq_bind, Option.bind_some,
    Option.bind_eq_bind, Option.bind_some, Int.toNat_natCast, scan_run long]
  rfl

theorem kdfKeyRun_eq (blocks : (size : ℕ) → Vector UInt8 size) {z : Bytes} (z_small : z.length + 4 < 2 ^ 64) {klen : ℕ}
    (small : klen < 2 ^ 31) {kbuf : Bytes} (room : klen ≤ kbuf.length) (digest : Octets) :
    kdfKeyRun sm3 (granted blocks) digest z z.length klen kbuf = some (1, kdfStream sm3 z klen ++ kbuf.drop klen) := by
  have total : sizeT (z.length + 4) = z.length + 4 := by
    unfold sizeT
    omega
  have read : z.read (sizeT z.length) = some z := by rw [sizeT_natCast (by omega), Bytes.read_length]
  obtain ⟨b, stored, list⟩ := Buffer.store_run (blocks (sizeT (z.length + 4))) 0 z (by omega)
  have front : b.toList.take z.length = z := by
    rw [list, List.take_zero, List.nil_append, List.take_left]
  rw [kdfKeyRun, granted]
  dsimp only
  rw [read, Option.bind_eq_bind, Option.bind_some, stored, Option.bind_eq_bind, Option.bind_some,
    Int.toNat_natCast, kdfLoop_eq sm3 (by omega) front digest small room, kdfFill_run sm3 z kbuf room]
  rfl

theorem kdfStreamFrom_get (z : Bytes) {m ct i : ℕ} (inside : i < 32 * m) :
    (kdfStreamFrom sm3 z m ct)[i]? = (kdfBlock sm3 z (ct + i / 32))[i % 32]? := by
  induction m generalizing ct i with
  | zero => exact absurd inside (Nat.not_lt_zero i)
  | succ m ih =>
    rw [kdfStreamFrom]
    by_cases first : i < 32
    · rw [List.getElem?_append_left (by rw [length_kdfBlock]; exact first), Nat.div_eq_of_lt first, Nat.mod_eq_of_lt first,
        Nat.add_zero]
    · rw [List.getElem?_append_right (by rw [length_kdfBlock]; omega), length_kdfBlock, ih (by omega)]
      rw [show ct + 1 + (i - 32) / 32 = ct + i / 32 by omega, show (i - 32) % 32 = i % 32 by omega]

theorem kdfStream_take (z : Bytes) {shorter klen : ℕ} (less : shorter ≤ klen) :
    kdfStream sm3 z shorter = (kdfStream sm3 z klen).take shorter := by
  apply List.ext_getElem?
  intro i
  by_cases inside : i < shorter
  · rw [kdfStream, kdfStream, List.take_take, Nat.min_eq_left less, List.getElem?_take_of_lt inside,
      List.getElem?_take_of_lt inside, kdfStreamFrom_get sm3 z (by omega), kdfStreamFrom_get sm3 z (by omega)]
  · rw [List.getElem?_eq_none (by rw [length_kdfStream]; omega), List.getElem?_eq_none (by rw [List.length_take]; omega)]

/-- Both routines write the same stream: block `i` is the hash of the secret and of `i + 1` in four octets. -/
theorem kdf_kdfKey_agree (zl zr : Octets) {klen : ℕ} (small : klen < 2 ^ 31) {kbuf kbuf' : Bytes}
    (room : klen ≤ kbuf.length) (room' : klen ≤ kbuf'.length) (buf : Vector UInt8 70) (digest digest' : Octets)
    (blocks : (size : ℕ) → Vector UInt8 size) :
    ∃ stream : ℕ → Bytes, (∀ n, (stream n).length = n) ∧ (∀ m n, m ≤ n → stream m = (stream n).take m) ∧
      (∀ n i, i < n → (stream n)[i]? = (sm3 (zl.toList ++ zr.toList ++ Bytes.ofNat 4 (i / 32 + 1))).toList[i % 32]?) ∧
      kdfRun sm3 buf digest zl zr klen kbuf =
        some (if ∃ x ∈ stream klen, x ≠ 0 then 1 else 0, stream klen ++ kbuf.drop klen) ∧
      kdfKeyRun sm3 (granted blocks) digest' (zl.toList ++ zr.toList) 64 klen kbuf' =
        some (1, stream klen ++ kbuf'.drop klen) := by
  refine ⟨kdfStream sm3 (zl.toList ++ zr.toList), length_kdfStream sm3 _, fun m n => kdfStream_take sm3 _, ?_, ?_, ?_⟩
  · intro n i inside
    rw [kdfStream, List.getElem?_take_of_lt inside, kdfStreamFrom_get sm3 _ (by omega), Nat.add_comm 1]
    rfl
  · rw [kdfRun_eq sm3 zl zr small room, kdf_run sm3 zl zr klen kbuf room]
    simp only [Usable, List.any_eq_true, bne_iff_ne]
  · have length : (zl.toList ++ zr.toList).length = 64 := by rw [List.length_append, Vector.length_toList, Vector.length_toList]
    have fits : (zl.toList ++ zr.toList).length + 4 < 2 ^ 64 := by rw [length]; decide
    have run := kdfKeyRun_eq sm3 blocks fits small room' digest'
    rw [length] at run
    exact run

end

theorem kdf_kdfKey_agree_three :
    ∃ stream : ℕ → Bytes, (∀ n, (stream n).length = n) ∧ (∀ m n, m ≤ n → stream m = (stream n).take m) ∧
      (∀ n i, i < n → (stream n)[i]? = (Sm3.sm3 ((Vector.replicate 32 1).toList ++ (Vector.replicate 32 2).toList ++
        Bytes.ofNat 4 (i / 32 + 1))).toList[i % 32]?) ∧
      kdfRun Sm3.sm3 (.replicate 70 9) (.replicate 32 9) (.replicate 32 1) (.replicate 32 2) (3 : ℕ) [5, 6, 7] =
        some (if ∃ x ∈ stream 3, x ≠ 0 then 1 else 0, stream 3 ++ []) ∧
      kdfKeyRun Sm3.sm3 (granted fun size => .replicate size 9) (.replicate 32 8)
        ((Vector.replicate 32 1).toList ++ (Vector.replicate 32 2).toList) 64 (3 : ℕ) [5, 6, 7, 8] =
        some (1, stream 3 ++ [8]) :=
  kdf_kdfKey_agree Sm3.sm3 (.replicate 32 1) (.replicate 32 2) (by decide) (by decide) (by decide) (.replicate 70 9)
    (.replicate 32 9) (.replicate 32 8) fun size => .replicate size 9

end MyTools.Sm2
