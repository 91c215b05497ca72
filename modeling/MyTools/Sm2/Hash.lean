import MyTools.Sm2.Miracl

/-! The users of the hash function: `sm3_z`, `sm3_e`, `kdf` and `kdf_key`. The hash
function is a parameter. -/
namespace MyTools.Sm2
open Library

/-- One call of `malloc`: `none` is `NULL`, else a block of arbitrary contents. -/
abbrev Malloc := (size : ℕ) → Option (Vector UInt8 size)

/-- An `int` where the C library expects a `size_t`. -/
def sizeT (size : ℤ) : ℕ := (size % 2 ^ 64).toNat

theorem sizeT_natCast {size : ℕ} (fits : size < 2 ^ 64) : sizeT size = size := by
  unfold sizeT
  omega

/-- A sum of type `int`; undefined when it overflows. -/
def intSum (sum : ℤ) : Option ℤ := if -2 ^ 31 ≤ sum ∧ sum < 2 ^ 31 then some sum else none

theorem intSum_run {sum : ℤ} (fits : -2 ^ 31 ≤ sum ∧ sum < 2 ^ 31) : intSum sum = some sum := if_pos fits

theorem of_intSum {sum result : ℤ} (run : intSum sum = some result) : result = sum ∧ -2 ^ 31 ≤ sum ∧ sum < 2 ^ 31 := by
  unfold intSum at run
  split at run
  · next fits => exact ⟨(Option.some.inj run).symm, fits⟩
  · cases run

def sm2ParDig : Bytes := [
  0xFF, 0xFF, 0xFF, 0xFE, 0xFF, 0xFF, 0xFF, 0xFF, 0xFF, 0xFF, 0xFF, 0xFF, 0xFF, 0xFF, 0xFF, 0xFF,
  0xFF, 0xFF, 0xFF, 0xFF, 0x00, 0x00, 0x00, 0x00, 0xFF, 0xFF, 0xFF, 0xFF, 0xFF, 0xFF, 0xFF, 0xFC,
  0x28, 0xE9, 0xFA, 0x9E, 0x9D, 0x9F, 0x5E, 0x34, 0x4D, 0x5A, 0x9E, 0x4B, 0xCF, 0x65, 0x09, 0xA7,
  0xF3, 0x97, 0x89, 0xF5, 0x15, 0xAB, 0x8F, 0x92, 0xDD, 0xBC, 0xBD, 0x41, 0x4D, 0x94, 0x0E, 0x93,
  0x32, 0xC4, 0xAE, 0x2C, 0x1F, 0x19, 0x81, 0x19, 0x5F, 0x99, 0x04, 0x46, 0x6A, 0x39, 0xC9, 0x94,
  0x8F, 0xE3, 0x0B, 0xBF, 0xF2, 0x66, 0x0B, 0xE1, 0x71, 0x5A, 0x45, 0x89, 0x33, 0x4C, 0x74, 0xC7,
  0xBC, 0x37, 0x36, 0xA2, 0xF4, 0xF6, 0x77, 0x9C, 0x59, 0xBD, 0xCE, 0xE3, 0x6B, 0x69, 0x21, 0x53,
  0xD0, 0xA9, 0x87, 0x7C, 0xC6, 0x2A, 0x47, 0x40, 0x02, 0xDF, 0x32, 0xE5, 0x21, 0x39, 0xF0, 0xA0]

theorem sm2ParDig_eq : sm2ParDig = (octets a).toList ++ (octets b).toList ++ (octets gx).toList ++
    (octets gy).toList := by decide +kernel

section
variable (sm3 : Bytes → Octets)

def sm3Z (malloc : Malloc) (userid : Bytes) (useridLen : ℤ) (xa : Bytes) (xaLen : ℤ) (ya : Bytes)
    (yaLen : ℤ) (z : Octets) : Option (ℤ × Octets) :=
  if 32 < xaLen ∨ 32 < yaLen then some (-1, z) else do
  match malloc (sizeT (← intSum (2 + useridLen + 128 + 32 + 32))) with
  | none => return (-1, z)
  | some block =>
    -- `userid_len << 3`: the shift drops what does not fit, and only the low 16 bits are read
    let useridBitlen := useridLen * 8
    let buf ← Bytes.write block.toList 0 [UInt8.ofInt (useridBitlen / 256), UInt8.ofInt useridBitlen]
    let buf ← buf.write 2 (← userid.read (sizeT useridLen))
    let buf ← buf.write (2 + useridLen) sm2ParDig
    let buf ← buf.write (2 + useridLen + 128) (List.replicate 64 0)
    let buf ← buf.write (2 + useridLen + 128 + 32 - xaLen) (← xa.read 32)
    let buf ← buf.write (2 + useridLen + 128 + 32 + 32 - yaLen) (← ya.read 32)
    return (0, sm3 (← buf.read (2 + useridLen + 128 + 32 + 32).toNat))

/-- `true` when the pointer `e` is returned, `false` for `NULL`; and what `e` points to. -/
def sm3E (malloc malloc' : Malloc) (userid : Bytes) (useridLen : ℤ) (xa : Bytes) (xaLen : ℤ) (ya : Bytes)
    (yaLen : ℤ) (msg : Bytes) (msgLen : ℤ) (e : Octets) : Option (Bool × Octets) :=
  if 32 < xaLen ∨ 32 < yaLen then some (false, e) else do
  match malloc (sizeT (← intSum (2 + useridLen + 128 + 32 + 32))) with
  | none => return (false, e)
  | some block =>
    let useridBitlen := useridLen * 8
    let buf ← Bytes.write block.toList 0 [UInt8.ofInt (useridBitlen / 256), UInt8.ofInt useridBitlen]
    let buf ← buf.write 2 (← userid.read (sizeT useridLen))
    let buf ← buf.write (2 + useridLen) sm2ParDig
    let buf ← buf.write (2 + useridLen + 128) (List.replicate 64 0)
    let buf ← buf.write (2 + useridLen + 128 + 32 - xaLen) (← xa.read (sizeT xaLen))
    let buf ← buf.write (2 + useridLen + 128 + 32 + 32 - yaLen) (← ya.read (sizeT yaLen))
    let e := sm3 (← buf.read (2 + useridLen + 128 + 32 + 32).toNat)
    match malloc' (sizeT (← intSum (msgLen + 32))) with
    | none => return (false, e)
    | some block =>
      let buf ← Bytes.write block.toList 0 e.toList
      let buf ← buf.write 32 (← msg.read (sizeT msgLen))
      return (true, sm3 (← buf.read (← intSum (32 + msgLen)).toNat))

/-- The block of the key stream with counter `ct`. -/
def kdfBlock (z : Bytes) (ct : ℕ) : Bytes := (sm3 (z ++ Bytes.ofNat 4 ct)).toList

/-- `m` passes of the loop over `i`. -/
def kdfBlocks (z : Bytes) : (m ct p : ℕ) → Bytes → Option Bytes
  | 0, _, _, kbuf => some kbuf
  | m + 1, ct, p, kbuf => do
    let kbuf ← kbuf.write p (kdfBlock sm3 z ct)
    kdfBlocks z m (ct + 1) (p + 32) kbuf

/-- The part that `kdf` and `kdf_key` have in common. -/
def kdfFill (z : Bytes) (klen : ℤ) (kbuf : Bytes) : Option Bytes := do
  let m := klen.tdiv 32
  let n := klen.tmod 32
  let kbuf ← kdfBlocks sm3 z m.toNat 1 0 kbuf
  -- unset when `n` is zero, when nothing is read of it
  let digest := if n ≠ 0 then kdfBlock sm3 z (m.toNat + 1) else []
  kbuf.write (32 * m.toNat) (← digest.read (sizeT n))

def kdf (zl zr : Octets) (klen : ℤ) (kbuf : Bytes) : Option (ℤ × Bytes) := do
  let kbuf ← kdfFill sm3 (zl.toList ++ zr.toList) klen kbuf
  return (if (kbuf.take klen.toNat).any (· != 0) then 1 else 0, kbuf)

def kdfKey (malloc : Malloc) (z : Bytes) (zlen klen : ℤ) (kbuf : Bytes) : Option (ℤ × Bytes) :=
  match malloc (sizeT (zlen + 4)) with
  | none => some (0, kbuf)
  | some _ => do
    let z ← z.read (sizeT zlen)
    let kbuf ← kdfFill sm3 z klen kbuf
    return (1, kbuf)

end

/-! What they write when memory suffices. -/

/-- An allocation that succeeds, whatever the contents of the block. -/
def granted (blocks : (size : ℕ) → Vector UInt8 size) : Malloc := fun size => some (blocks size)

theorem fits_nil : ([] : Bytes).length < 2 ^ 31 := by decide

structure Identity where
  bytes : Bytes
  fits : bytes.length < 2 ^ 31

section
variable (sm3 : Bytes → Octets)

def zMessage (id : Identity) (xa ya : Octets) : Bytes :=
  [UInt8.ofInt (id.bytes.length * 8 / 256), UInt8.ofInt (id.bytes.length * 8)] ++ id.bytes ++ sm2ParDig ++
    xa.toList ++ ya.toList

/-- The string that `sm3_e` hashes: the coordinates with zeros in front of them. -/
def paddedMessage (id : Identity) (xa ya : Bytes) : Bytes :=
  [UInt8.ofInt (id.bytes.length * 8 / 256), UInt8.ofInt (id.bytes.length * 8)] ++ id.bytes ++ sm2ParDig ++
    (List.replicate (32 - xa.length) 0 ++ xa) ++ (List.replicate (32 - ya.length) 0 ++ ya)

theorem paddedMessage_octets (id : Identity) (xa ya : Octets) :
    paddedMessage id xa.toList ya.toList = zMessage id xa ya := by
  simp [paddedMessage, zMessage]

/-- The stores of both routines: the fields are filled from the front, the coordinates replace zeros. -/
theorem paddedMessage_stored (id : Identity) {xa ya : Bytes} (xa_short : xa.length ≤ 32) (ya_short : ya.length ≤ 32)
    {memory : Bytes} (length : memory.length = id.bytes.length + 194) :
    ∃ b₁ b₂ b₃ b₄ b₅ b₆ : Bytes,
      memory.write 0 [UInt8.ofInt (id.bytes.length * 8 / 256), UInt8.ofInt (id.bytes.length * 8)] = some b₁ ∧
      b₁.write 2 id.bytes = some b₂ ∧ b₂.write (2 + id.bytes.length) sm2ParDig = some b₃ ∧
      b₃.write (2 + id.bytes.length + 128) (List.replicate 64 0) = some b₄ ∧
      b₄.write (2 + id.bytes.length + 128 + 32 - xa.length) xa = some b₅ ∧
      b₅.write (2 + id.bytes.length + 128 + 32 + 32 - ya.length) ya = some b₆ ∧
      b₆.read (2 + id.bytes.length + 128 + 32 + 32 : ℤ).toNat = some (paddedMessage id xa ya) := by
  have par : sm2ParDig.length = 128 := rfl
  simp only [paddedMessage]
  set entl : Bytes := [UInt8.ofInt (id.bytes.length * 8 / 256), UInt8.ofInt (id.bytes.length * 8)]
  have entl_length : entl.length = 2 := rfl
  have w1 := Bytes.write_fill [] memory entl 0 rfl (by omega)
  have w2 := Bytes.write_fill entl (memory.drop 2) id.bytes 2 rfl (by simp; omega)
  have w3 := Bytes.write_fill (entl ++ id.bytes) ((memory.drop 2).drop id.bytes.length) sm2ParDig
    (2 + id.bytes.length) (by simp [entl_length]) (by simp [par]; omega)
  have w4 := Bytes.write_fill (entl ++ id.bytes ++ sm2ParDig) (((memory.drop 2).drop id.bytes.length).drop 128)
    (List.replicate 64 0) (2 + id.bytes.length + 128) (by simp [entl_length, par]; ring) (by simp; omega)
  have spent : (((memory.drop 2).drop id.bytes.length).drop 128).drop 64 = [] :=
    List.eq_nil_of_length_eq_zero (by simp; omega)
  have w5 := Bytes.write_fill (entl ++ id.bytes ++ sm2ParDig ++ List.replicate (32 - xa.length) 0)
    (List.replicate (32 + xa.length) 0) xa (2 + id.bytes.length + 128 + 32 - xa.length)
    (by simp [entl_length, par]; omega) (by simp)
  have w6 := Bytes.write_fill (entl ++ id.bytes ++ sm2ParDig ++ (List.replicate (32 - xa.length) 0 ++ xa) ++
    List.replicate (32 - ya.length) 0) (List.replicate ya.length 0) ya
    (2 + id.bytes.length + 128 + 32 + 32 - ya.length) (by simp [entl_length, par]; omega) (by simp)
  have zeros (m n : ℕ) : List.replicate m (0 : UInt8) ++ List.replicate n 0 = List.replicate (m + n) 0 :=
    List.replicate_append_replicate
  rw [List.nil_append, List.nil_append, entl_length] at w1
  rw [par] at w3
  rw [List.length_replicate, spent, List.append_nil] at w4
  rw [List.append_assoc _ (List.replicate (32 - xa.length) 0), zeros, show 32 - xa.length + (32 + xa.length) = 64 by omega,
    List.drop_replicate, Nat.add_sub_cancel, List.append_assoc _ (List.replicate (32 - xa.length) 0)] at w5
  rw [List.append_assoc _ (List.replicate (32 - ya.length) 0), zeros, show 32 - ya.length + ya.length = 32 by omega,
    List.drop_replicate, Nat.sub_self, List.replicate_zero, List.append_nil,
    List.append_assoc _ (List.replicate (32 - ya.length) 0)] at w6
  refine ⟨_, _, _, _, _, _, w1, w2, w3, w4, w5, w6, ?_⟩
  rw [Bytes.read_of_le (by simp [entl_length, par]; omega), List.take_of_length_le (by simp [entl_length, par]; omega)]

theorem Identity.read (id : Identity) : id.bytes.read (sizeT id.bytes.length) = some id.bytes := by
  have fits := id.fits
  rw [sizeT_natCast (by omega), Bytes.read_length]

theorem octets_read (octets : Octets) : Bytes.read octets.toList 32 = some octets.toList := by
  simpa using Bytes.read_length octets.toList

theorem sm3Z_run (blocks : (size : ℕ) → Vector UInt8 size) (id : Identity) (xa ya z : Octets) :
    sm3Z sm3 (granted blocks) id.bytes id.bytes.length xa.toList 32 ya.toList 32 z =
      if id.bytes.length + 194 < 2 ^ 31 then some (0, sm3 (zMessage id xa ya)) else none := by
  split
  · rename_i fits
    have sum : intSum (2 + id.bytes.length + 128 + 32 + 32) = some (2 + id.bytes.length + 128 + 32 + 32 : ℤ) :=
      intSum_run (by omega)
    have sizes : sizeT (2 + id.bytes.length + 128 + 32 + 32) = id.bytes.length + 194 := by
      unfold sizeT; omega
    have length : (blocks (sizeT (2 + id.bytes.length + 128 + 32 + 32))).toList.length = id.bytes.length + 194 := by
      rw [Vector.length_toList, sizes]
    have short (octets : Octets) : octets.toList.length ≤ 32 := Nat.le_of_eq Vector.length_toList
    obtain ⟨b₁, b₂, b₃, b₄, b₅, b₆, w₁, w₂, w₃, w₄, w₅, w₆, whole⟩ :=
      paddedMessage_stored id (short xa) (short ya) length
    rw [Vector.length_toList, Nat.cast_ofNat] at w₅ w₆
    rw [paddedMessage_octets] at whole
    simp -implicitDefEqProofs only [sm3Z, granted, lt_self_iff_false, or_self, if_false, sum, id.read, octets_read, w₁, w₂,
      w₃, w₄, w₅, w₆, whole, Option.bind_eq_bind, Option.bind_some]
    rfl
  · rename_i overflows
    have sum : intSum (2 + id.bytes.length + 128 + 32 + 32) = none := if_neg (by omega)
    simp only [sm3Z, lt_self_iff_false, or_self, if_false, sum]
    rfl

/-- `sm3_e` hashes the message behind the hash of the padded string, as long as `msg_len + 32` is an `int`. -/
theorem sm3E_padded (blocks blocks' : (size : ℕ) → Vector UInt8 size) {id : Identity} (short : id.bytes.length + 194 < 2 ^ 31)
    {xa ya : Bytes} (xa_short : xa.length ≤ 32) (ya_short : ya.length ≤ 32) (e : Octets) (msg : Bytes) :
    sm3E sm3 (granted blocks) (granted blocks') id.bytes id.bytes.length xa xa.length ya ya.length msg msg.length e =
      if msg.length + 32 < 2 ^ 31 then some (true, sm3 ((sm3 (paddedMessage id xa ya)).toList ++ msg)) else none := by
  have sizes : sizeT (2 + id.bytes.length + 128 + 32 + 32) = id.bytes.length + 194 := by
    unfold sizeT; omega
  have length : (blocks (sizeT (2 + id.bytes.length + 128 + 32 + 32))).toList.length = id.bytes.length + 194 := by
    rw [Vector.length_toList, sizes]
  have first : intSum (2 + id.bytes.length + 128 + 32 + 32) = some (2 + id.bytes.length + 128 + 32 + 32 : ℤ) :=
    intSum_run (by omega)
  have coordinate {octets : Bytes} (octets_short : octets.length ≤ 32) : octets.read (sizeT octets.length) = some octets := by
    rw [sizeT_natCast (by omega), Bytes.read_length]
  have valid : ¬ ((32 : ℤ) < xa.length ∨ (32 : ℤ) < ya.length) := by omega
  obtain ⟨b₁, b₂, b₃, b₄, b₅, b₆, w₁, w₂, w₃, w₄, w₅, w₆, whole⟩ := paddedMessage_stored id xa_short ya_short length
  simp -implicitDefEqProofs only [sm3E, granted, if_neg valid, first, id.read, coordinate xa_short, coordinate ya_short, w₁, w₂, w₃,
    w₄, w₅, w₆, whole, Option.bind_eq_bind, Option.bind_some]
  split
  · rename_i fits
    have second : intSum (msg.length + 32) = some (msg.length + 32 : ℤ) := intSum_run (by omega)
    have third : intSum (32 + msg.length) = some (32 + msg.length : ℤ) := intSum_run (by omega)
    have size : (blocks' (sizeT (msg.length + 32))).toList.length = 32 + msg.length := by
      rw [Vector.length_toList]
      unfold sizeT
      omega
    have readable : Bytes.read msg (sizeT msg.length) = some msg := by
      rw [sizeT_natCast (by omega), Bytes.read_length]
    simp -implicitDefEqProofs only [second, third, readable, Option.bind_some]
    generalize (blocks' (sizeT (msg.length + 32))).toList = memory at *
    have v₁ := Bytes.write_fill [] memory (sm3 (paddedMessage id xa ya)).toList 0 rfl (by rw [Vector.length_toList]; omega)
    have v₂ := Bytes.write_fill (sm3 (paddedMessage id xa ya)).toList (memory.drop 32) msg 32
      (by rw [Vector.length_toList]; rfl) (by rw [List.length_drop]; omega)
    have spent : (memory.drop 32).drop msg.length = [] := by
      rw [List.drop_drop]
      exact List.drop_of_length_le size.le
    have all : Bytes.read ((sm3 (paddedMessage id xa ya)).toList ++ msg) (32 + (msg.length : ℤ)).toNat =
        some ((sm3 (paddedMessage id xa ya)).toList ++ msg) := by
      have length : ((sm3 (paddedMessage id xa ya)).toList ++ msg).length = (32 + (msg.length : ℤ)).toNat := by
        rw [List.length_append, Vector.length_toList]
        omega
      rw [← length, Bytes.read_length]
    rw [List.nil_append, List.nil_append, Vector.length_toList] at v₁
    rw [spent, List.append_nil] at v₂
    rw [v₁, Option.bind_some, v₂, Option.bind_some, all]
    rfl
  · rename_i overflows
    have second : intSum (msg.length + 32) = none := if_neg (by omega)
    rw [second]
    rfl

theorem sm3E_run (blocks blocks' : (size : ℕ) → Vector UInt8 size) {id : Identity} (short : id.bytes.length + 194 < 2 ^ 31)
    (xa ya e : Octets) (msg : Bytes) :
    sm3E sm3 (granted blocks) (granted blocks') id.bytes id.bytes.length xa.toList 32 ya.toList 32 msg msg.length e =
      if msg.length + 32 < 2 ^ 31 then some (true, sm3 ((sm3 (zMessage id xa ya)).toList ++ msg)) else none := by
  have length (octets : Octets) : (octets.toList.length : ℤ) = 32 := by rw [Vector.length_toList]; rfl
  have fits (octets : Octets) : octets.toList.length ≤ 32 := Nat.le_of_eq Vector.length_toList
  have run := sm3E_padded sm3 blocks blocks' short (fits xa) (fits ya) e msg
  rwa [length, length, paddedMessage_octets] at run

/-- `m` blocks of the key stream from the counter `ct` on. -/
def kdfStreamFrom (z : Bytes) : (m ct : ℕ) → Bytes
  | 0, _ => []
  | m + 1, ct => kdfBlock sm3 z ct ++ kdfStreamFrom z m (ct + 1)

def kdfStream (z : Bytes) (klen : ℕ) : Bytes := (kdfStreamFrom sm3 z (klen / 32 + 1) 1).take klen

@[simp] theorem length_kdfBlock (z : Bytes) (ct : ℕ) : (kdfBlock sm3 z ct).length = 32 := by simp [kdfBlock]

@[simp] theorem length_kdfStreamFrom (z : Bytes) (m ct : ℕ) : (kdfStreamFrom sm3 z m ct).length = 32 * m := by
  induction m generalizing ct with
  | zero => rfl
  | succ m ih => simp [kdfStreamFrom, ih]; omega

@[simp] theorem length_kdfStream (z : Bytes) (klen : ℕ) : (kdfStream sm3 z klen).length = klen := by
  simp [kdfStream]; omega

theorem kdfStreamFrom_succ (z : Bytes) (m ct : ℕ) :
    kdfStreamFrom sm3 z (m + 1) ct = kdfStreamFrom sm3 z m ct ++ kdfBlock sm3 z (ct + m) := by
  induction m generalizing ct with
  | zero => simp [kdfStreamFrom]
  | succ m ih =>
    rw [kdfStreamFrom, ih, kdfStreamFrom, List.append_assoc, show ct + 1 + m = ct + (m + 1) by omega]

theorem kdfBlocks_run (z : Bytes) (m ct : ℕ) (filled rest : Bytes) (room : 32 * m ≤ rest.length) :
    kdfBlocks sm3 z m ct filled.length (filled ++ rest) =
      some (filled ++ kdfStreamFrom sm3 z m ct ++ rest.drop (32 * m)) := by
  induction m generalizing ct filled rest with
  | zero => simp [kdfBlocks, kdfStreamFrom]
  | succ m ih =>
    have written := Bytes.write_fill filled rest (kdfBlock sm3 z ct) _ rfl (by simp; omega)
    have more := ih (ct + 1) (filled ++ kdfBlock sm3 z ct) (rest.drop 32) (by simp; omega)
    rw [length_kdfBlock] at written
    rw [List.length_append, length_kdfBlock, List.drop_drop] at more
    rw [kdfBlocks, written, Option.bind_eq_bind, Option.bind_some, more, kdfStreamFrom, List.append_assoc filled]
    congr 3
    omega

theorem kdfFill_run (z : Bytes) {klen : ℕ} (kbuf : Bytes) (room : klen ≤ kbuf.length) :
    kdfFill sm3 z klen kbuf = some (kdfStream sm3 z klen ++ kbuf.drop klen) := by
  have blocks := kdfBlocks_run sm3 z (klen / 32) 1 [] kbuf (by omega)
  have quotient : ((klen : ℤ).tdiv 32).toNat = klen / 32 := by
    rw [Int.tdiv_eq_ediv_of_nonneg (Int.natCast_nonneg klen)]; omega
  have remainder : (klen : ℤ).tmod 32 = (klen % 32 : ℕ) := by
    rw [Int.tmod_eq_emod_of_nonneg (Int.natCast_nonneg klen)]; omega
  have small : sizeT (klen % 32 : ℕ) = klen % 32 := sizeT_natCast (by omega)
  have whole : klen = 32 * (klen / 32) + klen % 32 := (Nat.div_add_mod klen 32).symm
  have tail : Bytes.read (if ((klen % 32 : ℕ) : ℤ) ≠ 0 then kdfBlock sm3 z (klen / 32 + 1) else []) (klen % 32) =
      some ((kdfBlock sm3 z (klen / 32 + 1)).take (klen % 32)) := by
    split
    · exact Bytes.read_of_le (by simp; omega)
    · rename_i zero
      have zero : klen % 32 = 0 := by omega
      rw [zero]
      rfl
  have last := Bytes.write_fill (kdfStreamFrom sm3 z (klen / 32) 1) (kbuf.drop (32 * (klen / 32)))
    ((kdfBlock sm3 z (klen / 32 + 1)).take (klen % 32)) (32 * (klen / 32 : ℕ)) (by simp) (by simp; omega)
  simp only [List.length_nil, List.nil_append] at blocks
  simp only [kdfFill, quotient, remainder, small, blocks, Option.bind_eq_bind, Option.bind_some, tail, last]
  have full : kdfStream sm3 z klen = kdfStreamFrom sm3 z (klen / 32) 1 ++
      (kdfBlock sm3 z (klen / 32 + 1)).take (klen % 32) := by
    rw [kdfStream, kdfStreamFrom_succ, List.take_append, length_kdfStreamFrom, Nat.add_comm 1,
      List.take_of_length_le (by simp; omega)]
    congr 2
    omega
  rw [full, List.drop_drop, List.length_take, length_kdfBlock]
  congr 2
  congr 1
  omega

def Usable (stream : Bytes) : Prop := stream.any (· != 0) = true

instance (stream : Bytes) : Decidable (Usable stream) := by unfold Usable; infer_instance

theorem kdf_run (zl zr : Octets) (klen : ℕ) (kbuf : Bytes) (room : klen ≤ kbuf.length) :
    kdf sm3 zl zr klen kbuf = some (if Usable (kdfStream sm3 (zl.toList ++ zr.toList) klen) then 1 else 0,
      kdfStream sm3 (zl.toList ++ zr.toList) klen ++ kbuf.drop klen) := by
  have first : (kdfStream sm3 (zl.toList ++ zr.toList) klen ++ kbuf.drop klen).take klen =
      kdfStream sm3 (zl.toList ++ zr.toList) klen := List.take_left' (length_kdfStream sm3 _ klen)
  rw [kdf, kdfFill_run sm3 _ kbuf room, Option.bind_eq_bind, Option.bind_some, Int.toNat_natCast, first]
  rfl

end
end MyTools.Sm2
