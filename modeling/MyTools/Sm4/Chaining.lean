import MyTools.Sm4.Access

/-! `sm4_cbc_encrypt` in its three branches, and `sm4_cbc_mac`: each loop goes through states that are known
from the chain of the text, and the tails complete the last block. -/
namespace MyTools.Sm4
open Library Memory Modes

/-! One block. -/

section
variable (roundKey : Vector UInt32 32) {mem : Memory UInt8} {input out : ℕ} {x iv : Source} {block v : Bytes}

theorem xorEncrypt_run (x_reads : x.Reads mem out block) (iv_reads : iv.Reads mem out v) (block_size : block.length = 16)
    (v_size : v.length = 16) (mapped : mem.Mapped out 16) :
    (xorTo x iv out 16 mem).bind (encryptTo out out roundKey.toList) =
      some (mem.write out (encryptBlock roundKey (Bytes.xor block v))) := by
  have size : (Bytes.xor block v).length = 16 := by rw [Bytes.length_xor, block_size, v_size, Nat.min_self]
  have stored := xorTo_run x_reads iv_reads (block_size.trans v_size.symm) (block_size.symm ▸ mapped)
  rw [block_size] at stored
  rw [stored, Option.bind_some,
    encryptTo_run roundKey (holds_write mem out _) size mapped.write,
    write_write mem out (Nat.le_of_eq (size.trans (length_encryptBlock roundKey _).symm))]

theorem decryptXor_run {cipher : Bytes} (held : mem.Holds input cipher) (size : cipher.length = 16)
    (iv_reads : iv.Reads (mem.write out (decryptBlock roundKey cipher)) out v) (v_size : v.length = 16)
    (mapped : mem.Mapped out 16) :
    (decryptTo input out roundKey.toList mem).bind (xorTo (.pointer out) iv out 16) =
      some (mem.write out (Bytes.xor (decryptBlock roundKey cipher) v)) := by
  have plain : (decryptBlock roundKey cipher).length = 16 := length_decryptBlock roundKey cipher
  have combined : (Bytes.xor (decryptBlock roundKey cipher) v).length = 16 := by
    rw [Bytes.length_xor, plain, v_size, Nat.min_self]
  have stored := xorTo_run (reads_pointer (holds_write mem out (decryptBlock roundKey cipher)) (.inl (Nat.le_refl out)))
    iv_reads (plain.trans v_size.symm) (plain.symm ▸ mapped.write)
  rw [plain] at stored
  rw [decryptTo_run roundKey held size mapped, Option.bind_some, stored,
    write_write mem out (Nat.le_of_eq (plain.trans combined.symm))]

theorem cbcEncryptTail_run {s : Pass} {rest v : Bytes} (len : s.len = rest.length) (short : rest.length < 16)
    (x_reads : (Source.pointer s.input).Reads s.mem s.out rest) (iv_reads : s.iv.Reads s.mem s.out v)
    (v_size : v.length = 16) (mapped : rest.length ≠ 0 → s.mem.Mapped s.out 16) :
    cbcEncryptTail roundKey.toList s = some (s.mem.write s.out (if rest.length = 0 then []
      else encryptBlock roundKey (Bytes.xor (rest ++ List.replicate (16 - rest.length) 0) v))) := by
  rw [cbcEncryptTail, len]
  by_cases none_left : rest.length = 0
  · rw [if_neg (not_not.mpr none_left), if_pos none_left, write_nil]
  · have mapped := mapped none_left
    have front : (v.take rest.length).length = rest.length := by rw [List.length_take, v_size]; omega
    have first : (Bytes.xor rest (v.take rest.length)).length = rest.length := by
      rw [Bytes.length_xor, front, Nat.min_self]
    have stored := xorTo_run x_reads (iv_reads.take rest.length) front.symm (mapped.shorten (Nat.le_of_lt short))
    have filled := copyTo_run iv_reads (v_size.symm ▸ mapped) (Bytes.xor rest (v.take rest.length)) (by omega)
    have whole := Bytes.xor_append_zeros rest v (16 - rest.length) (by omega)
    rw [first, v_size, ← whole] at filled
    have size : (Bytes.xor (rest ++ List.replicate (16 - rest.length) 0) v).length = 16 := by
      rw [Bytes.length_xor, List.length_append, List.length_replicate, v_size]
      omega
    rw [if_pos none_left, if_neg none_left, stored, Option.bind_eq_bind, Option.bind_some, filled, Option.bind_some,
      encryptTo_run roundKey (holds_write s.mem s.out _) size mapped.write,
      write_write s.mem s.out (Nat.le_of_eq (size.trans (length_encryptBlock roundKey _).symm))]

theorem cbcDecryptTail_run {s : Pass} {cipher v : Bytes} (short : s.len < 16)
    (last : s.len ≠ 0 → cipher.length = 16 ∧ s.mem.Holds s.input cipher) (iv_reads : s.iv.Reads s.mem s.out v)
    (v_size : v.length = 16) (mapped : s.mem.Mapped s.out s.len) :
    cbcDecryptTail roundKey.toList s = some (s.mem.write s.out
      ((Bytes.xor (decryptBlock roundKey cipher) v).take s.len)) := by
  rw [cbcDecryptTail]
  by_cases none_left : s.len = 0
  · rw [if_neg (not_not.mpr none_left), none_left, List.take_zero, write_nil]
  · obtain ⟨size, held⟩ := last none_left
    have read := loads_run held
    rw [size] at read
    have plain : (decryptBlock roundKey cipher).length = 16 := length_decryptBlock roundKey cipher
    have front : ((decryptBlock roundKey cipher).take s.len).length = s.len := by rw [List.length_take, plain]; omega
    have back : (v.take s.len).length = s.len := by rw [List.length_take, v_size]; omega
    have stored := xorTo_run ((reads_array s.mem s.out (decryptBlock roundKey cipher)).take s.len)
      (iv_reads.take s.len) (front.trans back.symm) (front.symm ▸ mapped)
    rw [front] at stored
    have decrypted : sm4Decrypt cipher roundKey.toList = some (decryptBlock roundKey cipher) := sm4Decrypt_run size roundKey
    rw [if_pos none_left, read, Option.bind_eq_bind, Option.bind_some, decrypted, Option.bind_some, stored,
      Bytes.take_xor]

theorem cbcInPlaceTail_run {s : Pass} {cipher v : Bytes} (short : s.len < 16)
    (last : s.len ≠ 0 → cipher.length = 16 ∧ s.mem.Holds s.input cipher) (same : s.input = s.out)
    (iv : s.iv = .array v) (v_size : v.length = 16) :
    cbcInPlaceTail roundKey.toList s = some (s.mem.write s.out
      ((Bytes.xor (decryptBlock roundKey cipher) v).take s.len)) := by
  rw [cbcInPlaceTail]
  by_cases none_left : s.len = 0
  · rw [if_neg (not_not.mpr none_left), none_left, List.take_zero, write_nil]
  · obtain ⟨size, held⟩ := last none_left
    have read := loads_run held
    rw [size] at read
    have plain : (decryptBlock roundKey cipher).length = 16 := length_decryptBlock roundKey cipher
    have mapped : s.mem.Mapped s.out 16 := same ▸ size ▸ held.mapped
    have front : ((decryptBlock roundKey cipher).take s.len).length = s.len := by rw [List.length_take, plain]; omega
    have back : (v.take s.len).length = s.len := by rw [List.length_take, v_size]; omega
    have decrypted : sm4Decrypt cipher roundKey.toList = some (decryptBlock roundKey cipher) := sm4Decrypt_run size roundKey
    have filled := stores_run (plain.symm ▸ mapped)
    have reads := (reads_pointer (holds_write s.mem s.out (decryptBlock roundKey cipher))
      (.inl (Nat.le_refl s.out))).take s.len
    have stored := xorTo_run reads ((reads_array _ s.out v).take s.len) (front.trans back.symm)
      (front.symm ▸ (mapped.shorten (Nat.le_of_lt short)).write)
    rw [front, ← Bytes.take_xor] at stored
    have length : ((Bytes.xor (decryptBlock roundKey cipher) v).take s.len).length = s.len := by
      rw [Bytes.take_xor, Bytes.length_xor, front, back, Nat.min_self]
    have copied := copyTo_run (reads_array (s.mem.write s.out (decryptBlock roundKey cipher)) s.out cipher)
      (size.symm ▸ mapped.write) _ (length.trans_le (Nat.le_of_lt (size.symm ▸ short)))
    rw [length, size] at copied
    have behind : (s.mem.write s.out ((Bytes.xor (decryptBlock roundKey cipher) v).take s.len)).Holds
        (s.out + s.len) (cipher.drop s.len) := (same ▸ held).rest (.inl rfl) (Nat.le_of_eq length)
    have whole := write_append s.mem s.out ((Bytes.xor (decryptBlock roundKey cipher) v).take s.len) (cipher.drop s.len)
    rw [length, write_holds behind] at whole
    rw [if_pos none_left, read, Option.bind_eq_bind, Option.bind_some, decrypted, Option.bind_some, filled,
      Option.bind_eq_bind, Option.bind_some, iv, stored, Option.bind_some, copied, write_write, ← whole]
    rw [List.length_append, length, List.length_drop, plain, size]
    omega

end

/-! The encryption. -/

section
variable {key iv : Vector UInt8 16} {text : Bytes} {room : ℕ}

/-- The vector, or the block that the first `k` blocks of the text end in. -/
def linked (key iv : Vector UInt8 16) (text : Bytes) (k : ℕ) : Bytes :=
  chain (encryptBlock (roundKeys key)) 16 iv.toList text k

/-- What the loop and the tail leave in the output. -/
def chained (key iv : Vector UInt8 16) (text : Bytes) (count : ℕ) : Bytes :=
  cbc (encryptBlock (roundKeys key)) 16 iv.toList text count

theorem length_chained (key iv : Vector UInt8 16) {count : ℕ} (inside : 16 * count ≤ text.length) :
    (chained key iv text count).length = 16 * count :=
  length_cbc (fun b _ => length_encryptBlock (roundKeys key) b) (Vector.length_toList) inside

theorem length_linked {k : ℕ} (inside : 16 * k ≤ text.length) : (linked key iv text k).length = 16 :=
  length_chain (fun b _ => length_encryptBlock (roundKeys key) b) (Vector.length_toList) inside

theorem write_chained (mem : Memory UInt8) (a : ℕ) {k : ℕ} (inside : 16 * k ≤ text.length) :
    (mem.write a (chained key iv text k)).write (a + 16 * k) (linked key iv text (k + 1)) =
      mem.write a (chained key iv text (k + 1)) := by
  have next := write_append mem a (chained key iv text k) (linked key iv text (k + 1))
  rw [length_chained key iv inside] at next
  exact next

def ChainBuffers.encrypting (b : ChainBuffers key iv text room) (k : ℕ) : Pass where
  mem := b.mem.write b.output (chained key iv text k)
  input := b.input + 16 * k
  out := b.output + 16 * k
  iv := .pointer (if k = 0 then b.ivec else b.output + 16 * (k - 1))
  len := text.length - 16 * k

theorem ChainBuffers.encrypting_reads (b : ChainBuffers key iv text room) {k : ℕ} (inside : 16 * k ≤ text.length)
    (fits : 16 * k ≤ room) :
    (b.encrypting k).iv.Reads (b.encrypting k).mem (b.encrypting k).out (linked key iv text k) := by
  cases k with
  | zero =>
    have unchanged : (b.encrypting 0).mem = b.mem := write_nil b.mem b.output
    rw [unchanged]
    apply reads_pointer b.iv_held
    rw [Vector.length_toList]
    exact b.iv_apart.symm.imp (Nat.le_trans (Nat.le_add_right _ _)) id
  | succ k =>
    apply reads_pointer
    · have stored : (b.encrypting (k + 1)).mem = _ := (write_chained b.mem b.output (k := k) (by omega)).symm
      rw [stored]
      exact holds_write _ _ _
    · right
      rw [length_linked inside]
      exact Nat.le_of_eq (Nat.add_assoc _ _ _)

theorem ChainBuffers.encrypting_step (b : ChainBuffers key iv text room) {k : ℕ} (inside : 16 * (k + 1) ≤ text.length)
    (fits : 16 * (k + 1) ≤ room) :
    cbcEncryptBlock (roundKeys key).toList (b.encrypting k) = some (b.encrypting (k + 1)) := by
  have within : 16 * k ≤ text.length := by omega
  have size : (chained key iv text k).length = 16 * k := length_chained key iv within
  have x_reads := (b.reads (by omega) (Nat.le_of_eq size)).take 16
  have mapped : (b.encrypting k).mem.Mapped (b.encrypting k).out 16 := (b.mapped.sub (Nat.mul_succ 16 k ▸ fits)).write
  have run : (xorTo (.pointer (b.encrypting k).input) (b.encrypting k).iv (b.encrypting k).out 16
      (b.encrypting k).mem).bind (encryptTo (b.encrypting k).out (b.encrypting k).out (roundKeys key).toList) =
      some (b.encrypting (k + 1)).mem :=
    (xorEncrypt_run (roundKeys key) x_reads (b.encrypting_reads within (by omega))
      (length_block (Nat.mul_succ 16 k ▸ inside)) (length_linked within) mapped).trans
      (congrArg some (write_chained b.mem b.output within))
  rw [cbcEncryptBlock, Option.bind_eq_bind, ← Option.bind_assoc, run, Option.bind_some]
  rfl

theorem linked_whole (key iv : Vector UInt8 16) (text : Bytes) :
    linked key iv (pad 16 text) (text.length / 16) = linked key iv text (text.length / 16) :=
  chain_append (Nat.mul_div_le _ _)

theorem linked_last (key iv : Vector UInt8 16) {text : Bytes} (some_left : text.length % 16 ≠ 0) :
    linked key iv (pad 16 text) (text.length / 16 + 1) = encryptBlock (roundKeys key)
      (Bytes.xor (text.drop (16 * (text.length / 16)) ++ List.replicate (16 - text.length % 16) 0)
        (linked key iv text (text.length / 16))) := by
  rw [← linked_whole, ← block_pad (Nat.succ_pos 15) some_left]
  rfl

theorem chained_pad (key iv : Vector UInt8 16) (text : Bytes) :
    chained key iv (pad 16 text) (blockCount 16 text.length) = chained key iv text (text.length / 16) ++
      if text.length % 16 = 0 then [] else linked key iv (pad 16 text) (text.length / 16 + 1) := by
  have front : chained key iv (pad 16 text) (text.length / 16) = chained key iv text (text.length / 16) :=
    cbc_append (Nat.mul_div_le _ _)
  by_cases none_left : text.length % 16 = 0
  · rw [if_pos none_left, blockCount_whole none_left, front, List.append_nil]
  · rw [if_neg none_left, blockCount_succ none_left, ← front]
    rfl

theorem encryptTail_run {s : Pass} (len : s.len = text.length - 16 * (text.length / 16))
    (x_reads : (Source.pointer s.input).Reads s.mem s.out (text.drop (16 * (text.length / 16))))
    (iv_reads : s.iv.Reads s.mem s.out (linked key iv text (text.length / 16)))
    (mapped : text.length % 16 ≠ 0 → s.mem.Mapped s.out 16) :
    cbcEncryptTail (roundKeys key).toList s = some (s.mem.write s.out
      (if text.length % 16 = 0 then [] else linked key iv (pad 16 text) (text.length / 16 + 1))) := by
  have left : (text.drop (16 * (text.length / 16))).length = text.length % 16 := by rw [List.length_drop]; omega
  have small : text.length % 16 < 16 := Nat.mod_lt _ (Nat.succ_pos 15)
  rw [cbcEncryptTail_run (roundKeys key) (len.trans List.length_drop.symm) (left ▸ small) x_reads iv_reads
    (length_linked (Nat.mul_div_le _ _)) (left ▸ mapped), left]
  by_cases none_left : text.length % 16 = 0
  · rw [if_pos none_left, if_pos none_left]
  · rw [if_neg none_left, if_neg none_left, linked_last key iv none_left]

theorem ChainBuffers.encrypting_loop (b : ChainBuffers key iv text room) (fits : 16 * (text.length / 16) ≤ room) :
    whileBlocks (cbcEncryptBlock (roundKeys key).toList) (b.encrypting 0) = some (b.encrypting (text.length / 16)) := by
  apply whileBlocks_states b.encrypting (Nat.mod_lt text.length (Nat.succ_pos 15))
  · intro k inside
    show text.length - 16 * k = 16 * (text.length / 16 - k) + text.length % 16
    omega
  · intro k inside
    exact b.encrypting_step (by omega) (by omega)

theorem ChainBuffers.encrypting_tail (b : ChainBuffers key iv text room) (fits : 16 * blockCount 16 text.length ≤ room) :
    cbcEncryptTail (roundKeys key).toList (b.encrypting (text.length / 16)) =
      some (b.mem.write b.output (chained key iv (pad 16 text) (blockCount 16 text.length))) := by
  have whole : 16 * (text.length / 16) ≤ text.length := Nat.mul_div_le _ _
  have loop_fits : 16 * (text.length / 16) ≤ room := Nat.le_trans (Nat.mul_le_mul_left 16 (div_le_blockCount 16 _)) fits
  have written : (chained key iv text (text.length / 16)).length = 16 * (text.length / 16) := length_chained key iv whole
  have x_reads := b.reads (by omega) (Nat.le_of_eq written)
  have mapped (some_left : text.length % 16 ≠ 0) :
      (b.encrypting (text.length / 16)).mem.Mapped (b.encrypting (text.length / 16)).out 16 := by
    apply Mapped.write
    apply b.mapped.sub
    rw [blockCount_succ some_left, Nat.mul_succ] at fits
    exact fits
  have stored := write_append b.mem b.output (chained key iv text (text.length / 16))
  rw [written] at stored
  rw [encryptTail_run rfl x_reads (b.encrypting_reads whole loop_fits) mapped, chained_pad]
  exact congrArg some (stored _)

theorem ChainBuffers.encryption (b : ChainBuffers key iv text room) (length : UInt32) (size : length.toNat = text.length)
    (fits : 16 * blockCount 16 text.length ≤ room) :
    sm4CbcEncrypt b.input b.output length b.userkey b.ivec 1 b.mem =
      some (b.mem.write b.output (chained key iv (pad 16 text) (blockCount 16 text.length))) := by
  obtain ⟨read, set⟩ := setKey_run b.key_held
  have start : b.encrypting 0 = ⟨b.mem, b.input, b.output, .pointer b.ivec, length.toNat⟩ := by
    rw [size, ← write_nil b.mem b.output]
    rfl
  have loop := b.encrypting_loop (Nat.le_trans (Nat.mul_le_mul_left 16 (div_le_blockCount 16 _)) fits)
  have tail := b.encrypting_tail fits
  by_cases null : b.input = 0 ∨ b.output = 0 ∨ b.userkey = 0 ∨ b.ivec = 0
  · obtain rfl := b.empty
      (fun some_ => Nat.lt_of_lt_of_le some_ (Nat.le_trans (le_blocks (Nat.succ_pos 15) text.length) fits)) null
    rw [sm4CbcEncrypt, if_pos null]
    exact congrArg some (write_nil b.mem b.output).symm
  · rw [sm4CbcEncrypt, if_neg null, if_neg (by decide), read, Option.bind_eq_bind, Option.bind_some, set,
      Option.bind_eq_bind, Option.bind_some]
    dsimp only
    rw [if_pos rfl, ← start, loop, Option.bind_eq_bind, Option.bind_some, tail]

end

/-! The decryption of `room` octets, which are spread over whole blocks. -/

section
variable {key iv : Vector UInt8 16} {cipher : Bytes} {room : ℕ}

def unchained (key iv : Vector UInt8 16) (cipher : Bytes) (count : ℕ) : Bytes :=
  cbcBack (decryptBlock (roundKeys key)) 16 iv.toList cipher count

theorem length_before {k : ℕ} (inside : 16 * k ≤ cipher.length) : (before 16 iv.toList cipher k).length = 16 := by
  cases k with
  | zero => exact Vector.length_toList
  | succ k => exact length_block (Nat.mul_succ 16 k ▸ inside)

theorem length_undone {k : ℕ} (inside : 16 * k ≤ cipher.length) :
    (Bytes.xor (decryptBlock (roundKeys key) (block 16 cipher k)) (before 16 iv.toList cipher k)).length = 16 := by
  rw [Bytes.length_xor, length_decryptBlock, length_before inside, Nat.min_self]

theorem length_unchained {count : ℕ} (inside : 16 * count ≤ cipher.length) :
    (unchained key iv cipher count).length = 16 * count :=
  length_gather fun _ below => length_undone (by omega)

/-- The passes, with the vector read where a branch keeps it. -/
def ChainBuffers.decrypting (b : ChainBuffers key iv cipher room) (vector : ℕ → Source) (k : ℕ) : Pass where
  mem := b.mem.write b.output (unchained key iv cipher k)
  input := b.input + 16 * k
  out := b.output + 16 * k
  iv := vector k
  len := room - 16 * k

def ChainBuffers.pointed (b : ChainBuffers key iv cipher room) (k : ℕ) : Source :=
  .pointer (if k = 0 then b.ivec else b.input + 16 * (k - 1))

def copied (iv : Vector UInt8 16) (cipher : Bytes) (k : ℕ) : Source := .array (before 16 iv.toList cipher k)

/-- A branch finds the block before, whatever part of the output is stored. -/
def ChainBuffers.Keeps (b : ChainBuffers key iv cipher room) (vector : ℕ → Source) : Prop :=
  ∀ k written, 16 * k ≤ cipher.length → 16 * k ≤ room → written.length ≤ room →
    (vector k).Reads (b.mem.write b.output written) (b.output + 16 * k) (before 16 iv.toList cipher k)

theorem ChainBuffers.keeps_array (b : ChainBuffers key iv cipher room) :
    b.Keeps (copied iv cipher) :=
  fun _ _ _ _ _ => reads_array _ _ _

theorem ChainBuffers.keeps_pointer (b : ChainBuffers key iv cipher room) (separate : b.input ≠ b.output) :
    b.Keeps b.pointed := by
  intro k written inside fits short
  have apart := b.overlap.resolve_left separate
  have iv_apart := b.iv_apart
  unfold Apart at apart iv_apart
  cases k with
  | zero =>
    apply reads_pointer
    · apply b.iv_held.write
      rw [Vector.length_toList, Apart]
      exact iv_apart.imp id fun behind => by omega
    · show Ahead b.ivec (b.output + 0) (iv.toList).length
      rw [Vector.length_toList, Ahead]
      omega
  | succ k =>
    have size : (block 16 cipher k).length = 16 := length_block (Nat.mul_succ 16 k ▸ inside)
    apply reads_pointer
    · show (b.mem.write b.output written).Holds (b.input + 16 * k) (block 16 cipher k)
      apply Holds.write
      · apply b.text_held.sub
        · rw [size]
          omega
        · rw [size]
          rfl
      · rw [size, Apart]
        omega
    · show Ahead (b.input + 16 * k) (b.output + 16 * (k + 1)) (block 16 cipher k).length
      rw [size, Ahead]
      omega

theorem write_unchained (key iv : Vector UInt8 16) (mem : Memory UInt8) (a : ℕ) {k : ℕ} (inside : 16 * k ≤ cipher.length) (xs : Bytes) :
    (mem.write a (unchained key iv cipher k)).write (a + 16 * k) xs = mem.write a (unchained key iv cipher k ++ xs) := by
  have next := write_append mem a (unchained key iv cipher k) xs
  rw [length_unchained inside] at next
  exact next

theorem ChainBuffers.decrypting_step (b : ChainBuffers key iv cipher room) {vector : ℕ → Source} (keeps : b.Keeps vector)
    {k : ℕ} (inside : 16 * (k + 1) ≤ cipher.length) (fits : 16 * (k + 1) ≤ room) :
    (b.decrypting vector k).mem.Holds (b.decrypting vector k).input (block 16 cipher k) ∧
      (decryptTo (b.decrypting vector k).input (b.decrypting vector k).out (roundKeys key).toList
        (b.decrypting vector k).mem).bind (xorTo (.pointer (b.decrypting vector k).out) (vector k)
        (b.decrypting vector k).out 16) = some (b.decrypting vector (k + 1)).mem := by
  have within : 16 * k ≤ cipher.length := by omega
  have size : (unchained key iv cipher k).length = 16 * k := length_unchained within
  have held := (b.rest_held (by omega) (Nat.le_of_eq size)).take 16
  have mapped : (b.decrypting vector k).mem.Mapped (b.decrypting vector k).out 16 :=
    (b.mapped.sub (Nat.mul_succ 16 k ▸ fits)).write
  have decrypted := write_unchained key iv b.mem b.output within
    (decryptBlock (roundKeys key) (block 16 cipher k))
  have reads := keeps k (unchained key iv cipher k ++ decryptBlock (roundKeys key) (block 16 cipher k)) within (by omega) (by
    rw [List.length_append, size, length_decryptBlock]
    exact fits)
  rw [← decrypted] at reads
  refine ⟨held, ?_⟩
  have run := decryptXor_run (roundKeys key) held (length_block (Nat.mul_succ 16 k ▸ inside)) reads (length_before within) mapped
  exact run.trans (congrArg some (write_unchained key iv b.mem b.output within _))

theorem ChainBuffers.decrypting_loop (b : ChainBuffers key iv cipher room) (vector : ℕ → Source)
    {body : Pass → Option Pass}
    (step : ∀ k, k < room / 16 → body (b.decrypting vector k) = some (b.decrypting vector (k + 1))) :
    whileBlocks body (b.decrypting vector 0) = some (b.decrypting vector (room / 16)) := by
  apply whileBlocks_states (b.decrypting vector) (Nat.mod_lt room (Nat.succ_pos 15))
  · intro k inside
    show room - 16 * k = 16 * (room / 16 - k) + room % 16
    omega
  · exact step

theorem ChainBuffers.separate_loop (b : ChainBuffers key iv cipher room) (separate : b.input ≠ b.output)
    (whole : 16 * (room / 16) ≤ cipher.length) :
    whileBlocks (cbcDecryptBlock (roundKeys key).toList) (b.decrypting b.pointed 0) =
      some (b.decrypting b.pointed (room / 16)) := by
  apply b.decrypting_loop
  intro k below
  obtain ⟨-, run⟩ := b.decrypting_step (b.keeps_pointer separate) (k := k) (by omega) (by omega)
  rw [cbcDecryptBlock, Option.bind_eq_bind, ← Option.bind_assoc]
  exact (congrArg (Option.bind · _) run).trans rfl

theorem ChainBuffers.inPlace_loop (b : ChainBuffers key iv cipher room) (whole : 16 * (room / 16) ≤ cipher.length) :
    whileBlocks (cbcInPlaceBlock (roundKeys key).toList) (b.decrypting (copied iv cipher) 0) =
      some (b.decrypting (copied iv cipher) (room / 16)) := by
  apply b.decrypting_loop
  intro k below
  obtain ⟨held, run⟩ := b.decrypting_step b.keeps_array (k := k) (by omega) (by omega)
  have read := loads_run held
  rw [length_block (by omega)] at read
  rw [cbcInPlaceBlock, read, Option.bind_eq_bind, Option.bind_some, Option.bind_eq_bind, ← Option.bind_assoc]
  exact (congrArg (Option.bind · _) run).trans rfl

theorem take_unchained (key iv : Vector UInt8 16) {cipher : Bytes} {room : ℕ}
    (size : cipher.length = 16 * blockCount 16 room) :
    (unchained key iv cipher (blockCount 16 room)).take room = unchained key iv cipher (room / 16) ++
      (Bytes.xor (decryptBlock (roundKeys key) (block 16 cipher (room / 16))) (before 16 iv.toList cipher (room / 16))).take
        (room - 16 * (room / 16)) := by
  have whole : 16 * (room / 16) ≤ cipher.length := by
    rw [size]
    exact Nat.mul_le_mul_left 16 (div_le_blockCount 16 _)
  have front : (unchained key iv cipher (room / 16)).length = 16 * (room / 16) := length_unchained whole
  by_cases none_left : room % 16 = 0
  · have all : room - 16 * (room / 16) = 0 := by omega
    rw [all, List.take_zero, List.append_nil, blockCount_whole none_left, List.take_of_length_le (by omega)]
  · have next : unchained key iv cipher (room / 16 + 1) = unchained key iv cipher (room / 16) ++
        Bytes.xor (decryptBlock (roundKeys key) (block 16 cipher (room / 16)))
          (before 16 iv.toList cipher (room / 16)) := rfl
    rw [blockCount_succ none_left, next, List.take_append, front, List.take_of_length_le (by omega)]

theorem ChainBuffers.last_held (b : ChainBuffers key iv cipher room) (size : cipher.length = 16 * blockCount 16 room)
    (vector : ℕ → Source) (some_left : (b.decrypting vector (room / 16)).len ≠ 0) :
    (block 16 cipher (room / 16)).length = 16 ∧ (b.decrypting vector (room / 16)).mem.Holds
      (b.decrypting vector (room / 16)).input (block 16 cipher (room / 16)) := by
  have left : room % 16 ≠ 0 := by
    intro none_left
    apply some_left
    show room - 16 * (room / 16) = 0
    omega
  rw [blockCount_succ left] at size
  have written : (unchained key iv cipher (room / 16)).length = 16 * (room / 16) := length_unchained (by omega)
  exact ⟨length_block (by omega), (b.rest_held (by omega) (Nat.le_of_eq written)).take 16⟩

theorem ChainBuffers.separate_tail (b : ChainBuffers key iv cipher room) (separate : b.input ≠ b.output)
    (size : cipher.length = 16 * blockCount 16 room) :
    cbcDecryptTail (roundKeys key).toList (b.decrypting b.pointed (room / 16)) =
      some (b.mem.write b.output ((unchained key iv cipher (blockCount 16 room)).take room)) := by
  have whole : 16 * (room / 16) ≤ cipher.length := by
    rw [size]
    exact Nat.mul_le_mul_left 16 (div_le_blockCount 16 _)
  have written : (unchained key iv cipher (room / 16)).length = 16 * (room / 16) := length_unchained whole
  have reads := b.keeps_pointer separate (room / 16) (unchained key iv cipher (room / 16)) whole (by omega) (by omega)
  have mapped : (b.decrypting b.pointed (room / 16)).mem.Mapped (b.decrypting b.pointed (room / 16)).out
      (room - 16 * (room / 16)) := (b.mapped.sub (by omega)).write
  rw [cbcDecryptTail_run (roundKeys key) (show room - 16 * (room / 16) < 16 by omega) (b.last_held size b.pointed) reads
    (length_before whole) mapped, take_unchained key iv size]
  exact congrArg some (write_unchained key iv b.mem b.output whole _)

theorem ChainBuffers.inPlace_tail (b : ChainBuffers key iv cipher room) (same : b.input = b.output)
    (size : cipher.length = 16 * blockCount 16 room) :
    cbcInPlaceTail (roundKeys key).toList (b.decrypting (copied iv cipher) (room / 16)) =
      some (b.mem.write b.output ((unchained key iv cipher (blockCount 16 room)).take room)) := by
  have whole : 16 * (room / 16) ≤ cipher.length := by
    rw [size]
    exact Nat.mul_le_mul_left 16 (div_le_blockCount 16 _)
  rw [cbcInPlaceTail_run (roundKeys key) (show room - 16 * (room / 16) < 16 by omega) (b.last_held size _)
    (congrArg (· + 16 * (room / 16)) same) rfl (length_before whole), take_unchained key iv size]
  exact congrArg some (write_unchained key iv b.mem b.output whole _)

theorem ChainBuffers.decryption (b : ChainBuffers key iv cipher room) (size : cipher.length = 16 * blockCount 16 room)
    (length : UInt32) (same : length.toNat = room) :
    sm4CbcEncrypt b.input b.output length b.userkey b.ivec 0 b.mem =
      some (b.mem.write b.output ((unchained key iv cipher (blockCount 16 room)).take room)) := by
  obtain ⟨read, set⟩ := setKey_run b.key_held
  have iv_read := loads_run b.iv_held
  rw [Vector.length_toList] at iv_read
  have whole : 16 * (room / 16) ≤ cipher.length := by
    rw [size]
    exact Nat.mul_le_mul_left 16 (div_le_blockCount 16 _)
  have start (vector : ℕ → Source) :
      b.decrypting vector 0 = ⟨b.mem, b.input, b.output, vector 0, length.toNat⟩ := by
    rw [same, ← write_nil b.mem b.output]
    rfl
  by_cases null : b.input = 0 ∨ b.output = 0 ∨ b.userkey = 0 ∨ b.ivec = 0
  · have none_left : room = 0 := by
      by_contra some_left
      have blocks := le_blocks (show 0 < 16 by decide) room
      have none_held := congrArg List.length (b.empty (fun _ => Nat.pos_of_ne_zero some_left) null)
      rw [size, List.length_nil] at none_held
      omega
    have nothing : (unchained key iv cipher (blockCount 16 room)).take room = [] := List.take_eq_nil_iff.mpr (.inl none_left)
    rw [sm4CbcEncrypt, if_pos null, nothing, write_nil]
  · rw [sm4CbcEncrypt, if_neg null, if_neg (by decide), read, Option.bind_eq_bind, Option.bind_some, set,
      Option.bind_eq_bind, Option.bind_some]
    dsimp only
    rw [if_neg (by decide)]
    by_cases same_place : b.input = b.output
    · rw [if_neg (not_not.mpr same_place), iv_read, Option.bind_some]
      have loop := b.inPlace_loop whole
      rw [start] at loop
      rw [show Source.array iv.toList = copied iv cipher 0 from rfl, loop, Option.bind_eq_bind, Option.bind_some,
        b.inPlace_tail same_place size]
    · have loop := b.separate_loop same_place whole
      rw [start] at loop
      rw [if_pos same_place, show Source.pointer b.ivec = b.pointed 0 from rfl, loop, Option.bind_eq_bind, Option.bind_some,
        b.separate_tail same_place size]

end

/-- The decryption gives the text back, in place or not, and writes nothing behind it. -/
theorem sm4CbcEncrypt_roundTrip (key iv : Vector UInt8 16) (text : Text) :
    ∃ cipher : Bytes, cipher.length = 16 * ((text.bytes.length + 15) / 16) ∧
      (∀ b : ChainBuffers key iv text.bytes cipher.length,
        sm4CbcEncrypt b.input b.output text.length b.userkey b.ivec 1 b.mem = some (b.mem.write b.output cipher)) ∧
      ∀ b : ChainBuffers key iv cipher text.bytes.length,
        sm4CbcEncrypt b.input b.output text.length b.userkey b.ivec 0 b.mem = some (b.mem.write b.output text.bytes) := by
  have padded : (pad 16 text.bytes).length = 16 * blockCount 16 text.bytes.length := length_pad (Nat.succ_pos 15) text.bytes
  have size := length_chained key iv (Nat.le_of_eq padded.symm)
  refine ⟨chained key iv (pad 16 text.bytes) (blockCount 16 text.bytes.length), ?_, ?_, ?_⟩
  · rw [size, blockCount_eq (Nat.succ_pos 15)]
  · intro b
    exact b.encryption text.length text.toNat_length (Nat.le_of_eq size.symm)
  · intro b
    have undone : unchained key iv (chained key iv (pad 16 text.bytes) (blockCount 16 text.bytes.length))
        (blockCount 16 text.bytes.length) = (pad 16 text.bytes).take (16 * blockCount 16 text.bytes.length) :=
      cbcBack_cbc (fun b _ => length_encryptBlock _ b) (fun b whole => decryptBlock_encryptBlock _ whole)
        Vector.length_toList (Nat.le_refl _) (Nat.le_of_eq padded.symm)
    rw [b.decryption size text.length text.toNat_length, undone, ← padded, List.take_length, take_pad]

/-! The authentication code, which is stored over the code of the blocks before. -/

section
variable {key iv : Vector UInt8 16} {text : Bytes}

def ChainBuffers.coding (b : ChainBuffers key iv text 16) (k : ℕ) : Pass where
  mem := b.mem.write b.output (if k = 0 then [] else linked key iv text k)
  input := b.input + 16 * k
  out := b.output
  iv := .pointer (if k = 0 then b.ivec else b.output)
  len := text.length - 16 * k

theorem ChainBuffers.coding_reads (b : ChainBuffers key iv text 16) {k : ℕ} (inside : 16 * k ≤ text.length) :
    (Source.pointer (b.coding k).input).Reads (b.coding k).mem (b.coding k).out (text.drop (16 * k)) ∧
      (b.coding k).iv.Reads (b.coding k).mem (b.coding k).out (linked key iv text k) := by
  have ahead := b.ahead
  cases k with
  | zero =>
    have unchanged : (b.coding 0).mem = b.mem := write_nil b.mem b.output
    rw [unchanged]
    constructor
    · apply reads_pointer b.text_held
      exact ahead
    · apply reads_pointer b.iv_held
      rw [Vector.length_toList]
      exact b.iv_apart.symm.imp (Nat.le_trans (Nat.le_add_right _ _)) id
  | succ k =>
    have size : (linked key iv text (k + 1)).length = 16 := length_linked inside
    constructor
    · apply reads_pointer
      · show (b.mem.write b.output (linked key iv text (k + 1))).Holds _ _
        exact b.rest_held (by omega) (by omega)
      · show Ahead (b.input + 16 * (k + 1)) b.output _
        rw [Ahead, List.length_drop]
        omega
    · exact reads_pointer (holds_write b.mem b.output (linked key iv text (k + 1))) (.inl (Nat.le_refl b.output))

theorem ChainBuffers.coding_write (b : ChainBuffers key iv text 16) {k : ℕ} (inside : 16 * k ≤ text.length) {xs : Bytes}
    (size : xs.length = 16) : (b.coding k).mem.write b.output xs = b.mem.write b.output xs := by
  apply write_write
  split
  · exact Nat.zero_le _
  · rw [length_linked inside, size]

theorem ChainBuffers.coding_step (b : ChainBuffers key iv text 16) {k : ℕ} (inside : 16 * (k + 1) ≤ text.length) :
    cbcMacBlock (roundKeys key).toList (b.coding k) = some (b.coding (k + 1)) := by
  have within : 16 * k ≤ text.length := by omega
  obtain ⟨x_reads, iv_reads⟩ := b.coding_reads within
  have run := xorEncrypt_run (roundKeys key) (x_reads.take 16) iv_reads (length_block (Nat.mul_succ 16 k ▸ inside))
    (length_linked within) b.mapped.write
  rw [cbcMacBlock, Option.bind_eq_bind, ← Option.bind_assoc]
  have stored : b.mem.write b.output (linked key iv text (k + 1)) = (b.coding (k + 1)).mem := rfl
  refine (congrArg (Option.bind · _) run).trans ?_
  rw [Option.bind_some, show (b.coding k).out = b.output from rfl, b.coding_write within (length_encryptBlock _ _)]
  rfl

theorem ChainBuffers.coding_loop (b : ChainBuffers key iv text 16) :
    whileBlocks (cbcMacBlock (roundKeys key).toList) (b.coding 0) = some (b.coding (text.length / 16)) := by
  apply whileBlocks_states b.coding (Nat.mod_lt text.length (Nat.succ_pos 15))
  · intro k inside
    show text.length - 16 * k = 16 * (text.length / 16 - k) + text.length % 16
    omega
  · intro k inside
    exact b.coding_step (by omega)

theorem ChainBuffers.code (b : ChainBuffers key iv text 16) (length : UInt32) (size : length.toNat = text.length)
    (some_ : 0 < text.length) :
    sm4CbcMac b.input b.output length b.userkey b.ivec b.mem =
      some (b.mem.write b.output (linked key iv (pad 16 text) (blockCount 16 text.length))) := by
  have whole : 16 * (text.length / 16) ≤ text.length := Nat.mul_div_le _ _
  obtain ⟨read, set⟩ := setKey_run b.key_held
  obtain ⟨x_reads, iv_reads⟩ := b.coding_reads whole
  have start : b.coding 0 = ⟨b.mem, b.input, b.output, .pointer b.ivec, length.toNat⟩ := by
    rw [size, ← write_nil b.mem b.output]
    rfl
  have present : ¬ (b.input = 0 ∨ b.output = 0 ∨ b.userkey = 0 ∨ b.ivec = 0) := by
    intro null
    rw [b.empty (fun _ => Nat.succ_pos 15) null] at some_
    exact Nat.lt_irrefl 0 some_
  rw [sm4CbcMac, if_neg present, read, Option.bind_eq_bind, Option.bind_some, set, Option.bind_eq_bind, Option.bind_some,
    ← start, b.coding_loop, Option.bind_eq_bind, Option.bind_some,
    encryptTail_run rfl x_reads iv_reads fun _ => b.mapped.write]
  congr 1
  by_cases none_left : text.length % 16 = 0
  · have some_blocks : text.length / 16 ≠ 0 := by omega
    rw [if_pos none_left, write_nil, blockCount_whole none_left, linked_whole]
    exact congrArg (b.mem.write b.output) (if_neg some_blocks)
  · have padded := length_pad (Nat.succ_pos 15) text
    rw [blockCount_succ none_left] at padded
    rw [if_neg none_left, blockCount_succ none_left]
    exact b.coding_write whole (length_linked (Nat.le_of_eq padded.symm))

end

/-- The code is the last block of the encryption. -/
theorem sm4CbcMac_lastBlock (key iv : Vector UInt8 16) (text : Text) (some_ : 1 ≤ text.bytes.length) :
    ∃ cipher : Bytes, cipher.length = 16 * ((text.bytes.length + 15) / 16) ∧
      (∀ b : ChainBuffers key iv text.bytes cipher.length,
        sm4CbcEncrypt b.input b.output text.length b.userkey b.ivec 1 b.mem = some (b.mem.write b.output cipher)) ∧
      ∀ b : ChainBuffers key iv text.bytes 16, sm4CbcMac b.input b.output text.length b.userkey b.ivec b.mem =
        some (b.mem.write b.output (cipher.drop (cipher.length - 16))) := by
  have padded : (pad 16 text.bytes).length = 16 * blockCount 16 text.bytes.length := length_pad (Nat.succ_pos 15) text.bytes
  have size := length_chained key iv (Nat.le_of_eq padded.symm)
  refine ⟨chained key iv (pad 16 text.bytes) (blockCount 16 text.bytes.length), ?_, ?_, ?_⟩
  · rw [size, blockCount_eq (Nat.succ_pos 15)]
  · intro b
    exact b.encryption text.length text.toNat_length (Nat.le_of_eq size.symm)
  · intro b
    have blocks := le_blocks (show 0 < 16 by decide) text.bytes.length
    obtain ⟨count, last⟩ := Nat.exists_eq_succ_of_ne_zero (show blockCount 16 text.bytes.length ≠ 0 by omega)
    have front : (chained key iv (pad 16 text.bytes) count).length = 16 * (count + 1) - 16 := by
      rw [length_chained key iv (by omega), Nat.mul_succ, Nat.add_sub_cancel]
    have parts : chained key iv (pad 16 text.bytes) (count + 1) = chained key iv (pad 16 text.bytes) count ++
      linked key iv (pad 16 text.bytes) (count + 1) := rfl
    rw [b.code text.length text.toNat_length some_, size, last, Nat.succ_eq_add_one, parts, List.drop_left' front]

/-- Two whole blocks and five octets. -/
theorem sm4CbcMac_lastBlock_partial :
    let key : Vector UInt8 16 := Vector.ofFn fun i => .ofNat (16 * i + 1)
    let iv : Vector UInt8 16 := Vector.ofFn fun i => .ofNat (255 - i)
    let text : Text := ⟨(List.range 37).map UInt8.ofNat, by simp⟩
    ∃ cipher : Bytes, cipher.length = 16 * ((text.bytes.length + 15) / 16) ∧
      (∀ b : ChainBuffers key iv text.bytes cipher.length,
        sm4CbcEncrypt b.input b.output text.length b.userkey b.ivec 1 b.mem = some (b.mem.write b.output cipher)) ∧
      ∀ b : ChainBuffers key iv text.bytes 16,
        sm4CbcMac b.input b.output text.length b.userkey b.ivec b.mem =
          some (b.mem.write b.output (cipher.drop (cipher.length - 16))) := by
  intro key iv text
  exact sm4CbcMac_lastBlock key iv text (by simp [text])

end MyTools.Sm4
