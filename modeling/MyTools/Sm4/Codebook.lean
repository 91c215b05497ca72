import MyTools.Sm4.Access

/-! `sm4_ecb_encrypt`: each block is copied and then encrypted, or decrypted, where it lies. -/
namespace MyTools.Sm4
open Library Memory Modes

section
variable (enc : UInt32) (roundKey : Vector UInt32 32) {mem : Memory UInt8} {out : ℕ}

def cryptBlock (block : Bytes) : Bytes := if enc = 1 then encryptBlock roundKey block else decryptBlock roundKey block

theorem length_cryptBlock (block : Bytes) : (cryptBlock enc roundKey block).length = 16 := by
  rw [cryptBlock]
  split
  · exact length_encryptBlock roundKey block
  · exact length_decryptBlock roundKey block

theorem cryptBlock_cryptBlock {block : Bytes} (size : block.length = 16) :
    cryptBlock 0 roundKey (cryptBlock 1 roundKey block) = block := by
  rw [cryptBlock, if_neg (by decide), cryptBlock, if_pos rfl]
  exact decryptBlock_encryptBlock roundKey size

theorem cryptTo_run {block : Bytes} (size : block.length = 16) (mapped : mem.Mapped out 16) :
    (if enc = 1 then encryptTo out out roundKey.toList (mem.write out block)
      else decryptTo out out roundKey.toList (mem.write out block)) =
      some (mem.write out (cryptBlock enc roundKey block)) := by
  have shorter : block.length ≤ (cryptBlock enc roundKey block).length := by rw [size, length_cryptBlock]
  rw [← write_write mem out shorter, cryptBlock]
  split
  · exact encryptTo_run roundKey (holds_write mem out block) size mapped.write
  · exact decryptTo_run roundKey (holds_write mem out block) size mapped.write

theorem ecbBlock_run {s : Pass} {block : Bytes} (reads : (Source.pointer s.input).Reads s.mem s.out block)
    (size : block.length = 16) (mapped : s.mem.Mapped s.out 16) :
    ecbBlock enc roundKey.toList s = some ⟨s.mem.write s.out (cryptBlock enc roundKey block), s.input + 16, s.out + 16,
      s.iv, s.len - 16⟩ := by
  have copied := copyTo_all reads (size.symm ▸ mapped)
  rw [size] at copied
  rw [ecbBlock, copied, Option.bind_eq_bind, Option.bind_some, cryptTo_run enc roundKey size mapped, Option.bind_some]

theorem copyTail_run {x : Source} {rest : Bytes} (reads : x.Reads mem out rest) (short : rest.length < 16)
    (mapped : mem.Mapped out 16) :
    (copyTo x out 0 rest.length mem).bind (copyTo (.octet 0) out rest.length 16) =
      some (mem.write out (rest ++ List.replicate (16 - rest.length) 0)) := by
  have zeros := reads_octet mem out 16 0
  have copied := copyTo_all reads (mapped.shorten (Nat.le_of_lt short))
  have filled := copyTo_run zeros (by rw [List.length_replicate]; exact mapped) rest
    (by rw [List.length_replicate]; exact Nat.le_of_lt short)
  rw [List.length_replicate, List.drop_replicate] at filled
  rw [copied, Option.bind_some, filled]

end

section
variable {key : Vector UInt8 16} {text : Bytes} {room : ℕ}

def booked (enc : UInt32) (key : Vector UInt8 16) (text : Bytes) (count : ℕ) : Bytes :=
  ecb (cryptBlock enc (roundKeys key)) 16 text count

theorem length_booked (enc : UInt32) (key : Vector UInt8 16) (text : Bytes) (count : ℕ) :
    (booked enc key text count).length = 16 * count :=
  length_gather fun _ _ => length_cryptBlock enc (roundKeys key) _

def Buffers.booking (b : Buffers key text room) (enc : UInt32) (k : ℕ) : Pass where
  mem := b.mem.write b.output (booked enc key text k)
  input := b.input + 16 * k
  out := b.output + 16 * k
  iv := .octet 0
  len := text.length - 16 * k

theorem write_booked (enc : UInt32) (key : Vector UInt8 16) (text : Bytes) (mem : Memory UInt8) (a k : ℕ) (xs : Bytes) :
    (mem.write a (booked enc key text k)).write (a + 16 * k) xs = mem.write a (booked enc key text k ++ xs) := by
  have next := write_append mem a (booked enc key text k) xs
  rw [length_booked] at next
  exact next

theorem Buffers.booking_step (b : Buffers key text room) (enc : UInt32) {k : ℕ} (inside : 16 * (k + 1) ≤ text.length)
    (fits : 16 * (k + 1) ≤ room) :
    ecbBlock enc (roundKeys key).toList (b.booking enc k) = some (b.booking enc (k + 1)) := by
  have size : (block 16 text k).length = 16 := length_block (Nat.mul_succ 16 k ▸ inside)
  have written := length_booked enc key text k
  have mapped : (b.booking enc k).mem.Mapped (b.booking enc k).out 16 :=
    (b.mapped.sub (Nat.mul_succ 16 k ▸ fits)).write
  have reads := (b.reads (by omega) (Nat.le_of_eq written)).take 16
  rw [ecbBlock_run enc (roundKeys key) reads size mapped]
  exact congrArg (fun mem => some ({ b.booking enc (k + 1) with mem } : Pass))
    (write_booked enc key text b.mem b.output k _)

theorem Buffers.booking_loop (b : Buffers key text room) (enc : UInt32) (fits : 16 * (text.length / 16) ≤ room) :
    whileBlocks (ecbBlock enc (roundKeys key).toList) (b.booking enc 0) = some (b.booking enc (text.length / 16)) := by
  apply whileBlocks_states (b.booking enc) (Nat.mod_lt text.length (Nat.succ_pos 15))
  · intro k inside
    show text.length - 16 * k = 16 * (text.length / 16 - k) + text.length % 16
    omega
  · intro k inside
    exact b.booking_step enc (by omega) (by omega)

theorem booked_pad (enc : UInt32) (key : Vector UInt8 16) (text : Bytes) :
    booked enc key (pad 16 text) (blockCount 16 text.length) = booked enc key text (text.length / 16) ++
      if text.length % 16 = 0 then [] else cryptBlock enc (roundKeys key)
        (text.drop (16 * (text.length / 16)) ++ List.replicate (16 - text.length % 16) 0) := by
  have front : booked enc key (pad 16 text) (text.length / 16) = booked enc key text (text.length / 16) := by
    apply gather_congr
    intro k below
    rw [pad, block_append (by omega)]
  by_cases none_left : text.length % 16 = 0
  · rw [if_pos none_left, blockCount_whole none_left, front, List.append_nil]
  · rw [if_neg none_left, blockCount_succ none_left, ← block_pad (Nat.succ_pos 15) none_left, ← front]
    rfl

theorem Buffers.codebook (b : Buffers key text room) {enc : UInt32} (valid : ¬ (1 ≠ enc ∧ 0 ≠ enc)) (length : UInt32)
    (size : length.toNat = text.length) (fits : 16 * blockCount 16 text.length ≤ room) :
    sm4EcbEncrypt b.input b.output length b.userkey enc b.mem =
      some (b.mem.write b.output (booked enc key (pad 16 text) (blockCount 16 text.length))) := by
  obtain ⟨read, set⟩ := setKey_run b.key_held
  have start : b.booking enc 0 = ⟨b.mem, b.input, b.output, .octet 0, length.toNat⟩ := by
    rw [size, ← write_nil b.mem b.output]
    rfl
  have loop_fits : 16 * (text.length / 16) ≤ room := Nat.le_trans (Nat.mul_le_mul_left 16 (div_le_blockCount 16 _)) fits
  by_cases null : b.input = 0 ∨ b.output = 0 ∨ b.userkey = 0
  · obtain rfl := b.empty
      (fun some_ => Nat.lt_of_lt_of_le some_ (Nat.le_trans (le_blocks (Nat.succ_pos 15) text.length) fits)) null
    rw [sm4EcbEncrypt, if_pos null]
    exact congrArg some (write_nil b.mem b.output).symm
  · rw [sm4EcbEncrypt, if_neg null, if_neg valid, read, Option.bind_eq_bind, Option.bind_some, set,
      Option.bind_eq_bind, Option.bind_some, ← start, b.booking_loop enc loop_fits, Option.bind_eq_bind, Option.bind_some]
    have left : (text.drop (16 * (text.length / 16))).length = text.length - 16 * (text.length / 16) := List.length_drop
    have rest : text.length - 16 * (text.length / 16) = text.length % 16 := by omega
    have written := length_booked enc key text (text.length / 16)
    have len : (b.booking enc (text.length / 16)).len = (text.drop (16 * (text.length / 16))).length := left.symm
    rw [booked_pad, len]
    by_cases none_left : text.length % 16 = 0
    · rw [if_neg (not_not.mpr (by omega)), if_pos none_left, List.append_nil]
      rfl
    · rw [blockCount_succ none_left, Nat.mul_succ] at fits
      have mapped : (b.booking enc (text.length / 16)).mem.Mapped (b.booking enc (text.length / 16)).out 16 :=
        (b.mapped.sub fits).write
      have copied := copyTail_run (b.reads (by omega) (Nat.le_of_eq written)) (by omega) mapped
      have whole : (text.drop (16 * (text.length / 16)) ++
          List.replicate (16 - (text.drop (16 * (text.length / 16))).length) (0 : UInt8)).length = 16 := by
        rw [List.length_append, List.length_replicate]
        omega
      rw [if_pos (by omega), if_neg none_left, Option.bind_eq_bind, ← Option.bind_assoc]
      refine (congrArg (Option.bind · _) copied).trans ?_
      rw [Option.bind_some]
      refine (cryptTo_run enc (roundKeys key) whole mapped).trans (congrArg some ?_)
      rw [left, rest]
      exact write_booked enc key text b.mem b.output _ _

end

/-- Decrypting the whole blocks gives the text and the zeros it was padded with. -/
theorem sm4EcbEncrypt_roundTrip (key : Vector UInt8 16) (text : Text) :
    ∃ cipher : Bytes, cipher.length = 16 * ((text.bytes.length + 15) / 16) ∧
      (∀ b : Buffers key text.bytes cipher.length, sm4EcbEncrypt b.input b.output text.length b.userkey 1 b.mem =
        some (b.mem.write b.output cipher)) ∧
      ∀ length : UInt32, length.toNat = cipher.length → ∀ b : Buffers key cipher cipher.length,
        sm4EcbEncrypt b.input b.output length b.userkey 0 b.mem = some (b.mem.write b.output
          (text.bytes ++ List.replicate (cipher.length - text.bytes.length) 0)) := by
  have padded : (pad 16 text.bytes).length = 16 * blockCount 16 text.bytes.length := length_pad (Nat.succ_pos 15) text.bytes
  have size := length_booked 1 key (pad 16 text.bytes) (blockCount 16 text.bytes.length)
  refine ⟨booked 1 key (pad 16 text.bytes) (blockCount 16 text.bytes.length), ?_, ?_, ?_⟩
  · rw [size, blockCount_eq (Nat.succ_pos 15)]
  · intro b
    exact b.codebook (by decide) text.length text.toNat_length (Nat.le_of_eq size.symm)
  · intro length same b
    have whole : (booked 1 key (pad 16 text.bytes) (blockCount 16 text.bytes.length)).length % 16 = 0 := by
      rw [size, Nat.mul_mod_right]
    have blocks : blockCount 16 (booked 1 key (pad 16 text.bytes) (blockCount 16 text.bytes.length)).length =
        blockCount 16 text.bytes.length := by
      rw [blockCount_whole whole, size, Nat.mul_div_cancel_left _ (Nat.succ_pos 15)]
    have zeros := pad_eq (Nat.succ_pos 15) text.bytes
    rw [← size] at zeros
    have undone : booked 0 key (booked 1 key (pad 16 text.bytes) (blockCount 16 text.bytes.length))
        (blockCount 16 text.bytes.length) = (pad 16 text.bytes).take (16 * blockCount 16 text.bytes.length) := by
      apply ecb_ecb
      · intro block _
        exact length_cryptBlock 1 (roundKeys key) block
      · intro block size
        exact cryptBlock_cryptBlock (roundKeys key) size
      · exact Nat.le_of_eq padded.symm
    rw [b.codebook (by decide) length same (by rw [blocks, size]), blocks, pad_whole whole, undone, ← padded,
      List.take_length, ← zeros]

end MyTools.Sm4
