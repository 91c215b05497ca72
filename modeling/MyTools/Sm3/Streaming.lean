import MyTools.Library.Buffer
import MyTools.Sm3.Standard

/-! The streaming interface: `sm3_init`, `sm3_update` and `sm3_final`. All three return 0. -/
namespace MyTools.Sm3
open Library Blocks Buffer

structure Sm3Ctx where
  h : Registers
  bb : Vector UInt8 64
  len : UInt64

def sm3Init (ctx : Sm3Ctx) : Sm3Ctx := { ctx with h := Registers.initial, len := 0 }

/-- The part of `sm3_update` behind the first block. -/
def sm3UpdateRest (h : Registers) (bb : Vector UInt8 64) (input : Bytes) (inlen : UInt32) :
    Option (Registers × Vector UInt8 64) := do
  let h ← Loop.up (fun i h => do return sm3Cf h (← Bytes.read (input.drop (i * 64)) 64)) (inlen / 64).toNat h
  let bb ← copy bb 0 (input.drop (inlen &&& 0xffffffc0).toNat) (inlen &&& 63).toNat
  return (h, bb)

def sm3Update (ctx : Sm3Ctx) (input : Bytes) (inlen : UInt32) : Option Sm3Ctx := do
  let iCurPos := (ctx.len % 64).toUInt32
  let iMin := if 64 - iCurPos < inlen then 64 - iCurPos else inlen
  let bb ← copy ctx.bb iCurPos.toNat input iMin.toNat
  let len := ctx.len + inlen.toUInt64
  if 64 - iCurPos ≤ inlen then do
    let (h, bb) ← sm3UpdateRest (sm3Cf ctx.h bb.toList) bb (input.drop (64 - iCurPos).toNat) (inlen - (64 - iCurPos))
    return ⟨h, bb, len⟩
  else
    return ⟨ctx.h, bb, len⟩

def sm3Final (ctx : Sm3Ctx) : Option (Vector UInt8 32 × Sm3Ctx) := do
  let i := (ctx.len &&& 63).toNat
  let bb ← copy (Vector.replicate 128 0) 0 ctx.bb.toList i
  let high := byteSwap (ctx.len >>> 29).toUInt32
  let low := byteSwap (ctx.len <<< 3).toUInt32
  let bb ← put bb i 0x80
  let h ← (if ctx.len &&& 63 < 56 then do
      let bb ← store (← store bb 56 (littleEndian high)) 60 (littleEndian low)
      return sm3Cf ctx.h (bb.toList.take 64)
    else do
      let h := sm3Cf ctx.h (bb.toList.take 64)
      let bb ← store (← store bb 120 (littleEndian high)) 124 (littleEndian low)
      return sm3Cf h (bb.toList.drop 64))
  return (output h, { ctx with h := h })

def sm3Chunks (ctx : Sm3Ctx) (chunks : List Bytes) : Option (Vector UInt8 32) := do
  let ctx ← chunks.foldlM (fun ctx chunk => sm3Update ctx chunk (UInt32.ofNat chunk.length)) (sm3Init ctx)
  let (hash, _) ← sm3Final ctx
  return hash

/-- The whole blocks of the message are compressed, the rest of it is in `bb`. -/
structure Received (message : Bytes) (ctx : Sm3Ctx) : Prop where
  holds : Holds sm3Cf 64 Registers.initial message ctx.h ctx.bb.toList
  len : ctx.len.toNat = message.length

theorem received_init (ctx : Sm3Ctx) : Received [] (sm3Init ctx) := ⟨Holds.initial (by decide) _ _, rfl⟩

theorem cfLoop_run (input : Bytes) (h : Registers) {blocks : ℕ} (inside : 64 * blocks ≤ input.length) :
    Loop.up (fun i h => do return sm3Cf h (← Bytes.read (input.drop (i * 64)) 64)) blocks h =
      some (fold sm3Cf 64 input blocks h) := by
  induction blocks with
  | zero => rfl
  | succ blocks ih =>
    have readable : 64 ≤ (input.drop (blocks * 64)).length := by rw [List.length_drop]; omega
    rw [Loop.up, ih (by omega), Option.bind_some, Bytes.read_of_le readable, Nat.mul_comm blocks, fold]
    rfl

theorem sm3UpdateRest_run (h : Registers) (bb : Vector UInt8 64) {input : Bytes} {inlen : UInt32}
    (length : inlen.toNat = input.length) :
    ∃ bb', sm3UpdateRest h bb input inlen = some (absorb sm3Cf 64 h input, bb') ∧
      bb'.toList.take (input.length % 64) = residue 64 input := by
  have blocks : (inlen / 64).toNat = input.length / 64 := by rw [UInt32.toNat_div, length]; rfl
  have rest : input.drop (inlen &&& 0xffffffc0).toNat = residue 64 input := by rw [toNat_and_blocks, length, residue]
  have size : (inlen &&& 63).toNat = (residue 64 input).length := by rw [toNat_and_63, length, length_residue]
  have small : (residue 64 input).length < 64 := by rw [length_residue]; exact Nat.mod_lt _ (by decide)
  obtain ⟨bb', copied, contents⟩ := copy_run bb 0 (residue 64 input) (residue 64 input).length (by omega) le_rfl
  refine ⟨bb', ?_, ?_⟩
  · rw [sm3UpdateRest, blocks, cfLoop_run _ _ (Nat.mul_div_le _ _), rest, size, copied]
    rfl
  · rw [contents, List.take_zero, List.nil_append, List.take_length, ← length_residue, List.take_left]

theorem received_update {message : Bytes} {ctx : Sm3Ctx} (received : Received message ctx) {chunk : Bytes}
    (chunk_fits : chunk.length < 2 ^ 32) (fits : (message ++ chunk).length < 2 ^ 64) :
    ∃ ctx', sm3Update ctx chunk (UInt32.ofNat chunk.length) = some ctx' ∧ Received (message ++ chunk) ctx' := by
  obtain ⟨holds, len⟩ := received
  have length : (UInt32.ofNat chunk.length).toNat = chunk.length := UInt32.toNat_ofNat_of_lt' chunk_fits
  have position := Nat.mod_lt message.length (show 64 > 0 by decide)
  have pos : (ctx.len % 64).toUInt32.toNat = message.length % 64 := by
    have modulus : (64 : UInt64).toNat = 64 := rfl
    rw [UInt64.toNat_toUInt32, UInt64.toNat_mod, len, modulus]
    omega
  have total : (ctx.len + (UInt32.ofNat chunk.length).toUInt64).toNat = (message ++ chunk).length := by
    rw [UInt64.toNat_add, UInt32.toNat_toUInt64, length, len, ← List.length_append]
    exact Nat.mod_eq_of_lt fits
  simp only [sm3Update]
  generalize UInt32.ofNat chunk.length = inlen at *
  generalize (ctx.len % 64).toUInt32 = iCurPos at *
  have gap : (64 - iCurPos).toNat = 64 - message.length % 64 := by
    rw [UInt32.toNat_sub_of_le _ _ (UInt32.le_iff_toNat_le.mpr (by rw [pos]; exact position.le)), pos]
    rfl
  generalize 64 - iCurPos = free at *
  have stored : (if free < inlen then free else inlen).toNat = min (64 - message.length % 64) chunk.length := by
    split
    all_goals
      rename_i less
      rw [UInt32.lt_iff_toNat_lt] at less
      omega
  obtain ⟨bb, copied, contents⟩ := copy_run ctx.bb (message.length % 64) chunk
    (min (64 - message.length % 64) chunk.length) (by omega) (by omega)
  rw [pos, stored, copied, Option.bind_eq_bind, Option.bind_some]
  by_cases full : free ≤ inlen
  · -- the buffer is full: it is compressed, and the rest of the chunk goes its own way
    have reaches : 64 - message.length % 64 ≤ chunk.length := by
      rw [UInt32.le_iff_toNat_le] at full
      omega
    have block : bb.toList = ctx.bb.toList.take (message.length % 64) ++ chunk.take (64 - message.length % 64) := by
      rw [contents, Nat.min_eq_left reaches, List.drop_of_length_le (by simp; omega), List.append_nil]
    have left : (inlen - free).toNat = (chunk.drop (64 - message.length % 64)).length := by
      rw [UInt32.toNat_sub_of_le _ _ full, gap, length, List.length_drop]
    obtain ⟨bb', run, rest⟩ := sm3UpdateRest_run (sm3Cf ctx.h bb.toList) bb left
    rw [if_pos full, gap, run, Option.bind_eq_bind, Option.bind_some]
    refine ⟨_, rfl, ?_, total⟩
    rw [List.length_drop] at rest
    rw [block]
    exact holds.long (by decide) (by omega) reaches rest
  · have less : message.length % 64 + chunk.length < 64 := by
      rw [UInt32.le_iff_toNat_le] at full
      omega
    rw [if_neg full]
    refine ⟨_, rfl, ?_, total⟩
    refine holds.short less ?_
    rw [contents, Nat.min_eq_right (by omega), List.take_of_length_le le_rfl, List.take_left']
    simp; omega

theorem received_chunks {message : Bytes} {ctx : Sm3Ctx} (received : Received message ctx) (chunks : List Bytes)
    (fits : (message ++ chunks.flatten).length < 2 ^ 32) :
    ∃ ctx', chunks.foldlM (fun ctx chunk => sm3Update ctx chunk (UInt32.ofNat chunk.length)) ctx = some ctx' ∧
      Received (message ++ chunks.flatten) ctx' := by
  induction chunks generalizing message ctx with
  | nil => exact ⟨ctx, rfl, by simpa using received⟩
  | cons chunk chunks ih =>
    rw [List.flatten_cons, ← List.append_assoc] at fits ⊢
    have small : chunk.length < 2 ^ 32 ∧ (message ++ chunk).length < 2 ^ 64 := by
      simp only [List.length_append] at fits ⊢
      omega
    obtain ⟨middle, first, received⟩ := received_update received small.1 small.2
    obtain ⟨ctx', rest, received⟩ := ih received fits
    exact ⟨ctx', by rw [List.foldlM_cons, first]; exact rest, received⟩

theorem store_words (bb : Vector UInt8 128) (offset : ℕ) (high low : UInt32) (inside : offset + 8 ≤ 128) :
    ∃ b bb', store bb offset (littleEndian high) = some b ∧ store b (offset + 4) (littleEndian low) = some bb' ∧
      bb'.toList = bb.toList.take offset ++ (littleEndian high ++ littleEndian low) ++ bb.toList.drop (offset + 8) := by
  have four (x : UInt32) : (littleEndian x).length = 4 := rfl
  have size : bb.toList.length = 128 := Vector.length_toList
  obtain ⟨b, first, list⟩ := store_run bb offset (littleEndian high) (by rw [four]; omega)
  obtain ⟨b', second, list'⟩ := store_run b (offset + 4) (littleEndian low) (by rw [four]; omega)
  refine ⟨b, b', first, second, ?_⟩
  have filled : (bb.toList.take offset ++ littleEndian high).length = offset + 4 := by
    rw [List.length_append, List.length_take, four]; omega
  have front : b.toList.take (offset + 4) = bb.toList.take offset ++ littleEndian high := by
    rw [list, List.take_left' filled]
  have back : b.toList.drop (offset + 4 + 4) = bb.toList.drop (offset + 8) := by
    rw [list, ← List.drop_drop, List.drop_left' filled, List.drop_drop, four]
  rw [list', front, four, back, List.append_assoc (bb.toList.take offset)]

/-- The array of `sm3_final` before the length field: the rest of the message, a one bit, zeros. -/
theorem padded_run {rest : Bytes} {buffer : Bytes} {i : ℕ} (short : i < 64) (room : i ≤ buffer.length)
    (contents : buffer.take i = rest) :
    ∃ b bb : Vector UInt8 128, copy (Vector.replicate 128 0) 0 buffer i = some b ∧ put b i 0x80 = some bb ∧
      bb.toList = rest ++ 0x80 :: List.replicate (127 - rest.length) 0 := by
  have length : rest.length = i := by rw [← contents, List.length_take, Nat.min_eq_left room]
  obtain ⟨bb, copied, list⟩ := copy_run (Vector.replicate 128 (0 : UInt8)) 0 buffer i (by omega) room
  obtain ⟨bb', marked, list'⟩ := put_run bb (show i < 128 by omega) 0x80
  refine ⟨bb, bb', copied, marked, ?_⟩
  have zeros : (Vector.replicate 128 (0 : UInt8)).toList.drop (0 + i) = 0 :: List.replicate (127 - i) 0 := by
    rw [Vector.toList_replicate, List.drop_replicate, ← List.replicate_succ]
    congr 1
    omega
  rw [list', list, contents, List.take_zero, List.nil_append, zeros, List.set_append_right _ _ length.le, length,
    Nat.sub_self, List.set_cons_zero]

theorem closing_run {message : Bytes} {h : Registers} {bb : Vector UInt8 128} {high low : UInt32} {few : Prop} [Decidable few]
    (array : bb.toList = residue 64 message ++ 0x80 :: List.replicate (127 - (residue 64 message).length) 0)
    (field : littleEndian high ++ littleEndian low = Bytes.ofNat 8 (8 * message.length))
    (one : few ↔ (residue 64 message).length < 56) :
    (if few then do
        let bb ← store (← store bb 56 (littleEndian high)) 60 (littleEndian low)
        return sm3Cf h (bb.toList.take 64)
      else do
        let h := sm3Cf h (bb.toList.take 64)
        let bb ← store (← store bb 120 (littleEndian high)) 124 (littleEndian low)
        return sm3Cf h (bb.toList.drop 64) : Option Registers) =
      some (absorb sm3Cf 64 h (residue 64 message ++ padding message.length)) := by
  have size : (residue 64 message).length = message.length % 64 := length_residue message
  have padded := padded_field size
  have length := length_padding size
  rw [← array, ← field] at padded
  rw [← padded] at length ⊢
  by_cases less : (residue 64 message).length < 56
  · obtain ⟨b, bb', first, second, list⟩ := store_words bb 56 high low (by decide)
    have block : bb'.toList.take 64 = bb.toList.take 56 ++ (littleEndian high ++ littleEndian low) := by
      rw [list, List.take_left' (by simp [littleEndian])]
    simp only [if_pos less] at length ⊢
    rw [if_pos (one.mpr less), first, Option.bind_eq_bind, Option.bind_some, second, absorb_one (by decide) length,
      ← block]
    rfl
  · obtain ⟨b, bb', first, second, list⟩ := store_words bb 120 high low (by decide)
    have whole : bb.toList.take 120 ++ (littleEndian high ++ littleEndian low) = bb'.toList := by
      rw [list, List.drop_of_length_le (by simp), List.append_nil]
    simp only [if_neg less] at length ⊢
    rw [whole] at length ⊢
    have front : bb'.toList.take 64 = bb.toList.take 64 := by
      rw [← whole, List.take_append_of_le_length (by simp), List.take_take]
      rfl
    rw [if_neg (fun holds => less (one.mp holds)), first, Option.bind_eq_bind, Option.bind_some, second,
      absorb_two (by decide) length, front]
    rfl

theorem sm3Final_run {message : Bytes} {ctx : Sm3Ctx} (received : Received message ctx)
    (fits : message.length < 2 ^ 61) : ∃ ctx', sm3Final ctx = some (digest message, ctx') := by
  obtain ⟨holds, len⟩ := received
  have size : (residue 64 message).length = message.length % 64 := length_residue message
  have i_eq : (ctx.len &&& 63).toNat = message.length % 64 := by
    rw [UInt64.toNat_and, len]
    exact Nat.and_two_pow_sub_one_eq_mod message.length 6
  have one : ctx.len &&& 63 < 56 ↔ (residue 64 message).length < 56 := by
    rw [UInt64.lt_iff_toNat_lt, i_eq, size]; rfl
  have field : littleEndian (byteSwap (ctx.len >>> 29).toUInt32) ++ littleEndian (byteSwap (ctx.len <<< 3).toUInt32) =
      Bytes.ofNat 8 (8 * message.length) := by
    have high : (ctx.len >>> 29).toUInt32.toNat = message.length / 2 ^ 29 := by
      have shift : (ctx.len >>> 29).toNat = ctx.len.toNat / 2 ^ 29 := by
        rw [UInt64.toNat_shiftRight, Nat.shiftRight_eq_div_pow]; rfl
      rw [UInt64.toNat_toUInt32, shift, len]
      omega
    have low : (ctx.len <<< 3).toUInt32.toNat = 8 * message.length % 2 ^ 32 := by
      have shift : (ctx.len <<< 3).toNat = ctx.len.toNat * 2 ^ 3 % 2 ^ 64 := by
        rw [UInt64.toNat_shiftLeft, Nat.shiftLeft_eq]; rfl
      rw [UInt64.toNat_toUInt32, shift, len]
      omega
    rw [littleEndian_byteSwap, littleEndian_byteSwap, bigEndian_pair, high, low]
    congr 1
    omega
  have short := Nat.mod_lt message.length (show 64 > 0 by decide)
  obtain ⟨b, bb, copied, marked, array⟩ := padded_run short (by simp; omega) holds.rest
  have closed := closing_run (h := ctx.h) array field one
  refine ⟨{ ctx with h := absorb sm3Cf 64 ctx.h (residue 64 message ++ padding message.length) }, ?_⟩
  rw [digest_eq, ← holds.state]
  simp only [sm3Final, i_eq, copied, marked, Option.bind_eq_bind, Option.bind_some] at closed ⊢
  rw [closed]
  rfl

theorem sm3Chunks_eq (ctx : Sm3Ctx) (chunks : List Bytes) (short : chunks.flatten.length < 2 ^ 32) :
    sm3Chunks ctx chunks = some (sm3 chunks.flatten) := by
  obtain ⟨ctx', updates, received⟩ := received_chunks (received_init ctx) chunks short
  obtain ⟨final, run⟩ := sm3Final_run received (by simp only [List.nil_append]; omega)
  rw [List.nil_append, ← sm3_eq_digest short] at run
  rw [sm3Chunks, updates, Option.bind_eq_bind, Option.bind_some, run]
  rfl

/-- Chunks that end inside of a block and that hold several blocks. -/
theorem sm3Chunks_letters :
    let chunks : List Bytes := [List.replicate 60 0x61, [], List.replicate 10 0x62, List.replicate 130 0x63]
    sm3Chunks ⟨Registers.initial, Vector.replicate 64 0xAA, 7⟩ chunks = some (sm3 chunks.flatten) := by
  intro chunks
  exact sm3Chunks_eq _ chunks (by simp [chunks, -List.reduceReplicate])

end MyTools.Sm3
