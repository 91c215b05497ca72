import Mathlib.Tactic.IntervalCases
import MyTools.Library.Blocks
import MyTools.Sm3.Digest

/-! What a hash of the standard is, in one line: pad the message to whole blocks,
compress them in order, write the state out. The one-shot routine computes it. -/
namespace MyTools.Sm3
open Library Blocks

/-- A one bit, zeros, and the length in bits, up to the end of a block. -/
def padding (length : ℕ) : Bytes :=
  0x80 :: (List.replicate ((119 - length % 64) % 64) 0 ++ Bytes.ofNat 8 (8 * length))

def output (h : Registers) : Vector UInt8 32 := ⟨(h.words.flatMap bigEndian).toArray, by simp [Registers.words, bigEndian]⟩

def digest (message : Bytes) : Vector UInt8 32 :=
  output (absorb sm3Cf 64 Registers.initial (message ++ padding message.length))

theorem length_bigEndian (x : UInt32) : (bigEndian x).length = 4 := rfl

theorem toNat_shiftRight {count : ℕ} (small : count < 32) (x : UInt32) :
    (x >>> UInt32.ofNat count).toNat = x.toNat / 2 ^ count := by
  rw [UInt32.toNat_shiftRight, Nat.shiftRight_eq_div_pow, UInt32.toNat_ofNat_of_lt' (by decide +revert),
    Nat.mod_eq_of_lt small]

theorem value_bigEndian (x : UInt32) : Bytes.value (bigEndian x) = x.toNat := by
  have small := x.toNat_lt
  have high : (x >>> 24).toNat = x.toNat / 2 ^ 24 := toNat_shiftRight (by decide) x
  have second : (x >>> 16).toNat = x.toNat / 2 ^ 16 := toNat_shiftRight (by decide) x
  have third : (x >>> 8).toNat = x.toNat / 2 ^ 8 := toNat_shiftRight (by decide) x
  simp only [bigEndian, Bytes.value, List.foldl_cons, List.foldl_nil, UInt32.toNat_toUInt8, high, second, third]
  omega

theorem bigEndian_pair (high low : UInt32) :
    bigEndian high ++ bigEndian low = Bytes.ofNat 8 (high.toNat * 2 ^ 32 + low.toNat) := by
  have high_small := high.toNat_lt
  have low_small := low.toNat_lt
  apply Bytes.value_injective (by rw [List.length_append, length_bigEndian, length_bigEndian, Bytes.length_ofNat])
  rw [Bytes.value_append, value_bigEndian, value_bigEndian, length_bigEndian, Bytes.value_ofNat_of_lt (by omega)]
  norm_num

theorem littleEndian_byteSwap (x : UInt32) : littleEndian (byteSwap x) = bigEndian x := by
  simp only [littleEndian, bigEndian, byteSwap, List.cons.injEq, and_true]
  refine ⟨?_, ?_, ?_, ?_⟩
  all_goals
    apply UInt8.toBitVec_inj.mp
    simp only [UInt32.toBitVec_toUInt8, UInt32.toBitVec_or, UInt32.toBitVec_and, UInt32.toBitVec_shiftRight,
      UInt32.toBitVec_shiftLeft, UInt32.toBitVec_ofNat]
    ext i inside
    interval_cases i <;> simp

theorem toNat_and_blocks (x : UInt32) : (x &&& 0xffffffc0).toNat = 64 * (x.toNat / 64) := by
  have small := x.toNat_lt
  have mask : (0xffffffc0 : UInt32).toNat = (2 ^ 26 - 1) <<< 6 := rfl
  have blocks : 64 * (x.toNat / 64) = (x.toNat >>> 6) <<< 6 := by
    rw [Nat.shiftLeft_eq, Nat.shiftRight_eq_div_pow]; omega
  rw [UInt32.toNat_and, mask, blocks]
  apply Nat.eq_of_testBit_eq
  intro i
  rw [Nat.testBit_and, Nat.testBit_shiftLeft, Nat.testBit_two_pow_sub_one, Nat.testBit_shiftLeft, Nat.testBit_shiftRight]
  by_cases low : 6 ≤ i
  · by_cases high : i < 32
    · simp [low, show i - 6 < 26 by omega]
    · have clear : x.toNat.testBit i = false :=
        Nat.testBit_lt_two_pow (small.trans_le (Nat.pow_le_pow_right two_pos (Nat.not_lt.mp high)))
      simp [low, clear]
  · simp [low]

theorem toNat_and_63 (x : UInt32) : (x &&& 63).toNat = x.toNat % 64 := by
  rw [UInt32.toNat_and]
  exact Nat.and_two_pow_sub_one_eq_mod x.toNat 6

theorem sm3Blocks_eq (input : Bytes) (blocks : ℕ) (h : Registers) :
    sm3Blocks input blocks h = fold sm3Cf 64 input blocks h := by
  induction blocks with
  | zero => rfl
  | succ blocks ih => rw [sm3Blocks, fold, ih]

/-- The 0x80 and the zeros up to the length field fit into the array whichever case is taken. -/
theorem padded_take (rest : Bytes) (short : rest.length < 64) :
    (rest ++ 0x80 :: List.replicate (127 - rest.length) 0).take (if rest.length < 56 then 56 else 120) =
      rest ++ 0x80 :: List.replicate ((119 - rest.length) % 64) 0 := by
  rw [List.take_append, List.take_of_length_le (by split <;> omega)]
  congr 1
  split
  · rw [show 56 - rest.length = (55 - rest.length) + 1 by omega, List.take_succ_cons, List.take_replicate]
    congr 2
    omega
  · rw [show 120 - rest.length = (119 - rest.length) + 1 by omega, List.take_succ_cons, List.take_replicate]
    congr 2
    omega

theorem padded_field {rest : Bytes} {length : ℕ} (size : rest.length = length % 64) :
    (rest ++ 0x80 :: List.replicate (127 - rest.length) 0).take (if rest.length < 56 then 56 else 120) ++
      Bytes.ofNat 8 (8 * length) = rest ++ padding length := by
  rw [padded_take rest (by omega), padding, size]
  simp only [List.cons_append, List.append_assoc]

theorem field_eq (inlen : UInt32) :
    littleEndian (byteSwap (inlen >>> 29)) ++ littleEndian (byteSwap (inlen <<< 3)) = Bytes.ofNat 8 (8 * inlen.toNat) := by
  have small := inlen.toNat_lt
  have high : (inlen >>> 29).toNat = inlen.toNat / 2 ^ 29 := toNat_shiftRight (show 29 < 32 by decide) _
  have low : (inlen <<< 3).toNat = inlen.toNat * 2 ^ 3 % 2 ^ 32 := by
    rw [UInt32.toNat_shiftLeft, Nat.shiftLeft_eq]; rfl
  rw [littleEndian_byteSwap, littleEndian_byteSwap, bigEndian_pair]
  congr 1
  omega

theorem rest_eq {input : Bytes} {inlen : UInt32} (length : inlen.toNat = input.length) :
    (input.drop (inlen &&& 0xffffffc0).toNat).take (inlen &&& 63).toNat = residue 64 input := by
  rw [toNat_and_blocks, toNat_and_63, length, ← length_residue]
  exact List.take_length

theorem tail_eq {input : Bytes} (short : input.length < 2 ^ 32) :
    tail input (UInt32.ofNat input.length) = residue 64 input ++ padding input.length := by
  have length : (UInt32.ofNat input.length).toNat = input.length := UInt32.toNat_ofNat_of_lt' short
  have size : (residue 64 input).length = input.length % 64 := length_residue input
  have one : UInt32.ofNat input.length &&& 63 < 56 ↔ (residue 64 input).length < 56 := by
    rw [UInt32.lt_iff_toNat_lt, toNat_and_63, length, size]; rfl
  simp only [tail, rest_eq length, one]
  rw [List.append_assoc, field_eq, length, padded_field size]

theorem length_padding {rest : Bytes} {length : ℕ} (size : rest.length = length % 64) :
    (rest ++ padding length).length = if rest.length < 56 then 64 else 128 := by
  rw [List.length_append, padding, List.length_cons, List.length_append, List.length_replicate, Bytes.length_ofNat]
  split <;> omega

theorem digest_eq (message : Bytes) : digest message =
    output (absorb sm3Cf 64 (absorb sm3Cf 64 Registers.initial message) (residue 64 message ++ padding message.length)) := by
  rw [digest, absorb_append (by decide)]

theorem sm3_eq_digest {message : Bytes} (short : message.length < 2 ^ 32) : sm3 message = digest message := by
  have length : (UInt32.ofNat message.length).toNat = message.length := UInt32.toNat_ofNat_of_lt' short
  have blocks : (UInt32.ofNat message.length / 64).toNat = message.length / 64 := by
    rw [UInt32.toNat_div, length]; rfl
  apply Vector.toArray_inj.mp
  rw [digest_eq]
  simp only [sm3, sm3Bytes, output, sm3Blocks_eq, tail_eq short, blocks]
  rfl

end MyTools.Sm3
