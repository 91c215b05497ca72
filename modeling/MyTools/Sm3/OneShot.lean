import Mathlib.Order.Bounds.Defs
import MyTools.Sm3.Streaming

/-! The one-shot `sm3` with its reads of the message and its stores to `BB2`. It computes what its plain
form in `Digest` does, and that is the padding of the standard. -/
namespace MyTools.Sm3
open Library Blocks Buffer

/-- Undefined when the message is shorter than `inlen`. -/
def sm3Run (input : Bytes) (inlen : UInt32) : Option (Vector UInt8 32) := do
  let h ← Loop.up (fun i h => do return sm3Cf h (← Bytes.read (input.drop (i * 64)) 64)) (inlen / 64).toNat Registers.initial
  let i := (inlen &&& 63).toNat
  let bb2 ← copy (Vector.replicate 128 0) 0 (input.drop (inlen &&& 0xffffffc0).toNat) i
  let high := byteSwap (inlen >>> 29)
  let low := byteSwap (inlen <<< 3)
  let bb2 ← put bb2 i 0x80
  let h ← (if inlen &&& 63 < 56 then do
      let bb2 ← store (← store bb2 56 (littleEndian high)) 60 (littleEndian low)
      return sm3Cf h (bb2.toList.take 64)
    else do
      let h := sm3Cf h (bb2.toList.take 64)
      let bb2 ← store (← store bb2 120 (littleEndian high)) 124 (littleEndian low)
      return sm3Cf h (bb2.toList.drop 64))
  return output h

theorem sm3Run_eq {message : Bytes} (short : message.length < 2 ^ 32) :
    sm3Run message (UInt32.ofNat message.length) = some (sm3 message) := by
  have length : (UInt32.ofNat message.length).toNat = message.length := UInt32.toNat_ofNat_of_lt' short
  have size : (residue 64 message).length = message.length % 64 := length_residue message
  have field := field_eq (UInt32.ofNat message.length)
  have rest := rest_eq length
  have one : UInt32.ofNat message.length &&& 63 < 56 ↔ (residue 64 message).length < 56 := by
    rw [UInt32.lt_iff_toNat_lt, toNat_and_63, length, size]; rfl
  have blocks : (UInt32.ofNat message.length / 64).toNat = message.length / 64 := by
    rw [UInt32.toNat_div, length]; rfl
  have i_eq : (UInt32.ofNat message.length &&& 63).toNat = message.length % 64 := by rw [toNat_and_63, length]
  have room : message.length % 64 ≤ (message.drop (UInt32.ofNat message.length &&& 0xffffffc0).toNat).length := by
    rw [List.length_drop, toNat_and_blocks, length]
    omega
  rw [length] at field
  rw [i_eq] at rest
  obtain ⟨b, bb2, copied, marked, array⟩ := padded_run (Nat.mod_lt message.length (by decide)) room rest
  have closed := closing_run (h := absorb sm3Cf 64 Registers.initial message) array field one
  rw [sm3_eq_digest short, digest_eq]
  rw [sm3Run, blocks, cfLoop_run message Registers.initial (Nat.mul_div_le message.length 64), Option.bind_eq_bind,
    Option.bind_some]
  dsimp only
  rw [i_eq, copied, Option.bind_eq_bind, Option.bind_some, marked, Option.bind_eq_bind, Option.bind_some]
  exact congrArg (Option.bind · fun h => some (output h)) closed

/-- The whole blocks of the message, a one bit, the least number of zeros, and the length in bits. -/
theorem sm3Run_padded {message : Bytes} (short : message.length < 2 ^ 32) :
    ∃ zeros, IsLeast {z | (message.length + 1 + z + 8) % 64 = 0} zeros ∧
      sm3Run message (UInt32.ofNat message.length) = some (output (absorb sm3Cf 64 Registers.initial
        (message ++ [0x80] ++ List.replicate zeros 0 ++ Bytes.ofNat 8 (8 * message.length)))) := by
  refine ⟨(119 - message.length % 64) % 64, ⟨?_, ?_⟩, ?_⟩
  · show (message.length + 1 + (119 - message.length % 64) % 64 + 8) % 64 = 0
    omega
  · intro z whole
    have whole : (message.length + 1 + z + 8) % 64 = 0 := whole
    omega
  · rw [sm3Run_eq short, sm3_eq_digest short, digest, padding]
    simp only [List.append_assoc, List.cons_append, List.nil_append]

theorem sm3Run_padded_letters :
    ∃ zeros, IsLeast {z | (3 + 1 + z + 8) % 64 = 0} zeros ∧
      sm3Run [0x61, 0x62, 0x63] (UInt32.ofNat 3) = some (output (absorb sm3Cf 64 Registers.initial
        ([0x61, 0x62, 0x63] ++ [0x80] ++ List.replicate zeros 0 ++ Bytes.ofNat 8 (8 * 3)))) :=
  @sm3Run_padded [0x61, 0x62, 0x63] (by decide)

end MyTools.Sm3
