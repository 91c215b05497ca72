import MyTools.Sm3.Standard

/-! A digest shows the whole state after the padded message, so that anyone can go on from it. -/
namespace MyTools.Sm3
open Library Blocks

def digestWord (bytes : Bytes) (i : ℕ) : UInt32 := .ofNat (Bytes.value ((bytes.drop (4 * i)).take 4))

/-- The state that a digest was written from. -/
def registersOf (d : Vector UInt8 32) : Registers :=
  let word := digestWord d.toList
  ⟨word 0, word 1, word 2, word 3, word 4, word 5, word 6, word 7⟩

/-- The digest of a message that is known by its length and its digest, with its padding and `suffix` behind it. -/
def extension (d : Vector UInt8 32) (length : ℕ) (suffix : Bytes) : Vector UInt8 32 :=
  output (absorb sm3Cf 64 (registersOf d) (suffix ++ padding (length + (padding length).length + suffix.length)))

theorem ofNat_value_bigEndian (x : UInt32) : UInt32.ofNat (Bytes.value (bigEndian x)) = x := by
  rw [value_bigEndian, UInt32.ofNat_toNat]

theorem registersOf_output (h : Registers) : registersOf (output h) = h := by
  cases h with
  | mk a b c d e f g h =>
    rw [registersOf, Registers.mk.injEq]
    exact ⟨ofNat_value_bigEndian a, ofNat_value_bigEndian b, ofNat_value_bigEndian c, ofNat_value_bigEndian d,
      ofNat_value_bigEndian e, ofNat_value_bigEndian f, ofNat_value_bigEndian g, ofNat_value_bigEndian h⟩

theorem residue_padded (message : Bytes) : residue 64 (message ++ padding message.length) = [] := by
  have whole : (message ++ padding message.length).length % 64 = 0 := by
    rw [List.length_append, padding, List.length_cons, List.length_append, List.length_replicate, Bytes.length_ofNat]
    omega
  rw [← List.length_eq_zero_iff, length_residue]
  exact whole

/-- The routine's digest of an extended message follows from the digest and the length of the message. -/
theorem sm3_extension {message suffix : Bytes} (short : (message ++ padding message.length ++ suffix).length < 2 ^ 32) :
    sm3 (message ++ padding message.length ++ suffix) = extension (sm3 message) message.length suffix := by
  have less : message.length < 2 ^ 32 := by
    rw [List.length_append, List.length_append] at short
    omega
  rw [sm3_eq_digest short, sm3_eq_digest less, extension, digest, digest, registersOf_output, List.append_assoc,
    absorb_append (by decide), residue_padded, List.nil_append, List.length_append, List.length_append]

theorem sm3_extension_letters : sm3 ([0x61, 0x62] ++ padding 2 ++ [0x63]) = extension (sm3 [0x61, 0x62]) 2 [0x63] :=
  sm3_extension (by decide)

end MyTools.Sm3
