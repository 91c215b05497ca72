import MyTools.Sm2.Hash
import MyTools.SocketRandom.Digest

/-! `ECF_SCH`, `SM3_Hash_NOID` and `SM3_Hash_ID`, and their agreement with `sm3_e`. A null
pointer is `none`; local arrays and contexts start with arbitrary contents. -/
namespace MyTools.SocketRandom
open Library Buffer Sm2

/-- What a routine leaves behind: an error code, or the digest it wrote. -/
abbrev Outcome := Except ℕ (Vector UInt8 32)

def sm3HashNOID (context : Sm3Ctx) (inputData : Option Bytes) (inputDataLen : ℤ)
    (outputData : Option (Vector UInt8 32)) : Option Outcome :=
  match inputData with
  | none => some (.error 2)
  | some input =>
    if inputDataLen < 1 then some (.error 2) else
    match outputData with
    | none => some (.error 3)
    | some _ => do
      let context ← sm3Update (sm3Init context) input (UInt32.ofInt inputDataLen)
      let (digest, _) ← sm3Final context
      return .ok digest

def pID : Bytes := [0x31, 0x32, 0x33, 0x34, 0x35, 0x36, 0x37, 0x38, 0x31, 0x32, 0x33, 0x34, 0x35, 0x36, 0x37, 0x38]

def ga : Bytes := [
  0xFF, 0xFF, 0xFF, 0xFE, 0xFF, 0xFF, 0xFF, 0xFF, 0xFF, 0xFF, 0xFF, 0xFF, 0xFF, 0xFF, 0xFF, 0xFF,
  0xFF, 0xFF, 0xFF, 0xFF, 0x00, 0x00, 0x00, 0x00, 0xFF, 0xFF, 0xFF, 0xFF, 0xFF, 0xFF, 0xFF, 0xFC]

def gb : Bytes := [
  0x28, 0xE9, 0xFA, 0x9E, 0x9D, 0x9F, 0x5E, 0x34, 0x4D, 0x5A, 0x9E, 0x4B, 0xCF, 0x65, 0x09, 0xA7,
  0xF3, 0x97, 0x89, 0xF5, 0x15, 0xAB, 0x8F, 0x92, 0xDD, 0xBC, 0xBD, 0x41, 0x4D, 0x94, 0x0E, 0x93]

def gx : Bytes := [
  0x32, 0xC4, 0xAE, 0x2C, 0x1F, 0x19, 0x81, 0x19, 0x5F, 0x99, 0x04, 0x46, 0x6A, 0x39, 0xC9, 0x94,
  0x8F, 0xE3, 0x0B, 0xBF, 0xF2, 0x66, 0x0B, 0xE1, 0x71, 0x5A, 0x45, 0x89, 0x33, 0x4C, 0x74, 0xC7]

def gy : Bytes := [
  0xBC, 0x37, 0x36, 0xA2, 0xF4, 0xF6, 0x77, 0x9C, 0x59, 0xBD, 0xCE, 0xE3, 0x6B, 0x69, 0x21, 0x53,
  0xD0, 0xA9, 0x87, 0x7C, 0xC6, 0x2A, 0x47, 0x40, 0x02, 0xDF, 0x32, 0xE5, 0x21, 0x39, 0xF0, 0xA0]

/-- The local arrays of the two routines that hash with an identity. -/
structure Arrays where
  indata : Vector UInt8 300
  context : Sm3Ctx
  context' : Sm3Ctx

/-- The result of `SM3_Hash_NOID` is not looked at: an error leaves the output as it is. -/
def ecfSCH (local_ : Arrays) (XY : Bytes) (XYLen : ℤ) (pOutdata : Vector UInt8 100) : Option (Vector UInt8 100) := do
  let nIDLen := 16
  let len : Bytes := [UInt8.ofNat (nIDLen * 8 / 256), UInt8.ofNat nIDLen * 8]
  let indata ← store local_.indata 0 len
  let indata ← store indata 2 (← pID.read nIDLen)
  let indata ← store indata (2 + nIDLen) (← ga.read 32)
  let indata ← store indata (2 + nIDLen + 32) (← gb.read 32)
  let indata ← store indata (2 + nIDLen + 32 + 32) (← gx.read 32)
  let indata ← store indata (2 + nIDLen + 32 + 32 + 32) (← gy.read 32)
  let indata ← store indata (2 + nIDLen + 32 + 32 + 32 + 32) (← XY.read (sizeT XYLen))
  let out : Vector UInt8 32 := ⟨(pOutdata.toList.take 32).toArray, by simp⟩
  match ← sm3HashNOID local_.context (some indata.toList) (2 + nIDLen + 32 + 32 + 32 + 32 + XYLen) (some out) with
  | .error _ => return pOutdata
  | .ok digest => store pOutdata 0 digest.toList

def sm3HashID (local_ : Arrays) (XY : Option Bytes) (XYLen : ℤ) (inputData : Option Bytes) (inputDataLen : ℤ)
    (outputData : Option (Vector UInt8 32)) : Option Outcome :=
  match XY with
  | none => some (.error 1)
  | some key =>
    if XYLen ≠ 64 then some (.error 1) else
    match inputData with
    | none => some (.error 2)
    | some input =>
      if inputDataLen < 1 then some (.error 2) else
      match outputData with
      | none => some (.error 3)
      | some _ => do
        let idData ← ecfSCH local_ key XYLen (Vector.replicate 100 0)
        let context ← sm3Update (sm3Init local_.context') idData.toList 32
        let context ← sm3Update context input (UInt32.ofInt inputDataLen)
        let (digest, _) ← sm3Final context
        return .ok digest

def user : Identity := ⟨pID, by decide⟩

theorem sm2ParDig_parts : sm2ParDig = ga ++ gb ++ gx ++ gy := by decide

theorem toNat_ofInt {length : ℕ} (fits : length < 2 ^ 32) : (UInt32.ofInt length).toNat = length := by
  have small : ((length : ℤ) % 2 ^ 32).toNat = length := by omega
  rw [UInt32.ofInt, small]
  exact UInt32.toNat_ofNat_of_lt' fits

theorem sm3Final_sm3 {message : Bytes} {context : Sm3Ctx} (received : Received message context)
    (fits : message.length < 2 ^ 32) : sm3Final context = some (Sm3.sm3 message, zeroized) := by
  rw [sm3Final_run received (by omega), Sm3.sm3_eq_digest fits]

theorem sm3HashNOID_run (context : Sm3Ctx) (input : Bytes) (length : ℕ) (positive : 1 ≤ length)
    (readable : length ≤ input.length) (fits : length < 2 ^ 31) (out : Vector UInt8 32) :
    sm3HashNOID context (some input) length (some out) = some (.ok (Sm3.sm3 (input.take length))) := by
  have size : (UInt32.ofInt length).toNat = length := toNat_ofInt (by omega)
  obtain ⟨context', update, received⟩ := received_update (received_init context) input (UInt32.ofInt length)
    (by rw [size]; exact readable) (by rw [size]; simp; omega) (by rw [size]; simp; omega)
  rw [List.nil_append, size] at received
  have final := sm3Final_sm3 received (by rw [List.length_take]; omega)
  have long : ¬ (length : ℤ) < 1 := by omega
  simp only [sm3HashNOID, if_neg long, update, final, Option.bind_eq_bind, Option.bind_some]
  rfl

theorem ecfSCH_run (local_ : Arrays) (x y : Octets) (out : Vector UInt8 100) :
    ∃ out', ecfSCH local_ (x.toList ++ y.toList) 64 out = some out' ∧
      out'.toList.take 32 = (Sm3.sm3 (zMessage user x y)).toList := by
  have coordinates : Bytes.read (x.toList ++ y.toList) (sizeT 64) = some (x.toList ++ y.toList) := by
    have size : sizeT 64 = (x.toList ++ y.toList).length := by simp; rfl
    rw [size, Bytes.read_length]
  have key_length : (x.toList ++ y.toList).length = 64 := by simp
  obtain ⟨b₁, s₁, f₁⟩ := store_fill (show local_.indata.toList.take ([] : Bytes).length = [] from rfl)
    [UInt8.ofNat (16 * 8 / 256), UInt8.ofNat 16 * 8] 0 rfl (by decide)
  obtain ⟨b₂, s₂, f₂⟩ := store_fill f₁ pID 2 rfl (by decide)
  obtain ⟨b₃, s₃, f₃⟩ := store_fill f₂ ga (2 + 16) rfl (by decide)
  obtain ⟨b₄, s₄, f₄⟩ := store_fill f₃ gb (2 + 16 + 32) rfl (by decide)
  obtain ⟨b₅, s₅, f₅⟩ := store_fill f₄ gx (2 + 16 + 32 + 32) rfl (by decide)
  obtain ⟨b₆, s₆, f₆⟩ := store_fill f₅ gy (2 + 16 + 32 + 32 + 32) rfl (by decide)
  obtain ⟨b₇, s₇, f₇⟩ := store_fill f₆ (x.toList ++ y.toList) (2 + 16 + 32 + 32 + 32 + 32) rfl (by rw [key_length]; decide)
  have message : b₇.toList.take 210 = zMessage user x y := by
    rw [List.length_append, key_length] at f₇
    rw [zMessage, sm2ParDig_parts]
    simp only [List.append_assoc] at f₇ ⊢
    exact f₇
  have hashed := sm3HashNOID_run local_.context b₇.toList 210 (by decide) (by simp) (by decide)
    ⟨(out.toList.take 32).toArray, by simp⟩
  rw [message] at hashed
  obtain ⟨out', stored, list⟩ := store_run out 0 (Sm3.sm3 (zMessage user x y)).toList (by simp)
  refine ⟨out', ?_, ?_⟩
  · have total : (2 + (16 : ℕ) + 32 + 32 + 32 + 32 + 64 : ℤ) = (210 : ℕ) := rfl
    have pID_read : Bytes.read pID 16 = some pID := rfl
    have ga_read : Bytes.read ga 32 = some ga := rfl
    have gb_read : Bytes.read gb 32 = some gb := rfl
    have gx_read : Bytes.read gx 32 = some gx := rfl
    have gy_read : Bytes.read gy 32 = some gy := rfl
    simp only [ecfSCH, pID_read, ga_read, gb_read, gx_read, gy_read, coordinates, s₁, s₂, s₃, s₄, s₅, s₆, s₇, total,
      hashed, stored, Option.bind_eq_bind, Option.bind_some]
  · rw [list, List.take_zero, List.nil_append, List.take_left' (by simp)]

theorem sm3HashID_run (local_ : Arrays) (x y : Octets) {input : Bytes} (nonempty : 1 ≤ input.length)
    (fits : input.length < 2 ^ 31) (out : Vector UInt8 32) :
    sm3HashID local_ (some (x.toList ++ y.toList)) 64 (some input) input.length (some out) =
      some (.ok (Sm3.sm3 ((Sm3.sm3 (zMessage user x y)).toList ++ input))) := by
  have size : (UInt32.ofInt input.length).toNat = input.length := toNat_ofInt (by omega)
  have half : (32 : UInt32).toNat = 32 := rfl
  obtain ⟨idData, run, front⟩ := ecfSCH_run local_ x y (Vector.replicate 100 0)
  obtain ⟨middle, first, received⟩ := received_update (received_init local_.context') idData.toList 32
    (by rw [half]; simp) (by rw [half]; decide) (by rw [half]; decide)
  rw [List.nil_append, half, front] at received
  have short : (Sm3.sm3 (zMessage user x y)).toList.length = 32 := Vector.length_toList
  obtain ⟨last, second, received⟩ := received_update received input (UInt32.ofInt input.length) size.le
    (by rw [size, short]; omega) (by rw [size, short]; omega)
  rw [size, List.take_length] at received
  have final := sm3Final_sm3 received (by rw [List.length_append, short]; omega)
  have long : ¬ (input.length : ℤ) < 1 := by omega
  simp only [sm3HashID, ne_eq, not_true_eq_false, if_false, if_neg long, run, first, second, final, Option.bind_eq_bind,
    Option.bind_some]
  rfl

structure Text where
  bytes : Bytes
  nonempty : 1 ≤ bytes.length
  fits : bytes.length < 2 ^ 31

/-- The digest of `SM3_Hash_ID` is the `e` that `sm3_e` returns for the same key and message. -/
def DigestsAgree (local_ : Arrays) (blocks blocks' : (size : ℕ) → Vector UInt8 size) (out e : Vector UInt8 32)
    (x y : Octets) (msg : Text) : Prop :=
  ∃ digest,
    sm3HashID local_ (some (x.toList ++ y.toList)) 64 (some msg.bytes) msg.bytes.length (some out) = some (.ok digest) ∧
    sm3E Sm3.sm3 (granted blocks) (granted blocks') user.bytes user.bytes.length x.toList 32 y.toList 32
      msg.bytes msg.bytes.length e = some (true, digest)

section
variable (local_ : Arrays) (blocks blocks' : (size : ℕ) → Vector UInt8 size) (out e : Vector UInt8 32) (x y : Octets)
  (msg : Text)

theorem digestsAgree_of_short (short : msg.bytes.length + 32 < 2 ^ 31) :
    DigestsAgree local_ blocks blocks' out e x y msg := by
  refine ⟨_, sm3HashID_run local_ x y msg.nonempty msg.fits out, ?_⟩
  rw [sm3E_run Sm3.sm3 blocks blocks' (by decide), if_pos short]

theorem not_digestsAgree_of_long (long : ¬ msg.bytes.length + 32 < 2 ^ 31) :
    ¬ DigestsAgree local_ blocks blocks' out e x y msg := by
  rintro ⟨digest, -, run⟩
  rw [sm3E_run Sm3.sm3 blocks blocks' (by decide), if_neg long] at run
  cases run

theorem digestsAgree_iff : DigestsAgree local_ blocks blocks' out e x y msg ↔ msg.bytes.length + 32 < 2 ^ 31 := by
  constructor
  · intro agree
    by_contra long
    exact not_digestsAgree_of_long local_ blocks blocks' out e x y msg long agree
  · exact digestsAgree_of_short local_ blocks blocks' out e x y msg

end

def letters (length : ℕ) (nonempty : 1 ≤ length) (fits : length < 2 ^ 31) : Text where
  bytes := List.replicate length 0x61
  nonempty := by rwa [List.length_replicate]
  fits := by rwa [List.length_replicate]

theorem length_letters {length : ℕ} (nonempty : 1 ≤ length) (fits : length < 2 ^ 31) :
    (letters length nonempty fits).bytes.length = length := List.length_replicate

/-- For the longest message the length of the second string overflows. -/
theorem longest_digests_disagree :
    ¬ DigestsAgree ⟨Vector.replicate 300 0, zeroized, zeroized⟩ (fun size => Vector.replicate size 0)
      (fun size => Vector.replicate size 0) (Vector.replicate 32 0) (Vector.replicate 32 0) (Vector.replicate 32 1)
      (Vector.replicate 32 2) (letters (2 ^ 31 - 1) (by decide) (by decide)) := by
  apply not_digestsAgree_of_long
  rw [length_letters]
  decide

end MyTools.SocketRandom
