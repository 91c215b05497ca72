import MyTools.Library.Bytes
import MyTools.Library.Recurrence
import MyTools.Library.Words

/-! The block cipher: `sm4_set_key`, `sm4_encrypt` and `sm4_decrypt`. Their unrolled lines are kept as
tables of the indices they name, and are then shown to follow the recurrences they replace. -/
namespace MyTools.Sm4
open Library

def sbox : Array UInt32 := #[
  0xd6, 0x90, 0xe9, 0xfe, 0xcc, 0xe1, 0x3d, 0xb7, 0x16, 0xb6, 0x14, 0xc2, 0x28, 0xfb, 0x2c, 0x05,
  0x2b, 0x67, 0x9a, 0x76, 0x2a, 0xbe, 0x04, 0xc3, 0xaa, 0x44, 0x13, 0x26, 0x49, 0x86, 0x06, 0x99,
  0x9c, 0x42, 0x50, 0xf4, 0x91, 0xef, 0x98, 0x7a, 0x33, 0x54, 0x0b, 0x43, 0xed, 0xcf, 0xac, 0x62,
  0xe4, 0xb3, 0x1c, 0xa9, 0xc9, 0x08, 0xe8, 0x95, 0x80, 0xdf, 0x94, 0xfa, 0x75, 0x8f, 0x3f, 0xa6,
  0x47, 0x07, 0xa7, 0xfc, 0xf3, 0x73, 0x17, 0xba, 0x83, 0x59, 0x3c, 0x19, 0xe6, 0x85, 0x4f, 0xa8,
  0x68, 0x6b, 0x81, 0xb2, 0x71, 0x64, 0xda, 0x8b, 0xf8, 0xeb, 0x0f, 0x4b, 0x70, 0x56, 0x9d, 0x35,
  0x1e, 0x24, 0x0e, 0x5e, 0x63, 0x58, 0xd1, 0xa2, 0x25, 0x22, 0x7c, 0x3b, 0x01, 0x21, 0x78, 0x87,
  0xd4, 0x00, 0x46, 0x57, 0x9f, 0xd3, 0x27, 0x52, 0x4c, 0x36, 0x02, 0xe7, 0xa0, 0xc4, 0xc8, 0x9e,
  0xea, 0xbf, 0x8a, 0xd2, 0x40, 0xc7, 0x38, 0xb5, 0xa3, 0xf7, 0xf2, 0xce, 0xf9, 0x61, 0x15, 0xa1,
  0xe0, 0xae, 0x5d, 0xa4, 0x9b, 0x34, 0x1a, 0x55, 0xad, 0x93, 0x32, 0x30, 0xf5, 0x8c, 0xb1, 0xe3,
  0x1d, 0xf6, 0xe2, 0x2e, 0x82, 0x66, 0xca, 0x60, 0xc0, 0x29, 0x23, 0xab, 0x0d, 0x53, 0x4e, 0x6f,
  0xd5, 0xdb, 0x37, 0x45, 0xde, 0xfd, 0x8e, 0x2f, 0x03, 0xff, 0x6a, 0x72, 0x6d, 0x6c, 0x5b, 0x51,
  0x8d, 0x1b, 0xaf, 0x92, 0xbb, 0xdd, 0xbc, 0x7f, 0x11, 0xd9, 0x5c, 0x41, 0x1f, 0x10, 0x5a, 0xd8,
  0x0a, 0xc1, 0x31, 0x88, 0xa5, 0xcd, 0x7b, 0xbd, 0x2d, 0x74, 0xd0, 0x12, 0xb8, 0xe5, 0xb4, 0xb0,
  0x89, 0x69, 0x97, 0x4a, 0x0c, 0x96, 0x77, 0x7e, 0x65, 0xb9, 0xf1, 0x09, 0xc5, 0x6e, 0xc6, 0x84,
  0x18, 0xf0, 0x7d, 0xec, 0x3a, 0xdc, 0x4d, 0x20, 0x79, 0xee, 0x5f, 0x3e, 0xd7, 0xcb, 0x39, 0x48]

def fk : Array UInt32 := #[0xa3b1bac6, 0x56aa3350, 0x677d9197, 0xb27022dc]

def ck : Array UInt32 := #[
  0x00070e15, 0x1c232a31, 0x383f464d, 0x545b6269,
  0x70777e85, 0x8c939aa1, 0xa8afb6bd, 0xc4cbd2d9,
  0xe0e7eef5, 0xfc030a11, 0x181f262d, 0x343b4249,
  0x50575e65, 0x6c737a81, 0x888f969d, 0xa4abb2b9,
  0xc0c7ced5, 0xdce3eaf1, 0xf8ff060d, 0x141b2229,
  0x30373e45, 0x4c535a61, 0x686f767d, 0x848b9299,
  0xa0a7aeb5, 0xbcc3cad1, 0xd8dfe6ed, 0xf4fb0209,
  0x10171e25, 0x2c333a41, 0x484f565d, 0x646b7279]

def makeDword (a b c d : UInt8) : UInt32 :=
  (a.toUInt32 <<< 24) ||| (b.toUInt32 <<< 16) ||| (c.toUInt32 <<< 8) ||| d.toUInt32

def rotateLeft (x n : UInt32) : UInt32 := (x <<< n) ||| (x >>> (32 - n))

/-- `SBOX[i]`, for indices below 256. -/
def box (i : UInt32) : UInt32 := sbox.getD i.toNat 0

def nonlinearChange (a : UInt32) : UInt32 :=
  (box (a >>> 24) <<< 24) ||| (box ((a >>> 16) &&& 0xFF) <<< 16) ||| (box ((a >>> 8) &&& 0xFF) <<< 8) |||
    box (a &&& 0xFF)

def lineChangeL (a : UInt32) : UInt32 :=
  a ^^^ rotateLeft a 2 ^^^ rotateLeft a 10 ^^^ rotateLeft a 18 ^^^ rotateLeft a 24

def lineChangeL1 (a : UInt32) : UInt32 := a ^^^ rotateLeft a 13 ^^^ rotateLeft a 23

def roundT (x0 x1 x2 x3 rk : UInt32) : UInt32 := x0 ^^^ lineChangeL (nonlinearChange (x1 ^^^ x2 ^^^ x3 ^^^ rk))

def keyT (k0 k1 k2 k3 ck : UInt32) : UInt32 := k0 ^^^ lineChangeL1 (nonlinearChange (k1 ^^^ k2 ^^^ k3 ^^^ ck))

def dword (bytes : Bytes) (i : ℕ) : Option UInt32 := do
  some (makeDword (← bytes[i]?) (← bytes[i + 1]?) (← bytes[i + 2]?) (← bytes[i + 3]?))

/-- The octets of a word, as they are stored to the output. -/
def octets (x : UInt32) : Bytes := [(x >>> 24).toUInt8, (x >>> 16).toUInt8, (x >>> 8).toUInt8, x.toUInt8]

/-- An assignment to a local array, which is known as far as it is assigned from the front. -/
def assign (x : List UInt32) (i : ℕ) (w : UInt32) : Option (List UInt32) :=
  if i = x.length then some (x ++ [w]) else if i < x.length then some (x.set i w) else none

/-- A word on the right of a line of `sm4_set_key`. -/
inductive KeyWord
  | k (i : ℕ)
  | roundKey (i : ℕ)
  deriving DecidableEq

/-- `round_key[target] = a ^ LINE_CHANGE_L1(NONLINEAR_CHANGE(b ^ c ^ d ^ CK[constant]))` -/
structure KeyLine where
  target : ℕ
  a : KeyWord
  b : KeyWord
  c : KeyWord
  d : KeyWord
  constant : ℕ
  deriving DecidableEq

def keyLines : List KeyLine := [
  ⟨0, .k 0, .k 1, .k 2, .k 3, 0⟩, ⟨1, .k 1, .k 2, .k 3, .roundKey 0, 1⟩,
  ⟨2, .k 2, .k 3, .roundKey 0, .roundKey 1, 2⟩, ⟨3, .k 3, .roundKey 0, .roundKey 1, .roundKey 2, 3⟩,
  ⟨4, .roundKey 0, .roundKey 1, .roundKey 2, .roundKey 3, 4⟩, ⟨5, .roundKey 1, .roundKey 2, .roundKey 3, .roundKey 4, 5⟩,
  ⟨6, .roundKey 2, .roundKey 3, .roundKey 4, .roundKey 5, 6⟩, ⟨7, .roundKey 3, .roundKey 4, .roundKey 5, .roundKey 6, 7⟩,
  ⟨8, .roundKey 4, .roundKey 5, .roundKey 6, .roundKey 7, 8⟩, ⟨9, .roundKey 5, .roundKey 6, .roundKey 7, .roundKey 8, 9⟩,
  ⟨10, .roundKey 6, .roundKey 7, .roundKey 8, .roundKey 9, 10⟩, ⟨11, .roundKey 7, .roundKey 8, .roundKey 9, .roundKey 10, 11⟩,
  ⟨12, .roundKey 8, .roundKey 9, .roundKey 10, .roundKey 11, 12⟩, ⟨13, .roundKey 9, .roundKey 10, .roundKey 11, .roundKey 12, 13⟩,
  ⟨14, .roundKey 10, .roundKey 11, .roundKey 12, .roundKey 13, 14⟩, ⟨15, .roundKey 11, .roundKey 12, .roundKey 13, .roundKey 14, 15⟩,
  ⟨16, .roundKey 12, .roundKey 13, .roundKey 14, .roundKey 15, 16⟩, ⟨17, .roundKey 13, .roundKey 14, .roundKey 15, .roundKey 16, 17⟩,
  ⟨18, .roundKey 14, .roundKey 15, .roundKey 16, .roundKey 17, 18⟩, ⟨19, .roundKey 15, .roundKey 16, .roundKey 17, .roundKey 18, 19⟩,
  ⟨20, .roundKey 16, .roundKey 17, .roundKey 18, .roundKey 19, 20⟩, ⟨21, .roundKey 17, .roundKey 18, .roundKey 19, .roundKey 20, 21⟩,
  ⟨22, .roundKey 18, .roundKey 19, .roundKey 20, .roundKey 21, 22⟩, ⟨23, .roundKey 19, .roundKey 20, .roundKey 21, .roundKey 22, 23⟩,
  ⟨24, .roundKey 20, .roundKey 21, .roundKey 22, .roundKey 23, 24⟩, ⟨25, .roundKey 21, .roundKey 22, .roundKey 23, .roundKey 24, 25⟩,
  ⟨26, .roundKey 22, .roundKey 23, .roundKey 24, .roundKey 25, 26⟩, ⟨27, .roundKey 23, .roundKey 24, .roundKey 25, .roundKey 26, 27⟩,
  ⟨28, .roundKey 24, .roundKey 25, .roundKey 26, .roundKey 27, 28⟩, ⟨29, .roundKey 25, .roundKey 26, .roundKey 27, .roundKey 28, 29⟩,
  ⟨30, .roundKey 26, .roundKey 27, .roundKey 28, .roundKey 29, 30⟩, ⟨31, .roundKey 27, .roundKey 28, .roundKey 29, .roundKey 30, 31⟩]

def KeyWord.read (k roundKey : List UInt32) : KeyWord → Option UInt32
  | .k i => k[i]?
  | .roundKey i => roundKey[i]?

def KeyLine.run (k roundKey : List UInt32) (line : KeyLine) : Option (List UInt32) := do
  let w := keyT (← line.a.read k roundKey) (← line.b.read k roundKey) (← line.c.read k roundKey)
    (← line.d.read k roundKey) (← ck[line.constant]?)
  assign roundKey line.target w

def sm4SetKey (userkey : Bytes) : Option (List UInt32) := do
  let k := [(← dword userkey 0) ^^^ (← fk[0]?), (← dword userkey 4) ^^^ (← fk[1]?),
    (← dword userkey 8) ^^^ (← fk[2]?), (← dword userkey 12) ^^^ (← fk[3]?)]
  keyLines.foldlM (KeyLine.run k) []

/-- `x[target] = T(x[a], x[b], x[c], x[d], round_key[key])` -/
structure Line where
  target : ℕ
  a : ℕ
  b : ℕ
  c : ℕ
  d : ℕ
  key : ℕ
  deriving DecidableEq

def encryptLines : List Line := [
  ⟨4, 0, 1, 2, 3, 0⟩, ⟨5, 1, 2, 3, 4, 1⟩, ⟨6, 2, 3, 4, 5, 2⟩, ⟨7, 3, 4, 5, 6, 3⟩,
  ⟨8, 4, 5, 6, 7, 4⟩, ⟨9, 5, 6, 7, 8, 5⟩, ⟨10, 6, 7, 8, 9, 6⟩, ⟨11, 7, 8, 9, 10, 7⟩,
  ⟨12, 8, 9, 10, 11, 8⟩, ⟨13, 9, 10, 11, 12, 9⟩, ⟨14, 10, 11, 12, 13, 10⟩, ⟨15, 11, 12, 13, 14, 11⟩,
  ⟨16, 12, 13, 14, 15, 12⟩, ⟨17, 13, 14, 15, 16, 13⟩, ⟨18, 14, 15, 16, 17, 14⟩, ⟨19, 15, 16, 17, 18, 15⟩,
  ⟨20, 16, 17, 18, 19, 16⟩, ⟨21, 17, 18, 19, 20, 17⟩, ⟨22, 18, 19, 20, 21, 18⟩, ⟨23, 19, 20, 21, 22, 19⟩,
  ⟨24, 20, 21, 22, 23, 20⟩, ⟨25, 21, 22, 23, 24, 21⟩, ⟨26, 22, 23, 24, 25, 22⟩, ⟨27, 23, 24, 25, 26, 23⟩,
  ⟨28, 24, 25, 26, 27, 24⟩, ⟨29, 25, 26, 27, 28, 25⟩, ⟨30, 26, 27, 28, 29, 26⟩, ⟨31, 27, 28, 29, 30, 27⟩,
  ⟨32, 28, 29, 30, 31, 28⟩, ⟨33, 29, 30, 31, 32, 29⟩, ⟨34, 30, 31, 32, 33, 30⟩, ⟨35, 31, 32, 33, 34, 31⟩]

def decryptLines : List Line := [
  ⟨4, 0, 1, 2, 3, 31⟩, ⟨5, 1, 2, 3, 4, 30⟩, ⟨6, 2, 3, 4, 5, 29⟩, ⟨7, 3, 4, 5, 6, 28⟩,
  ⟨8, 4, 5, 6, 7, 27⟩, ⟨9, 5, 6, 7, 8, 26⟩, ⟨10, 6, 7, 8, 9, 25⟩, ⟨11, 7, 8, 9, 10, 24⟩,
  ⟨12, 8, 9, 10, 11, 23⟩, ⟨13, 9, 10, 11, 12, 22⟩, ⟨14, 10, 11, 12, 13, 21⟩, ⟨15, 11, 12, 13, 14, 20⟩,
  ⟨16, 12, 13, 14, 15, 19⟩, ⟨17, 13, 14, 15, 16, 18⟩, ⟨18, 14, 15, 16, 17, 17⟩, ⟨19, 15, 16, 17, 18, 16⟩,
  ⟨20, 16, 17, 18, 19, 15⟩, ⟨21, 17, 18, 19, 20, 14⟩, ⟨22, 18, 19, 20, 21, 13⟩, ⟨23, 19, 20, 21, 22, 12⟩,
  ⟨24, 20, 21, 22, 23, 11⟩, ⟨25, 21, 22, 23, 24, 10⟩, ⟨26, 22, 23, 24, 25, 9⟩, ⟨27, 23, 24, 25, 26, 8⟩,
  ⟨28, 24, 25, 26, 27, 7⟩, ⟨29, 25, 26, 27, 28, 6⟩, ⟨30, 26, 27, 28, 29, 5⟩, ⟨31, 27, 28, 29, 30, 4⟩,
  ⟨32, 28, 29, 30, 31, 3⟩, ⟨33, 29, 30, 31, 32, 2⟩, ⟨34, 30, 31, 32, 33, 1⟩, ⟨35, 31, 32, 33, 34, 0⟩]

def Line.run (roundKey x : List UInt32) (line : Line) : Option (List UInt32) := do
  let w := roundT (← x[line.a]?) (← x[line.b]?) (← x[line.c]?) (← x[line.d]?) (← roundKey[line.key]?)
  assign x line.target w

/-- What `sm4_encrypt` and `sm4_decrypt` have in common: all of the input is read before the output is stored. -/
def crypt (lines : List Line) (input : Bytes) (roundKey : List UInt32) : Option Bytes := do
  let x := [← dword input 0, ← dword input 4, ← dword input 8, ← dword input 12]
  let x ← lines.foldlM (Line.run roundKey) x
  some (octets (← x[35]?) ++ octets (← x[34]?) ++ octets (← x[33]?) ++ octets (← x[32]?))

def sm4Encrypt (input : Bytes) (roundKey : List UInt32) : Option Bytes := crypt encryptLines input roundKey

def sm4Decrypt (input : Bytes) (roundKey : List UInt32) : Option Bytes := crypt decryptLines input roundKey

/-! The recurrences. -/

def words (block : Bytes) (i : ℕ) : UInt32 := (dword block (4 * i)).getD 0

/-- `x[i + 4] = T(x[i], x[i + 1], x[i + 2], x[i + 3], key(i))` -/
def state (key : ℕ → UInt32) (block : Bytes) : ℕ → UInt32 :=
  Recurrence.sequence (fun i x0 x1 x2 x3 => roundT x0 x1 x2 x3 (key i)) (words block)

/-- `k[i + 4] = k[i] ^ L1(tau(k[i + 1] ^ k[i + 2] ^ k[i + 3] ^ CK[i]))` -/
def schedule (userkey : Bytes) : ℕ → UInt32 :=
  Recurrence.sequence (fun i k0 k1 k2 k3 => keyT k0 k1 k2 k3 (ck.getD i 0))
    (fun i => words userkey i ^^^ fk.getD i 0)

/-- The last four words, in reverse order. -/
def output (x : ℕ → UInt32) : Bytes := octets (x 35) ++ octets (x 34) ++ octets (x 33) ++ octets (x 32)

/-! A word is packed from its octets, the highest one first. -/

theorem makeDword_eq (a b c d : UInt8) : makeDword a b c d = Words.pack d c b a := rfl

theorem octets_eq (x : UInt32) : octets x = [Words.octet x 3, Words.octet x 2, Words.octet x 1, Words.octet x 0] := by
  have last : Words.octet x 0 = x.toUInt8 := congrArg UInt32.toUInt8 UInt32.shiftRight_zero
  rw [last]
  rfl

theorem octets_makeDword (a b c d : UInt8) : octets (makeDword a b c d) = [a, b, c, d] := by
  rw [octets_eq, makeDword_eq, Words.octet_pack_three, Words.octet_pack_two, Words.octet_pack_one, Words.octet_pack_zero]

theorem makeDword_octets (x : UInt32) :
    makeDword (x >>> 24).toUInt8 (x >>> 16).toUInt8 (x >>> 8).toUInt8 x.toUInt8 = x := by
  have last : Words.octet x 0 = x.toUInt8 := congrArg UInt32.toUInt8 UInt32.shiftRight_zero
  rw [makeDword_eq, ← last]
  exact Words.pack_octets x

theorem roundT_roundT (x0 x1 x2 x3 rk : UInt32) : roundT (roundT x0 x1 x2 x3 rk) x3 x2 x1 rk = x0 := by
  have same : x3 ^^^ x2 ^^^ x1 ^^^ rk = x1 ^^^ x2 ^^^ x3 ^^^ rk := by
    rw [UInt32.xor_comm x3 x2, UInt32.xor_assoc x2, UInt32.xor_comm x3 x1, ← UInt32.xor_assoc, UInt32.xor_comm x2 x1]
  rw [roundT, roundT, same, UInt32.xor_assoc, UInt32.xor_self, UInt32.xor_zero]

/-! The lines run the recurrences. -/

def keyLine (i : ℕ) : KeyLine :=
  let word (j : ℕ) : KeyWord := if j < 4 then .k j else .roundKey (j - 4)
  ⟨i, word i, word (i + 1), word (i + 2), word (i + 3), i⟩

def line (key : ℕ → ℕ) (i : ℕ) : Line := ⟨i + 4, i, i + 1, i + 2, i + 3, key i⟩

theorem keyLines_eq : keyLines = (List.range 32).map keyLine := by decide

theorem encryptLines_eq : encryptLines = (List.range 32).map (line fun i => i) := by decide

theorem decryptLines_eq : decryptLines = (List.range 32).map (line fun i => 31 - i) := by decide

theorem dword_run {block : Bytes} (size : block.length = 16) {i : ℕ} (inside : i < 4) :
    dword block (4 * i) = some (words block i) := by
  have reads (j : ℕ) (below : j < 16) : block[j]? = some (block[j]?.getD 0) := by
    rw [List.getElem?_eq_getElem (by omega), Option.getD_some]
  have run : ∃ w, dword block (4 * i) = some w := by
    rw [dword, reads (4 * i) (by omega), reads (4 * i + 1) (by omega), reads (4 * i + 2) (by omega),
      reads (4 * i + 3) (by omega)]
    exact ⟨_, rfl⟩
  obtain ⟨w, run⟩ := run
  rw [words, run, Option.getD_some]

private theorem getElem?_map_range (x : ℕ → UInt32) {i n : ℕ} (inside : i < n) :
    ((List.range n).map x)[i]? = some (x i) := by
  rw [List.getElem?_map, List.getElem?_range inside, Option.map_some]

private theorem assign_next (x : ℕ → UInt32) (n : ℕ) :
    assign ((List.range n).map x) n (x n) = some ((List.range (n + 1)).map x) := by
  have length : n = ((List.range n).map x).length := by rw [List.length_map, List.length_range]
  rw [assign, if_pos length, List.range_succ, List.map_append]
  rfl

theorem lines_run {roundKey : List UInt32} {key : ℕ → ℕ} (x : ℕ → UInt32) (n : ℕ)
    (inside : ∀ i, i < n → key i < roundKey.length)
    (next : ∀ i, x (i + 4) = roundT (x i) (x (i + 1)) (x (i + 2)) (x (i + 3)) (roundKey.getD (key i) 0)) :
    ((List.range n).map (line key)).foldlM (Line.run roundKey) ((List.range 4).map x) =
      some ((List.range (n + 4)).map x) := by
  induction n with
  | zero => rfl
  | succ n ih =>
    have key_read : roundKey[key n]? = some (roundKey.getD (key n) 0) := by
      rw [List.getD_eq_getElem?_getD, List.getElem?_eq_getElem (inside n n.lt_succ_self), Option.getD_some]
    have last : Line.run roundKey ((List.range (n + 4)).map x) (line key n) = some ((List.range (n + 1 + 4)).map x) := by
      simp only [Line.run, line, getElem?_map_range x (show n < n + 4 by omega),
        getElem?_map_range x (show n + 1 < n + 4 by omega), getElem?_map_range x (show n + 2 < n + 4 by omega),
        getElem?_map_range x (show n + 3 < n + 4 by omega), key_read, Option.bind_eq_bind, Option.bind_some, ← next]
      rw [assign_next]
    have grown : List.range (n + 1) = List.range n ++ [n] := List.range_succ
    rw [grown, List.map_append, List.foldlM_append, ih fun i below => inside i (Nat.lt_succ_of_lt below)]
    simp only [List.map_cons, List.map_nil, List.foldlM_cons, List.foldlM_nil, Option.bind_eq_bind, Option.bind_some,
      last]
    rfl

private theorem map_range_four (x : ℕ → UInt32) : (List.range 4).map x = [x 0, x 1, x 2, x 3] := by
  simp only [List.range_succ, List.range_zero, List.nil_append, List.map_cons, List.map_nil,
    List.cons_append]

theorem crypt_run {block : Bytes} (size : block.length = 16) (roundKey : Vector UInt32 32) {key : ℕ → ℕ}
    (inside : ∀ i, i < 32 → key i < 32) :
    crypt ((List.range 32).map (line key)) block roundKey.toList =
      some (output (state (fun i => roundKey.toList.getD (key i) 0) block)) := by
  have seed (i : ℕ) (early : i < 4) :
      words block i = state (fun i => roundKey.toList.getD (key i) 0) block i := by
    rw [state, Recurrence.sequence_seed early]
  have run := lines_run (state (fun i => roundKey.toList.getD (key i) 0) block) 32
    (fun i below => by rw [Vector.length_toList]; exact inside i below) (Recurrence.sequence_next _ _)
  generalize state (fun i => roundKey.toList.getD (key i) 0) block = x at *
  have first := dword_run size (i := 0) (by decide)
  have second := dword_run size (i := 1) (by decide)
  have third := dword_run size (i := 2) (by decide)
  have last := dword_run size (i := 3) (by decide)
  simp only [Nat.mul_zero, Nat.mul_one, Nat.reduceMul] at first second third last
  rw [seed 0 (by decide)] at first
  rw [seed 1 (by decide)] at second
  rw [seed 2 (by decide)] at third
  rw [seed 3 (by decide)] at last
  rw [map_range_four] at run
  rw [crypt, first, second, third, last, Option.bind_eq_bind, Option.bind_some, Option.bind_some, Option.bind_some,
    Option.bind_some]
  dsimp only
  rw [run, Option.bind_eq_bind, Option.bind_some, getElem?_map_range x (show 35 < 32 + 4 by decide), Option.bind_some,
    getElem?_map_range x (show 34 < 32 + 4 by decide), Option.bind_some,
    getElem?_map_range x (show 33 < 32 + 4 by decide), Option.bind_some,
    getElem?_map_range x (show 32 < 32 + 4 by decide), Option.bind_some, output]

theorem sm4Encrypt_run {block : Bytes} (size : block.length = 16) (roundKey : Vector UInt32 32) :
    sm4Encrypt block roundKey.toList = some (output (state (fun i => roundKey.toList.getD i 0) block)) := by
  rw [sm4Encrypt, encryptLines_eq]
  exact crypt_run size roundKey fun _ inside => inside

theorem sm4Decrypt_run {block : Bytes} (size : block.length = 16) (roundKey : Vector UInt32 32) :
    sm4Decrypt block roundKey.toList = some (output (state (fun i => roundKey.toList.getD (31 - i) 0) block)) := by
  rw [sm4Decrypt, decryptLines_eq]
  exact crypt_run size roundKey fun _ _ => by omega

private theorem word_read (x : ℕ → UInt32) {j n : ℕ} (known : j < n + 4) :
    (if j < 4 then KeyWord.k j else .roundKey (j - 4)).read ((List.range 4).map x)
      ((List.range n).map fun i => x (i + 4)) = some (x j) := by
  split
  · next first => exact getElem?_map_range x first
  · next later =>
    have place : j - 4 + 4 = j := Nat.sub_add_cancel (Nat.not_lt.mp later)
    have read := getElem?_map_range (fun i => x (i + 4)) (show j - 4 < n by omega)
    rw [place] at read
    exact read

theorem keyLines_run {x : ℕ → UInt32} {n : ℕ} (inside : n ≤ 32)
    (next : ∀ i, x (i + 4) = keyT (x i) (x (i + 1)) (x (i + 2)) (x (i + 3)) (ck.getD i 0)) :
    ((List.range n).map keyLine).foldlM (KeyLine.run ((List.range 4).map x)) [] =
      some ((List.range n).map fun i => x (i + 4)) := by
  induction n with
  | zero => rfl
  | succ n ih =>
    have constant : ck[n]? = some (ck.getD n 0) := by
      have size : n < ck.size := inside
      rw [Array.getElem?_eq_getElem size, Array.getD, dif_pos size]
      rfl
    have last : KeyLine.run ((List.range 4).map x) ((List.range n).map fun i => x (i + 4)) (keyLine n) =
        some ((List.range (n + 1)).map fun i => x (i + 4)) := by
      simp only [KeyLine.run, keyLine, word_read x (show n < n + 4 by omega), word_read x (show n + 1 < n + 4 by omega),
        word_read x (show n + 2 < n + 4 by omega), word_read x (show n + 3 < n + 4 by omega), constant,
        Option.bind_eq_bind, Option.bind_some, ← next]
      exact assign_next (fun i => x (i + 4)) n
    have grown : List.range (n + 1) = List.range n ++ [n] := List.range_succ
    rw [grown, List.map_append, List.foldlM_append, ih (Nat.le_of_succ_le inside), ← grown]
    simp only [List.map_cons, List.map_nil, List.foldlM_cons, List.foldlM_nil, Option.bind_eq_bind, Option.bind_some,
      last]
    rfl

theorem sm4SetKey_run {userkey : Bytes} (size : userkey.length = 16) :
    sm4SetKey userkey = some ((List.range 32).map fun i => schedule userkey (i + 4)) := by
  have first := dword_run size (i := 0) (by decide)
  have second := dword_run size (i := 1) (by decide)
  have third := dword_run size (i := 2) (by decide)
  have last := dword_run size (i := 3) (by decide)
  simp only [Nat.mul_zero, Nat.mul_one, Nat.reduceMul] at first second third last
  have constants : fk[0]? = some (fk.getD 0 0) ∧ fk[1]? = some (fk.getD 1 0) ∧ fk[2]? = some (fk.getD 2 0) ∧
      fk[3]? = some (fk.getD 3 0) := ⟨rfl, rfl, rfl, rfl⟩
  obtain ⟨fk0, fk1, fk2, fk3⟩ := constants
  have seed (i : ℕ) (early : i < 4) : words userkey i ^^^ fk.getD i 0 = schedule userkey i := by
    rw [schedule, Recurrence.sequence_seed early]
  have next (i : ℕ) : schedule userkey (i + 4) = keyT (schedule userkey i) (schedule userkey (i + 1))
      (schedule userkey (i + 2)) (schedule userkey (i + 3)) (ck.getD i 0) := by
    rw [schedule, Recurrence.sequence_next]
  have run := keyLines_run (Nat.le_refl 32) next
  rw [sm4SetKey, first, second, third, last, fk0, fk1, fk2, fk3, keyLines_eq]
  rw [Option.bind_eq_bind, Option.bind_some, Option.bind_some, Option.bind_some, Option.bind_some, Option.bind_some,
    Option.bind_some, Option.bind_some, Option.bind_some]
  dsimp only
  rw [seed 0 (by decide), seed 1 (by decide), seed 2 (by decide), seed 3 (by decide), ← map_range_four, run]

theorem unrolled_eq_recurrence :
    (∀ userkey : Vector UInt8 16,
      sm4SetKey userkey.toList = some ((List.range 32).map fun i => schedule userkey.toList (i + 4))) ∧
    ∀ (block : Vector UInt8 16) (roundKey : Vector UInt32 32),
      sm4Encrypt block.toList roundKey.toList =
        some (output (state (fun i => roundKey.toList.getD i 0) block.toList)) ∧
      sm4Decrypt block.toList roundKey.toList =
        some (output (state (fun i => roundKey.toList.getD (31 - i) 0) block.toList)) := by
  refine ⟨fun userkey => sm4SetKey_run Vector.length_toList, fun block roundKey => ⟨?_, ?_⟩⟩
  · exact sm4Encrypt_run Vector.length_toList roundKey
  · exact sm4Decrypt_run Vector.length_toList roundKey

/-! One direction runs the other one backwards. -/

theorem length_output (x : ℕ → UInt32) : (output x).length = 16 := rfl

private theorem words_of_dword {block : Bytes} {i : ℕ} {w : UInt32} (read : dword block (4 * i) = some w) :
    words block i = w := by
  rw [words, read, Option.getD_some]

theorem words_output (x : ℕ → UInt32) {i : ℕ} (early : i < 4) : words (output x) i = x (35 - i) := by
  apply words_of_dword
  have read (w : UInt32) : some (makeDword (w >>> 24).toUInt8 (w >>> 16).toUInt8 (w >>> 8).toUInt8 w.toUInt8) = some w := by
    rw [makeDword_octets]
  rcases i with _ | _ | _ | _ | i
  · exact read (x 35)
  · exact read (x 34)
  · exact read (x 33)
  · exact read (x 32)
  · omega

theorem octets_words {block : Bytes} (size : block.length = 16) :
    octets (words block 0) ++ octets (words block 1) ++ octets (words block 2) ++ octets (words block 3) = block := by
  have reads {i : ℕ} (inside : i < 16) : block[i]? = some (block.get ⟨i, size ▸ inside⟩) :=
    List.getElem?_eq_getElem (size ▸ inside)
  have word (i : ℕ) (inside : 4 * i + 3 < 16) : words block i =
      makeDword (block.get ⟨4 * i, by omega⟩) (block.get ⟨4 * i + 1, by omega⟩) (block.get ⟨4 * i + 2, by omega⟩)
        (block.get ⟨4 * i + 3, by omega⟩) := by
    apply words_of_dword
    rw [dword, reads (show 4 * i < 16 by omega), reads (show 4 * i + 1 < 16 by omega),
      reads (show 4 * i + 2 < 16 by omega), reads inside]
    rfl
  rw [word 0 (by decide), word 1 (by decide), word 2 (by decide), word 3 (by decide), octets_makeDword, octets_makeDword,
    octets_makeDword, octets_makeDword]
  apply List.ext_getElem
  · exact size.symm
  · intro i left right
    have inside : i < 16 := left
    rcases i with _ | _ | _ | _ | _ | _ | _ | _ | _ | _ | _ | _ | _ | _ | _ | _ | i
    all_goals first | rfl | omega

theorem output_state_back (key : ℕ → UInt32) {block : Bytes} (size : block.length = 16) :
    output (state (fun i => key (31 - i)) (output (state key block))) = block := by
  have back (i : ℕ) (inside : i < 36) :
      state (fun i => key (31 - i)) (output (state key block)) i = state key block (35 - i) := by
    have seeds : Recurrence.sequence (fun i x0 x1 x2 x3 => roundT x0 x1 x2 x3 (key (31 - i)))
        (words (output (state key block))) i = Recurrence.sequence _ (fun i => state key block (35 - i)) i :=
      Recurrence.sequence_congr (fun i early => words_output _ early) fun _ _ => rfl
    rw [state, seeds]
    exact Recurrence.sequence_back 32 (fun i below a b c d => roundT_roundT a b c d _) inside
  rw [output, back 35 (by decide), back 34 (by decide), back 33 (by decide), back 32 (by decide)]
  have seed (i : ℕ) (early : i < 4) : state key block i = words block i := Recurrence.sequence_seed early
  rw [show 35 - 35 = 0 from rfl, show 35 - 34 = 1 from rfl, show 35 - 33 = 2 from rfl, show 35 - 32 = 3 from rfl,
    seed 0 (by decide), seed 1 (by decide), seed 2 (by decide), seed 3 (by decide), octets_words size]

theorem output_state_congr {key key' : ℕ → UInt32} (same : ∀ i, i < 32 → key i = key' i) (block : Bytes) :
    output (state key block) = output (state key' block) := by
  have words (i : ℕ) (inside : i < 36) : state key block i = state key' block i := by
    apply Recurrence.sequence_congr
    · exact fun _ _ => rfl
    · intro j low
      rw [same j (by omega)]
  rw [output, output, words 35 (by decide), words 34 (by decide), words 33 (by decide), words 32 (by decide)]

/-- The block function of an array of round keys. -/
def encryptBlock (roundKey : Vector UInt32 32) (block : Bytes) : Bytes :=
  output (state (fun i => roundKey.toList.getD i 0) block)

def decryptBlock (roundKey : Vector UInt32 32) (block : Bytes) : Bytes :=
  output (state (fun i => roundKey.toList.getD (31 - i) 0) block)

theorem decryptBlock_encryptBlock (roundKey : Vector UInt32 32) {block : Bytes} (size : block.length = 16) :
    decryptBlock roundKey (encryptBlock roundKey block) = block :=
  output_state_back (fun i => roundKey.toList.getD i 0) size

theorem encryptBlock_decryptBlock (roundKey : Vector UInt32 32) {block : Bytes} (size : block.length = 16) :
    encryptBlock roundKey (decryptBlock roundKey block) = block := by
  have back := output_state_back (fun i => roundKey.toList.getD (31 - i) 0) size
  rw [encryptBlock, output_state_congr fun i inside => ?_]
  · exact back
  · rw [Nat.sub_sub_self (Nat.le_of_lt_succ inside)]

end MyTools.Sm4
