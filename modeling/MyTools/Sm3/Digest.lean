import MyTools.Library.Bytes

/-! The hash function: the message schedule `sm3_ms`, the compression `sm3_cf` and
the one-shot `sm3`. Words are stored for a little-endian host. -/
namespace MyTools.Sm3
open Library

/-- A shift count of 32 is one of 0, as on the target. -/
def rotl (x y : UInt32) : UInt32 := (x <<< (y &&& 31)) ||| (x >>> (32 - (y &&& 31)))

structure Registers where
  a : UInt32
  b : UInt32
  c : UInt32
  d : UInt32
  e : UInt32
  f : UInt32
  g : UInt32
  h : UInt32
  deriving DecidableEq

def Registers.initial : Registers :=
  ⟨0x7380166F, 0x4914B2B9, 0x172442D7, 0xDA8A0600, 0xA96F30BC, 0x163138AA, 0xE38DEE4D, 0xB0FB0E4E⟩

def Registers.words (r : Registers) : List UInt32 := [r.a, r.b, r.c, r.d, r.e, r.f, r.g, r.h]

/-- The word in front of which `w` stands, from the words before it. -/
def nextWord (w : List UInt32) : UInt32 :=
  let j := w.length
  let t := w.getD (j - 16) 0 ^^^ w.getD (j - 9) 0 ^^^ rotl (w.getD (j - 3) 0) 15
  t ^^^ (rotl t 15 ^^^ rotl t 23) ^^^ (rotl (w.getD (j - 13) 0) 7 ^^^ w.getD (j - 6) 0)

def sm3Ms (msg : List UInt32) : (steps : ℕ) → List UInt32
  | 0 => msg
  | steps + 1 => sm3Ms msg steps ++ [nextWord (sm3Ms msg steps)]

def blockWords : Bytes → List UInt32
  | b₀ :: b₁ :: b₂ :: b₃ :: rest =>
    ((b₀.toUInt32 <<< 24) ||| (b₁.toUInt32 <<< 16) ||| (b₂.toUInt32 <<< 8) ||| b₃.toUInt32) :: blockWords rest
  | _ => []

/-- One pass of either loop; the loops differ in `T` and in the two Boolean functions. -/
def sm3Round (T : UInt32) (ff gg : UInt32 → UInt32 → UInt32 → UInt32) (w : List UInt32) (j : ℕ)
    (r : Registers) : Registers :=
  let ss1 := rotl (rotl r.a 12 + r.e + rotl T (UInt32.ofNat j)) 7
  let ss2 := ss1 ^^^ rotl r.a 12
  let tt1 := ff r.a r.b r.c + r.d + ss2 + (w.getD j 0 ^^^ w.getD (j + 4) 0)
  let tt2 := gg r.e r.f r.g + r.h + ss1 + w.getD j 0
  ⟨tt1, r.a, rotl r.b 9, r.c, tt2 ^^^ rotl tt2 9 ^^^ rotl tt2 17, r.e, rotl r.f 19, r.g⟩

def sm3Rounds (w : List UInt32) : (rounds : ℕ) → Registers → Registers
  | 0, r => r
  | j + 1, r =>
    let r := sm3Rounds w j r
    if j < 16 then sm3Round 0x79CC4519 (fun a b c => a ^^^ b ^^^ c) (fun e f g => e ^^^ f ^^^ g) w j r
    else sm3Round 0x7A879D8A (fun a b c => (a &&& b) ||| (a &&& c) ||| (b &&& c))
      (fun e f g => (e &&& f) ||| (~~~e &&& g)) w j r

def sm3Cf (h : Registers) (msg : Bytes) : Registers :=
  let r := sm3Rounds (sm3Ms (blockWords msg) 52) 64 h
  ⟨h.a ^^^ r.a, h.b ^^^ r.b, h.c ^^^ r.c, h.d ^^^ r.d, h.e ^^^ r.e, h.f ^^^ r.f, h.g ^^^ r.g, h.h ^^^ r.h⟩

def sm3Blocks (input : Bytes) : (blocks : ℕ) → Registers → Registers
  | 0, h => h
  | i + 1, h => sm3Cf (sm3Blocks input i h) ((input.drop (64 * i)).take 64)

/-- The octets of a word, and its octets as the host stores them. -/
def bigEndian (x : UInt32) : Bytes := [(x >>> 24).toUInt8, (x >>> 16).toUInt8, (x >>> 8).toUInt8, x.toUInt8]
def littleEndian (x : UInt32) : Bytes := [x.toUInt8, (x >>> 8).toUInt8, (x >>> 16).toUInt8, (x >>> 24).toUInt8]

def byteSwap (x : UInt32) : UInt32 :=
  (x >>> 24) ||| ((x &&& 0x00ff0000) >>> 8) ||| ((x &&& 0x0000ff00) <<< 8) ||| (x <<< 24)

/-- What is compressed of the array `BB2`: one block or two. -/
def tail (input : Bytes) (inlen : UInt32) : Bytes :=
  let rest := (input.drop (inlen &&& 0xffffffc0).toNat).take (inlen &&& 63).toNat
  let bb2 := rest ++ 0x80 :: List.replicate (127 - rest.length) 0
  let high := byteSwap (inlen >>> 29)
  let low := byteSwap (inlen <<< 3)
  bb2.take (if inlen &&& 63 < 56 then 56 else 120) ++ littleEndian high ++ littleEndian low

def sm3Bytes (input : Bytes) (inlen : UInt32) : Bytes :=
  let h := sm3Blocks input (inlen / 64).toNat Registers.initial
  let rest := tail input inlen
  (sm3Blocks rest (rest.length / 64) h).words.flatMap bigEndian

/-- The digest of a string, whose length the routine is given as 32 bits. -/
def sm3 (input : Bytes) : Vector UInt8 32 :=
  ⟨(sm3Bytes input (UInt32.ofNat input.length)).toArray, by simp [sm3Bytes, Registers.words, bigEndian]⟩

example : (sm3 [0x61, 0x62, 0x63]).toList = Bytes.ofNat 32
    0x66C7F0F462EEEDD9D1F2D46BDC10E4E24167C4875CF2F7A2297DA02B8F4BA8E0 := by decide +kernel

end MyTools.Sm3
