import MyTools.Library.Memory
import MyTools.Library.Modes
import MyTools.Sm4.Cipher

/-! The modes of operation: `sm4_ecb_encrypt`, `sm4_cbc_encrypt`, `sm4_cbc_mac`, `sm4_cfb_encrypt` and
`sm4_ofb_encrypt`. Pointers are addresses of one memory, so that buffers may be the same. `NULL` is
the address 0, which is not mapped. Local arrays are kept apart from the memory. -/
namespace MyTools.Sm4
open Library Memory

/-- Where an operand is read: behind a pointer, from a local array, or a constant. -/
inductive Source
  | pointer (a : ℕ)
  | array (octets : Bytes)
  | octet (x : UInt8)

def Source.get (mem : Memory UInt8) (n : ℕ) : Source → Option UInt8
  | .pointer a => mem (a + n)
  | .array octets => octets[n]?
  | .octet x => some x

/-- `for (n = 0; n < count; ++n) out[n] = x[n] ^ y[n];` -/
def xorTo (x y : Source) (out count : ℕ) (mem : Memory UInt8) : Option (Memory UInt8) :=
  Loop.up (fun n mem => do mem.store (out + n) ((← x.get mem n) ^^^ (← y.get mem n))) count mem

/-- `for (n = first; n < count; ++n) out[n] = x[n];` -/
def copyTo (x : Source) (out first count : ℕ) (mem : Memory UInt8) : Option (Memory UInt8) :=
  Loop.up (fun n mem => do mem.store (out + (first + n)) (← x.get mem (first + n))) (count - first) mem

def encryptTo (input out : ℕ) (roundKey : List UInt32) (mem : Memory UInt8) : Option (Memory UInt8) := do
  mem.stores out (← sm4Encrypt (← mem.loads input 16) roundKey)

def decryptTo (input out : ℕ) (roundKey : List UInt32) (mem : Memory UInt8) : Option (Memory UInt8) := do
  mem.stores out (← sm4Decrypt (← mem.loads input 16) roundKey)

/-- The variables that the loops over blocks move on. -/
structure Pass where
  mem : Memory UInt8
  input : ℕ
  out : ℕ
  iv : Source
  len : ℕ

/-- `while (len >= SM4_BLOCK_SIZE)` -/
def whileBlocks (body : Pass → Option Pass) (s : Pass) : Option Pass :=
  Loop.whileDo (fun s => some (16 ≤ s.len)) body (s.len + 1) s

def ecbBlock (enc : UInt32) (roundKey : List UInt32) (s : Pass) : Option Pass := do
  let mem ← copyTo (.pointer s.input) s.out 0 16 s.mem
  let mem ← (if enc = 1 then encryptTo s.out s.out roundKey mem else decryptTo s.out s.out roundKey mem)
  some { s with mem, len := s.len - 16, input := s.input + 16, out := s.out + 16 }

def sm4EcbEncrypt (input out : ℕ) (length : UInt32) (key : ℕ) (enc : UInt32) (mem : Memory UInt8) :
    Option (Memory UInt8) :=
  if input = 0 ∨ out = 0 ∨ key = 0 then some mem else
  if 1 ≠ enc ∧ 0 ≠ enc then some mem else do
  let roundKey ← sm4SetKey (← mem.loads key 16)
  let s ← whileBlocks (ecbBlock enc roundKey) ⟨mem, input, out, .octet 0, length.toNat⟩
  if s.len ≠ 0 then do
    let mem ← copyTo (.pointer s.input) s.out 0 s.len s.mem
    let mem ← copyTo (.octet 0) s.out s.len 16 mem
    if enc = 1 then encryptTo s.out s.out roundKey mem else decryptTo s.out s.out roundKey mem
  else some s.mem

def cbcEncryptBlock (roundKey : List UInt32) (s : Pass) : Option Pass := do
  let mem ← xorTo (.pointer s.input) s.iv s.out 16 s.mem
  let mem ← encryptTo s.out s.out roundKey mem
  some ⟨mem, s.input + 16, s.out + 16, .pointer s.out, s.len - 16⟩

/-- The last block of the encryption, which the vector fills up. -/
def cbcEncryptTail (roundKey : List UInt32) (s : Pass) : Option (Memory UInt8) :=
  if s.len ≠ 0 then do
    let mem ← xorTo (.pointer s.input) s.iv s.out s.len s.mem
    let mem ← copyTo s.iv s.out s.len 16 mem
    encryptTo s.out s.out roundKey mem
  else some s.mem

def cbcDecryptBlock (roundKey : List UInt32) (s : Pass) : Option Pass := do
  let mem ← decryptTo s.input s.out roundKey s.mem
  let mem ← xorTo (.pointer s.out) s.iv s.out 16 mem
  some ⟨mem, s.input + 16, s.out + 16, .pointer s.input, s.len - 16⟩

def cbcDecryptTail (roundKey : List UInt32) (s : Pass) : Option (Memory UInt8) :=
  if s.len ≠ 0 then do
    let tmp ← sm4Decrypt (← s.mem.loads s.input 16) roundKey
    xorTo (.array tmp) s.iv s.out s.len s.mem
  else some s.mem

/-- In place, the block before is kept in `iv_tmp`. -/
def cbcInPlaceBlock (roundKey : List UInt32) (s : Pass) : Option Pass := do
  let tmp ← s.mem.loads s.input 16
  let mem ← decryptTo s.input s.out roundKey s.mem
  let mem ← xorTo (.pointer s.out) s.iv s.out 16 mem
  some ⟨mem, s.input + 16, s.out + 16, .array tmp, s.len - 16⟩

def cbcInPlaceTail (roundKey : List UInt32) (s : Pass) : Option (Memory UInt8) :=
  if s.len ≠ 0 then do
    let tmp ← s.mem.loads s.input 16
    let mem ← s.mem.stores s.out (← sm4Decrypt tmp roundKey)
    let mem ← xorTo (.pointer s.out) s.iv s.out s.len mem
    copyTo (.array tmp) s.out s.len 16 mem
  else some s.mem

def sm4CbcEncrypt (input out : ℕ) (length : UInt32) (key ivec : ℕ) (enc : UInt32) (mem : Memory UInt8) :
    Option (Memory UInt8) :=
  if input = 0 ∨ out = 0 ∨ key = 0 ∨ ivec = 0 then some mem else
  if 1 ≠ enc ∧ 0 ≠ enc then some mem else do
  let roundKey ← sm4SetKey (← mem.loads key 16)
  let start : Pass := ⟨mem, input, out, .pointer ivec, length.toNat⟩
  if 1 = enc then do
    cbcEncryptTail roundKey (← whileBlocks (cbcEncryptBlock roundKey) start)
  else if input ≠ out then do
    cbcDecryptTail roundKey (← whileBlocks (cbcDecryptBlock roundKey) start)
  else do
    let ivTmp ← mem.loads ivec 16
    cbcInPlaceTail roundKey (← whileBlocks (cbcInPlaceBlock roundKey) { start with iv := .array ivTmp })

/-- The loop of `sm4_cbc_mac`: the output does not move on. -/
def cbcMacBlock (roundKey : List UInt32) (s : Pass) : Option Pass := do
  let mem ← xorTo (.pointer s.input) s.iv s.out 16 s.mem
  let mem ← encryptTo s.out s.out roundKey mem
  some ⟨mem, s.input + 16, s.out, .pointer s.out, s.len - 16⟩

def sm4CbcMac (input out : ℕ) (length : UInt32) (key ivec : ℕ) (mem : Memory UInt8) : Option (Memory UInt8) :=
  if input = 0 ∨ out = 0 ∨ key = 0 ∨ ivec = 0 then some mem else do
  let roundKey ← sm4SetKey (← mem.loads key 16)
  let s ← whileBlocks (cbcMacBlock roundKey) ⟨mem, input, out, .pointer ivec, length.toNat⟩
  cbcEncryptTail roundKey s

/-- The variables of the loops over octets; `iv` is a local array. -/
structure Stream where
  mem : Memory UInt8
  input : ℕ
  out : ℕ
  n : ℕ
  iv : Bytes
  l : ℕ

/-- One pass; `feed` makes the new octet of `iv` from that of the input, of the output and of `iv`. -/
def streamStep (feed : UInt8 → UInt8 → UInt8 → UInt8) (roundKey : List UInt32) (s : Stream) : Option Stream := do
  let iv ← (if s.n = 0 then sm4Encrypt s.iv roundKey else some s.iv)
  let k ← iv[s.n]?
  let x ← s.mem s.input
  let mem ← s.mem.store s.out (x ^^^ k)
  some ⟨mem, s.input + 1, s.out + 1, (s.n + 1) % 16, iv.set s.n (feed x (x ^^^ k) k), s.l - 1⟩

def whileOctets (feed : UInt8 → UInt8 → UInt8 → UInt8) (roundKey : List UInt32) (s : Stream) : Option Stream :=
  Loop.whileDo (fun s => some (s.l ≠ 0)) (streamStep feed roundKey) (s.l + 1) s

def sm4CfbEncrypt (input out : ℕ) (length : UInt32) (key ivec : ℕ) (enc : UInt32) (mem : Memory UInt8) :
    Option (Memory UInt8) :=
  if input = 0 ∨ out = 0 ∨ key = 0 ∨ ivec = 0 then some mem else
  if 1 ≠ enc ∧ 0 ≠ enc then some mem else do
  let roundKey ← sm4SetKey (← mem.loads key 16)
  let iv ← mem.loads ivec 16
  let s ← (if enc = 1 then whileOctets (fun _ y _ => y) roundKey ⟨mem, input, out, 0, iv, length.toNat⟩
    else whileOctets (fun x _ _ => x) roundKey ⟨mem, input, out, 0, iv, length.toNat⟩)
  some s.mem

/-- `iv` is only changed by the cipher. -/
def sm4OfbEncrypt (input out : ℕ) (length : UInt32) (key ivec : ℕ) (mem : Memory UInt8) : Option (Memory UInt8) :=
  if input = 0 ∨ out = 0 ∨ key = 0 ∨ ivec = 0 then some mem else do
  let roundKey ← sm4SetKey (← mem.loads key 16)
  let iv ← mem.loads ivec 16
  let s ← whileOctets (fun _ _ k => k) roundKey ⟨mem, input, out, 0, iv, length.toNat⟩
  some s.mem

end MyTools.Sm4
