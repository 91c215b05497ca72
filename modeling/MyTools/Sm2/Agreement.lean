import MyTools.Library.Exchange
import MyTools.Sm2.Hash

/-! The key agreement routines: the one-shot `sm2_keyagreement_a` and
`sm2_keyagreement_b`, the staged `sm2_keyagreement_a1_3`, `sm2_keyagreement_b1_9`
and `sm2_keyagreement_a4_10`, and their caller `Zayk_KeyAgreement_ECC`.
Local arrays start with the contents that are passed for them. -/
namespace MyTools.Sm2
open Library MyTools.Sm2.Miracl

structure Arg where
  ptr : Bytes
  len : ℤ
  readable : len ≤ ptr.length
  int : -2 ^ 31 ≤ len ∧ len < 2 ^ 31
  object : ptr.length < 2 ^ 63

def Arg.toBig (arg : Arg) (x : ℕ) : Miracl ℕ := bytesToBig arg.len arg.ptr x

/-- An `unsigned int` passed for an `int`. -/
def asInt (value : UInt32) : ℤ := if value.toNat < 2 ^ 31 then value.toNat else value.toNat - 2 ^ 32

structure Mallocs where
  za : Malloc
  zb : Malloc
  key : Malloc

structure Locals where
  kx1buf : Octets
  ky1buf : Octets
  kx2buf : Octets
  ky2buf : Octets
  xubuf : Octets
  yubuf : Octets
  za : Octets
  zb : Octets
  buf : Vector UInt8 256

/-- The first 16 octets of `buf` after `memcpy(buf, kxbuf + 16, 16); buf[0] |= 0x80`. -/
def truncated (kxbuf : Octets) : Bytes :=
  match kxbuf.toList.drop 16 with
  | [] => []
  | first :: rest => (first ||| 0x80) :: rest

/-- An ephemeral point, its coordinates as arrays and the number made of its abscissa. -/
structure Ephemeral where
  kxbuf : Octets
  kybuf : Octets
  xbar : ℕ
  point : Point

/-- The point `(kx, ky)`, or a jump to the exit. -/
def readEphemeral (kx ky : Arg) (kxbuf kybuf : Octets) (g : Point) : Miracl (Option Ephemeral) := do
  let x ← kx.toBig 0
  let y ← ky.toBig 0
  let (valid, g) ← epointSet x y g
  if valid = false then return none else
  let (_, kxbuf) ← bigToBytes x kxbuf
  let (_, kybuf) ← bigToBytes y kybuf
  let xbar ← bytesToBig 16 (truncated kxbuf) 0
  return some ⟨kxbuf, kybuf, xbar, g⟩

/-- `t (w + xbar g)` into `xubuf` and `yubuf`, or a jump to the exit. -/
def sharedPoint (xbar t : ℕ) (g w : Point) (x y : ℕ) (xubuf yubuf : Octets) :
    Miracl (Option (Octets × Octets)) := do
  let g ← ecurveMult xbar g g
  let g ← ecurveAdd w g
  let g ← ecurveMult t g g
  if pointAtInfinity g then return none else
  let (x, y) ← epointGet g x y
  let (_, xubuf) ← bigToBytes x xubuf
  let (_, yubuf) ← bigToBytes y yubuf
  return some (xubuf, yubuf)

structure Derived where
  kx1buf : Octets
  ky1buf : Octets
  kx2buf : Octets
  ky2buf : Octets
  xubuf : Octets
  yubuf : Octets

/-- What `sm2_keyagreement_a`, `sm2_keyagreement_b` and `sm2_keyagreement_a4_10` have in
common: the own ephemeral point `(kx1, ky1)`, the static key, the ephemeral scalar, the
peer's ephemeral point `(kx2, ky2)` and static point `(x, y)`. -/
def derive (kx1 ky1 privateKey : Arg) (scalar : Ephemeral → Miracl ℕ) (kx2 ky2 x y : Arg) (l : Locals) :
    Miracl (Option Derived) := do
  match ← readEphemeral kx1 ky1 l.kx1buf l.ky1buf epointInit with
  | none => return none
  | some own =>
    let da ← privateKey.toBig 0
    let k ← scalar own
    let ta ← mad own.xbar k (some da) n 0
    match ← readEphemeral kx2 ky2 l.kx2buf l.ky2buf own.point with
    | none => return none
    | some peer =>
      let x ← x.toBig gx
      let y ← y.toBig gy
      let (valid, w) ← epointSet x y epointInit
      if valid = false then return none else
      match ← sharedPoint peer.xbar ta peer.point w x y l.xubuf l.yubuf with
      | none => return none
      | some (xubuf, yubuf) => return some ⟨own.kxbuf, own.kybuf, peer.kxbuf, peer.kybuf, xubuf, yubuf⟩

section
variable (sm3 : Bytes → Octets)

/-- The confirmation hash over `xu, ZA, ZB` and the ephemeral points of A and of B. -/
def confirmation (xubuf za zb kxa kya kxb kyb : Octets) : Octets :=
  sm3 (xubuf.toList ++ za.toList ++ zb.toList ++ kxa.toList ++ kya.toList ++ kxb.toList ++ kyb.toList)

def tagged (tag : UInt8) (yubuf hash : Octets) : Octets := sm3 (tag :: (yubuf.toList ++ hash.toList))

def keyInput (xubuf yubuf za zb : Octets) : Bytes := xubuf.toList ++ yubuf.toList ++ za.toList ++ zb.toList

/-- The output arrays: the key, the confirmation expected of the peer (`s1` or `s2`) and
the one to be sent (`sa` or `sb`). -/
structure KeyOut where
  keybuf : Bytes
  expected : Option Octets
  sent : Option Octets

/-- A side of the protocol: the tags of its confirmations and the order of the ephemeral
points in the hash, the initiator's being first. -/
structure Role where
  expected : UInt8
  sent : UInt8
  hash : (d : Derived) → (za zb : Octets) → Octets

def initiator : Role where
  expected := 0x02
  sent := 0x03
  hash d za zb := confirmation sm3 d.xubuf za zb d.kx1buf d.ky1buf d.kx2buf d.ky2buf

def responder : Role where
  expected := 0x03
  sent := 0x02
  hash d za zb := confirmation sm3 d.xubuf za zb d.kx2buf d.ky2buf d.kx1buf d.ky1buf

/-- The outputs of a run that is not cut short; the answer of `kdf_key` is not looked at. -/
def finish (role : Role) (malloc : Malloc) (za zb : Octets) (d : Derived) (keylen : UInt32) (out : KeyOut) :
    Option KeyOut := do
  let (_, keybuf) ← kdfKey sm3 malloc (keyInput d.xubuf d.yubuf za zb) 128 (asInt keylen) out.keybuf
  let hash := role.hash d za zb
  return ⟨keybuf, out.expected.map fun _ => tagged sm3 role.expected d.yubuf hash,
    out.sent.map fun _ => tagged sm3 role.sent d.yubuf hash⟩

/-- What the three routines have in common; the answers of `sm3_z` are not looked at. -/
def keyagreement (role : Role) (m : Mallocs) (ida xa ya idb xb yb : Arg) (derived : Miracl (Option Derived))
    (keylen : UInt32) (l : Locals) (out : KeyOut) : Option (ℤ × KeyOut) := do
  let (_, za) ← sm3Z sm3 m.za ida.ptr ida.len xa.ptr xa.len ya.ptr ya.len l.za
  let (_, zb) ← sm3Z sm3 m.zb idb.ptr idb.len xb.ptr xb.len yb.ptr yb.len l.zb
  match ← call derived with
  | none => return (0, out)
  | some d => return (1, ← finish sm3 role m.key za zb d keylen out)

def sm2KeyagreementA (m : Mallocs) (kxa kya xa ya privateA xb yb ida idb kxb kyb privateATmp : Arg)
    (keylen : UInt32) (l : Locals) (out : KeyOut) : Option (ℤ × KeyOut) :=
  keyagreement sm3 (initiator sm3) m ida xa ya idb xb yb
    (derive kxa kya privateA (fun _ => privateATmp.toBig 0) kxb kyb xb yb l) keylen l out

def sm2KeyagreementB (m : Mallocs) (kxb kyb xb yb privateB xa ya idb ida kxa kya privateBTmp : Arg)
    (keylen : UInt32) (l : Locals) (out : KeyOut) : Option (ℤ × KeyOut) :=
  keyagreement sm3 (responder sm3) m ida xa ya idb xb yb
    (derive kxb kyb privateB (fun _ => privateBTmp.toBig 0) kxa kya xa ya l) keylen l out

end

/-! The staged routines. -/

structure Aes where
  encrypt : Vector UInt8 16 → Vector UInt8 16
  decrypt : Vector UInt8 16 → Vector UInt8 16
  decrypt_encrypt : ∀ block, decrypt (encrypt block) = block

def cryptBlocks (f : Vector UInt8 16 → Vector UInt8 16) : (count : ℕ) → Bytes → Option Bytes
  | 0, r => some r
  | count + 1, r =>
    if room : 16 ≤ r.length then do
      let rest ← cryptBlocks f count (r.drop 16)
      return (f ⟨(r.take 16).toArray, by simp [room]⟩).toList ++ rest
    else none

/-- The passes of `for (i = 0; i < rlen; i += 16)`. -/
def blockCount (rlen : ℤ) : ℕ := ((rlen + 15) / 16).toNat

/-- The loop over `i`, an `int` that is still raised after the last block. -/
def cryptLoop (f : Vector UInt8 16 → Vector UInt8 16) (r : Bytes) (rlen : ℤ) : Option Bytes :=
  if 16 * blockCount rlen < 2 ^ 31 then cryptBlocks f (blockCount rlen) r else none

section
variable (sm3 : Bytes → Octets) (aes : Aes)

def enrand (r : Bytes) (rlen : ℤ) : Option Bytes := cryptLoop aes.encrypt r rlen

def derand (r : Bytes) (rlen : ℤ) : Option Bytes := cryptLoop aes.decrypt r rlen

/-- `do bigrand(n, k) while (k->len == 0)`. -/
def drawScalar : (draws : List ℕ) → (k : ℕ) → Miracl ℕ
  | [], _ => fun _ => none
  | raw :: draws, k => do
    let k ← bigrand raw n k
    if k = 0 then drawScalar draws k else return k

structure OutA13 where
  kx1 : Octets
  kx1len : ℤ
  ky1 : Octets
  ky1len : ℤ
  ra : Bytes
  ralen : ℤ

def sm2KeyagreementA13 (draws : List ℕ) (kx1 ky1 ra : Octets) : Option OutA13 := call do
  let (_, g) ← epointSet gx gy epointInit
  let k ← drawScalar draws 0
  let g ← ecurveMult k g g
  let (x1, y1) ← epointGet g 0 0
  let (kx1len, kx1) ← bigToBytes x1 kx1
  let (ky1len, ky1) ← bigToBytes y1 ky1
  let (ralen, ra) ← bigToBytes k ra
  let ra ← enrand aes ra.toList ralen
  return ⟨kx1, kx1len, ky1, ky1len, ra, ralen⟩

/-- The scalar that `ra` hides, decrypted in `buf`. -/
def hiddenScalar (ra : Arg) (l : Locals) (own : Ephemeral) : Miracl ℕ := do
  let buf : Bytes := truncated own.kxbuf ++ l.buf.toList.drop 16
  let buf ← buf.write 0 (← ra.ptr.read (sizeT ra.len))
  let buf ← derand aes buf ra.len
  bytesToBig ra.len buf 0

def sm2KeyagreementA410 (m : Mallocs) (kx1 ky1 pax pay privateA pbx pby ida idb kx2 ky2 ra : Arg)
    (kalen : UInt32) (l : Locals) (out : KeyOut) : Option (ℤ × KeyOut) :=
  keyagreement sm3 (initiator sm3) m ida pax pay idb pbx pby
    (derive kx1 ky1 privateA (hiddenScalar aes ra l) kx2 ky2 pbx pby l) kalen l out

structure OutB19 where
  kbbuf : Bytes
  kx2 : Octets
  kx2len : ℤ
  ky2 : Octets
  ky2len : ℤ
  xv : Option Bytes
  xvlen : ℤ
  yv : Option Bytes
  yvlen : ℤ
  sb : Option Octets

structure LocalsB19 extends Locals where
  paxbuf : Octets
  paybuf : Octets

/-- The own ephemeral key of `sm2_keyagreement_b1_9`, with the scalar. -/
def drawEphemeral (draws : List ℕ) (l : Locals) : Miracl (ℕ × Ephemeral) := do
  let (_, g) ← epointSet gx gy epointInit
  let k ← drawScalar draws 0
  let g ← ecurveMult k g g
  let (x2, y2) ← epointGet g 0 0
  let (_, kx2buf) ← bigToBytes x2 l.kx2buf
  let (_, ky2buf) ← bigToBytes y2 l.ky2buf
  let xbar ← bytesToBig 16 (truncated kx2buf) 0
  return (k, ⟨kx2buf, ky2buf, xbar, g⟩)

/-- The rest of the routine up to the key derivation. The peer's static coordinates are
copied out before they are tested. -/
def deriveB19 (k : ℕ) (own : Ephemeral) (privateB kx1 ky1 pax pay : Arg) (l : LocalsB19) : Miracl (Option Derived) := do
  let db ← privateB.toBig 0
  let tb ← mad own.xbar k (some db) n 0
  match ← readEphemeral kx1 ky1 l.kx1buf l.ky1buf own.point with
  | none => return none
  | some peer =>
    let x ← pax.toBig gx
    let y ← pay.toBig gy
    let _ ← bigToBytes x l.paxbuf
    let _ ← bigToBytes y l.paybuf
    let (valid, w) ← epointSet x y epointInit
    if valid = false then return none else
    match ← sharedPoint peer.xbar tb peer.point w x y l.xubuf l.yubuf with
    | none => return none
    | some (xvbuf, yvbuf) => return some ⟨peer.kxbuf, peer.kybuf, own.kxbuf, own.kybuf, xvbuf, yvbuf⟩

/-- An optional output array of 32 encrypted octets and its length. -/
def putEncrypted (source : Octets) (out : Option Bytes) (len : ℤ) : Option (Option Bytes × ℤ) :=
  match out with
  | none => some (none, len)
  | some bytes => do
    let bytes ← bytes.write 0 source.toList
    return (some (← enrand aes bytes 32), 32)

def finishB19 (malloc : Malloc) (za zb : Octets) (d : Derived) (kblen : UInt32) (out : OutB19) : Option OutB19 := do
  let (_, kbbuf) ← kdfKey sm3 malloc (keyInput d.xubuf d.yubuf za zb) 128 (asInt kblen) out.kbbuf
  let hash := confirmation sm3 d.xubuf za zb d.kx1buf d.ky1buf d.kx2buf d.ky2buf
  let sb := out.sb.map fun _ => tagged sm3 0x02 d.yubuf hash
  let (xv, xvlen) ← putEncrypted aes d.xubuf out.xv out.xvlen
  let (yv, yvlen) ← putEncrypted aes d.yubuf out.yv out.yvlen
  return { out with kbbuf, sb, xv, xvlen, yv, yvlen }

def sm2KeyagreementB19 (m : Mallocs) (draws : List ℕ) (kx1 ky1 pax pay privateB pbx pby ida idb : Arg)
    (kblen : UInt32) (l : LocalsB19) (out : OutB19) : Option (ℤ × OutB19) := do
  let (_, za) ← sm3Z sm3 m.za ida.ptr ida.len pax.ptr pax.len pay.ptr pay.len l.za
  let (_, zb) ← sm3Z sm3 m.zb idb.ptr idb.len pbx.ptr pbx.len pby.ptr pby.len l.zb
  let (own, derived) ← call do
    let (k, own) ← drawEphemeral draws l.toLocals
    let derived ← deriveB19 k own privateB kx1 ky1 pax pay l
    return (own, derived)
  -- written before the first test
  let out := { out with kx2 := own.kxbuf, ky2 := own.kybuf, kx2len := 32, ky2len := 32 }
  match derived with
  | none => return (0, out)
  | some d => return (1, ← finishB19 sm3 aes m.key za zb d kblen out)

end

/-! The caller. Coordinates are the last 32 of 64 octets. -/

structure ECCrefPublicKey where
  bits : UInt32
  x : Vector UInt8 64
  y : Vector UInt8 64

structure ECCrefPrivateKey where
  bits : UInt32
  D : Vector UInt8 64

theorem octets_int : -2 ^ 31 ≤ (32 : ℤ) ∧ (32 : ℤ) < 2 ^ 31 := by decide

/-- `field + 32` with the length 32. -/
def lastOctets (field : Vector UInt8 64) : Arg := ⟨field.toList.drop 32, 32, by simp, octets_int, by simp⟩

structure IdArg where
  ptr : Bytes
  len : UInt32
  readable : len.toNat ≤ ptr.length
  object : ptr.length < 2 ^ 63

def IdArg.toArg (id : IdArg) : Arg where
  ptr := id.ptr
  len := asInt id.len
  readable := by
    have readable := id.readable
    unfold asInt
    split <;> omega
  int := by
    have bound := id.len.toNat_lt
    unfold asInt
    split <;> omega
  object := id.object

def zaykKeyAgreementECC (sm3 : Bytes → Octets) (m : Mallocs) (uiFlag : UInt32)
    (pstSM2PriKeyThis pstSM2PriKeyTmpThis : ECCrefPrivateKey)
    (pstSM2PubKeyThis pstSM2PubKeyTmpThis pstSM2PubKeyThat pstSM2PubKeyTmpThat : ECCrefPublicKey)
    (pucIDThis pucIDThat : IdArg) (uiKeyLen : UInt32) (l : Locals) (pucKey : Bytes) : Option (ℤ × Bytes) := do
  let (ret, key) ←
    if uiFlag = 1 then
      (sm2KeyagreementA sm3 m (lastOctets pstSM2PubKeyTmpThis.x) (lastOctets pstSM2PubKeyTmpThis.y)
        (lastOctets pstSM2PubKeyThis.x) (lastOctets pstSM2PubKeyThis.y) (lastOctets pstSM2PriKeyThis.D)
        (lastOctets pstSM2PubKeyThat.x) (lastOctets pstSM2PubKeyThat.y) pucIDThis.toArg pucIDThat.toArg
        (lastOctets pstSM2PubKeyTmpThat.x) (lastOctets pstSM2PubKeyTmpThat.y) (lastOctets pstSM2PriKeyTmpThis.D)
        uiKeyLen l ⟨pucKey, none, none⟩).map fun result => (result.1, result.2.keybuf)
    else
      (sm2KeyagreementB sm3 m (lastOctets pstSM2PubKeyTmpThis.x) (lastOctets pstSM2PubKeyTmpThis.y)
        (lastOctets pstSM2PubKeyThis.x) (lastOctets pstSM2PubKeyThis.y) (lastOctets pstSM2PriKeyThis.D)
        (lastOctets pstSM2PubKeyThat.x) (lastOctets pstSM2PubKeyThat.y) pucIDThis.toArg pucIDThat.toArg
        (lastOctets pstSM2PubKeyTmpThat.x) (lastOctets pstSM2PubKeyTmpThat.y) (lastOctets pstSM2PriKeyTmpThis.D)
        uiKeyLen l ⟨pucKey, none, none⟩).map fun result => (result.1, result.2.keybuf)
  return (if ret ≠ 1 then -1 else 0, key)

end MyTools.Sm2
