import MyTools.Sm2.Derivation
import MyTools.Sm3.Digest
import Mathlib.Data.UInt

/-! Two parties that follow the protocol. Both sides compute one point and hash the
same strings, in the roles of the initiator and of the responder. -/
namespace MyTools.Sm2
open Library MyTools.Sm2.Miracl

def Octets.toArg (bytes : Octets) : Arg := ⟨bytes.toList, 32, by simp, octets_int, by simp⟩

@[simp] theorem Octets.toArg_number (bytes : Octets) : bytes.toArg.number = pure bytes.value := bigOf_octets bytes

def Identity.toArg (id : Identity) : Arg :=
  have fits := id.fits
  ⟨id.bytes, id.bytes.length, le_rfl, by omega, by omega⟩

theorem xOctets_value (pt : Point) : (xOctets pt).value = abscissa pt := octets_value ((abscissa_lt pt).trans p_lt)
theorem yOctets_value (pt : Point) : (yOctets pt).value = ordinate pt := octets_value ((ordinate_lt pt).trans p_lt)

def Ephemeral.ofPoint (pt : Point) : Ephemeral := ⟨xOctets pt, yOctets pt, xbarOf (xOctets pt), pt⟩

theorem ephemeralOf_point {pt : Point} (nonzero : NonzeroCoordinates pt) (kxbuf kybuf : Octets) :
    ephemeralOf (xOctets pt).toArg (yOctets pt).toArg kxbuf kybuf = pure (Ephemeral.ofPoint pt) := by
  have fit : abscissa pt < 2 ^ 256 ∧ ordinate pt < 2 ^ 256 :=
    ⟨(abscissa_lt pt).trans p_lt, (ordinate_lt pt).trans p_lt⟩
  simp only [ephemeralOf, Octets.toArg_number, xOctets_value, yOctets_value, pure_bind,
    pointOf_coordinates nonzero.finite, checked_some, if_pos fit, filled, if_neg nonzero.abscissa_ne, if_neg nonzero.ordinate_ne]
  rfl

/-- A party with its keys; no coordinate of its points is zero. -/
structure Party where
  static : PrivateKey
  ephemeral : PrivateKey
  id : Identity
  static_nonzero : NonzeroCoordinates static.publicKey
  ephemeral_nonzero : NonzeroCoordinates ephemeral.publicKey

namespace Party

def x (party : Party) : Arg := (xOctets party.static.publicKey).toArg
def y (party : Party) : Arg := (yOctets party.static.publicKey).toArg
def kx (party : Party) : Arg := (xOctets party.ephemeral.publicKey).toArg
def ky (party : Party) : Arg := (yOctets party.ephemeral.publicKey).toArg
def privateKey (party : Party) : Arg := (octets party.static.d).toArg
def privateTmp (party : Party) : Arg := (octets party.ephemeral.d).toArg

def own (party : Party) : Ephemeral := Ephemeral.ofPoint party.ephemeral.publicKey

def scalar (party : Party) : ℕ := (party.own.xbar * party.ephemeral.d + party.static.d) % n

def shared (self peer : Party) : Point :=
  self.scalar • (peer.static.publicKey + peer.own.xbar • peer.ephemeral.publicKey)

theorem scalar_cast (party : Party) :
    (party.scalar : ZMod n) = party.own.xbar * party.ephemeral.d + party.static.d := by
  rw [scalar, ZMod.natCast_mod, Nat.cast_add, Nat.cast_mul]

theorem shared_comm (self peer : Party) : self.shared peer = peer.shared self :=
  Exchange.agreement n_nsmul_base self.scalar_cast peer.scalar_cast

@[simp] theorem privateKey_number (party : Party) : party.privateKey.number = pure party.static.d := by
  rw [privateKey, Octets.toArg_number, octets_value (party.static.small.trans n_lt)]

@[simp] theorem privateTmp_number (party : Party) : party.privateTmp.number = pure party.ephemeral.d := by
  rw [privateTmp, Octets.toArg_number, octets_value (party.ephemeral.small.trans n_lt)]

theorem agreedOf_eq (self peer : Party) (number : Ephemeral → OptionT Option ℕ)
    (scalar : number self.own = pure self.ephemeral.d) (l : Locals) :
    agreedOf self.kx self.ky self.privateKey number peer.kx peer.ky peer.x peer.y l =
      if self.shared peer = 0 then failure else pure ⟨self.own, peer.own, self.shared peer⟩ := by
  have own := ephemeralOf_point self.ephemeral_nonzero l.kx1buf l.ky1buf
  have other := ephemeralOf_point peer.ephemeral_nonzero l.kx2buf l.ky2buf
  have w := pointOf_coordinates peer.static_nonzero.finite
  have x : peer.x.number = pure (abscissa peer.static.publicKey) := by rw [Party.x, Octets.toArg_number, xOctets_value]
  have y : peer.y.number = pure (ordinate peer.static.publicKey) := by rw [Party.y, Octets.toArg_number, yOctets_value]
  rw [Party.own] at scalar
  simp only [agreedOf, kx, ky, own, other, privateKey_number, scalar, x, y, w, checked_some, pure_bind]
  rfl

/-- What the local arrays hold when the point is agreed on. -/
def derived (self peer : Party) : Derived where
  kx1buf := xOctets self.ephemeral.publicKey
  ky1buf := yOctets self.ephemeral.publicKey
  kx2buf := xOctets peer.ephemeral.publicKey
  ky2buf := yOctets peer.ephemeral.publicKey
  xubuf := xOctets (self.shared peer)
  yubuf := yOctets (self.shared peer)

theorem derived_eq (self peer : Party) (met : NonzeroCoordinates (self.shared peer)) (l : Locals) :
    Agreed.derived l ⟨self.own, peer.own, self.shared peer⟩ = self.derived peer := by
  simp only [Agreed.derived, filled, if_neg met.abscissa_ne, if_neg met.ordinate_ne]
  rfl

end Party

/-! The key derivation. -/

theorem asInt_of_lt {value : UInt32} (short : value.toNat < 2 ^ 31) : asInt value = value.toNat := if_pos short

theorem asInt_of_le {value : UInt32} (long : 2 ^ 31 ≤ value.toNat) : asInt value < 0 := by
  have bound := value.toNat_lt
  rw [asInt, if_neg (Nat.not_lt.mpr long)]
  omega

section
variable (sm3 : Bytes → Octets)

@[simp] theorem length_keyInput (xubuf yubuf za zb : Octets) : (keyInput xubuf yubuf za zb).length = 128 := by
  simp [keyInput]

theorem kdfKey_run (blocks : (size : ℕ) → Vector UInt8 size) (xubuf yubuf za zb : Octets) {keylen : UInt32}
    (short : keylen.toNat < 2 ^ 31) {keybuf : Bytes} (room : keylen.toNat ≤ keybuf.length) :
    kdfKey sm3 (granted blocks) (keyInput xubuf yubuf za zb) 128 (asInt keylen) keybuf =
      some (1, kdfStream sm3 (keyInput xubuf yubuf za zb) keylen.toNat ++ keybuf.drop keylen.toNat) := by
  have whole : (keyInput xubuf yubuf za zb).read (sizeT 128) = some (keyInput xubuf yubuf za zb) := by
    rw [show sizeT 128 = (keyInput xubuf yubuf za zb).length by rw [length_keyInput]; rfl, Bytes.read_length]
  simp only [kdfKey, granted, whole, asInt_of_lt short, kdfFill_run sm3 _ keybuf room, Option.bind_eq_bind,
    Option.bind_some]
  rfl

theorem kdfFill_negative {z : Bytes} {klen : ℤ} (negative : klen < 0) {kbuf result : Bytes}
    (ok : kdfFill sm3 z klen kbuf = some result) : result = kbuf := by
  obtain ⟨size, rfl⟩ := Int.exists_eq_neg_ofNat negative.le
  have quotient : (-(size : ℤ)).tdiv 32 = -((size / 32 : ℕ) : ℤ) := by
    rw [Int.neg_tdiv, Int.tdiv_eq_ediv_of_nonneg (Int.natCast_nonneg size)]
    rfl
  have remainder : (-(size : ℤ)).tmod 32 = -((size % 32 : ℕ) : ℤ) := by
    rw [Int.neg_tmod, Int.tmod_eq_emod_of_nonneg (Int.natCast_nonneg size)]
    rfl
  have none_of_blocks : (-((size / 32 : ℕ) : ℤ)).toNat = 0 := by omega
  simp only [kdfFill, quotient, remainder, none_of_blocks, kdfBlocks, Option.bind_eq_bind, Option.bind_some] at ok
  obtain ⟨tail, read, written⟩ := Option.bind_eq_some_iff.mp ok
  obtain ⟨inside, -, tail_length⟩ := Bytes.read_eq_some read
  have zero : -((size % 32 : ℕ) : ℤ) = 0 := by
    by_contra nonzero
    rw [if_pos nonzero, length_kdfBlock] at inside
    unfold sizeT at inside
    omega
  have empty : tail = [] := by
    rw [zero] at tail_length
    exact List.eq_nil_of_length_eq_zero tail_length
  subst empty
  rw [Bytes.write, if_pos (by simp)] at written
  simpa using written.symm

theorem kdfKey_negative {malloc : Malloc} {z : Bytes} {zlen klen ret : ℤ} (negative : klen < 0) {kbuf result : Bytes}
    (ok : kdfKey sm3 malloc z zlen klen kbuf = some (ret, result)) : result = kbuf := by
  unfold kdfKey at ok
  split at ok
  · cases ok
    rfl
  · obtain ⟨z, -, ok⟩ := Option.bind_eq_some_iff.mp ok
    obtain ⟨filled, written, same⟩ := Option.bind_eq_some_iff.mp ok
    cases same
    exact kdfFill_negative sm3 negative written

/-- The outputs that hold `keylen` octets of the key stream. -/
def keyOut (role : Role) (za zb : Octets) (d : Derived) (keylen : UInt32) (out : KeyOut) : KeyOut where
  keybuf := kdfStream sm3 (keyInput d.xubuf d.yubuf za zb) keylen.toNat ++ out.keybuf.drop keylen.toNat
  expected := out.expected.map fun _ => tagged sm3 role.expected d.yubuf (role.hash d za zb)
  sent := out.sent.map fun _ => tagged sm3 role.sent d.yubuf (role.hash d za zb)

section
variable {sm3 : Bytes → Octets} {role : Role} {za zb : Octets} {d : Derived} {keylen : UInt32} {out : KeyOut} {hash : Octets}

@[simp] theorem keyOut_keybuf_take : (keyOut sm3 role za zb d keylen out).keybuf.take keylen.toNat =
    kdfStream sm3 (keyInput d.xubuf d.yubuf za zb) keylen.toNat := by simp [keyOut]

theorem eq_of_mem_expected (expected : hash ∈ (keyOut sm3 role za zb d keylen out).expected) :
    hash = tagged sm3 role.expected d.yubuf (role.hash d za zb) := by
  simp only [keyOut, Option.mem_map] at expected
  obtain ⟨-, -, rfl⟩ := expected
  rfl

theorem eq_of_mem_sent (sent : hash ∈ (keyOut sm3 role za zb d keylen out).sent) :
    hash = tagged sm3 role.sent d.yubuf (role.hash d za zb) := by
  simp only [keyOut, Option.mem_map] at sent
  obtain ⟨-, -, rfl⟩ := sent
  rfl

end

theorem finish_run (role : Role) (blocks : (size : ℕ) → Vector UInt8 size) (za zb : Octets) (d : Derived)
    {keylen : UInt32} (short : keylen.toNat < 2 ^ 31) {out : KeyOut} (room : keylen.toNat ≤ out.keybuf.length) :
    finish sm3 role (granted blocks) za zb d keylen out = some (keyOut sm3 role za zb d keylen out) := by
  simp only [finish, kdfKey_run sm3 blocks _ _ _ _ short room, Option.bind_eq_bind, Option.bind_some]
  rfl

theorem finish_negative {role : Role} {malloc : Malloc} {za zb : Octets} {d : Derived} {keylen : UInt32}
    (long : 2 ^ 31 ≤ keylen.toNat) {out result : KeyOut}
    (ok : finish sm3 role malloc za zb d keylen out = some result) : result.keybuf = out.keybuf := by
  obtain ⟨⟨ret, keybuf⟩, derived, same⟩ := Option.bind_eq_some_iff.mp ok
  cases same
  exact kdfKey_negative sm3 (asInt_of_le long) derived

theorem keyagreement_run {role : Role} {m : Mallocs} {ida xa ya idb xb yb : Arg} {l : Locals} {ra rb : ℤ}
    {za zb : Octets} (za_run : sm3Z sm3 m.za ida.ptr ida.len xa.ptr xa.len ya.ptr ya.len l.za = some (ra, za))
    (zb_run : sm3Z sm3 m.zb idb.ptr idb.len xb.ptr xb.len yb.ptr yb.len l.zb = some (rb, zb))
    {routine : Miracl (Option Derived)} {derived : Option Derived} (run : call routine = some derived)
    (keylen : UInt32) (out : KeyOut) :
    keyagreement sm3 role m ida xa ya idb xb yb routine keylen l out =
      derived.elim (some (0, out)) fun d => (finish sm3 role m.key za zb d keylen out).map (1, ·) := by
  simp only [keyagreement, za_run, zb_run, run, Option.bind_eq_bind, Option.bind_some]
  cases derived with
  | none => rfl
  | some d =>
    simp only [Option.elim_some]
    cases finish sm3 role m.key za zb d keylen out <;> rfl

end

/-- What a call finds in its local arrays and in the blocks that it allocates. -/
structure Memory where
  locals : Locals
  za : (size : ℕ) → Vector UInt8 size
  zb : (size : ℕ) → Vector UInt8 size
  key : (size : ℕ) → Vector UInt8 size

def Memory.mallocs (memory : Memory) : Mallocs := ⟨granted memory.za, granted memory.zb, granted memory.key⟩

def Locals.zero : Locals :=
  let zeros : Octets := octets 0
  ⟨zeros, zeros, zeros, zeros, zeros, zeros, zeros, zeros, Vector.replicate 256 0⟩

def Memory.zero : Memory :=
  let blocks : (size : ℕ) → Vector UInt8 size := fun size => Vector.replicate size 0
  ⟨Locals.zero, blocks, blocks, blocks⟩

/-- The upper halves of the coordinates, which are not read. -/
structure Padding where
  bits : UInt32
  x : Octets
  y : Octets

def Padding.publicKey (padding : Padding) (pt : Point) : ECCrefPublicKey :=
  ⟨padding.bits, padding.x ++ xOctets pt, padding.y ++ yOctets pt⟩

def Padding.privateKey (padding : Padding) (d : ℕ) : ECCrefPrivateKey := ⟨padding.bits, padding.x ++ octets d⟩

theorem lastOctets_append (high low : Octets) : lastOctets (high ++ low) = low.toArg := by
  have whole : Vector.toList (high ++ low) = high.toList ++ low.toList := Vector.toList_append
  have half : (Vector.toList (high ++ low)).drop 32 = low.toList := by rw [whole, List.drop_left' (by simp)]
  simp only [lastOctets, Octets.toArg, half]

/-- The paddings of the six keys that `Zayk_KeyAgreement_ECC` is given. -/
structure Paddings where
  priThis : Padding
  priTmpThis : Padding
  pubThis : Padding
  pubTmpThis : Padding
  pubThat : Padding
  pubTmpThat : Padding

def Identity.toIdArg (id : Identity) : IdArg where
  ptr := id.bytes
  len := UInt32.ofNat id.bytes.length
  readable := by
    have fits := id.fits
    rw [UInt32.toNat_ofNat_of_lt' (by change _ < 2 ^ 32; omega)]
  object := by
    have fits := id.fits
    omega

theorem Identity.toIdArg_toArg (id : Identity) : id.toIdArg.toArg = id.toArg := by
  have fits := id.fits
  have len : (UInt32.ofNat id.bytes.length).toNat = id.bytes.length :=
    UInt32.toNat_ofNat_of_lt' (by change _ < 2 ^ 32; omega)
  simp only [Identity.toIdArg, IdArg.toArg, Identity.toArg]
  congr 1
  rw [asInt_of_lt (by omega), len]

structure Session where
  a : Party
  b : Party
  met : a.shared b ≠ 0 → NonzeroCoordinates (a.shared b)

namespace Session
variable (s : Session)

def point : Point := s.a.shared s.b

theorem point_eq : s.b.shared s.a = s.point := s.b.shared_comm s.a

/-- Identities for which the size of the buffer in `sm3_z` is an `int`. -/
def IdsFit : Prop := s.a.id.bytes.length + 194 < 2 ^ 31 ∧ s.b.id.bytes.length + 194 < 2 ^ 31

section
variable (sm3 : Bytes → Octets)

def za : Octets := sm3 (zMessage s.a.id (xOctets s.a.static.publicKey) (yOctets s.a.static.publicKey))
def zb : Octets := sm3 (zMessage s.b.id (xOctets s.b.static.publicKey) (yOctets s.b.static.publicKey))

theorem za_run (memory : Memory) (z : Octets) :
    sm3Z sm3 memory.mallocs.za s.a.id.toArg.ptr s.a.id.toArg.len s.a.x.ptr s.a.x.len s.a.y.ptr s.a.y.len z =
      if s.a.id.bytes.length + 194 < 2 ^ 31 then some (0, s.za sm3) else none := sm3Z_run sm3 memory.za s.a.id _ _ z

theorem zb_run (memory : Memory) (z : Octets) :
    sm3Z sm3 memory.mallocs.zb s.b.id.toArg.ptr s.b.id.toArg.len s.b.x.ptr s.b.x.len s.b.y.ptr s.b.y.len z =
      if s.b.id.bytes.length + 194 < 2 ^ 31 then some (0, s.zb sm3) else none := sm3Z_run sm3 memory.zb s.b.id _ _ z

theorem zs_run (fit : s.IdsFit) (memory : Memory) (z z' : Octets) :
    sm3Z sm3 memory.mallocs.za s.a.id.toArg.ptr s.a.id.toArg.len s.a.x.ptr s.a.x.len s.a.y.ptr s.a.y.len z =
      some (0, s.za sm3) ∧
    sm3Z sm3 memory.mallocs.zb s.b.id.toArg.ptr s.b.id.toArg.len s.b.x.ptr s.b.x.len s.b.y.ptr s.b.y.len z' =
      some (0, s.zb sm3) := ⟨by rw [za_run, if_pos fit.1], by rw [zb_run, if_pos fit.2]⟩

theorem keyagreement_overflow (long : ¬ s.IdsFit) (role : Role) (memory : Memory) (routine : Miracl (Option Derived))
    (keylen : UInt32) (l : Locals) (out : KeyOut) :
    keyagreement sm3 role memory.mallocs s.a.id.toArg s.a.x s.a.y s.b.id.toArg s.b.x s.b.y routine keylen l out = none := by
  rw [keyagreement, za_run, zb_run]
  by_cases first : s.a.id.bytes.length + 194 < 2 ^ 31
  · rw [if_pos first, if_neg fun second => long ⟨first, second⟩]
    rfl
  · rw [if_neg first]
    rfl

def routineA (memory : Memory) (keylen : UInt32) (out : KeyOut) : Option (ℤ × KeyOut) :=
  sm2KeyagreementA sm3 memory.mallocs s.a.kx s.a.ky s.a.x s.a.y s.a.privateKey s.b.x s.b.y s.a.id.toArg s.b.id.toArg
    s.b.kx s.b.ky s.a.privateTmp keylen memory.locals out

def routineB (memory : Memory) (keylen : UInt32) (out : KeyOut) : Option (ℤ × KeyOut) :=
  sm2KeyagreementB sm3 memory.mallocs s.b.kx s.b.ky s.b.x s.b.y s.b.privateKey s.a.x s.a.y s.b.id.toArg s.a.id.toArg
    s.a.kx s.a.ky s.b.privateTmp keylen memory.locals out

theorem initiator_run {scalar : Ephemeral → Miracl ℕ} {number : Ephemeral → OptionT Option ℕ}
    (reads : ∀ own, Reads (scalar own) (number own)) (known : number s.a.own = pure s.a.ephemeral.d) (fit : s.IdsFit)
    (memory : Memory) (keylen : UInt32) (out : KeyOut) :
    keyagreement sm3 (initiator sm3) memory.mallocs s.a.id.toArg s.a.x s.a.y s.b.id.toArg s.b.x s.b.y
        (derive s.a.kx s.a.ky s.a.privateKey scalar s.b.kx s.b.ky s.b.x s.b.y memory.locals) keylen memory.locals out =
      if s.point = 0 then some (0, out) else
        (finish sm3 (initiator sm3) (granted memory.key) (s.za sm3) (s.zb sm3) (s.a.derived s.b) keylen out).map (1, ·) := by
  have run := derive_run reads s.a.kx s.a.ky s.a.privateKey s.b.kx s.b.ky s.b.x s.b.y memory.locals
  obtain ⟨za_run, zb_run⟩ := s.zs_run sm3 fit memory memory.locals.za memory.locals.zb
  rw [s.a.agreedOf_eq s.b number known] at run
  by_cases infinity : s.a.shared s.b = 0
  · rw [if_pos infinity] at run
    rw [keyagreement_run sm3 za_run zb_run run, point, if_pos infinity]
    rfl
  · rw [if_neg infinity] at run
    rw [keyagreement_run sm3 za_run zb_run run, point, if_neg infinity, ← s.a.derived_eq s.b (s.met infinity) memory.locals]
    rfl

theorem routineA_run (fit : s.IdsFit) (memory : Memory) (keylen : UInt32) (out : KeyOut) :
    s.routineA sm3 memory keylen out = if s.point = 0 then some (0, out) else
      (finish sm3 (initiator sm3) (granted memory.key) (s.za sm3) (s.zb sm3) (s.a.derived s.b) keylen out).map (1, ·) :=
  s.initiator_run sm3 (fun _ => s.a.privateTmp.reads 0) s.a.privateTmp_number fit memory keylen out

theorem routineB_run (fit : s.IdsFit) (memory : Memory) (keylen : UInt32) (out : KeyOut) :
    s.routineB sm3 memory keylen out = if s.point = 0 then some (0, out) else
      (finish sm3 (responder sm3) (granted memory.key) (s.za sm3) (s.zb sm3) (s.b.derived s.a) keylen out).map (1, ·) := by
  have run := derive_run (fun _ => s.b.privateTmp.reads 0) s.b.kx s.b.ky s.b.privateKey s.a.kx s.a.ky s.a.x s.a.y
    memory.locals
  obtain ⟨za_run, zb_run⟩ := s.zs_run sm3 fit memory memory.locals.za memory.locals.zb
  rw [s.b.agreedOf_eq s.a (fun _ => s.b.privateTmp.number) s.b.privateTmp_number] at run
  by_cases infinity : s.b.shared s.a = 0
  · rw [if_pos infinity] at run
    rw [routineB, sm2KeyagreementB, keyagreement_run sm3 za_run zb_run run, ← point_eq, if_pos infinity]
    rfl
  · have met : NonzeroCoordinates (s.b.shared s.a) := by
      rw [s.b.shared_comm] at infinity ⊢
      exact s.met infinity
    rw [if_neg infinity] at run
    rw [routineB, sm2KeyagreementB, keyagreement_run sm3 za_run zb_run run, ← point_eq, if_neg infinity,
      ← s.b.derived_eq s.a met memory.locals]
    rfl

theorem hash_eq : (responder sm3).hash (s.b.derived s.a) = (initiator sm3).hash (s.a.derived s.b) := by
  simp only [initiator, responder, Party.derived, s.b.shared_comm s.a]

/-- Both runs return 0, or both return 1 with one key and with the confirmations that
the other side expects. -/
def Agree (keylen : UInt32) (a b : ℤ × KeyOut) : Prop :=
  (a.1 = 0 ∧ b.1 = 0) ∨ (a.1 = 1 ∧ b.1 = 1 ∧ a.2.keybuf.take keylen.toNat = b.2.keybuf.take keylen.toNat ∧
    (∀ s1 ∈ a.2.expected, ∀ sb ∈ b.2.sent, s1 = sb) ∧ ∀ sa ∈ a.2.sent, ∀ s2 ∈ b.2.expected, sa = s2)

theorem keyOut_agree (keylen : UInt32) (outA outB : KeyOut) :
    Agree keylen (1, keyOut sm3 (initiator sm3) (s.za sm3) (s.zb sm3) (s.a.derived s.b) keylen outA)
      (1, keyOut sm3 (responder sm3) (s.za sm3) (s.zb sm3) (s.b.derived s.a) keylen outB) := by
  have hash := s.hash_eq sm3
  have yubuf : (s.b.derived s.a).yubuf = (s.a.derived s.b).yubuf := by simp only [Party.derived, s.b.shared_comm s.a]
  have xubuf : (s.b.derived s.a).xubuf = (s.a.derived s.b).xubuf := by simp only [Party.derived, s.b.shared_comm s.a]
  refine .inr ⟨rfl, rfl, ?_, ?_, ?_⟩
  · rw [keyOut_keybuf_take, keyOut_keybuf_take, xubuf, yubuf]
  · intro s1 expected sb sent
    rw [eq_of_mem_expected expected, eq_of_mem_sent sent, hash, yubuf]
    rfl
  · intro sa sent s2 expected
    rw [eq_of_mem_expected expected, eq_of_mem_sent sent, hash, yubuf]
    rfl

/-- The routines agree, whatever the memory and the output arrays hold. -/
def Agrees (keylen : UInt32) : Prop :=
  ∀ (memoryA memoryB : Memory) (outA outB : KeyOut), keylen.toNat ≤ outA.keybuf.length →
    keylen.toNat ≤ outB.keybuf.length →
    ∃ a ∈ s.routineA sm3 memoryA keylen outA, ∃ b ∈ s.routineB sm3 memoryB keylen outB, Agree keylen a b

theorem agrees_of_short {keylen : UInt32} (fit : s.IdsFit) (short : s.point = 0 ∨ keylen.toNat < 2 ^ 31) : s.Agrees sm3 keylen := by
  intro memoryA memoryB outA outB roomA roomB
  by_cases infinity : s.point = 0
  · refine ⟨(0, outA), ?_, (0, outB), ?_, .inl ⟨rfl, rfl⟩⟩
    · rw [s.routineA_run sm3 fit, if_pos infinity]
      rfl
    · rw [s.routineB_run sm3 fit, if_pos infinity]
      rfl
  · have short := short.resolve_left infinity
    refine ⟨_, ?_, _, ?_, s.keyOut_agree sm3 keylen outA outB⟩
    · rw [s.routineA_run sm3 fit, if_neg infinity, finish_run sm3 _ _ _ _ _ short roomA]
      rfl
    · rw [s.routineB_run sm3 fit, if_neg infinity, finish_run sm3 _ _ _ _ _ short roomB]
      rfl

theorem idsFit_of_agrees {keylen : UInt32} (agrees : s.Agrees sm3 keylen) : s.IdsFit := by
  by_contra long
  let old : KeyOut := ⟨List.replicate keylen.toNat 0, none, none⟩
  obtain ⟨a, a_run, -⟩ := agrees Memory.zero Memory.zero old old (by simp [old]) (by simp [old])
  rw [routineA, sm2KeyagreementA, s.keyagreement_overflow sm3 long] at a_run
  cases a_run

theorem not_agrees_of_long {keylen : UInt32} (finite : s.point ≠ 0) (long : 2 ^ 31 ≤ keylen.toNat) :
    ¬ s.Agrees sm3 keylen := by
  intro agrees
  have fit := s.idsFit_of_agrees sm3 agrees
  obtain ⟨a, a_run, b, b_run, same⟩ := agrees Memory.zero Memory.zero ⟨List.replicate keylen.toNat 0, none, none⟩
    ⟨List.replicate keylen.toNat 1, none, none⟩ (by simp) (by simp)
  rw [s.routineA_run sm3 fit, if_neg finite, Option.mem_def, Option.map_eq_some_iff] at a_run
  rw [s.routineB_run sm3 fit, if_neg finite, Option.mem_def, Option.map_eq_some_iff] at b_run
  obtain ⟨outA, finishedA, rfl⟩ := a_run
  obtain ⟨outB, finishedB, rfl⟩ := b_run
  rcases same with ⟨zero, -⟩ | ⟨-, -, keys, -⟩
  · cases zero
  · rw [finish_negative sm3 long finishedA, finish_negative sm3 long finishedB, List.take_of_length_le (by simp),
      List.take_of_length_le (by simp)] at keys
    have heads := congrArg List.head? keys
    rw [List.head?_replicate, List.head?_replicate, if_neg (by omega), if_neg (by omega)] at heads
    exact absurd heads (by decide)

/-- `Zayk_KeyAgreement_ECC` for one party. -/
def zayk (self peer : Party) (paddings : Paddings) (uiFlag : UInt32) (memory : Memory) (keylen : UInt32)
    (pucKey : Bytes) : Option (ℤ × Bytes) :=
  zaykKeyAgreementECC sm3 memory.mallocs uiFlag (paddings.priThis.privateKey self.static.d)
    (paddings.priTmpThis.privateKey self.ephemeral.d) (paddings.pubThis.publicKey self.static.publicKey)
    (paddings.pubTmpThis.publicKey self.ephemeral.publicKey) (paddings.pubThat.publicKey peer.static.publicKey)
    (paddings.pubTmpThat.publicKey peer.ephemeral.publicKey) self.id.toIdArg peer.id.toIdArg keylen memory.locals pucKey

def answer (result : ℤ × KeyOut) : ℤ × Bytes := (if result.1 ≠ 1 then -1 else 0, result.2.keybuf)

theorem zayk_initiator (paddings : Paddings) (memory : Memory) (keylen : UInt32) (pucKey : Bytes) :
    zayk sm3 s.a s.b paddings 1 memory keylen pucKey =
      (s.routineA sm3 memory keylen ⟨pucKey, none, none⟩).map answer := by
  simp only [zayk, zaykKeyAgreementECC, Padding.publicKey, Padding.privateKey, lastOctets_append,
    Identity.toIdArg_toArg, if_true]
  change ((s.routineA sm3 memory keylen ⟨pucKey, none, none⟩).map _).bind _ = _
  cases s.routineA sm3 memory keylen ⟨pucKey, none, none⟩ <;> rfl

theorem zayk_responder (paddings : Paddings) {uiFlag : UInt32} (other : uiFlag ≠ 1) (memory : Memory)
    (keylen : UInt32) (pucKey : Bytes) :
    zayk sm3 s.b s.a paddings uiFlag memory keylen pucKey =
      (s.routineB sm3 memory keylen ⟨pucKey, none, none⟩).map answer := by
  simp only [zayk, zaykKeyAgreementECC, Padding.publicKey, Padding.privateKey, lastOctets_append,
    Identity.toIdArg_toArg, if_neg other]
  change ((s.routineB sm3 memory keylen ⟨pucKey, none, none⟩).map _).bind _ = _
  cases s.routineB sm3 memory keylen ⟨pucKey, none, none⟩ <;> rfl

/-- With the flag 1 on one side and any other flag on the other side, the caller derives
one key or fails on both sides. -/
def ZaykAgrees (keylen : UInt32) : Prop :=
  ∀ (paddingsA paddingsB : Paddings) (uiFlag : UInt32) (memoryA memoryB : Memory) (keyA keyB : Bytes),
    uiFlag ≠ 1 → keylen.toNat ≤ keyA.length → keylen.toNat ≤ keyB.length →
    ∃ a ∈ zayk sm3 s.a s.b paddingsA 1 memoryA keylen keyA, ∃ b ∈ zayk sm3 s.b s.a paddingsB uiFlag memoryB keylen keyB,
      (a.1 = -1 ∧ b.1 = -1) ∨ (a.1 = 0 ∧ b.1 = 0 ∧ a.2.take keylen.toNat = b.2.take keylen.toNat)

theorem zaykAgrees_of_agrees {keylen : UInt32} (agrees : s.Agrees sm3 keylen) : s.ZaykAgrees sm3 keylen := by
  intro paddingsA paddingsB uiFlag memoryA memoryB keyA keyB other roomA roomB
  obtain ⟨a, a_run, b, b_run, same⟩ := agrees memoryA memoryB ⟨keyA, none, none⟩ ⟨keyB, none, none⟩ roomA roomB
  refine ⟨answer a, ?_, answer b, ?_, ?_⟩
  · rw [zayk_initiator, Option.mem_def.mp a_run]
    rfl
  · rw [zayk_responder s sm3 paddingsB other, Option.mem_def.mp b_run]
    rfl
  · rcases same with ⟨zeroA, zeroB⟩ | ⟨oneA, oneB, keys, -⟩
    · simp [answer, zeroA, zeroB]
    · simp [answer, oneA, oneB, keys]

/-- The two sides agree exactly when the sizes of the buffers for the identities are of
type `int`, and the point is at infinity or the length of the key is not negative as an `int`. -/
theorem routines_agree_iff (keylen : UInt32) : (s.Agrees sm3 keylen ∧ s.ZaykAgrees sm3 keylen) ↔
    s.IdsFit ∧ (s.point = 0 ∨ keylen.toNat < 2 ^ 31) := by
  constructor
  · rintro ⟨agrees, -⟩
    refine ⟨s.idsFit_of_agrees sm3 agrees, ?_⟩
    by_contra neither
    obtain ⟨finite, long⟩ := not_or.mp neither
    exact s.not_agrees_of_long sm3 finite (Nat.not_lt.mp long) agrees
  · rintro ⟨fit, short⟩
    have agrees := s.agrees_of_short sm3 fit short
    exact ⟨agrees, s.zaykAgrees_of_agrees sm3 agrees⟩

end

theorem three_lt_n : 3 < n := by decide +kernel

def small : Session where
  a := ⟨⟨1, by decide, by decide +kernel⟩, ⟨2, by decide, by decide +kernel⟩, ⟨[], fits_nil⟩, by decide +kernel,
    by decide +kernel⟩
  b := ⟨⟨3, by decide, three_lt_n⟩, ⟨4, by decide, by decide +kernel⟩, ⟨[], fits_nil⟩, by decide +kernel,
    by decide +kernel⟩
  met _ := by decide +kernel

theorem small_point_ne_zero : small.point ≠ 0 := by decide +kernel

theorem small_routines_disagree : ¬ (small.Agrees Sm3.sm3 (2 ^ 31) ∧ small.ZaykAgrees Sm3.sm3 (2 ^ 31)) :=
  fun both => small.not_agrees_of_long Sm3.sm3 small_point_ne_zero (by decide) both.1

end Session
end MyTools.Sm2
