import MyTools.Sm2.Session

/-! A run of the staged routines. The initiator's scalar comes back to it encrypted, and
the responder draws its own. -/
namespace MyTools.Sm2
open Library MyTools.Sm2.Miracl

/-! The block cipher over an array. -/

section
variable (f : Vector UInt8 16 → Vector UInt8 16)

theorem cryptBlocks_run : ∀ (count : ℕ) {r : Bytes}, 16 * count ≤ r.length →
    ∃ s, cryptBlocks f count r = some s ∧ s.length = r.length
  | 0, r, _ => ⟨r, rfl, rfl⟩
  | count + 1, r, room => by
    obtain ⟨rest, run, length⟩ := cryptBlocks_run count (r := r.drop 16) (by simp; omega)
    have inside : 16 ≤ r.length := by omega
    refine ⟨(f ⟨(r.take 16).toArray, by simp [inside]⟩).toList ++ rest, ?_, ?_⟩
    · rw [cryptBlocks, dif_pos inside, run]
      rfl
    · rw [List.length_append, length, List.length_drop, Vector.length_toList]
      omega

theorem cryptBlocks_append : ∀ (count : ℕ) {r s : Bytes}, cryptBlocks f count r = some s → ∀ rest : Bytes,
    cryptBlocks f count (r ++ rest) = some (s ++ rest)
  | 0, r, s, run, rest => by
    cases run
    rfl
  | count + 1, r, s, run, rest => by
    unfold cryptBlocks at run
    split at run
    · rename_i room
      obtain ⟨tail, tail_run, same⟩ := Option.bind_eq_some_iff.mp run
      obtain rfl := Option.some.inj same
      have more := cryptBlocks_append count tail_run rest
      have room' : 16 ≤ (r ++ rest).length := by simp; omega
      simp only [cryptBlocks, dif_pos room', List.drop_append_of_le_length room, List.take_append_of_le_length room,
        more, Option.bind_eq_bind, Option.bind_some]
      simp
    · cases run

end

theorem cryptLoop_run {rlen : ℤ} (fits : 16 * blockCount rlen < 2 ^ 31) (f : Vector UInt8 16 → Vector UInt8 16)
    (r : Bytes) : cryptLoop f r rlen = cryptBlocks f (blockCount rlen) r := by
  rw [cryptLoop, if_pos fits]

theorem cryptLoop_overflow {rlen : ℤ} (large : ¬ 16 * blockCount rlen < 2 ^ 31) (f : Vector UInt8 16 → Vector UInt8 16)
    (r : Bytes) : cryptLoop f r rlen = none := by
  rw [cryptLoop, if_neg large]

theorem cryptBlocks_decrypt (aes : Aes) : ∀ (count : ℕ) {r s : Bytes}, cryptBlocks aes.encrypt count r = some s →
    cryptBlocks aes.decrypt count s = some r
  | 0, r, s, run => by
    cases run
    rfl
  | count + 1, r, s, run => by
    unfold cryptBlocks at run
    split at run
    · rename_i room
      obtain ⟨tail, tail_run, same⟩ := Option.bind_eq_some_iff.mp run
      obtain rfl := Option.some.inj same
      have more := cryptBlocks_decrypt aes count tail_run
      generalize block_eq : (⟨(r.take 16).toArray, by simp [room]⟩ : Vector UInt8 16) = block
      have block_octets : block.toList = r.take 16 := by rw [← block_eq]; rfl
      have length : (aes.encrypt block).toList.length = 16 := Vector.length_toList
      have head : (⟨(((aes.encrypt block).toList ++ tail).take 16).toArray, by simp⟩ : Vector UInt8 16) =
          aes.encrypt block := by
        apply Vector.toList_inj.mp
        change ((aes.encrypt block).toList ++ tail).take 16 = _
        rw [List.take_left' length]
      have room' : 16 ≤ ((aes.encrypt block).toList ++ tail).length := by simp
      rw [cryptBlocks, dif_pos room', head, List.drop_left' length, more, aes.decrypt_encrypt, Option.bind_eq_bind,
        Option.bind_some, block_octets, List.take_append_drop]
      rfl
    · cases run

/-! The scalars. -/

def drawn (draws : List ℕ) : Option ℕ := (draws.map (· % n)).find? (· ≠ 0)

theorem drawScalar_run (draws : List ℕ) (k : ℕ) : (drawScalar draws k).run mirsys = (drawn draws).map (·, mirsys) := by
  induction draws generalizing k with
  | nil => rfl
  | cons raw draws ih =>
    by_cases zero : raw % n = 0
    · have later : drawn (raw :: draws) = drawn draws := by simp [drawn, zero]
      simp only [drawScalar, StateT.run_bind, bigrand_run, Option.bind_eq_bind, Option.bind_some, if_pos zero, ih, later]
    · have now : drawn (raw :: draws) = some (raw % n) := by simp [drawn, zero]
      simp only [drawScalar, StateT.run_bind, bigrand_run, Option.bind_eq_bind, Option.bind_some, if_neg zero, now]
      rfl

theorem epointSet_base (old : Point) : (epointSet gx gy old).run mirsys = some ((true, base), mirsys) :=
  epointSet_run base_ne_zero old

section
variable (aes : Aes) {draws : List ℕ} {key : PrivateKey}

theorem enrand_octets (bytes : Octets) : ∃ sealed, enrand aes bytes.toList 32 = some sealed ∧ sealed.length = 32 := by
  obtain ⟨sealed, run, length⟩ := cryptBlocks_run aes.encrypt 2 (r := bytes.toList) (by simp)
  exact ⟨sealed, by rw [enrand, cryptLoop_run (by decide)]; exact run, by simpa using length⟩

theorem sm2KeyagreementA13_run (scalar : drawn draws = some key.d) (nonzero : NonzeroCoordinates key.publicKey)
    {sealed : Bytes} (encrypted : enrand aes (octets key.d).toList 32 = some sealed) (kx1 ky1 ra : Octets) :
    sm2KeyagreementA13 aes draws kx1 ky1 ra =
      some ⟨xOctets key.publicKey, 32, yOctets key.publicKey, 32, sealed, 32⟩ := by
  have x := bigToBytes_abscissa nonzero kx1
  have y := bigToBytes_ordinate nonzero ky1
  have k := bigToBytes_run key.positive.ne' (key.small.trans n_lt) ra
  rw [PrivateKey.publicKey] at x y
  simp only [sm2KeyagreementA13, call, StateT.run_bind, epointSet_base, drawScalar_run, scalar,
    ecurveMult_run (key.small.trans n_lt), epointGet_run, x, y, k, encrypted, lift_some, Option.bind_eq_bind, Option.bind_some, Option.map_some]
  rfl

/-- The ephemeral point of `sm2_keyagreement_b1_9`. -/
def ephemeralOfKey (key : PrivateKey) (l : Locals) : Ephemeral where
  kxbuf := filled (abscissa key.publicKey) l.kx2buf
  kybuf := filled (ordinate key.publicKey) l.ky2buf
  xbar := xbarOf (filled (abscissa key.publicKey) l.kx2buf)
  point := key.publicKey

theorem ephemeralOfKey_eq (nonzero : NonzeroCoordinates key.publicKey) (l : Locals) :
    ephemeralOfKey key l = Ephemeral.ofPoint key.publicKey := by
  simp only [ephemeralOfKey, filled, if_neg nonzero.abscissa_ne, if_neg nonzero.ordinate_ne]
  rfl

theorem drawEphemeral_run (scalar : drawn draws = some key.d) (l : Locals) :
    (drawEphemeral draws l).run mirsys = some ((key.d, ephemeralOfKey key l), mirsys) := by
  have x := bigToBytes_filled ((abscissa_lt (key.d • base)).trans p_lt) l.kx2buf
  have y := bigToBytes_filled ((ordinate_lt (key.d • base)).trans p_lt) l.ky2buf
  simp only [drawEphemeral, StateT.run_bind, epointSet_base, drawScalar_run, scalar,
    ecurveMult_run (key.small.trans n_lt), epointGet_run, x, y, truncated_run, Option.bind_eq_bind, Option.bind_some, Option.map_some]
  rfl

/-- What the local array holds when the hidden scalar is read. -/
def hiddenBuf (ra : Arg) (l : Locals) (own : Ephemeral) : Option Bytes := do
  let buf ← (truncated own.kxbuf ++ l.buf.toList.drop 16).write 0 (← ra.ptr.read (sizeT ra.len))
  derand aes buf ra.len

def hiddenNumber (ra : Arg) (l : Locals) (own : Ephemeral) : OptionT Option ℕ := do
  let buf ← OptionT.lift (hiddenBuf aes ra l own)
  bigOf ra.len buf

theorem hiddenNumber_run {ra : Arg} {l : Locals} {own : Ephemeral} {buf : Bytes}
    (run : hiddenBuf aes ra l own = some buf) : hiddenNumber aes ra l own = bigOf ra.len buf := by
  rw [hiddenNumber, run]
  exact pure_bind buf _

theorem hiddenScalar_run (ra : Arg) (l : Locals) (own : Ephemeral) (mip : Mip) :
    (hiddenScalar aes ra l own).run mip =
      (hiddenBuf aes ra l own).bind fun buf => (bytesToBig ra.len buf 0).run mip := by
  have lift_none {α : Type} : (liftM (none : Option α) : Miracl α).run mip = none := rfl
  simp only [hiddenScalar, hiddenBuf, StateT.run_bind, Option.bind_eq_bind]
  cases ra.ptr.read (sizeT ra.len) with
  | none => rfl
  | some source =>
    simp only [lift_some, Option.bind_some]
    cases (truncated own.kxbuf ++ l.buf.toList.drop 16).write 0 source with
    | none => simp only [lift_none, Option.bind_none]
    | some buf =>
      simp only [lift_some, Option.bind_some]
      cases derand aes buf ra.len with
      | none => simp only [lift_none, Option.bind_none]
      | some buf => simp only [lift_some, Option.bind_some]

theorem hiddenBuf_none {ra : Arg} (outside : ¬ (0 ≤ ra.len ∧ ra.len ≤ 256)) (l : Locals) (own : Ephemeral) :
    hiddenBuf aes ra l own = none := by
  rw [hiddenBuf, Option.bind_eq_bind, Option.bind_eq_none_iff]
  intro source read
  obtain ⟨inside, -, length⟩ := Bytes.read_eq_some read
  rw [Option.bind_eq_none_iff]
  intro buf written
  have room := (Bytes.write_inside written).2
  simp only [List.length_append, truncated_length, List.length_drop, Vector.length_toList] at room
  have object := ra.object
  have int := ra.int
  unfold sizeT at inside length
  omega

theorem hiddenBuf_run {ra : Arg} (low : 0 ≤ ra.len) (high : ra.len ≤ 256) (l : Locals) (own : Ephemeral) :
    ∃ buf, hiddenBuf aes ra l own = some buf ∧ buf.length = 256 := by
  have size : sizeT ra.len = ra.len.toNat := by
    unfold sizeT
    omega
  have readable := ra.readable
  have read : ra.ptr.read (sizeT ra.len) = some (ra.ptr.take ra.len.toNat) := by
    rw [size, Bytes.read_of_le (by omega)]
  have length : (truncated own.kxbuf ++ l.buf.toList.drop 16).length = 256 := by simp [truncated_length]
  obtain ⟨buf, written, buf_length⟩ := Bytes.write_run (truncated own.kxbuf ++ l.buf.toList.drop 16)
    0 (ra.ptr.take ra.len.toNat) le_rfl (by rw [length, List.length_take]; omega)
  have count : 16 * blockCount ra.len ≤ 256 := by
    unfold blockCount
    omega
  have blocks : 16 * blockCount ra.len ≤ buf.length := by rwa [buf_length, length]
  obtain ⟨result, run, result_length⟩ := cryptBlocks_run aes.decrypt _ blocks
  refine ⟨result, ?_, by omega⟩
  simp only [hiddenBuf, read, written, Option.bind_eq_bind, Option.bind_some]
  rw [derand, cryptLoop_run (by omega)]
  exact run

theorem hiddenScalar_reads {ra : Arg} (low : 0 ≤ ra.len) (high : ra.len ≤ 256) (l : Locals) (own : Ephemeral) :
    Reads (hiddenScalar aes ra l own) (hiddenNumber aes ra l own) where
  run := by
    obtain ⟨buf, run, length⟩ := hiddenBuf_run aes low high l own
    rw [hiddenScalar_run, hiddenNumber_run aes run, run, Option.bind_some, bytesToBig_readable (by rw [length]; omega)]
  error mip pending := by
    obtain ⟨buf, run, -⟩ := hiddenBuf_run aes low high l own
    exact ⟨0, by rw [hiddenScalar_run, run, Option.bind_some, bytesToBig_error pending]⟩

theorem hiddenNumber_sealed {k : ℕ} (fits : k < 2 ^ 256) {ra : Arg} (len : ra.len = 32) (length : ra.ptr.length = 32)
    (encrypted : enrand aes (octets k).toList 32 = some ra.ptr) (l : Locals) (own : Ephemeral) :
    hiddenNumber aes ra l own = pure k := by
  have read : ra.ptr.read (sizeT 32) = some ra.ptr := by
    rw [show sizeT 32 = ra.ptr.length by rw [length]; rfl, Bytes.read_length]
  have copied := Bytes.write_fill [] (truncated own.kxbuf ++ l.buf.toList.drop 16) ra.ptr 0 rfl
    (by simp [length, truncated_length])
  generalize (truncated own.kxbuf ++ l.buf.toList.drop 16).drop ra.ptr.length = rest at copied
  have decrypted : derand aes (ra.ptr ++ rest) 32 = some ((octets k).toList ++ rest) := by
    rw [enrand, cryptLoop_run (by decide)] at encrypted
    rw [derand, cryptLoop_run (by decide)]
    exact cryptBlocks_append _ _ (cryptBlocks_decrypt aes _ encrypted) rest
  have number : bigOf 32 ((octets k).toList ++ rest) = bigOf 32 (octets k).toList := by
    rw [bigOf_short (by decide), bigOf_short (by decide), show (32 : ℤ).toNat = 32 from rfl, List.take_left' (by simp),
      List.take_of_length_le (by simp)]
  rw [List.nil_append] at copied
  have buf : hiddenBuf aes ra l own = some ((octets k).toList ++ rest) := by
    simp only [hiddenBuf, len, read, copied, decrypted, Option.bind_eq_bind, Option.bind_some, List.nil_append]
  rw [hiddenNumber_run aes buf, len, number, bigOf_octets, octets_value fits]

end

section
variable (sm3 : Bytes → Octets) (aes : Aes)

/-- The arrays for the encrypted coordinates hold 32 octets, where there are any. -/
def OutB19.Room (out : OutB19) : Prop := (∀ xv ∈ out.xv, 32 ≤ xv.length) ∧ ∀ yv ∈ out.yv, 32 ≤ yv.length

theorem putEncrypted_run (source : Octets) {out : Option Bytes} (room : ∀ bytes ∈ out, 32 ≤ bytes.length) (len : ℤ) :
    ∃ result, putEncrypted aes source out len = some result := by
  cases out with
  | none => exact ⟨_, rfl⟩
  | some bytes =>
    have inside := room bytes rfl
    have written := Bytes.write_fill [] bytes source.toList 0 rfl (by simpa using inside)
    obtain ⟨sealed, run, -⟩ := cryptBlocks_run aes.encrypt 2 (r := [] ++ source.toList ++ bytes.drop source.toList.length)
      (by simp)
    have encrypted : enrand aes ([] ++ source.toList ++ bytes.drop source.toList.length) 32 = some sealed := by
      rw [enrand, cryptLoop_run (by decide)]
      exact run
    rw [List.nil_append] at written
    exact ⟨(some sealed, 32), by simp only [putEncrypted, written, encrypted, Option.bind_eq_bind, Option.bind_some]; rfl⟩

theorem finishB19_run {malloc : Malloc} {za zb : Octets} {d : Derived} {kblen : UInt32} {out : OutB19} {ret : ℤ}
    {key : Bytes}
    (key_run : kdfKey sm3 malloc (keyInput d.xubuf d.yubuf za zb) 128 (asInt kblen) out.kbbuf = some (ret, key))
    (room : out.Room) : ∃ result, finishB19 sm3 aes malloc za zb d kblen out = some result ∧ result.kbbuf = key := by
  obtain ⟨xv, xv_run⟩ := putEncrypted_run aes d.xubuf room.1 out.xvlen
  obtain ⟨yv, yv_run⟩ := putEncrypted_run aes d.yubuf room.2 out.yvlen
  simp only [finishB19, key_run, xv_run, yv_run, Option.bind_eq_bind, Option.bind_some]
  exact ⟨_, rfl, rfl⟩

theorem finishB19_out {malloc : Malloc} {za zb : Octets} {d : Derived} {kblen : UInt32} {out result : OutB19}
    (ok : finishB19 sm3 aes malloc za zb d kblen out = some result) :
    (∃ ret, kdfKey sm3 malloc (keyInput d.xubuf d.yubuf za zb) 128 (asInt kblen) out.kbbuf = some (ret, result.kbbuf)) ∧
      result.sb = out.sb.map (fun _ => tagged sm3 (initiator sm3).expected d.yubuf ((initiator sm3).hash d za zb)) ∧
      result.kx2 = out.kx2 ∧ result.ky2 = out.ky2 ∧ result.kx2len = out.kx2len ∧ result.ky2len = out.ky2len := by
  unfold finishB19 at ok
  obtain ⟨⟨ret, kbbuf⟩, key, ok⟩ := Option.bind_eq_some_iff.mp ok
  obtain ⟨xv, -, ok⟩ := Option.bind_eq_some_iff.mp ok
  obtain ⟨yv, -, ok⟩ := Option.bind_eq_some_iff.mp ok
  obtain rfl := Option.some.inj ok
  exact ⟨⟨ret, key⟩, rfl, rfl, rfl, rfl, rfl⟩

/-- The outputs after the responder's ephemeral point is written. -/
def OutB19.drew (out : OutB19) (own : Ephemeral) : OutB19 :=
  { out with kx2 := own.kxbuf, ky2 := own.kybuf, kx2len := 32, ky2len := 32 }

section
variable (out : OutB19) (own : Ephemeral)
@[simp] theorem OutB19.drew_kbbuf : (out.drew own).kbbuf = out.kbbuf := rfl
@[simp] theorem OutB19.drew_sb : (out.drew own).sb = out.sb := rfl
@[simp] theorem OutB19.drew_kx2 : (out.drew own).kx2 = own.kxbuf := rfl
@[simp] theorem OutB19.drew_ky2 : (out.drew own).ky2 = own.kybuf := rfl
@[simp] theorem OutB19.drew_kx2len : (out.drew own).kx2len = 32 := rfl
@[simp] theorem OutB19.drew_ky2len : (out.drew own).ky2len = 32 := rfl
theorem OutB19.Room.drew {out : OutB19} (room : out.Room) : (out.drew own).Room := ⟨room.1, room.2⟩
end

theorem sm2KeyagreementB19_run {m : Mallocs} {draws : List ℕ} {kx1 ky1 pax pay privateB pbx pby ida idb : Arg}
    {l : LocalsB19} {ra rb : ℤ} {za zb : Octets}
    (za_run : sm3Z sm3 m.za ida.ptr ida.len pax.ptr pax.len pay.ptr pay.len l.za = some (ra, za))
    (zb_run : sm3Z sm3 m.zb idb.ptr idb.len pbx.ptr pbx.len pby.ptr pby.len l.zb = some (rb, zb)) {k : ℕ}
    {own : Ephemeral} (own_run : (drawEphemeral draws l.toLocals).run mirsys = some ((k, own), mirsys))
    {derived : Option Derived} (ends : call (deriveB19 k own privateB kx1 ky1 pax pay l) = some derived)
    (kblen : UInt32) (out : OutB19) :
    sm2KeyagreementB19 sm3 aes m draws kx1 ky1 pax pay privateB pbx pby ida idb kblen l out =
      derived.elim (some (0, out.drew own)) fun d =>
        (finishB19 sm3 aes m.key za zb d kblen (out.drew own)).map (1, ·) := by
  obtain ⟨⟨derived, mip⟩, derived_run, rfl⟩ := Option.map_eq_some_iff.mp ends
  simp only [sm2KeyagreementB19, za_run, zb_run, call, StateT.run_bind, own_run, derived_run, Option.bind_eq_bind,
    Option.bind_some]
  cases derived with
  | none => rfl
  | some d =>
    change (finishB19 sm3 aes m.key za zb d kblen (out.drew own)).bind _ = _
    rw [Option.elim_some]
    cases finishB19 sm3 aes m.key za zb d kblen (out.drew own) <;> rfl

theorem sm2KeyagreementB19_harmed {m : Mallocs} {draws : List ℕ} {kx1 ky1 pax pay privateB pbx pby ida idb : Arg}
    {l : LocalsB19} {ra rb : ℤ} {za zb : Octets}
    (za_run : sm3Z sm3 m.za ida.ptr ida.len pax.ptr pax.len pay.ptr pay.len l.za = some (ra, za))
    (zb_run : sm3Z sm3 m.zb idb.ptr idb.len pbx.ptr pbx.len pby.ptr pby.len l.zb = some (rb, zb)) {k : ℕ}
    {own : Ephemeral} (own_run : (drawEphemeral draws l.toLocals).run mirsys = some ((k, own), mirsys))
    (harms : call (deriveB19 k own privateB kx1 ky1 pax pay l) = none) (kblen : UInt32) (out : OutB19) :
    sm2KeyagreementB19 sm3 aes m draws kx1 ky1 pax pay privateB pbx pby ida idb kblen l out = none := by
  have derived_run := Option.map_eq_none_iff.mp harms
  simp only [sm2KeyagreementB19, za_run, zb_run, call, StateT.run_bind, own_run, derived_run, Option.bind_eq_bind,
    Option.bind_some, Option.bind_none, Option.map_none]

end

/-- A pointer with its length, if it is readable. -/
def argument (ptr : Bytes) (len : ℤ) : Option Arg :=
  if ok : len ≤ ptr.length ∧ (-2 ^ 31 ≤ len ∧ len < 2 ^ 31) ∧ ptr.length < 2 ^ 63 then
    some ⟨ptr, len, ok.1, ok.2.1, ok.2.2⟩
  else none

theorem argument_octets (bytes : Octets) : argument bytes.toList 32 = some bytes.toArg := by
  rw [argument, dif_pos (by simp)]
  rfl

structure MemoryB19 where
  locals : LocalsB19
  za : (size : ℕ) → Vector UInt8 size
  zb : (size : ℕ) → Vector UInt8 size
  key : (size : ℕ) → Vector UInt8 size

/-- The same without the arrays that only this routine has. -/
def MemoryB19.toMemory (memory : MemoryB19) : Memory := ⟨memory.locals.toLocals, memory.za, memory.zb, memory.key⟩

structure Start where
  kx1 : Octets
  ky1 : Octets
  ra : Octets
  memoryA : Memory
  memoryB : MemoryB19
  outA : KeyOut
  outB : OutB19

structure StagedSession extends Session where
  drawsA : List ℕ
  drawsB : List ℕ
  drawnA : drawn drawsA = some a.ephemeral.d
  drawnB : drawn drawsB = some b.ephemeral.d

namespace StagedSession
variable (s : StagedSession) (sm3 : Bytes → Octets) (aes : Aes)

def routineB19 (kx1 ky1 : Arg) (memory : MemoryB19) (keylen : UInt32) (out : OutB19) : Option (ℤ × OutB19) :=
  sm2KeyagreementB19 sm3 aes memory.toMemory.mallocs s.drawsB kx1 ky1 s.a.x s.a.y s.b.privateKey s.b.x s.b.y
    s.a.id.toArg s.b.id.toArg keylen memory.locals out

def routineA410 (kx1 ky1 kx2 ky2 ra : Arg) (memory : Memory) (keylen : UInt32) (out : KeyOut) : Option (ℤ × KeyOut) :=
  sm2KeyagreementA410 sm3 aes memory.mallocs kx1 ky1 s.a.x s.a.y s.a.privateKey s.b.x s.b.y s.a.id.toArg s.b.id.toArg
    kx2 ky2 ra keylen memory.locals out

def run (start : Start) (keylen : UInt32) : Option ((ℤ × KeyOut) × (ℤ × OutB19)) := do
  let first ← sm2KeyagreementA13 aes s.drawsA start.kx1 start.ky1 start.ra
  let kx1 ← argument first.kx1.toList first.kx1len
  let ky1 ← argument first.ky1.toList first.ky1len
  let ra ← argument first.ra first.ralen
  let b ← s.routineB19 sm3 aes kx1 ky1 start.memoryB keylen start.outB
  let kx2 ← argument b.2.kx2.toList b.2.kx2len
  let ky2 ← argument b.2.ky2.toList b.2.ky2len
  let a ← s.routineA410 sm3 aes kx1 ky1 kx2 ky2 ra start.memoryA keylen start.outA
  return (a, b)

theorem agreedB19_eq (l : Locals) :
    agreedB19 s.b.ephemeral.d s.b.own s.b.privateKey s.a.kx s.a.ky s.a.x s.a.y l =
      if s.point = 0 then failure else pure ⟨s.b.own, s.a.own, s.point⟩ := by
  have other := ephemeralOf_point s.a.ephemeral_nonzero l.kx1buf l.ky1buf
  have w := pointOf_coordinates s.a.static_nonzero.finite
  have x : s.a.x.number = pure (abscissa s.a.static.publicKey) := by rw [Party.x, Octets.toArg_number, xOctets_value]
  have y : s.a.y.number = pure (ordinate s.a.static.publicKey) := by rw [Party.y, Octets.toArg_number, yOctets_value]
  have x_fits := (abscissa_lt s.a.static.publicKey).trans p_lt
  have y_fits := (ordinate_lt s.a.static.publicKey).trans p_lt
  rw [← s.point_eq]
  simp only [agreedB19, Party.kx, Party.ky, other, Party.privateKey_number, x, y, w, if_pos x_fits, if_pos y_fits,
    checked_some, pure_bind]
  rfl

theorem derivedB19_eq (met : NonzeroCoordinates s.point) (l : Locals) :
    Agreed.derivedB19 l ⟨s.b.own, s.a.own, s.point⟩ = s.a.derived s.b := by
  simp only [Agreed.derivedB19, filled, if_neg met.abscissa_ne, if_neg met.ordinate_ne]
  rfl

theorem routineB19_run (fit : s.IdsFit) (memory : MemoryB19) (keylen : UInt32) (out : OutB19) :
    s.routineB19 sm3 aes s.a.kx s.a.ky memory keylen out = if s.point = 0 then some (0, out.drew s.b.own) else
      (finishB19 sm3 aes (granted memory.key) (s.za sm3) (s.zb sm3) (s.a.derived s.b) keylen (out.drew s.b.own)).map
        (1, ·) := by
  have ends := deriveB19_leaves s.b.ephemeral.d s.b.own s.b.privateKey s.a.kx s.a.ky s.a.x s.a.y memory.locals
  rw [agreedB19_eq, Leaves] at ends
  have own := drawEphemeral_run s.drawnB memory.locals.toLocals
  rw [ephemeralOfKey_eq s.b.ephemeral_nonzero] at own
  obtain ⟨za_run, zb_run⟩ := s.zs_run sm3 fit memory.toMemory memory.locals.za memory.locals.zb
  by_cases infinity : s.point = 0
  · rw [if_pos infinity] at ends
    rw [routineB19, sm2KeyagreementB19_run sm3 aes za_run zb_run own ends, if_pos infinity]
    rfl
  · rw [if_neg infinity] at ends
    rw [routineB19, sm2KeyagreementB19_run sm3 aes za_run zb_run own ends, if_neg infinity,
      ← s.derivedB19_eq (s.met infinity) memory.locals.toLocals]
    rfl

theorem routineA410_run (fit : s.IdsFit) (ra : Arg) (len : ra.len = 32) (length : ra.ptr.length = 32)
    (encrypted : enrand aes (octets s.a.ephemeral.d).toList 32 = some ra.ptr) (memory : Memory) (keylen : UInt32)
    (out : KeyOut) :
    s.routineA410 sm3 aes s.a.kx s.a.ky s.b.kx s.b.ky ra memory keylen out =
      s.routineA sm3 memory keylen out := by
  rw [s.routineA_run sm3 fit]
  exact s.initiator_run sm3 (hiddenScalar_reads aes (by omega) (by omega) memory.locals)
    (hiddenNumber_sealed aes (s.a.ephemeral.small.trans n_lt) len length encrypted memory.locals s.a.own) fit memory
    keylen out

theorem run_eq (fit : s.IdsFit) (start : Start) (keylen : UInt32) :
    s.run sm3 aes start keylen =
      if s.point = 0 then some ((0, start.outA), (0, start.outB.drew s.b.own))
      else (finishB19 sm3 aes (granted start.memoryB.key) (s.za sm3) (s.zb sm3) (s.a.derived s.b) keylen
        (start.outB.drew s.b.own)).bind fun b =>
          (finish sm3 (initiator sm3) (granted start.memoryA.key) (s.za sm3) (s.zb sm3) (s.a.derived s.b) keylen
            start.outA).map fun a => ((1, a), (1, b)) := by
  obtain ⟨sealed, encrypted, length⟩ := enrand_octets aes (octets s.a.ephemeral.d)
  have readable : (32 : ℤ) ≤ sealed.length ∧ (-2 ^ 31 ≤ (32 : ℤ) ∧ (32 : ℤ) < 2 ^ 31) ∧ sealed.length < 2 ^ 63 := by omega
  have first := sm2KeyagreementA13_run aes s.drawnA s.a.ephemeral_nonzero encrypted start.kx1 start.ky1 start.ra
  have kx1 : argument (xOctets s.a.ephemeral.publicKey).toList 32 = some s.a.kx := argument_octets _
  have ky1 : argument (yOctets s.a.ephemeral.publicKey).toList 32 = some s.a.ky := argument_octets _
  have kx2 : argument s.b.own.kxbuf.toList 32 = some s.b.kx := argument_octets _
  have ky2 : argument s.b.own.kybuf.toList 32 = some s.b.ky := argument_octets _
  have kept : argument sealed 32 = some ⟨sealed, 32, readable.1, readable.2.1, readable.2.2⟩ := by rw [argument, dif_pos readable]
  have b := s.routineB19_run sm3 aes fit start.memoryB keylen start.outB
  have a := s.routineA410_run sm3 aes fit ⟨sealed, 32, readable.1, readable.2.1, readable.2.2⟩ rfl length encrypted
    start.memoryA keylen start.outA
  rw [s.routineA_run sm3 fit] at a
  simp -implicitDefEqProofs only [run, first, kx1, ky1, kept, b, Option.bind_eq_bind, Option.bind_some]
  by_cases infinity : s.point = 0
  · rw [if_pos infinity] at a
    rw [if_pos infinity, if_pos infinity, Option.bind_some, OutB19.drew_kx2, OutB19.drew_kx2len, kx2, Option.bind_some,
      OutB19.drew_ky2, OutB19.drew_ky2len, ky2, Option.bind_some, a]
    rfl
  · rw [if_neg infinity] at a
    rw [if_neg infinity, if_neg infinity]
    cases finished : finishB19 sm3 aes (granted start.memoryB.key) (s.za sm3) (s.zb sm3) (s.a.derived s.b) keylen
      (start.outB.drew s.b.own) with
    | none => rfl
    | some out =>
      obtain ⟨-, -, out_kx2, out_ky2, out_kx2len, out_ky2len⟩ := finishB19_out sm3 aes finished
      rw [OutB19.drew_kx2] at out_kx2
      rw [OutB19.drew_ky2] at out_ky2
      rw [OutB19.drew_kx2len] at out_kx2len
      rw [OutB19.drew_ky2len] at out_ky2len
      rw [Option.map_some, Option.bind_some, Option.bind_some, out_kx2, out_kx2len, kx2, Option.bind_some, out_ky2,
        out_ky2len, ky2, Option.bind_some, a]
      cases finish sm3 (initiator sm3) (granted start.memoryA.key) (s.za sm3) (s.zb sm3) (s.a.derived s.b) keylen
        start.outA <;> rfl

/-- The staged run agrees with itself, and its initiator with the one-shot routine,
whatever memory and the output arrays hold. -/
def Agrees (keylen : UInt32) : Prop :=
  ∀ (start : Start) (memory : Memory) (out : KeyOut), start.outB.Room → keylen.toNat ≤ start.outA.keybuf.length →
    keylen.toNat ≤ start.outB.kbbuf.length → keylen.toNat ≤ out.keybuf.length →
    ∃ a b, s.run sm3 aes start keylen = some (a, b) ∧ ∃ c ∈ s.routineA sm3 memory keylen out,
      (a.1 = 1 → b.1 = 1 → a.2.keybuf.take keylen.toNat = b.2.kbbuf.take keylen.toNat ∧
        ∀ s1 ∈ a.2.expected, ∀ sb ∈ b.2.sb, s1 = sb) ∧
      c.1 = a.1 ∧ (a.1 = 1 → a.2.keybuf.take keylen.toNat = c.2.keybuf.take keylen.toNat ∧
        (∀ s1 ∈ a.2.expected, ∀ s1' ∈ c.2.expected, s1 = s1') ∧ ∀ sa ∈ a.2.sent, ∀ sa' ∈ c.2.sent, sa = sa')

theorem agrees_of_short {keylen : UInt32} (fit : s.IdsFit) (short : s.point = 0 ∨ keylen.toNat < 2 ^ 31) : s.Agrees sm3 aes keylen := by
  intro start memory out room roomA roomB roomC
  by_cases infinity : s.point = 0
  · refine ⟨(0, start.outA), (0, start.outB.drew s.b.own), by rw [s.run_eq sm3 aes fit, if_pos infinity], (0, out), ?_, ?_⟩
    · rw [s.routineA_run sm3 fit, if_pos infinity]
      rfl
    · exact ⟨nofun, rfl, nofun⟩
  have short := short.resolve_left infinity
  have roomB' : keylen.toNat ≤ (start.outB.drew s.b.own).kbbuf.length := by rwa [OutB19.drew_kbbuf]
  have key := kdfKey_run sm3 start.memoryB.key (s.a.derived s.b).xubuf (s.a.derived s.b).yubuf (s.za sm3) (s.zb sm3)
    short roomB'
  obtain ⟨b, b_run, kbbuf⟩ := finishB19_run sm3 aes key (room.drew s.b.own)
  have a_run := finish_run sm3 (initiator sm3) start.memoryA.key (s.za sm3) (s.zb sm3) (s.a.derived s.b) short roomA
  have c_run := finish_run sm3 (initiator sm3) memory.key (s.za sm3) (s.zb sm3) (s.a.derived s.b) short roomC
  obtain ⟨-, sb, -⟩ := finishB19_out sm3 aes b_run
  refine ⟨(1, keyOut sm3 (initiator sm3) (s.za sm3) (s.zb sm3) (s.a.derived s.b) keylen start.outA), (1, b), ?_,
    (1, keyOut sm3 (initiator sm3) (s.za sm3) (s.zb sm3) (s.a.derived s.b) keylen out), ?_, ?_, rfl, ?_⟩
  · rw [s.run_eq sm3 aes fit, if_neg infinity, b_run, Option.bind_some, a_run, Option.map_some]
  · rw [s.routineA_run sm3 fit, if_neg infinity, c_run]
    rfl
  · rintro - -
    refine ⟨?_, ?_⟩
    · change _ = b.kbbuf.take keylen.toNat
      rw [kbbuf, keyOut_keybuf_take, List.take_left' (length_kdfStream sm3 _ _)]
    · intro s1 expected sb' sent
      rw [sb, Option.mem_map] at sent
      obtain ⟨-, -, rfl⟩ := sent
      exact eq_of_mem_expected expected
  · rintro -
    refine ⟨?_, ?_, ?_⟩
    · rw [keyOut_keybuf_take, keyOut_keybuf_take]
    · intro s1 expected s1' expected'
      rw [eq_of_mem_expected expected, eq_of_mem_expected expected']
    · intro sa sent sa' sent'
      rw [eq_of_mem_sent sent, eq_of_mem_sent sent']

/-- What the calls find in memory, with the given octet in the key buffers. -/
def zeroStart (keylen : UInt32) (octet : UInt8) : Start :=
  let zeros : Octets := octets 0
  let blocks : (size : ℕ) → Vector UInt8 size := fun size => Vector.replicate size 0
  ⟨zeros, zeros, zeros, Memory.zero, ⟨⟨Locals.zero, zeros, zeros⟩, blocks, blocks, blocks⟩,
    ⟨List.replicate keylen.toNat octet, none, none⟩,
    ⟨List.replicate keylen.toNat octet, zeros, 0, zeros, 0, none, 0, none, 0, none⟩⟩

theorem idsFit_of_agrees {keylen : UInt32} (agrees : s.Agrees sm3 aes keylen) : s.IdsFit := by
  by_contra long
  obtain ⟨-, -, -, c, c_run, -⟩ := agrees (zeroStart keylen 0) Memory.zero (zeroStart keylen 0).outA ⟨nofun, nofun⟩
    (by simp [zeroStart]) (by simp [zeroStart]) (by simp [zeroStart])
  rw [Session.routineA, sm2KeyagreementA, s.keyagreement_overflow sm3 long] at c_run
  cases c_run

theorem not_agrees_of_long {keylen : UInt32} (finite : s.point ≠ 0) (long : 2 ^ 31 ≤ keylen.toNat) :
    ¬ s.Agrees sm3 aes keylen := by
  intro agrees
  have fit := s.idsFit_of_agrees sm3 aes agrees
  obtain ⟨a, b, both, c, c_run, -, same, keys⟩ := agrees (zeroStart keylen 0) Memory.zero (zeroStart keylen 1).outA
    ⟨nofun, nofun⟩ (by simp [zeroStart]) (by simp [zeroStart]) (by simp [zeroStart])
  rw [s.run_eq sm3 aes fit, if_neg finite, Option.bind_eq_some_iff] at both
  obtain ⟨outB, -, both⟩ := both
  obtain ⟨outA, a_run, both⟩ := Option.map_eq_some_iff.mp both
  rw [s.routineA_run sm3 fit, if_neg finite, Option.mem_def, Option.map_eq_some_iff] at c_run
  obtain ⟨outC, c_run, rfl⟩ := c_run
  cases both
  have equal := (keys rfl).1
  rw [finish_negative sm3 long a_run, finish_negative sm3 long c_run, zeroStart, zeroStart,
    List.take_of_length_le (by simp), List.take_of_length_le (by simp)] at equal
  have heads := congrArg List.head? equal
  rw [List.head?_replicate, List.head?_replicate, if_neg (by omega), if_neg (by omega)] at heads
  exact absurd heads (by decide)

/-- The staged routines agree exactly when the sizes of the buffers for the identities are of
type `int`, and the point is at infinity or the length of the key is not negative as an `int`. -/
theorem staged_agree_iff (keylen : UInt32) :
    s.Agrees sm3 aes keylen ↔ s.IdsFit ∧ (s.point = 0 ∨ keylen.toNat < 2 ^ 31) := by
  constructor
  · intro agrees
    refine ⟨s.idsFit_of_agrees sm3 aes agrees, ?_⟩
    by_contra neither
    obtain ⟨finite, long⟩ := not_or.mp neither
    exact s.not_agrees_of_long sm3 aes finite (Nat.not_lt.mp long) agrees
  · rintro ⟨fit, short⟩
    exact s.agrees_of_short sm3 aes fit short

/-- `Session.small` with the draws of its ephemeral scalars, one of them repeated. -/
def small : StagedSession where
  toSession := Session.small
  drawsA := [2]
  drawsB := [0, 4]
  drawnA := by decide +kernel
  drawnB := by decide +kernel

/-- A permutation of the blocks that agrees with the cipher on the two blocks of the scalar 2. -/
def swapAes : Aes :=
  let zero : Vector UInt8 16 := Vector.replicate 16 0
  let two : Vector UInt8 16 := ⟨#[0, 0, 0, 0, 0, 0, 0, 0, 0, 0, 0, 0, 0, 0, 0, 2], rfl⟩
  let first : Vector UInt8 16 := ⟨#[0xF6, 0xFD, 0x0A, 0x02, 0x1F, 0x15, 0xD1, 0x7A, 0xA1, 0x17, 0xD9, 0xD8, 0x03, 0xBD,
    0x82, 0x01], rfl⟩
  let second : Vector UInt8 16 := ⟨#[0xAB, 0x3C, 0x36, 0xEB, 0xAF, 0xA4, 0x01, 0x2C, 0xE1, 0xD9, 0x32, 0x97, 0xD3, 0xF3,
    0x5B, 0xC1], rfl⟩
  let cipher := (Equiv.swap zero first).trans (Equiv.swap two second)
  ⟨cipher, cipher.symm, cipher.symm_apply_apply⟩

theorem small_staged_disagree : ¬ small.Agrees Sm3.sm3 swapAes (2 ^ 31) :=
  small.not_agrees_of_long Sm3.sm3 swapAes Session.small_point_ne_zero (by decide)

end StagedSession
end MyTools.Sm2
