import MyTools.Sm2.Staged

/-! How the agreement routines end, for arbitrary arguments and allocations. The answers
of `sm3_z` and `kdf_key` are not looked at, so that a run that returns 1 may have left
the key as it was. -/
namespace MyTools.Sm2
open Library MyTools.Sm2.Miracl

/-! The hash of an identity. -/

section
variable {malloc : Malloc} {id x y : Arg}

/-- `sm3_z` fails: a coordinate is too long, or there is no memory. -/
def ZFails (malloc : Malloc) (id x y : Arg) : Prop :=
  32 < x.len ∨ 32 < y.len ∨ (id.len + 194 < 2 ^ 31 ∧ malloc (sizeT (2 + id.len + 128 + 32 + 32)) = none)

/-- `sm3_z` succeeds and stays inside of its arrays. -/
structure ZSucceeds (malloc : Malloc) (id x y : Arg) : Prop where
  size : id.len + 194 < 2 ^ 31
  allocated : malloc (sizeT (2 + id.len + 128 + 32 + 32)) ≠ none
  id_len : 0 ≤ id.len
  x_len : 0 ≤ x.len ∧ x.len ≤ 32
  x_readable : 32 ≤ x.ptr.length
  y_len : y.len = 32

variable (sm3 : Bytes → Octets)

theorem bufferSize {id : Arg} (fits : id.len + 194 < 2 ^ 31) :
    intSum (2 + id.len + 128 + 32 + 32) = some (2 + id.len + 128 + 32 + 32) := by
  have low := id.int.1
  exact intSum_run (by omega)

theorem sm3Z_fails (fails : ZFails malloc id x y) (z : Octets) :
    sm3Z sm3 malloc id.ptr id.len x.ptr x.len y.ptr y.len z = some (-1, z) := by
  unfold sm3Z
  by_cases long : 32 < x.len ∨ 32 < y.len
  · rw [if_pos long]
  · obtain x_short | y_short | ⟨fits, refused⟩ := fails
    · exact absurd (.inl x_short) long
    · exact absurd (.inr y_short) long
    · simp only [if_neg long, bufferSize fits, Option.bind_eq_bind, Option.bind_some, refused]
      rfl

theorem sizeT_arg (id : Arg) (low : 0 ≤ id.len) : sizeT id.len = id.len.toNat ∧
    sizeT (2 + id.len + 128 + 32 + 32) = id.len.toNat + 194 := by
  have high := id.int.2
  unfold sizeT
  omega

theorem sm3Z_succeeds (ok : ZSucceeds malloc id x y) : ∃ message : Bytes, ∀ (sm3 : Bytes → Octets) (z : Octets),
    sm3Z sm3 malloc id.ptr id.len x.ptr x.len y.ptr y.len z = some (0, sm3 message) := by
  obtain ⟨fits, allocated, id_len, ⟨x_low, x_high⟩, x_readable, y_len⟩ := ok
  obtain ⟨block, granted⟩ := Option.ne_none_iff_exists'.mp allocated
  obtain ⟨id_size, size⟩ := sizeT_arg id id_len
  have id_readable := id.readable
  have y_readable := y.readable
  have short : ¬ (32 < x.len ∨ 32 < y.len) := by omega
  have id_read : id.ptr.read (sizeT id.len) = some (id.ptr.take id.len.toNat) := by
    rw [id_size, Bytes.read_of_le (by omega)]
  have x_read : x.ptr.read 32 = some (x.ptr.take 32) := Bytes.read_of_le x_readable
  have y_read : y.ptr.read 32 = some (y.ptr.take 32) := Bytes.read_of_le (by omega)
  have length : block.toList.length = id.len.toNat + 194 := by rw [Vector.length_toList, size]
  obtain ⟨buf₁, run₁, length₁⟩ := Bytes.write_run block.toList 0
    [UInt8.ofInt (id.len * 8 / 256), UInt8.ofInt (id.len * 8)] le_rfl (by simp; omega)
  obtain ⟨buf₂, run₂, length₂⟩ := Bytes.write_run buf₁ 2 (id.ptr.take id.len.toNat)
    (by decide) (by simp; omega)
  obtain ⟨buf₃, run₃, length₃⟩ := Bytes.write_run buf₂ (2 + id.len) sm2ParDig (by omega)
    (by rw [show sm2ParDig.length = 128 from rfl]; omega)
  obtain ⟨buf₄, run₄, length₄⟩ := Bytes.write_run buf₃ (2 + id.len + 128)
    (List.replicate 64 0) (by omega) (by simp; omega)
  obtain ⟨buf₅, run₅, length₅⟩ := Bytes.write_run buf₄ (2 + id.len + 128 + 32 - x.len)
    (x.ptr.take 32) (by omega) (by simp; omega)
  obtain ⟨buf₆, run₆, length₆⟩ := Bytes.write_run buf₅ (2 + id.len + 128 + 32 + 32 - y.len)
    (y.ptr.take 32) (by omega) (by simp; omega)
  have whole : buf₆.read (2 + id.len + 128 + 32 + 32).toNat = some (buf₆.take (2 + id.len + 128 + 32 + 32).toNat) :=
    Bytes.read_of_le (by omega)
  refine ⟨buf₆.take (2 + id.len + 128 + 32 + 32).toNat, fun sm3 z => ?_⟩
  simp -implicitDefEqProofs only [sm3Z, if_neg short, bufferSize fits, granted, run₁, id_read, run₂, run₃, run₄, x_read, run₅, y_read, run₆, whole,
    Option.bind_eq_bind, Option.bind_some]
  rfl

theorem zOutcome_of_run {z : Octets} {result : ℤ × Octets}
    (run : sm3Z sm3 malloc id.ptr id.len x.ptr x.len y.ptr y.len z = some result) :
    ZFails malloc id x y ∨ ZSucceeds malloc id x y := by
  by_cases long : 32 < x.len ∨ 32 < y.len
  · exact .inl (long.elim .inl fun y_long => .inr (.inl y_long))
  have fits : id.len + 194 < 2 ^ 31 := by
    rw [sm3Z, if_neg long] at run
    obtain ⟨size, sum, -⟩ := Option.bind_eq_some_iff.mp run
    have bound := (of_intSum sum).2.2
    omega
  cases allocated : malloc (sizeT (2 + id.len + 128 + 32 + 32)) with
  | none => exact .inl (.inr (.inr ⟨fits, allocated⟩))
  | some block =>
    right
    simp only [sm3Z, if_neg long, bufferSize fits, Option.bind_eq_bind, Option.bind_some] at run
    simp only [allocated, Option.bind_eq_some_iff] at run
    obtain ⟨buf₁, run₁, idBytes, id_read, buf₂, run₂, buf₃, run₃, buf₄, run₄, xBytes, x_read, buf₅, run₅, yBytes, y_read,
      buf₆, run₆, -⟩ := run
    obtain ⟨id_inside, -, -⟩ := Bytes.read_eq_some id_read
    obtain ⟨x_inside, -, x_length⟩ := Bytes.read_eq_some x_read
    obtain ⟨-, -, y_length⟩ := Bytes.read_eq_some y_read
    have id_len : 0 ≤ id.len := by
      have object := id.object
      have int := id.int
      by_contra negative
      unfold sizeT at id_inside
      omega
    obtain ⟨-, size⟩ := sizeT_arg id id_len
    have length : block.toList.length = id.len.toNat + 194 := by rw [Vector.length_toList, size]
    have length₁ := Bytes.write_length run₁
    have length₂ := Bytes.write_length run₂
    have length₃ := Bytes.write_length run₃
    have length₄ := Bytes.write_length run₄
    have length₅ := Bytes.write_length run₅
    obtain ⟨-, x_high⟩ := Bytes.write_inside run₅
    obtain ⟨-, y_high⟩ := Bytes.write_inside run₆
    exact ⟨fits, by rw [allocated]; exact Option.some_ne_none block, id_len, by omega, x_inside, by omega⟩

end

/-! The key, told apart from other strings by a hash that shows one octet of its argument. -/

/-- The octet `i` of the message, 32 times. -/
def probe (i : ℕ) (message : Bytes) : Octets := Vector.replicate 32 (message[i]?.getD 0)

theorem kdfStream_head (sm3 : Bytes → Octets) (z : Bytes) {klen : ℕ} (positive : 0 < klen) :
    (kdfStream sm3 z klen).head? = some (sm3 (z ++ Bytes.ofNat 4 1)).head := by
  obtain ⟨klen, rfl⟩ := Nat.exists_eq_succ_of_ne_zero positive.ne'
  generalize size : klen / 32 + 1 = count
  have first : (kdfBlock sm3 z 1).head? = some (sm3 (z ++ Bytes.ofNat 4 1)).head := by
    rw [kdfBlock, List.head?_eq_getElem?, Vector.getElem?_toList]
    rfl
  rw [kdfStream, kdfStreamFrom, List.head?_take, if_neg (by omega), List.head?_append, first]
  rfl

theorem probe_stream {i : ℕ} {z : Bytes} (inside : i < z.length) {klen : ℕ} (positive : 0 < klen) :
    (kdfStream (probe i) z klen).head? = some (z[i]?.getD 0) := by
  have octet (byte : UInt8) : (Vector.replicate 32 byte).head = byte := rfl
  rw [kdfStream_head _ _ positive, probe, octet, List.getElem?_append_left inside]

theorem keyInput_getElem? (xubuf yubuf za zb : Octets) {i : ℕ} (inside : i < 64) :
    (keyInput xubuf yubuf za zb)[i]? = (xubuf.toList ++ yubuf.toList)[i]? := by
  rw [keyInput, List.append_assoc _ za.toList, List.getElem?_append_left (by simpa using inside)]

theorem coordinates_of_streams {xubuf yubuf xubuf' yubuf' : Octets} (za zb : (Bytes → Octets) → Octets) {klen : ℕ}
    (positive : 0 < klen)
    (same : ∀ sm3, kdfStream sm3 (keyInput xubuf yubuf (za sm3) (zb sm3)) klen =
      kdfStream sm3 (keyInput xubuf' yubuf' (za sm3) (zb sm3)) klen) : xubuf = xubuf' ∧ yubuf = yubuf' := by
  have whole : xubuf.toList ++ yubuf.toList = xubuf'.toList ++ yubuf'.toList := by
    apply List.ext_getElem (by simp)
    intro i inside inside'
    have small : i < 64 := by simpa using inside
    have heads := congrArg List.head? (same (probe i))
    rw [probe_stream (by simp; omega) positive, probe_stream (by simp; omega) positive, keyInput_getElem? _ _ _ _ small,
      keyInput_getElem? _ _ _ _ small, List.getElem?_eq_getElem inside, List.getElem?_eq_getElem inside'] at heads
    exact Option.some.inj heads
  obtain ⟨x, y⟩ := List.append_inj whole (by simp)
  exact ⟨Vector.toList_inj.mp x, Vector.toList_inj.mp y⟩

/-- The array holds the key that `pt` gives. -/
def Keyed (sm3 : Bytes → Octets) (keylen : UInt32) (pt : Point) (za zb : Octets) (keybuf : Bytes) : Prop :=
  keybuf.take keylen.toNat = kdfStream sm3 (keyInput (xOctets pt) (yOctets pt) za zb) keylen.toNat

theorem kdfKey_eq_kdfFill (sm3 : Bytes → Octets) {malloc : Malloc} (allocated : malloc (sizeT (128 + 4)) ≠ none)
    (xubuf yubuf za zb : Octets) (klen : ℤ) (keybuf : Bytes) :
    kdfKey sm3 malloc (keyInput xubuf yubuf za zb) 128 klen keybuf =
      (kdfFill sm3 (keyInput xubuf yubuf za zb) klen keybuf).map (1, ·) := by
  obtain ⟨block, granted⟩ := Option.ne_none_iff_exists'.mp allocated
  have whole : (keyInput xubuf yubuf za zb).read (sizeT 128) = some (keyInput xubuf yubuf za zb) := by
    rw [show sizeT 128 = (keyInput xubuf yubuf za zb).length by rw [length_keyInput]; rfl, Bytes.read_length]
  simp only [kdfKey, granted, whole, Option.bind_eq_bind, Option.bind_some]
  cases kdfFill sm3 (keyInput xubuf yubuf za zb) klen keybuf <;> rfl

/-- What makes the array hold the key of the point `pt`, the point `agreed` being the one
that is computed. -/
def Derivable (malloc : Malloc) (keylen : UInt32) (agreed pt : Point) : Prop :=
  keylen = 0 ∨ (malloc (sizeT (128 + 4)) ≠ none ∧ keylen.toNat < 2 ^ 31 ∧ pt = agreed ∧ NonzeroCoordinates pt)

section
variable {malloc : Malloc} {keylen : UInt32} {agreed pt : Point}

theorem keyed_of_derivable (derivable : Derivable malloc keylen agreed pt) (sm3 : Bytes → Octets)
    (xubuf yubuf za zb : Octets) {keybuf : Bytes} (room : keylen.toNat ≤ keybuf.length) :
    ∃ ret result, kdfKey sm3 malloc (keyInput (filled (abscissa agreed) xubuf) (filled (ordinate agreed) yubuf) za zb) 128
      (asInt keylen) keybuf = some (ret, result) ∧ Keyed sm3 keylen pt za zb result := by
  by_cases allocated : malloc (sizeT (128 + 4)) = none
  · have empty : keylen = 0 := derivable.resolve_right fun both => both.1 allocated
    subst empty
    exact ⟨0, keybuf, by simp only [kdfKey, allocated], rfl⟩
  have short : keylen.toNat < 2 ^ 31 := by
    obtain rfl | ⟨-, short, -⟩ := derivable
    · decide
    · exact short
  refine ⟨1, kdfStream sm3 (keyInput (filled (abscissa agreed) xubuf) (filled (ordinate agreed) yubuf) za zb)
    keylen.toNat ++ keybuf.drop keylen.toNat, ?_, ?_⟩
  · rw [kdfKey_eq_kdfFill sm3 allocated, asInt_of_lt short, kdfFill_run sm3 _ keybuf room, Option.map_some]
  · obtain rfl | ⟨-, -, rfl, nonzero⟩ := derivable
    · rfl
    · rw [Keyed, List.take_left' (length_kdfStream sm3 _ _), filled, filled, if_neg nonzero.abscissa_ne,
        if_neg nonzero.ordinate_ne]
      rfl

theorem derivable_of_keyed (finite : agreed ≠ 0) (za zb : (Bytes → Octets) → Octets)
    (keyed : ∀ sm3 xubuf yubuf keybuf, keylen.toNat ≤ keybuf.length → ∃ ret result,
      kdfKey sm3 malloc (keyInput (filled (abscissa agreed) xubuf) (filled (ordinate agreed) yubuf) (za sm3) (zb sm3)) 128
        (asInt keylen) keybuf = some (ret, result) ∧ Keyed sm3 keylen pt (za sm3) (zb sm3) result) :
    Derivable malloc keylen agreed pt := by
  by_cases empty : keylen = 0
  · exact .inl empty
  have positive : 0 < keylen.toNat := Nat.pos_of_ne_zero fun zero => empty (UInt32.toNat_inj.mp zero)
  -- a run that leaves an array as it was does not leave the key in every array
  have touched (unchanged : ∀ sm3 z keybuf result ret,
      kdfKey sm3 malloc z 128 (asInt keylen) keybuf = some (ret, result) → result = keybuf) : False := by
    obtain ⟨ret, result, run, keyed⟩ := keyed (fun _ => octets 0) (octets 0) (octets 0)
      (List.replicate keylen.toNat 1) (by simp)
    obtain rfl := unchanged _ _ _ _ _ run
    have heads := congrArg List.head? keyed
    rw [List.take_of_length_le (by simp), List.head?_replicate, if_neg positive.ne', kdfStream_head _ _ positive] at heads
    exact absurd heads (by decide)
  have allocated : malloc (sizeT (128 + 4)) ≠ none := by
    intro refused
    apply touched
    intro sm3 z keybuf result ret run
    simp only [kdfKey, refused] at run
    cases run
    rfl
  have short : keylen.toNat < 2 ^ 31 := by
    by_contra long
    exact touched fun sm3 z keybuf result ret => kdfKey_negative sm3 (asInt_of_le (Nat.not_lt.mp long))
  -- the coordinates are copied whatever the arrays held
  have copied (xubuf yubuf : Octets) :
      filled (abscissa agreed) xubuf = xOctets pt ∧ filled (ordinate agreed) yubuf = yOctets pt := by
    apply coordinates_of_streams za zb positive
    intro sm3
    obtain ⟨ret, result, run, keyed⟩ := keyed sm3 xubuf yubuf (List.replicate keylen.toNat 0) (by simp)
    rw [kdfKey_eq_kdfFill sm3 allocated, asInt_of_lt short, kdfFill_run sm3 _ _ (by simp), Option.map_some] at run
    cases run
    rw [Keyed, List.take_left' (length_kdfStream sm3 _ _)] at keyed
    exact keyed
  have nonzero {x : ℕ} {bytes : Octets} (all : ∀ ptr, filled x ptr = bytes) : x ≠ 0 ∧ octets x = bytes := by
    have x_ne : x ≠ 0 := by
      rintro rfl
      have both : octets 0 = octets 1 := (all (octets 0)).trans (all (octets 1)).symm
      exact absurd both (by decide)
    have written := all (octets 0)
    rw [filled, if_neg x_ne] at written
    exact ⟨x_ne, written⟩
  obtain ⟨x_ne, x_eq⟩ := nonzero fun ptr => (copied ptr (octets 0)).1
  obtain ⟨y_ne, y_eq⟩ := nonzero fun ptr => (copied (octets 0) ptr).2
  have same : pt = agreed := by
    have x := congrArg Octets.value x_eq
    have y := congrArg Octets.value y_eq
    rw [xOctets_value, octets_value ((abscissa_lt agreed).trans p_lt)] at x
    rw [yOctets_value, octets_value ((ordinate_lt agreed).trans p_lt)] at y
    have finite' : pt ≠ 0 := by
      rintro rfl
      exact x_ne x
    apply Curve.Point.ext
    rw [coordinates_of_ne_zero finite', coordinates_of_ne_zero finite, x, y]
  exact .inr ⟨allocated, short, same, by rw [same]; exact ⟨x_ne, y_ne⟩⟩

end

/-! The calls. -/

structure Side where
  kx : Arg
  ky : Arg
  x : Arg
  y : Arg
  id : Arg

/-- A call on either side; `privateTmp` is the ephemeral scalar or its encryption. -/
structure AgreementCall where
  m : Mallocs
  a : Side
  b : Side
  privateKey : Arg
  privateTmp : Arg
  keylen : UInt32

def Side.z (side : Side) (sm3 : Bytes → Octets) (malloc : Malloc) (z : Octets) : Option (ℤ × Octets) :=
  sm3Z sm3 malloc side.id.ptr side.id.len side.x.ptr side.x.len side.y.ptr side.y.len z

theorem Side.z_run (side : Side) {malloc : Malloc}
    (outcome : ZFails malloc side.id side.x side.y ∨ ZSucceeds malloc side.id side.x side.y) :
    ∃ r, ∃ hash : (Bytes → Octets) → Octets → Octets, (∀ sm3 z, side.z sm3 malloc z = some (r, hash sm3 z)) ∧
      (r = 0 ↔ ZSucceeds malloc side.id side.x side.y) := by
  by_cases ok : ZSucceeds malloc side.id side.x side.y
  · obtain ⟨message, run⟩ := sm3Z_succeeds ok
    exact ⟨0, fun sm3 _ => sm3 message, run, iff_of_true rfl ok⟩
  · have run := fun sm3 => sm3Z_fails sm3 (outcome.resolve_right ok)
    exact ⟨-1, fun _ z => z, run, iff_of_false (by decide) ok⟩

namespace AgreementCall
variable (c : AgreementCall)

/-- Both calls of `sm3_z` stay inside of their arrays. -/
def ZsDefined : Prop :=
  (ZFails c.m.za c.a.id c.a.x c.a.y ∨ ZSucceeds c.m.za c.a.id c.a.x c.a.y) ∧
    (ZFails c.m.zb c.b.id c.b.x c.b.y ∨ ZSucceeds c.m.zb c.b.id c.b.x c.b.y)

def ZsSucceed : Prop := ZSucceeds c.m.za c.a.id c.a.x c.a.y ∧ ZSucceeds c.m.zb c.b.id c.b.x c.b.y

/-- Both hashes were computed and the array holds the key of the shared point. -/
def Sound (shared : Option Point) (sm3 : Bytes → Octets) (l : Locals) (keybuf : Bytes) : Prop :=
  ∃ za zb, c.a.z sm3 c.m.za l.za = some (0, za) ∧ c.b.z sm3 c.m.zb l.zb = some (0, zb) ∧
    ∃ pt ∈ shared, Keyed sm3 c.keylen pt za zb keybuf

/-- A run that returns 1 has a key, and one that returns 0 has changed nothing. -/
def Keeps (shared : Option Point) (run : (Bytes → Octets) → Locals → KeyOut → Option (ℤ × KeyOut)) : Prop :=
  ∀ sm3 l out, c.keylen.toNat ≤ out.keybuf.length → ∃ ret out', run sm3 l out = some (ret, out') ∧
    (ret = 1 → c.Sound shared sm3 l out'.keybuf) ∧ (ret = 0 → out' = out)

/-- The point that an agreement without stale octets in the local arrays gives. -/
def shared (agreed : Locals → OptionT Option Agreed) : Option Point := (agreed Locals.zero).run.join.map Agreed.point

/-- What makes the key of a computed point the right one. -/
def Right (shared : Option Point) (agreed : Agreed) : Prop :=
  c.ZsSucceed ∧ ∃ pt ∈ shared, Derivable c.m.key c.keylen agreed.point pt

theorem zs_run (zs : c.ZsDefined) : ∃ ra rb, ∃ za zb : (Bytes → Octets) → Locals → Octets,
    (∀ sm3 l, c.a.z sm3 c.m.za l.za = some (ra, za sm3 l) ∧ c.b.z sm3 c.m.zb l.zb = some (rb, zb sm3 l)) ∧
      (ra = 0 ∧ rb = 0 ↔ c.ZsSucceed) := by
  obtain ⟨ra, za, a_run, a_ok⟩ := c.a.z_run zs.1
  obtain ⟨rb, zb, b_run, b_ok⟩ := c.b.z_run zs.2
  exact ⟨ra, rb, fun sm3 l => za sm3 l.za, fun sm3 l => zb sm3 l.zb, fun sm3 l => ⟨a_run sm3 l.za, b_run sm3 l.zb⟩,
    and_congr a_ok b_ok⟩

/-- A run that returns 1 after `finish` has a key in every state of the memory exactly
when the agreed point is right. -/
theorem sound_iff (zs : c.ZsDefined) {a : Agreed} {l : Locals} (finite : a.point ≠ 0)
    (shared : Option Point) :
    (∀ sm3 (xubuf yubuf : Octets) (keybuf : Bytes), c.keylen.toNat ≤ keybuf.length → ∃ ra rb za zb ret result,
      c.a.z sm3 c.m.za l.za = some (ra, za) ∧ c.b.z sm3 c.m.zb l.zb = some (rb, zb) ∧
      kdfKey sm3 c.m.key (keyInput (filled (abscissa a.point) xubuf) (filled (ordinate a.point) yubuf) za zb) 128
        (asInt c.keylen) keybuf = some (ret, result) ∧ c.Sound shared sm3 l result) ↔ c.Right shared a := by
  obtain ⟨ra, rb, za, zb, runs, ok⟩ := c.zs_run zs
  constructor
  · intro sound
    obtain ⟨-, -, -, -, -, result, -, -, -, za₀, zb₀, a_run, b_run, pt, pt_shared, -⟩ :=
      sound (probe 0) (octets 0) (octets 0) (List.replicate c.keylen.toNat 0) (by simp)
    rw [(runs _ l).1] at a_run
    rw [(runs _ l).2] at b_run
    have succeed : c.ZsSucceed :=
      ok.mp ⟨(Prod.mk.inj (Option.some.inj a_run)).1, (Prod.mk.inj (Option.some.inj b_run)).1⟩
    refine ⟨succeed, pt, pt_shared, derivable_of_keyed finite (fun sm3 => za sm3 l) (fun sm3 => zb sm3 l) ?_⟩
    intro sm3 xubuf yubuf keybuf room
    obtain ⟨ra₁, rb₁, za₁, zb₁, ret, result, a_run₁, b_run₁, key_run, za₂, zb₂, a_run₂, b_run₂, pt', pt'_shared, keyed⟩ :=
      sound sm3 xubuf yubuf keybuf room
    rw [(runs sm3 l).1] at a_run₁ a_run₂
    rw [(runs sm3 l).2] at b_run₁ b_run₂
    cases a_run₁
    cases b_run₁
    cases a_run₂
    cases b_run₂
    obtain rfl := Option.mem_unique pt_shared pt'_shared
    exact ⟨ret, result, key_run, keyed⟩
  · rintro ⟨succeed, pt, pt_shared, derivable⟩ sm3 xubuf yubuf keybuf room
    obtain ⟨rfl, rfl⟩ := ok.mpr succeed
    obtain ⟨ret, result, key_run, keyed⟩ := keyed_of_derivable derivable sm3 xubuf yubuf (za sm3 l) (zb sm3 l) room
    exact ⟨0, 0, za sm3 l, zb sm3 l, ret, result, (runs sm3 l).1, (runs sm3 l).2, key_run, za sm3 l, zb sm3 l,
      (runs sm3 l).1, (runs sm3 l).2, pt, pt_shared, keyed⟩

/-- The calls of `sm3_z` are defined, no number that is read does harm, and every point that is agreed on is right. -/
def Fit (shared : Option Point) (agreed : Locals → OptionT Option Agreed) : Prop :=
  c.ZsDefined ∧ ∀ l, ∃ read, (agreed l).run = some read ∧ ∀ a ∈ read, c.Right shared a

theorem keyagreement_reads {sm3 : Bytes → Octets} {role : Role} {m : Mallocs} {ida xa ya idb xb yb : Arg}
    {routine : Miracl (Option Derived)} {keylen : UInt32} {l : Locals} {out : KeyOut} {result : ℤ × KeyOut}
    (run : keyagreement sm3 role m ida xa ya idb xb yb routine keylen l out = some result) :
    ∃ derived, call routine = some derived := by
  simp only [keyagreement, Option.bind_eq_bind, Option.bind_eq_some_iff] at run
  obtain ⟨za, -, zb, -, derived, reads, -⟩ := run
  exact ⟨derived, reads⟩

/-- The run of a routine that ends in `finish` keeps its promise exactly when the calls
of `sm3_z` are defined and every agreed point is right. -/
theorem keeps_iff {role : (Bytes → Octets) → Role} {routine : Locals → Miracl (Option Derived)}
    {agreed : Locals → OptionT Option Agreed}
    (runs : ∀ l, call (routine l) = (agreed l).run.map (Option.map (Agreed.derived l)))
    (finite : ∀ l a, (agreed l).run = some (some a) → a.point ≠ 0)
    (blind : ∀ (l : Locals) xubuf yubuf, agreed { l with xubuf, yubuf } = agreed l) (shared : Option Point) :
    c.Keeps shared (fun sm3 l out => keyagreement sm3 (role sm3) c.m c.a.id c.a.x c.a.y c.b.id c.b.x c.b.y (routine l)
      c.keylen l out) ↔ c.Fit shared agreed := by
  constructor
  · intro keeps
    have zs : c.ZsDefined := by
      obtain ⟨ret, out, run, -⟩ := keeps (probe 0) Locals.zero ⟨List.replicate c.keylen.toNat 0, none, none⟩ (by simp)
      obtain ⟨za, za_run, run⟩ := Option.bind_eq_some_iff.mp run
      obtain ⟨zb, zb_run, -⟩ := Option.bind_eq_some_iff.mp run
      exact ⟨zOutcome_of_run _ za_run, zOutcome_of_run _ zb_run⟩
    refine ⟨zs, fun l => ?_⟩
    obtain ⟨read, a_read⟩ : ∃ read, (agreed l).run = some read := by
      obtain ⟨ret, out, run, -⟩ := keeps (probe 0) l ⟨List.replicate c.keylen.toNat 0, none, none⟩ (by simp)
      obtain ⟨derived, reads⟩ := keyagreement_reads run
      rw [runs, Option.map_eq_some_iff] at reads
      obtain ⟨read, a_read, -⟩ := reads
      exact ⟨read, a_read⟩
    refine ⟨read, a_read, fun a member => ?_⟩
    rw [Option.mem_def.mp member] at a_read
    refine (c.sound_iff zs (l := l) (finite l a a_read) shared).mp ?_
    obtain ⟨ra, rb, za, zb, z_runs, -⟩ := c.zs_run zs
    intro sm3 xubuf yubuf keybuf room
    obtain ⟨ret, out, run, sound, -⟩ := keeps sm3 { l with xubuf, yubuf } ⟨keybuf, none, none⟩ room
    have derived := runs { l with xubuf, yubuf }
    rw [blind, a_read, Option.map_some, Option.map_some] at derived
    beta_reduce at run
    rw [keyagreement_run sm3 (z_runs sm3 { l with xubuf, yubuf }).1 (z_runs sm3 { l with xubuf, yubuf }).2 derived,
      Option.elim_some, Option.map_eq_some_iff] at run
    obtain ⟨result, finished, same⟩ := run
    cases same
    obtain ⟨⟨ret, key⟩, key_run, same⟩ := Option.bind_eq_some_iff.mp finished
    cases same
    exact ⟨ra, rb, _, _, ret, key, (z_runs sm3 { l with xubuf, yubuf }).1, (z_runs sm3 { l with xubuf, yubuf }).2, key_run,
      sound rfl⟩
  · rintro ⟨zs, right⟩ sm3 l out room
    obtain ⟨ra, rb, za, zb, z_runs, -⟩ := c.zs_run zs
    have derived := runs l
    obtain ⟨_ | a, a_read, right⟩ := right l
    · rw [a_read, Option.map_some, Option.map_none] at derived
      refine ⟨0, out, ?_, fun one => absurd one (by decide), fun _ => rfl⟩
      beta_reduce
      rw [keyagreement_run sm3 (z_runs sm3 l).1 (z_runs sm3 l).2 derived, Option.elim_none]
    · rw [a_read, Option.map_some, Option.map_some] at derived
      obtain ⟨_, _, _, _, ret, key, za_run, zb_run, key_run, sound⟩ :=
        (c.sound_iff zs (l := l) (finite l a a_read) shared).mpr (right a rfl) sm3 l.xubuf l.yubuf out.keybuf room
      rw [(z_runs sm3 l).1] at za_run
      rw [(z_runs sm3 l).2] at zb_run
      cases za_run
      cases zb_run
      obtain ⟨expected, sent, finished⟩ : ∃ expected sent, finish sm3 (role sm3) c.m.key (za sm3 l) (zb sm3 l)
          (a.derived l) c.keylen out = some ⟨key, expected, sent⟩ := by
        simp only [finish, Agreed.derived, key_run, Option.bind_eq_bind, Option.bind_some]
        exact ⟨_, _, rfl⟩
      refine ⟨1, ⟨key, expected, sent⟩, ?_, fun _ => sound, fun zero => absurd zero (by decide)⟩
      beta_reduce
      rw [keyagreement_run sm3 (z_runs sm3 l).1 (z_runs sm3 l).2 derived, Option.elim_some, finished]
      rfl

/-! The routines that are given the scalar in clear. -/

def agreedA (l : Locals) : OptionT Option Agreed :=
  agreedOf c.a.kx c.a.ky c.privateKey (fun _ => c.privateTmp.number) c.b.kx c.b.ky c.b.x c.b.y l

def agreedB (l : Locals) : OptionT Option Agreed :=
  agreedOf c.b.kx c.b.ky c.privateKey (fun _ => c.privateTmp.number) c.a.kx c.a.ky c.a.x c.a.y l

def runA (sm3 : Bytes → Octets) (l : Locals) (out : KeyOut) : Option (ℤ × KeyOut) :=
  sm2KeyagreementA sm3 c.m c.a.kx c.a.ky c.a.x c.a.y c.privateKey c.b.x c.b.y c.a.id c.b.id c.b.kx c.b.ky c.privateTmp
    c.keylen l out

def runB (sm3 : Bytes → Octets) (l : Locals) (out : KeyOut) : Option (ℤ × KeyOut) :=
  sm2KeyagreementB sm3 c.m c.b.kx c.b.ky c.b.x c.b.y c.privateKey c.a.x c.a.y c.b.id c.a.id c.a.kx c.a.ky c.privateTmp
    c.keylen l out

theorem agreedOf_finite {kx1 ky1 privateKey kx2 ky2 x y : Arg} {number : Ephemeral → OptionT Option ℕ} {l : Locals}
    {a : Agreed} (agreed : (agreedOf kx1 ky1 privateKey number kx2 ky2 x y l).run = some (some a)) : a.point ≠ 0 := by
  obtain ⟨own, -, agreed⟩ := run_bind_eq_some agreed
  obtain ⟨da, -, agreed⟩ := run_bind_eq_some agreed
  obtain ⟨k, -, agreed⟩ := run_bind_eq_some agreed
  obtain ⟨peer, -, agreed⟩ := run_bind_eq_some agreed
  obtain ⟨x, -, agreed⟩ := run_bind_eq_some agreed
  obtain ⟨y, -, agreed⟩ := run_bind_eq_some agreed
  obtain ⟨w, -, agreed⟩ := run_bind_eq_some agreed
  exact finite_of_agreed agreed

theorem keepsA_iff : c.Keeps (shared c.agreedA) c.runA ↔ c.Fit (shared c.agreedA) c.agreedA :=
  c.keeps_iff (fun l => derive_run (fun _ => c.privateTmp.reads 0) c.a.kx c.a.ky c.privateKey c.b.kx c.b.ky c.b.x c.b.y l)
    (fun _ _ => agreedOf_finite) (fun _ _ _ => rfl) (shared c.agreedA)

theorem keepsB_iff : c.Keeps (shared c.agreedB) c.runB ↔ c.Fit (shared c.agreedB) c.agreedB :=
  c.keeps_iff (fun l => derive_run (fun _ => c.privateTmp.reads 0) c.b.kx c.b.ky c.privateKey c.a.kx c.a.ky c.a.x c.a.y l)
    (fun _ _ => agreedOf_finite) (fun _ _ _ => rfl) (shared c.agreedB)

end AgreementCall

/-! The encrypted scalar is only read when the own ephemeral point is one of the curve. -/

theorem ephemeral_refused {kx1 ky1 : Arg} (refused : (tested kx1 ky1).run = some none) (kxbuf kybuf : Octets) (g : Point) :
    (ephemeralOf kx1 ky1 kxbuf kybuf).run = some none ∧
      ∃ mip, (readEphemeral kx1 ky1 kxbuf kybuf g).run mirsys = some (none, mip) := by
  have run := readEphemeral_run kx1 ky1 kxbuf kybuf g
  rcases read : (ephemeralOf kx1 ky1 kxbuf kybuf).run with _ | _ | e
  · rw [read] at run
    exact absurd (run.2.symm.trans refused) nofun
  · rw [read] at run
    obtain ⟨e, mip, run, -, none_iff⟩ := run
    rw [none_iff.mpr refused] at run
    exact ⟨rfl, mip, run⟩
  · rw [read] at run
    exact absurd (run.2.1.symm.trans refused) nofun

theorem derive_refused {kx1 ky1 : Arg} (refused : (tested kx1 ky1).run = some none) (privateKey : Arg)
    (scalar : Ephemeral → Miracl ℕ) (number : Ephemeral → OptionT Option ℕ) (kx2 ky2 x y : Arg) (l : Locals) :
    call (derive kx1 ky1 privateKey scalar kx2 ky2 x y l) = some none ∧
      (agreedOf kx1 ky1 privateKey number kx2 ky2 x y l).run = some none := by
  obtain ⟨read, mip, run⟩ := ephemeral_refused refused l.kx1buf l.ky1buf epointInit
  constructor
  · rw [derive, call_bind run]
    rfl
  · rw [agreedOf, OptionT.run_bind, read]
    rfl

theorem derive_undefined {kx1 ky1 : Arg} (accepted : (tested kx1 ky1).run ≠ some none) (scalar : Ephemeral → Miracl ℕ)
    (undefined : ∀ own mip, (scalar own).run mip = none) (privateKey kx2 ky2 x y : Arg) (l : Locals) :
    call (derive kx1 ky1 privateKey scalar kx2 ky2 x y l) = none := by
  have begins : (readEphemeral kx1 ky1 l.kx1buf l.ky1buf epointInit).run mirsys = none ∨
      ∃ own mip, (readEphemeral kx1 ky1 l.kx1buf l.ky1buf epointInit).run mirsys = some (some own, mip) := by
    have run := readEphemeral_run kx1 ky1 l.kx1buf l.ky1buf epointInit
    rcases read : (ephemeralOf kx1 ky1 l.kx1buf l.ky1buf).run with _ | _ | own
    · rw [read] at run
      exact .inl run.1
    · rw [read] at run
      obtain ⟨e, mip, run, -, none_iff⟩ := run
      cases e with
      | none => exact absurd (none_iff.mp rfl) accepted
      | some own => exact .inr ⟨own, mip, run⟩
    · rw [read] at run
      exact .inr ⟨own, mirsys, run.1⟩
  obtain harmed | ⟨own, mip, own_run⟩ := begins
  · exact call_bind_none harmed
  · rw [derive, call_bind own_run]
    cases key_run : (privateKey.toBig 0).run mip with
    | none => simp only [StateT.run_bind, key_run, Option.bind_eq_bind, Option.bind_none, Option.map_none]
    | some da =>
      simp only [StateT.run_bind, key_run, undefined, Option.bind_eq_bind, Option.bind_some, Option.bind_none,
        Option.map_none]

namespace AgreementCall
variable (c : AgreementCall) (aes : Aes)

def agreedA410 (l : Locals) : OptionT Option Agreed :=
  agreedOf c.a.kx c.a.ky c.privateKey (hiddenNumber aes c.privateTmp l) c.b.kx c.b.ky c.b.x c.b.y l

def runA410 (sm3 : Bytes → Octets) (l : Locals) (out : KeyOut) : Option (ℤ × KeyOut) :=
  sm2KeyagreementA410 sm3 aes c.m c.a.kx c.a.ky c.a.x c.a.y c.privateKey c.b.x c.b.y c.a.id c.b.id c.b.kx c.b.ky
    c.privateTmp c.keylen l out

/-- The encrypted scalar fits into the local array, if it is read. -/
def HiddenFits : Prop := (tested c.a.kx c.a.ky).run = some none ∨ (0 ≤ c.privateTmp.len ∧ c.privateTmp.len ≤ 256)

theorem keepsA410_iff :
    c.Keeps (shared (c.agreedA410 aes)) (c.runA410 aes) ↔
      c.HiddenFits ∧ c.Fit (shared (c.agreedA410 aes)) (c.agreedA410 aes) := by
  by_cases fits : c.HiddenFits
  · have runs (l : Locals) : call (derive c.a.kx c.a.ky c.privateKey (hiddenScalar aes c.privateTmp l) c.b.kx c.b.ky
        c.b.x c.b.y l) = (c.agreedA410 aes l).run.map (Option.map (Agreed.derived l)) := by
      obtain refused | ⟨low, high⟩ := fits
      · obtain ⟨run, agreed⟩ := derive_refused refused c.privateKey (hiddenScalar aes c.privateTmp l)
          (hiddenNumber aes c.privateTmp l) c.b.kx c.b.ky c.b.x c.b.y l
        rw [run, agreedA410, agreed]
        rfl
      · exact derive_run (hiddenScalar_reads aes low high l) _ _ _ _ _ _ _ l
    rw [and_iff_right fits]
    exact c.keeps_iff runs (fun _ _ => agreedOf_finite) (fun _ _ _ => rfl) (shared (c.agreedA410 aes))
  · obtain ⟨accepted, outside⟩ := not_or.mp fits
    refine iff_of_false (fun keeps => ?_) (fun both => fits both.1)
    obtain ⟨ret, out, run, -⟩ := keeps (probe 0) Locals.zero ⟨List.replicate c.keylen.toNat 0, none, none⟩ (by simp)
    have undefined := derive_undefined accepted (hiddenScalar aes c.privateTmp Locals.zero)
      (fun own mip => by rw [hiddenScalar_run, hiddenBuf_none aes outside, Option.bind_none]) c.privateKey c.b.kx c.b.ky
      c.b.x c.b.y Locals.zero
    obtain ⟨derived, reads⟩ := keyagreement_reads run
    rw [undefined] at reads
    cases reads

/-! The responder of the staged routines writes its ephemeral point before the first test. -/

def agreedB19 (key : PrivateKey) (l : Locals) : OptionT Option Agreed :=
  Sm2.agreedB19 key.d (ephemeralOfKey key l) c.privateKey c.a.kx c.a.ky c.a.x c.a.y l

def runB19 (draws : List ℕ) (sm3 : Bytes → Octets) (l : LocalsB19) (out : OutB19) : Option (ℤ × OutB19) :=
  sm2KeyagreementB19 sm3 aes c.m draws c.a.kx c.a.ky c.a.x c.a.y c.privateKey c.b.x c.b.y c.a.id c.b.id c.keylen l out

end AgreementCall

structure Draws where
  raws : List ℕ
  key : PrivateKey
  scalar : drawn raws = some key.d

namespace AgreementCall
variable (c : AgreementCall) (aes : Aes) (draws : Draws)

def KeepsB19 : Prop :=
  ∀ sm3 (l : LocalsB19) (out : OutB19), c.keylen.toNat ≤ out.kbbuf.length → out.Room →
    ∃ ret out', c.runB19 aes draws.raws sm3 l out = some (ret, out') ∧
      (ret = 1 → c.Sound (shared (c.agreedB19 draws.key)) sm3 l.toLocals out'.kbbuf) ∧ (ret = 0 → out' = out)

/-- The call is not refused, and what it agrees on is right. -/
def FitB19 : Prop :=
  c.ZsDefined ∧ ∀ l, ∃ a, (c.agreedB19 draws.key l).run = some (some a) ∧ c.Right (shared (c.agreedB19 draws.key)) a

theorem agreedB19_finite {k : ℕ} {own : Ephemeral} {privateB kx1 ky1 pax pay : Arg} {l : Locals} {a : Agreed}
    (agreed : (Sm2.agreedB19 k own privateB kx1 ky1 pax pay l).run = some (some a)) : a.point ≠ 0 := by
  obtain ⟨db, -, agreed⟩ := run_bind_eq_some agreed
  obtain ⟨peer, -, agreed⟩ := run_bind_eq_some agreed
  obtain ⟨x, -, agreed⟩ := run_bind_eq_some agreed
  obtain ⟨y, -, agreed⟩ := run_bind_eq_some agreed
  split at agreed
  · split at agreed
    · obtain ⟨w, -, agreed⟩ := run_bind_eq_some agreed
      exact finite_of_agreed agreed
    · cases agreed
  · cases agreed

theorem runB19_eq {sm3 : Bytes → Octets} {l : LocalsB19} {ra rb : ℤ} {za zb : Octets}
    (za_run : c.a.z sm3 c.m.za l.za = some (ra, za)) (zb_run : c.b.z sm3 c.m.zb l.zb = some (rb, zb)) (out : OutB19) :
    c.runB19 aes draws.raws sm3 l out = (c.agreedB19 draws.key l.toLocals).run.bind fun a =>
      (a.map (Agreed.derivedB19 l.toLocals)).elim (some (0, out.drew (ephemeralOfKey draws.key l.toLocals))) fun d =>
        (finishB19 sm3 aes c.m.key za zb d c.keylen (out.drew (ephemeralOfKey draws.key l.toLocals))).map (1, ·) := by
  have ends := deriveB19_leaves draws.key.d (ephemeralOfKey draws.key l.toLocals) c.privateKey c.a.kx c.a.ky c.a.x c.a.y l
  have own := drawEphemeral_run draws.scalar l.toLocals
  rw [Leaves, OptionT.run_map] at ends
  rw [agreedB19]
  rcases read : (Sm2.agreedB19 draws.key.d (ephemeralOfKey draws.key l.toLocals) c.privateKey c.a.kx c.a.ky c.a.x c.a.y
    l.toLocals).run with _ | a
  · rw [read] at ends
    exact sm2KeyagreementB19_harmed sm3 aes za_run zb_run own ends c.keylen out
  · rw [read] at ends
    exact sm2KeyagreementB19_run sm3 aes za_run zb_run own ends c.keylen out

theorem keepsB19_iff : c.KeepsB19 aes draws ↔ c.FitB19 draws := by
  constructor
  · intro keeps
    have zs : c.ZsDefined := by
      obtain ⟨ret, out, run, -⟩ := keeps (probe 0) ⟨Locals.zero, octets 0, octets 0⟩
        ⟨List.replicate c.keylen.toNat 0, octets 0, 0, octets 0, 0, none, 0, none, 0, none⟩ (by simp) ⟨nofun, nofun⟩
      obtain ⟨za, za_run, run⟩ := Option.bind_eq_some_iff.mp run
      obtain ⟨zb, zb_run, -⟩ := Option.bind_eq_some_iff.mp run
      exact ⟨zOutcome_of_run _ za_run, zOutcome_of_run _ zb_run⟩
    obtain ⟨ra, rb, za, zb, z_runs, -⟩ := c.zs_run zs
    refine ⟨zs, fun l => ?_⟩
    rcases agreed : (c.agreedB19 draws.key l).run with _ | _ | a
    · obtain ⟨ret, out, run, -⟩ := keeps (probe 0) ⟨l, octets 0, octets 0⟩
        ⟨List.replicate c.keylen.toNat 0, octets 0, 0, octets 0, 0, none, 0, none, 0, none⟩ (by simp) ⟨nofun, nofun⟩
      rw [c.runB19_eq aes draws (l := ⟨l, octets 0, octets 0⟩) (z_runs (probe 0) l).1 (z_runs (probe 0) l).2, agreed] at run
      cases run
    · obtain ⟨ret, out, run, -, unchanged⟩ := keeps (probe 0) ⟨l, octets 0, octets 0⟩
        ⟨List.replicate c.keylen.toNat 0, octets 0, 0, octets 0, 0, none, 0, none, 0, none⟩ (by simp) ⟨nofun, nofun⟩
      rw [c.runB19_eq aes draws (l := ⟨l, octets 0, octets 0⟩) (z_runs (probe 0) l).1 (z_runs (probe 0) l).2, agreed,
        Option.bind_some, Option.map_none, Option.elim_none] at run
      obtain ⟨rfl, rfl⟩ := Prod.mk.inj (Option.some.inj run)
      have lengths : (32 : ℤ) = 0 := congrArg OutB19.kx2len (unchanged rfl)
      exact absurd lengths (by decide)
    · refine ⟨a, rfl, (c.sound_iff zs (l := l) (agreedB19_finite agreed) _).mp ?_⟩
      intro sm3 xubuf yubuf keybuf room
      obtain ⟨ret, out, run, sound, -⟩ := keeps sm3 ⟨{ l with xubuf, yubuf }, octets 0, octets 0⟩
        ⟨keybuf, octets 0, 0, octets 0, 0, none, 0, none, 0, none⟩ room ⟨nofun, nofun⟩
      have agreed : (c.agreedB19 draws.key { l with xubuf, yubuf }).run = some (some a) := agreed
      rw [c.runB19_eq aes draws (l := ⟨{ l with xubuf, yubuf }, octets 0, octets 0⟩)
        (z_runs sm3 { l with xubuf, yubuf }).1 (z_runs sm3 { l with xubuf, yubuf }).2, agreed, Option.bind_some,
        Option.map_some, Option.elim_some, Option.map_eq_some_iff] at run
      obtain ⟨result, finished, same⟩ := run
      cases same
      obtain ⟨⟨ret, key_run⟩, -⟩ := finishB19_out sm3 aes finished
      exact ⟨ra, rb, _, _, ret, out.kbbuf, (z_runs sm3 { l with xubuf, yubuf }).1,
        (z_runs sm3 { l with xubuf, yubuf }).2, key_run, sound rfl⟩
  · rintro ⟨zs, right⟩ sm3 l out room arrays
    obtain ⟨ra, rb, za, zb, z_runs, -⟩ := c.zs_run zs
    obtain ⟨a, agreed, right⟩ := right l.toLocals
    obtain ⟨_, _, _, _, ret, key, za_run, zb_run, key_run, sound⟩ :=
      (c.sound_iff zs (l := l.toLocals) (agreedB19_finite agreed) _).mpr right sm3 l.xubuf l.yubuf out.kbbuf room
    rw [(z_runs sm3 l.toLocals).1] at za_run
    rw [(z_runs sm3 l.toLocals).2] at zb_run
    cases za_run
    cases zb_run
    rw [← OutB19.drew_kbbuf out (ephemeralOfKey draws.key l.toLocals)] at key_run
    obtain ⟨result, finished, rfl⟩ := finishB19_run (d := a.derivedB19 l.toLocals) sm3 aes key_run
      (arrays.drew (ephemeralOfKey draws.key l.toLocals))
    refine ⟨1, result, ?_, fun _ => sound, fun zero => absurd zero (by decide)⟩
    rw [c.runB19_eq aes draws (z_runs sm3 l.toLocals).1 (z_runs sm3 l.toLocals).2, agreed, Option.bind_some,
      Option.map_some, Option.elim_some, finished]
    rfl

/-- When the four routines keep their promise. -/
theorem routines_keep_iff :
    (c.Keeps (shared c.agreedA) c.runA ↔ c.Fit (shared c.agreedA) c.agreedA) ∧
      (c.Keeps (shared c.agreedB) c.runB ↔ c.Fit (shared c.agreedB) c.agreedB) ∧
      (c.Keeps (shared (c.agreedA410 aes)) (c.runA410 aes) ↔
        c.HiddenFits ∧ c.Fit (shared (c.agreedA410 aes)) (c.agreedA410 aes)) ∧
      (c.KeepsB19 aes draws ↔ c.FitB19 draws) :=
  ⟨c.keepsA_iff, c.keepsB_iff, c.keepsA410_iff aes, c.keepsB19_iff aes draws⟩

/-- The initiator's own ordinate with a leading zero: `sm3_z` refuses it, and the routine
goes on. -/
def longOrdinate : AgreementCall :=
  let s := Session.small
  let y : Arg := ⟨0 :: s.a.y.ptr, 33, by decide +kernel, by decide, by decide +kernel⟩
  let blocks : (size : ℕ) → Vector UInt8 size := fun size => Vector.replicate size 0
  ⟨⟨granted blocks, granted blocks, granted blocks⟩, ⟨s.a.kx, s.a.ky, s.a.x, y, s.a.id.toArg⟩,
    ⟨s.b.kx, s.b.ky, s.b.x, s.b.y, s.b.id.toArg⟩, s.a.privateKey, s.a.privateTmp, 16⟩

theorem longOrdinate_not_keeps : ¬ longOrdinate.Keeps (shared longOrdinate.agreedA) longOrdinate.runA := by
  intro keeps
  have agreed := Session.small.a.agreedOf_eq Session.small.b (fun _ => Session.small.a.privateTmp.number)
    Session.small.a.privateTmp_number Locals.zero
  have finite : Session.small.a.shared Session.small.b ≠ 0 := Session.small_point_ne_zero
  rw [if_neg finite] at agreed
  obtain ⟨read, a_read, right⟩ := (longOrdinate.keepsA_iff.mp keeps).2 Locals.zero
  have same := a_read.symm.trans (congrArg OptionT.run agreed)
  exact absurd (right _ (Option.some.inj same)).1.1.y_len (by decide)

end AgreementCall

end MyTools.Sm2
