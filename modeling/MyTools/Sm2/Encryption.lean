import MyTools.Library.Exchange
import MyTools.Sm2.Hash
import MyTools.Sm3.Digest

/-! `sm2_encrypt` and `sm2_decrypt`. Their input and output arrays do not overlap;
local arrays start with the contents that are passed for them. -/
namespace MyTools.Sm2
open Library MyTools.Sm2.Miracl
open MyTools.Miracl (nib)

section
variable (sm3 : Bytes → Octets)

/-- The variables that `sm2_encrypt` carries around `sm2_encrypt_again`. -/
structure EncryptState where
  k : ℕ
  c1 : ℕ
  c2 : ℕ
  x2 : ℕ
  y2 : ℕ
  g : Point
  w : Point
  zl : Octets
  zr : Octets
  outmsg : Bytes

/-- The rest of a pass after a usable key stream: the text under the stream and the digest. -/
def sm2EncryptText (msg : Bytes) (msglen : ℤ) (zl zr : Octets) (outmsg : Bytes) : Option (ℤ × Bytes) := do
  let stream ← Bytes.read (outmsg.drop 96) msglen.toNat
  let outmsg ← Bytes.write outmsg 96 (stream.xor (← msg.read msglen.toNat))
  let text ← msg.read (sizeT msglen)
  let outmsg ← outmsg.write 64 (sm3 (zl.toList ++ text ++ zr.toList)).toList
  return (msglen + 64 + 32, outmsg)

def sm2EncryptAgain (msg : Bytes) (msglen : ℤ) : (draws : List ℕ) → EncryptState → Miracl (ℤ × Bytes)
  | [], _ => fun _ => none
  | raw :: draws, v => do
    let k ← bigrand raw n v.k
    if k = 0 then sm2EncryptAgain msg msglen draws { v with k } else
    let g ← ecurveMult k v.g v.g
    let (c1, c2) ← epointGet g v.c1 v.c2
    let outmsg ← bigToBytesAt c1 0 v.outmsg
    let outmsg ← bigToBytesAt c2 32 outmsg
    if pointAtInfinity v.w then return (-1, outmsg) else
    let w ← ecurveMult k v.w v.w
    let (x2, y2) ← epointGet w v.x2 v.y2
    let (_, zl) ← bigToBytes x2 v.zl
    let (_, zr) ← bigToBytes y2 v.zr
    let (usable, stream) ← kdf sm3 zl zr msglen (outmsg.drop 96)
    let outmsg := outmsg.take 96 ++ stream
    if usable = 0 then sm2EncryptAgain msg msglen draws ⟨k, c1, c2, x2, y2, g, w, zl, zr, outmsg⟩ else
    sm2EncryptText sm3 msg msglen zl zr outmsg

def sm2Encrypt (malloc : Malloc) (msg : Bytes) (msglen : ℤ) (wx : Bytes) (wxlen : ℤ) (wy : Bytes)
    (wylen : ℤ) (draws : List ℕ) (zl zr : Octets) (outmsg : Bytes) : Option (ℤ × Bytes) :=
  match malloc (sizeT (msglen + 64)) with
  | none => some (-1, outmsg)
  | some _ => call do
    let (_, g) ← epointSet gx gy epointInit
    let x ← bytesToBig wxlen wx gx
    let y ← bytesToBig wylen wy gy
    let (_, w) ← epointSet x y epointInit
    sm2EncryptAgain sm3 msg msglen draws ⟨0, 0, 0, 0, 0, g, w, zl, zr, outmsg⟩

/-- What follows a usable key stream: the text is laid open, then its digest is compared. -/
def sm2DecryptText (msg : Bytes) (msglen : ℤ) (zl zr : Octets) (outmsg : Bytes) : Option (ℤ × Bytes) := do
  let stream ← outmsg.read msglen.toNat
  let outmsg ← outmsg.write 0 (stream.xor (← Bytes.read (msg.drop 96) msglen.toNat))
  let text ← outmsg.read msglen.toNat
  let c3 := sm3 (zl.toList ++ text ++ zr.toList)
  if c3.toList ≠ (← Bytes.read (msg.drop 64) 32) then return (-1, outmsg) else
  return (msglen, outmsg)

def sm2Decrypt (malloc : Malloc) (msg : Bytes) (msglen : ℤ) (privkey : Bytes) (privkeylen : ℤ)
    (zl zr : Octets) (outmsg : Bytes) : Option (ℤ × Bytes) :=
  if msglen < 96 then some (0, outmsg) else
  let msglen := msglen - 96
  match malloc (sizeT (msglen + 64)) with
  | none => some (0, outmsg)
  | some _ => call do
    let key1 ← bytesToBig privkeylen privkey 0
    let x ← bytesToBig 32 msg gx
    let y ← bytesToBig 32 (msg.drop 32) gy
    let (valid, g) ← epointSet x y epointInit
    if valid = false then return (-1, outmsg) else
    if pointAtInfinity g then return (-1, outmsg) else
    let g ← ecurveMult key1 g g
    let (x2, y2) ← epointGet g 0 0
    let (_, zl) ← bigToBytes x2 zl
    let (_, zr) ← bigToBytes y2 zr
    let (usable, outmsg) ← kdf sm3 zl zr msglen outmsg
    if usable = 0 then return (-1, outmsg) else sm2DecryptText sm3 msg msglen zl zr outmsg

/-! What a pass writes. -/

/-- A message whose ciphertext length an `int` can hold. -/
structure Message where
  bytes : Bytes
  nonempty : 1 ≤ bytes.length
  fits : bytes.length + 96 < 2 ^ 31

def sharedStream (pt : Point) (klen : ℕ) : Bytes :=
  kdfStream sm3 ((xOctets pt).toList ++ (yOctets pt).toList) klen

@[simp] theorem length_sharedStream (pt : Point) (klen : ℕ) : (sharedStream sm3 pt klen).length = klen :=
  length_kdfStream sm3 _ klen

/-- The digest that authenticates a text under a shared point. -/
def sharedDigest (pt : Point) (text : Bytes) : Octets :=
  sm3 ((xOctets pt).toList ++ text ++ (yOctets pt).toList)

/-- The ciphertext of a text: the ephemeral point, the digest and the text under the stream. -/
def ciphertext (ephemeral shared : Point) (text : Bytes) : Bytes :=
  (xOctets ephemeral).toList ++ (yOctets ephemeral).toList ++ (sharedDigest sm3 shared text).toList ++
    Bytes.xor (sharedStream sm3 shared text.length) text

/-- The multiples that the passes put into `g` and `w`, up to the first usable stream. -/
def encryptPasses (pt : Point) (klen : ℕ) : (draws : List ℕ) → (multiple : ℕ) → List ℕ
  | [], _ => []
  | raw :: draws, multiple =>
    let k := raw % n
    if k = 0 then encryptPasses pt klen draws multiple
    else k * multiple :: if Usable (sharedStream sm3 ((k * multiple) • pt) klen) then []
      else encryptPasses pt klen draws (k * multiple)

def lastPass (pt : Point) (klen : ℕ) : (draws : List ℕ) → (multiple : ℕ) → Option ℕ
  | [], _ => none
  | raw :: draws, multiple =>
    let k := raw % n
    if k = 0 then lastPass pt klen draws multiple
    else if Usable (sharedStream sm3 ((k * multiple) • pt) klen) then some (k * multiple)
    else lastPass pt klen draws (k * multiple)

theorem lastPass_spec {pt : Point} {klen : ℕ} (draws : List ℕ) (multiple : ℕ) {last : ℕ}
    (pass : lastPass sm3 pt klen draws multiple = some last) :
    last ∈ encryptPasses sm3 pt klen draws multiple ∧ Usable (sharedStream sm3 (last • pt) klen) := by
  induction draws generalizing multiple with
  | nil => cases pass
  | cons raw draws ih =>
    simp only [lastPass] at pass
    simp only [encryptPasses]
    split at pass
    · rename_i zero
      rw [if_pos zero]
      exact ih multiple pass
    · rename_i nonzero
      rw [if_neg nonzero]
      split at pass
      · rename_i usable
        cases pass
        exact ⟨List.mem_cons_self .., usable⟩
      · rename_i unusable
        rw [if_neg unusable]
        obtain ⟨member, usable⟩ := ih _ pass
        exact ⟨List.mem_cons_of_mem _ member, usable⟩

theorem point_written {pt : Point} (nonzero : NonzeroCoordinates pt) (mem : Bytes) (room : 64 ≤ mem.length) :
    (bigToBytesAt (abscissa pt) 0 mem).run mirsys = some ((xOctets pt).toList ++ mem.drop 32, mirsys) ∧
    (bigToBytesAt (ordinate pt) 32 ((xOctets pt).toList ++ mem.drop 32)).run mirsys =
      some ((xOctets pt).toList ++ (yOctets pt).toList ++ mem.drop 64, mirsys) := by
  have first := Bytes.write_fill [] mem (xOctets pt).toList ((0 : ℕ) : ℤ) rfl (by simp; omega)
  have second := Bytes.write_fill (xOctets pt).toList (mem.drop 32) (yOctets pt).toList ((32 : ℕ) : ℤ)
    (by simp) (by simp; omega)
  simp only [List.nil_append, Vector.length_toList, List.drop_drop] at first second
  constructor
  · rw [bigToBytesAt_run nonzero.abscissa_ne ((abscissa_lt pt).trans p_lt)]
    change (Bytes.write mem _ (xOctets pt).toList).map _ = _
    rw [first]
    rfl
  · rw [bigToBytesAt_run nonzero.ordinate_ne ((ordinate_lt pt).trans p_lt)]
    change (Bytes.write _ _ (yOctets pt).toList).map _ = _
    rw [second]
    rfl

theorem sm2EncryptText_run {msg : Bytes} (fits : msg.length < 2 ^ 64) (zl zr : Octets) {point gap stream : Bytes} (rest : Bytes)
    (point_length : point.length = 64) (gap_length : gap.length = 32) (same : stream.length = msg.length) :
    sm2EncryptText sm3 msg msg.length zl zr (point ++ gap ++ (stream ++ rest)) =
      some ((msg.length : ℤ) + 64 + 32,
        point ++ (sm3 (zl.toList ++ msg ++ zr.toList)).toList ++ Bytes.xor stream msg ++ rest) := by
  have behind : (point ++ gap ++ (stream ++ rest)).drop 96 = stream ++ rest :=
    List.drop_left' (by simp [point_length, gap_length])
  have stream_read : Bytes.read (stream ++ rest) msg.length = some stream := by
    rw [Bytes.read_of_le (by simp [same]), List.take_left' same]
  have first := Bytes.write_fill (point ++ gap) (stream ++ rest) (Bytes.xor stream msg) 96
    (by simp [point_length, gap_length]) (by simp [same])
  have second := Bytes.write_fill point (gap ++ (Bytes.xor stream msg ++ rest))
    (sm3 (zl.toList ++ msg ++ zr.toList)).toList 64 (by simp [point_length]) (by simp [gap_length])
  rw [Bytes.length_xor, same, Nat.min_self, List.drop_left' same] at first
  rw [Vector.length_toList, List.drop_left' gap_length] at second
  simp only [List.append_assoc] at behind first second
  simp only [sm2EncryptText, List.append_assoc, behind, Int.toNat_natCast,
    sizeT_natCast fits, stream_read, Bytes.read_length, Option.bind_eq_bind,
    Option.bind_some, first, second]
  rfl

theorem take_point {point : Bytes} (length : point.length = 64) (outmsg : Bytes) :
    (point ++ outmsg.drop 64).take 96 = point ++ (outmsg.drop 64).take 32 := by
  rw [List.take_append, length, List.take_of_length_le (by omega)]

theorem drop_point {point : Bytes} (length : point.length = 64) (outmsg : Bytes) :
    (point ++ outmsg.drop 64).drop 96 = outmsg.drop 96 := by
  rw [List.drop_append, length, List.drop_eq_nil_of_le (by omega), List.nil_append, List.drop_drop]

theorem sm2EncryptAgain_run (msg : Message) (pt : Point) (draws : List ℕ) (multiple : ℕ) (v : EncryptState)
    (hg : v.g = multiple • base) (hw : v.w = multiple • pt) (room : msg.bytes.length + 96 ≤ v.outmsg.length)
    (met : ∀ k ∈ encryptPasses sm3 pt msg.bytes.length draws multiple,
      NonzeroCoordinates (k • base) ∧ NonzeroCoordinates (k • pt)) :
    match lastPass sm3 pt msg.bytes.length draws multiple with
    | none => (sm2EncryptAgain sm3 msg.bytes msg.bytes.length draws v).run mirsys = none
    | some last => ∃ rest : Bytes, (sm2EncryptAgain sm3 msg.bytes msg.bytes.length draws v).run mirsys =
        some (((msg.bytes.length : ℤ) + 64 + 32,
          ciphertext sm3 (last • base) (last • pt) msg.bytes ++ rest), mirsys) := by
  induction draws generalizing multiple v with
  | nil => rfl
  | cons raw draws ih =>
    by_cases zero : raw % n = 0
    · simp only [encryptPasses, if_pos zero] at met
      simp only [lastPass, sm2EncryptAgain, StateT.run_bind, bigrand_run, Option.bind_eq_bind, Option.bind_some,
        if_pos zero]
      exact ih multiple { v with k := raw % n } hg hw room met
    · simp only [encryptPasses, if_neg zero] at met
      have nonzero := met (raw % n * multiple) (List.mem_cons_self ..)
      have hg' : (raw % n) • v.g = (raw % n * multiple) • base := by rw [hg, mul_nsmul']
      have hw' : (raw % n) • v.w = (raw % n * multiple) • pt := by rw [hw, mul_nsmul']
      have finite : v.w ≠ 0 := by
        intro same
        rw [same, nsmul_zero] at hw'
        exact nonzero.2.finite hw'.symm
      have not_infinity : ¬ pointAtInfinity v.w = true := by simpa [pointAtInfinity] using finite
      obtain ⟨first, second⟩ := point_written nonzero.1 v.outmsg (by omega)
      have head : ((xOctets ((raw % n * multiple) • base)).toList ++
          (yOctets ((raw % n * multiple) • base)).toList).length = 64 := by simp
      have gap : ((v.outmsg.drop 64).take 32).length = 32 := by simp; omega
      have before := take_point head v.outmsg
      have behind := drop_point head v.outmsg
      have keys := kdf_run sm3 (xOctets ((raw % n * multiple) • pt)) (yOctets ((raw % n * multiple) • pt))
        msg.bytes.length (v.outmsg.drop 96) (by simp; omega)
      rw [← sharedStream] at keys
      simp only [lastPass, sm2EncryptAgain, StateT.run_bind, bigrand_run, Option.bind_eq_bind, Option.bind_some,
        if_neg zero, ecurveMult_run (mod_n_lt _), hg', epointGet_run, first, second, if_neg not_infinity, hw',
        bigToBytes_abscissa nonzero.2, bigToBytes_ordinate nonzero.2, behind, before, keys, lift_some]
      by_cases usable : Usable (sharedStream sm3 ((raw % n * multiple) • pt) msg.bytes.length)
      · have one : ¬ (1 : ℤ) = 0 := one_ne_zero
        have fits : msg.bytes.length < 2 ^ 64 := by have short := msg.fits; omega
        have text := sm2EncryptText_run sm3 fits (xOctets ((raw % n * multiple) • pt))
          (yOctets ((raw % n * multiple) • pt)) ((v.outmsg.drop 96).drop msg.bytes.length) head gap
          (length_sharedStream sm3 ((raw % n * multiple) • pt) msg.bytes.length)
        simp only [if_pos usable, if_neg one, text, lift_some]
        exact ⟨_, rfl⟩
      · rw [if_neg usable] at met
        simp only [if_neg usable, if_true]
        exact ih (raw % n * multiple) _ rfl rfl (by simp; omega) fun k member => met k (List.mem_cons_of_mem _ member)

/-! Decryption. -/

/-- The arguments and local arrays of a call of `sm2_decrypt`. -/
structure DecryptCall where
  malloc : Malloc
  msg : Bytes
  msglen : ℤ
  msg_readable : msglen ≤ msg.length
  privkey : Bytes
  privkeylen : ℤ
  key_readable : privkeylen ≤ privkey.length
  zl : Octets
  zr : Octets

namespace DecryptCall
variable (c : DecryptCall)

def run (outmsg : Bytes) : Option (ℤ × Bytes) :=
  sm2Decrypt sm3 c.malloc c.msg c.msglen c.privkey c.privkeylen c.zl c.zr outmsg

def textLength : ℕ := (c.msglen - 96).toNat

/-- The point that the first 64 octets denote, if any. -/
def c1 : Option Point := pointOf (Bytes.value (c.msg.take 32)) (Bytes.value ((c.msg.drop 32).take 32))

def c2 : Bytes := (c.msg.drop 96).take c.textLength

def c3 : Bytes := (c.msg.drop 64).take 32

def key : OptionT Option ℕ := bigOf c.privkeylen c.privkey

/-- The point whose coordinates are read after the multiplication; they stay zero when the library cannot multiply. -/
def multiple (d : ℕ) (pt : Point) : Point := if 3 * d < 2 ^ (32 * nib) then d • pt else 0

/-- The shared point, unless the private key or `c1` is refused. -/
def shared : OptionT Option Point := do
  let d ← c.key
  let pt ← checked c.c1
  return multiple d pt

theorem shared_run : c.shared.run = Option.elimM c.key.run (some none) fun d => some (c.c1.map (multiple d)) := by
  simp only [shared, OptionT.run_bind]
  cases c.c1 <;> rfl

/-- The library keeps the private key inside of its number, or refuses it. -/
def Contained : Prop := c.key.run ≠ none

theorem contained_iff : c.Contained ↔ c.shared.run ≠ none := by
  rw [Contained, shared_run]
  rcases c.key.run with _ | _ | d
  · exact iff_of_false (fun differs => differs rfl) (fun differs => differs rfl)
  · exact iff_of_true nofun nofun
  · exact iff_of_true nofun nofun

theorem c1_of_shared {pt : Point} (shared : c.shared.run = some (some pt)) : c.c1 ≠ none := by
  intro refused
  rw [shared_run, refused] at shared
  rcases key : c.key.run with _ | _ | d
  all_goals
    rw [key] at shared
    cases shared

/-- The coordinates of the shared point as the local arrays hold them. -/
def left (pt : Point) : Octets := filled (abscissa pt) c.zl
def right (pt : Point) : Octets := filled (ordinate pt) c.zr

def stream (pt : Point) : Bytes := kdfStream sm3 ((c.left pt).toList ++ (c.right pt).toList) c.textLength

def text (pt : Point) : Bytes := (c.stream sm3 pt).xor c.c2

def digest (pt : Point) : Octets := sm3 ((c.left pt).toList ++ c.text sm3 pt ++ (c.right pt).toList)

@[simp] theorem length_stream (pt : Point) : (c.stream sm3 pt).length = c.textLength := length_kdfStream sm3 _ _

/-- The call gets past its first two tests. -/
def Started : Prop := 96 ≤ c.msglen ∧ (c.malloc (sizeT (c.msglen - 96 + 64))).isSome

theorem run_not_started (refused : ¬ c.Started) (outmsg : Bytes) : c.run sm3 outmsg = some (0, outmsg) := by
  unfold run sm2Decrypt
  split
  · rfl
  · rename_i long
    have failed : c.malloc (sizeT (c.msglen - 96 + 64)) = none := by
      rw [← Option.not_isSome_iff_eq_none]
      exact fun granted => refused ⟨not_lt.mp long, granted⟩
    simp only [failed]

theorem length_c2 (long : 96 ≤ c.msglen) : c.c2.length = c.textLength := by
  have readable := c.msg_readable
  simp [c2, textLength]
  omega

theorem length_text (long : 96 ≤ c.msglen) (pt : Point) : (c.text sm3 pt).length = c.textLength := by
  rw [text, Bytes.length_xor, length_stream, c.length_c2 long, Nat.min_self]

/-- The outcome of a call that gets past its first two tests. -/
def outcome (outmsg : Bytes) : Option (ℤ × Bytes) := c.shared.run.map fun
  | none => (-1, outmsg)
  | some pt =>
    if Usable (c.stream sm3 pt) then
      (if (c.digest sm3 pt).toList = c.c3 then c.msglen - 96 else -1,
        c.text sm3 pt ++ outmsg.drop c.textLength)
    else (-1, c.stream sm3 pt ++ outmsg.drop c.textLength)

theorem text_run (long : 96 ≤ c.msglen) (pt : Point) (rest : Bytes) :
    sm2DecryptText sm3 c.msg c.textLength (c.left pt) (c.right pt) (c.stream sm3 pt ++ rest) =
      some (if (c.digest sm3 pt).toList = c.c3 then (c.textLength : ℤ) else -1, c.text sm3 pt ++ rest) := by
  have readable := c.msg_readable
  have text_length := c.length_text sm3 long pt
  have stream_read : (c.stream sm3 pt ++ rest).read c.textLength = some (c.stream sm3 pt) := by
    rw [Bytes.read_of_le (by simp), List.take_left' (c.length_stream sm3 pt)]
  have cipher_read : Bytes.read (c.msg.drop 96) c.textLength = some c.c2 :=
    Bytes.read_of_le (by simp [textLength]; omega)
  have digest_read : Bytes.read (c.msg.drop 64) 32 = some c.c3 := Bytes.read_of_le (by simp; omega)
  have written := Bytes.write_fill [] (c.stream sm3 pt ++ rest) (c.text sm3 pt) 0 rfl
    (by simp [text_length])
  rw [List.nil_append, List.nil_append, text_length, List.drop_left' (c.length_stream sm3 pt)] at written
  have text_read : (c.text sm3 pt ++ rest).read c.textLength = some (c.text sm3 pt) := by
    rw [Bytes.read_of_le (by simp [text_length]), List.take_left' text_length]
  have text_eq : (c.stream sm3 pt).xor c.c2 = c.text sm3 pt := rfl
  have digest_eq : sm3 ((c.left pt).toList ++ c.text sm3 pt ++ (c.right pt).toList) = c.digest sm3 pt := rfl
  simp only [sm2DecryptText, Int.toNat_natCast, stream_read, cipher_read, Option.bind_eq_bind, Option.bind_some,
    text_eq, written, text_read, digest_read, digest_eq]
  by_cases same : (c.digest sm3 pt).toList = c.c3
  · rw [if_neg (not_not.mpr same), if_pos same]
    rfl
  · rw [if_pos same, if_neg same]
    rfl

/-- The coordinates of the shared point replace the arrays' contents, unless they are zero. -/
theorem multiple_run (d : ℕ) (pt : Point) : ∃ g mip, (ecurveMult d pt pt).run mirsys = some (g, mip) ∧
    ∃ x y mip₁, (epointGet g 0 0).run mip = some ((x, y), mip₁) ∧
      ∃ len mip₂, (bigToBytes x c.zl).run mip₁ = some ((len, c.left (multiple d pt)), mip₂) ∧
        ∃ len' mip₃, (bigToBytes y c.zr).run mip₂ = some ((len', c.right (multiple d pt)), mip₃) := by
  unfold multiple
  split
  · next room =>
    have x_lt := (abscissa_lt (d • pt)).trans p_lt
    have y_lt := (ordinate_lt (d • pt)).trans p_lt
    exact ⟨_, _, ecurveMult_room room pt pt, _, _, _, epointGet_run _ 0 0, _, _, bigToBytes_filled x_lt c.zl, _, _,
      bigToBytes_filled y_lt c.zr⟩
  · next large =>
    have pending : (Mip.mk overflow).ERNUM ≠ 0 := Nat.succ_ne_zero _
    exact ⟨_, _, ecurveMult_overflow large pt pt, _, _, _, epointGet_error pending pt 0 0, _, _,
      bigToBytes_error pending 0 c.zl, _, _, bigToBytes_error pending 0 c.zr⟩

theorem run_started (started : c.Started) (outmsg : Bytes) (room : c.textLength ≤ outmsg.length) :
    c.run sm3 outmsg = c.outcome sm3 outmsg := by
  obtain ⟨long, granted⟩ := started
  obtain ⟨block, malloc⟩ := Option.isSome_iff_exists.mp granted
  have readable := c.msg_readable
  have key_read := bytesToBig_readable c.key_readable 0
  have x_read := bytesToBig_take (show 32 ≤ c.msg.length by omega)
  have y_read := bytesToBig_take (show 32 ≤ (c.msg.drop 32).length by simp; omega)
  have text_length : (c.msglen - 96).toNat = c.textLength := rfl
  have length_eq : c.msglen - 96 = c.textLength := by rw [textLength]; omega
  have not_short : ¬ c.msglen < 96 := by omega
  rw [← key] at key_read
  simp only [run, sm2Decrypt, if_neg not_short, malloc, outcome, shared_run]
  rcases known : c.key.run with _ | _ | d
  · simp only [call, StateT.run_bind, key_read, known]
    rfl
  · have pending : (Mip.mk overflow).ERNUM ≠ 0 := by decide
    rw [known] at key_read
    simp only [call, StateT.run_bind, key_read, Option.map_some, afterRead, Option.bind_eq_bind, Option.bind_some,
      bytesToBig_error pending, epointSet_error pending, if_true]
    rfl
  rw [known] at key_read
  rcases point : c.c1 with _ | pt
  · rw [c1] at point
    simp only [call, StateT.run_bind, key_read, Option.map_some, afterRead, Option.bind_eq_bind, Option.bind_some, x_read,
      y_read, epointSet_pointOf, point, if_true]
    rfl
  · rw [c1] at point
    have finite : ¬ pointAtInfinity pt = true := by simpa [pointAtInfinity] using pointOf_ne_zero point
    have valid : ¬ true = false := Bool.noConfusion
    obtain ⟨g, mip, multiplied, x, y, mip₁, read, len, mip₂, left, len', mip₃, right⟩ := c.multiple_run d pt
    have keys := kdf_run sm3 (c.left (multiple d pt)) (c.right (multiple d pt)) c.textLength outmsg room
    rw [← stream] at keys
    simp only [call, StateT.run_bind, key_read, Option.map_some, afterRead, Option.bind_eq_bind, Option.bind_some, x_read,
      y_read, epointSet_pointOf, point, if_neg valid, if_neg finite, multiplied, read, left, right, length_eq, keys,
      lift_some, Option.elimM, Option.elim_some]
    by_cases usable : Usable (c.stream sm3 (multiple d pt))
    · have one : ¬ (1 : ℤ) = 0 := one_ne_zero
      simp only [if_pos usable, if_neg one, c.text_run sm3 long, lift_some]
      rfl
    · simp only [if_neg usable, if_true]
      rfl

/-- The input is one that decryption has to refuse. -/
def Malformed : Prop :=
  c.msglen < 96 ∨ c.c1 = none ∨
    ∃ pt, c.shared.run = some (some pt) ∧ (¬ Usable (c.stream sm3 pt) ∨ (c.digest sm3 pt).toList ≠ c.c3)

/-- The comparison with the third part is reached and finds equality. -/
def Passes : Prop :=
  c.Started ∧ ∃ pt, c.shared.run = some (some pt) ∧ Usable (c.stream sm3 pt) ∧ (c.digest sm3 pt).toList = c.c3

/-- The call returns. A malformed input is answered by a negative value and leaves the
output as it was, whatever it was; another answer means that the comparison was passed. -/
def FailsClosed : Prop :=
  ∀ outmsg : Bytes, c.textLength ≤ outmsg.length → ∃ ret out, c.run sm3 outmsg = some (ret, out) ∧
    (c.Malformed sm3 → ret < 0 ∧ out = outmsg) ∧ (0 ≤ ret → c.Passes sm3)

private theorem exists_other (bytes : Bytes) (nonempty : bytes ≠ []) :
    ∃ other : Bytes, other.length = bytes.length ∧ bytes ≠ other := by
  cases bytes with
  | nil => exact absurd rfl nonempty
  | cons byte bytes =>
    refine ⟨(byte + 1) :: bytes, rfl, fun same => ?_⟩
    have equal := (List.cons.inj same).1
    simp at equal

theorem not_failsClosed_of_written (ret : ℤ) {bytes : Bytes} (nonempty : bytes ≠ [])
    (length : bytes.length = c.textLength) (malformed : c.Malformed sm3)
    (run : ∀ outmsg : Bytes, c.textLength ≤ outmsg.length →
      c.run sm3 outmsg = some (ret, bytes ++ outmsg.drop c.textLength)) : ¬ c.FailsClosed sm3 := by
  intro closed
  obtain ⟨other, same_length, differs⟩ := exists_other bytes nonempty
  have room : c.textLength ≤ other.length := by omega
  obtain ⟨_, _, answer, unchanged, -⟩ := closed other room
  obtain ⟨rfl, rfl⟩ := Prod.mk.inj (Option.some.inj ((run other room).symm.trans answer))
  have unchanged := (unchanged malformed).2
  rw [List.drop_eq_nil_of_le (by omega), List.append_nil] at unchanged
  exact differs unchanged

theorem started_of_failsClosed (closed : c.FailsClosed sm3) : c.Started := by
  by_contra refused
  obtain ⟨ret, out, run, -, passes⟩ := closed (List.replicate c.textLength 0) (by simp)
  rw [c.run_not_started sm3 refused] at run
  cases run
  exact refused (passes le_rfl).1

theorem contained_of_failsClosed (closed : c.FailsClosed sm3) : c.Contained := by
  rw [contained_iff]
  intro harmed
  have room : c.textLength ≤ (List.replicate c.textLength (0 : UInt8)).length := by simp
  obtain ⟨ret, out, run, -⟩ := closed _ room
  rw [c.run_started sm3 (c.started_of_failsClosed sm3 closed) _ room, outcome, harmed] at run
  cases run

/-- What the call has written is not left as it was, except when there is nothing to write. -/
theorem failsClosed_iff_of_malformed {bytes : Bytes} (started : c.Started) (length : bytes.length = c.textLength)
    (malformed : c.Malformed sm3)
    (run : ∀ outmsg : Bytes, c.textLength ≤ outmsg.length →
      c.run sm3 outmsg = some (-1, bytes ++ outmsg.drop c.textLength)) : c.FailsClosed sm3 ↔ c.msglen = 96 := by
  have length_eq : c.msglen - 96 = c.textLength := by
    have long := started.1
    rw [textLength]
    omega
  constructor
  · intro closed
    by_contra text
    have nonempty : bytes ≠ [] := by
      rintro rfl
      rw [List.length_nil] at length
      omega
    exact c.not_failsClosed_of_written sm3 (-1) nonempty length malformed run closed
  · intro empty outmsg room
    have zero : c.textLength = 0 := by omega
    obtain rfl := List.eq_nil_of_length_eq_zero (length.trans zero)
    refine ⟨-1, outmsg, ?_, fun _ => ⟨by decide, rfl⟩, fun positive => absurd positive (by decide)⟩
    rw [run outmsg room, zero]
    rfl

/-- Decryption fails closed exactly when it gets past its first tests, the private key does no harm, and then the point
or the key is refused, or there is no text to lay open, or the digest is found. -/
theorem failsClosed_iff : c.FailsClosed sm3 ↔
    c.Started ∧ c.Contained ∧ (c.shared.run = some none ∨ c.msglen = 96 ∨ c.Passes sm3) := by
  by_cases both : c.Started ∧ c.Contained
  swap
  · exact iff_of_false (fun closed => both ⟨c.started_of_failsClosed sm3 closed, c.contained_of_failsClosed sm3 closed⟩)
      fun ⟨started, contained, _⟩ => both ⟨started, contained⟩
  obtain ⟨started, contained⟩ := both
  rw [and_iff_right started, and_iff_right contained]
  rcases shared : c.shared.run with _ | _ | pt
  · exact absurd shared (c.contained_iff.mp contained)
  · refine iff_of_true (fun outmsg room => ⟨-1, outmsg, ?_, fun _ => ⟨by decide, rfl⟩, fun positive => ?_⟩) (.inl rfl)
    · rw [c.run_started sm3 started _ room, outcome, shared]
      rfl
    · exact absurd positive (by decide)
  have finite : ¬ some (some pt) = some (Option.none : Option Point) := nofun
  rw [or_iff_right finite]
  by_cases passes : c.Passes sm3
  · have ⟨_, pt', shared', usable, same⟩ := passes
    refine iff_of_true (fun outmsg room => ?_) (.inr passes)
    obtain rfl := Option.some.inj (Option.some.inj (shared.symm.trans shared'))
    refine ⟨c.msglen - 96, c.text sm3 pt ++ outmsg.drop c.textLength, ?_, fun malformed => ?_, fun _ => passes⟩
    · rw [c.run_started sm3 started _ room, outcome, shared, Option.map_some]
      simp only [if_pos usable, if_pos same]
    · rcases malformed with short | refused | ⟨pt', shared', bad⟩
      · exact absurd started.1 (not_le.mpr short)
      · exact absurd refused (c.c1_of_shared shared)
      · obtain rfl := Option.some.inj (Option.some.inj (shared.symm.trans shared'))
        exact bad.elim (absurd usable) (absurd same)
  rw [or_iff_left passes]
  by_cases usable : Usable (c.stream sm3 pt)
  · have differs : (c.digest sm3 pt).toList ≠ c.c3 := fun same => passes ⟨started, pt, shared, usable, same⟩
    refine c.failsClosed_iff_of_malformed sm3 started (c.length_text sm3 started.1 pt)
      (.inr (.inr ⟨pt, shared, .inr differs⟩)) fun outmsg room => ?_
    rw [c.run_started sm3 started _ room, outcome, shared, Option.map_some]
    simp only [if_pos usable, if_neg differs]
  · refine c.failsClosed_iff_of_malformed sm3 started (c.length_stream sm3 pt)
      (.inr (.inr ⟨pt, shared, .inl usable⟩)) fun outmsg room => ?_
    rw [c.run_started sm3 started _ room, outcome, shared, Option.map_some]
    simp only [if_neg usable]

def emptyCall : DecryptCall where
  malloc := granted fun size => Vector.replicate size 0
  msg := []
  msglen := 0
  msg_readable := by simp
  privkey := (octets 1).toList
  privkeylen := 32
  key_readable := by simp
  zl := octets 0
  zr := octets 0

/-- The base point, a digest of zeros and one octet of text. -/
def forgedCall : DecryptCall where
  malloc := granted fun size => Vector.replicate size 0
  msg := (octets gx).toList ++ (octets gy).toList ++ List.replicate 33 0
  msglen := 97
  msg_readable := by simp
  privkey := (octets 1).toList
  privkeylen := 32
  key_readable := by simp
  zl := octets 0
  zr := octets 0

/-- The empty input is answered by zero, and a forged one lays its text open. -/
theorem sm2Decrypt_not_failsClosed :
    ¬ emptyCall.FailsClosed Sm3.sm3 ∧ ¬ forgedCall.FailsClosed Sm3.sm3 := by
  constructor
  · intro closed
    exact absurd (emptyCall.started_of_failsClosed Sm3.sm3 closed).1 (by decide)
  · intro closed
    have shared : forgedCall.shared.run = some (some base) := by
      have key : forgedCall.key = pure 1 := bigOf_octets (octets 1)
      have point : forgedCall.c1 = some base := by decide +kernel
      rw [forgedCall.shared_run, key, point, OptionT.run_pure]
      have one : multiple 1 base = base := by
        rw [multiple, if_pos (room_of_lt (by decide)), one_nsmul]
      exact congrArg (fun pt => some (some pt)) one
    have stream : forgedCall.stream Sm3.sm3 base = [199] := by decide +kernel
    have text : forgedCall.text Sm3.sm3 base = [199] := by rw [DecryptCall.text, stream]; decide
    have differs : (forgedCall.digest Sm3.sm3 base).toList ≠ forgedCall.c3 := by
      rw [digest, text]
      decide +kernel
    obtain ⟨-, -, refused | empty | ⟨-, pt, shared', -, same⟩⟩ := (forgedCall.failsClosed_iff Sm3.sm3).mp closed
    · rw [shared] at refused
      cases refused
    · exact absurd empty (by decide)
    · obtain rfl := Option.some.inj (Option.some.inj (shared.symm.trans shared'))
      exact differs same

end DecryptCall

/-! The round trip. -/

/-- A call with the coordinates of a point goes to the loop with that point and the base point. -/
theorem sm2Encrypt_again (blocks : (size : ℕ) → Vector UInt8 size) (msg : Bytes) {pt : Point} (finite : pt ≠ 0)
    (draws : List ℕ) (zl zr : Octets) (outmsg : Bytes) :
    sm2Encrypt sm3 (granted blocks) msg msg.length (xOctets pt).toList 32 (yOctets pt).toList 32 draws zl zr outmsg =
      ((sm2EncryptAgain sm3 msg msg.length draws ⟨0, 0, 0, 0, 0, base, pt, zl, zr, outmsg⟩).run mirsys).map Prod.fst := by
  have x_value := octets_value ((abscissa_lt pt).trans p_lt)
  have y_value := octets_value ((ordinate_lt pt).trans p_lt)
  have set_base : (epointSet gx gy epointInit).run mirsys = some ((true, base), mirsys) :=
    epointSet_run base_ne_zero epointInit
  simp only [sm2Encrypt, granted, call, StateT.run_bind, set_base, Option.bind_eq_bind, Option.bind_some, xOctets,
    yOctets, bytesToBig_octets, x_value, y_value, epointSet_run finite]

theorem sm2Encrypt_run (blocks : (size : ℕ) → Vector UInt8 size) (msg : Message) {pt : Point} (finite : pt ≠ 0)
    (draws : List ℕ) (zl zr : Octets) {outmsg : Bytes} (room : msg.bytes.length + 96 ≤ outmsg.length)
    (met : ∀ k ∈ encryptPasses sm3 pt msg.bytes.length draws 1,
      NonzeroCoordinates (k • base) ∧ NonzeroCoordinates (k • pt)) :
    match lastPass sm3 pt msg.bytes.length draws 1 with
    | none => sm2Encrypt sm3 (granted blocks) msg.bytes msg.bytes.length (xOctets pt).toList 32
        (yOctets pt).toList 32 draws zl zr outmsg = none
    | some last => ∃ rest, sm2Encrypt sm3 (granted blocks) msg.bytes msg.bytes.length (xOctets pt).toList 32
        (yOctets pt).toList 32 draws zl zr outmsg =
          some ((msg.bytes.length : ℤ) + 64 + 32, ciphertext sm3 (last • base) (last • pt) msg.bytes ++ rest) := by
  have loop := sm2EncryptAgain_run sm3 msg pt draws 1 ⟨0, 0, 0, 0, 0, base, pt, zl, zr, outmsg⟩
    (one_nsmul base).symm (one_nsmul pt).symm room met
  rw [sm2Encrypt_again sm3 blocks msg.bytes finite]
  cases pass : lastPass sm3 pt msg.bytes.length draws 1 with
  | none =>
    rw [pass] at loop
    simp only [loop, Option.map_none]
  | some last =>
    rw [pass] at loop
    obtain ⟨rest, run⟩ := loop
    exact ⟨rest, by rw [run]; rfl⟩

theorem ciphertext_length (ephemeral shared : Point) (text : Bytes) :
    (ciphertext sm3 ephemeral shared text).length = text.length + 96 := by
  simp [ciphertext]
  omega

theorem sm2Decrypt_ciphertext (blocks : (size : ℕ) → Vector UInt8 size) (msg : Message) {d : ℕ} (small : d < 2 ^ 256)
    {ephemeral : Point} (sent : NonzeroCoordinates ephemeral) (shared : NonzeroCoordinates (d • ephemeral))
    (usable : Usable (sharedStream sm3 (d • ephemeral) msg.bytes.length)) (zl zr : Octets) {plain : Bytes}
    (room : msg.bytes.length ≤ plain.length) :
    sm2Decrypt sm3 (granted blocks) (ciphertext sm3 ephemeral (d • ephemeral) msg.bytes)
      ((msg.bytes.length : ℤ) + 64 + 32) (octets d).toList 32 zl zr plain =
      some ((msg.bytes.length : ℤ), msg.bytes ++ plain.drop msg.bytes.length) := by
  let c : DecryptCall := ⟨granted blocks, ciphertext sm3 ephemeral (d • ephemeral) msg.bytes,
    (msg.bytes.length : ℤ) + 64 + 32, by rw [ciphertext_length]; push_cast; omega, (octets d).toList, 32, by simp, zl, zr⟩
  have length : c.textLength = msg.bytes.length := by
    simp only [DecryptCall.textLength, c]
    omega
  have started : c.Started := ⟨by simp only [c]; omega, rfl⟩
  have answer : c.msglen - 96 = msg.bytes.length := by
    simp only [c]
    ring
  have key : c.key = pure d := by
    have read : c.key = pure (octets d).value := bigOf_octets (octets d)
    rwa [octets_value small] at read
  have point : c.c1 = some ephemeral := by
    have x : c.msg.take 32 = (xOctets ephemeral).toList := by simp [c, ciphertext]
    have y : (c.msg.drop 32).take 32 = (yOctets ephemeral).toList := by simp [c, ciphertext]
    have x_value : Bytes.value (xOctets ephemeral).toList = abscissa ephemeral :=
      octets_value ((abscissa_lt ephemeral).trans p_lt)
    have y_value : Bytes.value (yOctets ephemeral).toList = ordinate ephemeral :=
      octets_value ((ordinate_lt ephemeral).trans p_lt)
    rw [DecryptCall.c1, x, y, x_value, y_value, pointOf_coordinates sent.finite]
  have product : DecryptCall.multiple d ephemeral = d • ephemeral := if_pos (room_of_lt small)
  have point' : c.shared.run = some (some (d • ephemeral)) := by
    rw [c.shared_run, key, point, ← product]
    rfl
  have left : c.left (d • ephemeral) = xOctets (d • ephemeral) := if_neg shared.abscissa_ne
  have right : c.right (d • ephemeral) = yOctets (d • ephemeral) := if_neg shared.ordinate_ne
  have stream : c.stream sm3 (d • ephemeral) = sharedStream sm3 (d • ephemeral) msg.bytes.length := by
    rw [DecryptCall.stream, left, right, length]
    rfl
  have cipher : c.c2 = Bytes.xor (sharedStream sm3 (d • ephemeral) msg.bytes.length) msg.bytes := by
    have behind : c.msg.drop 96 = Bytes.xor (sharedStream sm3 (d • ephemeral) msg.bytes.length) msg.bytes :=
      List.drop_left' (by simp)
    rw [DecryptCall.c2, behind, List.take_of_length_le (by simp [length])]
  have text : c.text sm3 (d • ephemeral) = msg.bytes := by
    rw [DecryptCall.text, stream, cipher, Bytes.xor_xor_cancel (by simp)]
  have digest : c.c3 = (c.digest sm3 (d • ephemeral)).toList := by
    have behind : c.msg.drop 64 = (sharedDigest sm3 (d • ephemeral) msg.bytes).toList ++
        Bytes.xor (sharedStream sm3 (d • ephemeral) msg.bytes.length) msg.bytes := by
      simp only [c, ciphertext]
      rw [List.append_assoc, List.drop_left' (by simp)]
    rw [DecryptCall.digest, left, right, text, DecryptCall.c3, behind, List.take_left' (by simp)]
    rfl
  have run := c.run_started sm3 started plain (length ▸ room)
  rw [DecryptCall.outcome, point', Option.map_some] at run
  simp only [stream, if_pos usable, digest, if_true, text, length, answer] at run
  exact run

theorem unusable_of_lastPass {pt : Point} {klen : ℕ} (draws : List ℕ) (multiple : ℕ)
    (pass : lastPass sm3 pt klen draws multiple = none) :
    ∀ k ∈ encryptPasses sm3 pt klen draws multiple, ¬ Usable (sharedStream sm3 (k • pt) klen) := by
  induction draws generalizing multiple with
  | nil => simp [encryptPasses]
  | cons raw draws ih =>
    simp only [lastPass] at pass
    simp only [encryptPasses]
    split at pass
    · rename_i zero
      rw [if_pos zero]
      exact ih multiple pass
    · rename_i nonzero
      rw [if_neg nonzero]
      split at pass
      · cases pass
      · rename_i unusable
        rw [if_neg unusable]
        exact List.forall_mem_cons.mpr ⟨unusable, ih _ pass⟩

/-- Decryption of the octets that encryption wrote returns the message; and encryption
returns unless every draw has given a key stream of zeros. -/
theorem sm2Decrypt_sm2Encrypt (blocks blocks' : (size : ℕ) → Vector UInt8 size) (msg : Message) (key : PrivateKey)
    (draws : List ℕ) (zl zr zl' zr' : Octets) (outmsg plain : Bytes)
    (room : msg.bytes.length + 96 ≤ outmsg.length) (room' : msg.bytes.length ≤ plain.length)
    (met : ∀ k ∈ encryptPasses sm3 key.publicKey msg.bytes.length draws 1,
      NonzeroCoordinates (k • base) ∧ NonzeroCoordinates (k • key.publicKey)) :
    (∀ ret cipher, sm2Encrypt sm3 (granted blocks) msg.bytes msg.bytes.length (xOctets key.publicKey).toList 32
        (yOctets key.publicKey).toList 32 draws zl zr outmsg = some (ret, cipher) →
      ret = msg.bytes.length + 96 ∧
      sm2Decrypt sm3 (granted blocks') (cipher.take (msg.bytes.length + 96)) ret (octets key.d).toList 32
        zl' zr' plain = some ((msg.bytes.length : ℤ), msg.bytes ++ plain.drop msg.bytes.length)) ∧
    (sm2Encrypt sm3 (granted blocks) msg.bytes msg.bytes.length (xOctets key.publicKey).toList 32
        (yOctets key.publicKey).toList 32 draws zl zr outmsg = none →
      ∀ k ∈ encryptPasses sm3 key.publicKey msg.bytes.length draws 1,
        ¬ Usable (sharedStream sm3 (k • key.publicKey) msg.bytes.length)) := by
  have encrypted := sm2Encrypt_run sm3 blocks msg key.publicKey_ne_zero draws zl zr room met
  generalize sm2Encrypt sm3 (granted blocks) msg.bytes msg.bytes.length (xOctets key.publicKey).toList 32
    (yOctets key.publicKey).toList 32 draws zl zr outmsg = result at *
  cases pass : lastPass sm3 key.publicKey msg.bytes.length draws 1 with
  | none =>
    simp only [pass] at encrypted
    subst encrypted
    exact ⟨fun _ _ impossible => (nomatch impossible), fun _ => unusable_of_lastPass sm3 draws 1 pass⟩
  | some last =>
    simp only [pass] at encrypted
    obtain ⟨rest, rfl⟩ := encrypted
    obtain ⟨member, usable⟩ := lastPass_spec sm3 draws 1 pass
    obtain ⟨sent, shared⟩ := met last member
    have same : last • key.publicKey = key.d • last • base := Exchange.shared last key.d
    rw [same] at usable shared
    have opened := sm2Decrypt_ciphertext sm3 blocks' msg (key.small.trans n_lt) sent shared usable zl' zr' room'
    refine ⟨fun ret cipher written => ?_, fun impossible => (nomatch impossible)⟩
    obtain ⟨rfl, rfl⟩ := Prod.mk.inj (Option.some.inj written)
    refine ⟨by ring, ?_⟩
    rw [List.take_left' (ciphertext_length sm3 _ _ msg.bytes), same]
    exact opened

end

/-- The round trip for one octet under the draw 2. -/
theorem sm2Decrypt_sm2Encrypt_letter :
    let msg : Message := ⟨[0x61], by decide, by decide⟩
    let key : PrivateKey := ⟨3, by decide, by decide +kernel⟩
    let blocks : (size : ℕ) → Vector UInt8 size := fun size => Vector.replicate size 0
    ∃ ret cipher, sm2Encrypt Sm3.sm3 (granted blocks) msg.bytes msg.bytes.length (xOctets key.publicKey).toList 32
      (yOctets key.publicKey).toList 32 [2] (octets 0) (octets 0) (List.replicate 97 0) = some (ret, cipher) ∧
      ret = msg.bytes.length + 96 ∧
      sm2Decrypt Sm3.sm3 (granted blocks) (cipher.take (msg.bytes.length + 96)) ret (octets key.d).toList 32
        (octets 0) (octets 0) [0] = some ((msg.bytes.length : ℤ), msg.bytes ++ [0].drop msg.bytes.length) := by
  intro msg key blocks
  have met : ∀ k ∈ encryptPasses Sm3.sm3 key.publicKey msg.bytes.length [2] 1,
      NonzeroCoordinates (k • base) ∧ NonzeroCoordinates (k • key.publicKey) := by decide +kernel
  have round := sm2Decrypt_sm2Encrypt Sm3.sm3 blocks blocks msg key [2] (octets 0) (octets 0) (octets 0) (octets 0)
    (List.replicate 97 0) [0] (by decide) (by decide) met
  have some_usable : ¬ ∀ k ∈ encryptPasses Sm3.sm3 key.publicKey msg.bytes.length [2] 1,
      ¬ Usable (sharedStream Sm3.sm3 (k • key.publicKey) msg.bytes.length) := by decide +kernel
  obtain ⟨⟨ret, cipher⟩, run⟩ := Option.ne_none_iff_exists'.mp (mt round.2 some_usable)
  exact ⟨ret, cipher, run, round.1 ret cipher run⟩

end MyTools.Sm2
