import MyTools.Library.Bytes
import MyTools.Miracl.JointForm
import MyTools.Sm2.Domain

/-! The big number and curve routines that the SM2 code calls. Numbers and points
are exact; what remains of the library's state is its pending error. -/
namespace MyTools.Sm2
open Library
open MyTools.Miracl (nib mrJsf mrJsf_value room_for_digits lt_of_words)

abbrev Octets := Vector UInt8 32

def octets (x : ℕ) : Octets := ⟨(Bytes.ofNat 32 x).toArray, by simp⟩

def Octets.value (bytes : Octets) : ℕ := Bytes.value bytes.toList

@[simp] theorem octets_toList (x : ℕ) : (octets x).toList = Bytes.ofNat 32 x := by simp [octets]

theorem octets_value {x : ℕ} (fits : x < 2 ^ 256) : (octets x).value = x := by
  rw [Octets.value, octets_toList, Bytes.value_ofNat_of_lt (by simpa using fits)]

theorem Octets.value_lt (bytes : Octets) : bytes.value < 2 ^ 256 := by
  have bound := Bytes.value_lt bytes.toList
  rwa [Vector.length_toList] at bound

theorem Octets.value_injective : Function.Injective Octets.value := by
  intro first second same
  apply Vector.toList_inj.mp
  exact Bytes.value_injective (by simp) same

theorem octets_of_value (bytes : Octets) : octets bytes.value = bytes :=
  Octets.value_injective (octets_value bytes.value_lt)

/-- The library's record, as far as the callers can observe it. -/
structure Mip where
  ERNUM : ℕ
  deriving DecidableEq

/-- A run of the library; `none` is an access outside of an object of memory, or a
loop that is never left. -/
abbrev Miracl := StateT Mip Option

def mirsys : Mip := ⟨0⟩

/-- `MR_ERR_OVERFLOW` -/
def overflow : ℕ := 3
/-- `MR_ERR_TOO_BIG` -/
def tooBig : ℕ := 14

def words (x : ℕ) : ℕ := if x = 0 then 0 else x.log2 / 32 + 1

namespace Miracl

/-- A routine between `mirsys` and `mirexit`. -/
def call {α : Type} (routine : Miracl α) : Option α := (routine.run mirsys).map Prod.fst

/-- While an error is pending every routine returns at once and its result keeps
the value it had. -/
def guarded {α : Type} (old : α) (routine : Miracl α) : Miracl α := do
  let mip ← get
  if mip.ERNUM = 0 then routine else pure old

/-- Record an error; the result is `value`. -/
def berror {α : Type} (nerr : ℕ) (value : α) : Miracl α := do
  set (Mip.mk nerr)
  pure value

/-- `mr_lent`: a length has two parts of 16 bits. -/
def mrLent (len : ℕ) : ℕ := len % 2 ^ 16 + len / 2 ^ 16

/-- A length that was stored in a number with fewer words. `mirkill`, which every routine calls for every number in the
end, clears as many words as the length says. -/
def refused (len : ℕ) : Miracl ℕ := if mrLent len ≤ nib then berror overflow 0 else fun _ => none

def bytesToBig (len : ℤ) (ptr : Bytes) (x : ℕ) : Miracl ℕ := guarded x <|
  if len ≤ 0 then pure 0 else do
    let bytes ← ptr.read len.toNat
    let significant := bytes.dropWhile (· == 0)
    if 4 * nib < significant.length then refused ((significant.length + 3) / 4) else pure (Bytes.value significant)

/-- With `max = 32` and `justify = TRUE`. Nothing is written for zero. -/
def bigToBytes (x : ℕ) (ptr : Octets) : Miracl (ℤ × Octets) := guarded (0, ptr) <|
  if x = 0 then pure (0, ptr)
  else if 2 ^ 256 ≤ x then berror tooBig (0, ptr)
  else pure (32, octets x)

/-- The same, into a larger object. -/
def bigToBytesAt (x offset : ℕ) (mem : Bytes) : Miracl Bytes := guarded mem <|
  if x = 0 then pure mem
  else if 2 ^ 256 ≤ x then berror tooBig mem
  else Bytes.write mem offset (octets x).toList

def add (x y z : ℕ) : Miracl ℕ := guarded z <|
  if nib < words (x + y) then berror overflow z else pure (x + y)

def multiply (x y z : ℕ) : Miracl ℕ := guarded z <|
  if nib < words x + words y then berror overflow z else pure (x * y)

/-- For `y ≤ x`. -/
def subtract (x y z : ℕ) : Miracl ℕ := guarded z (pure (x - y))

def divide (x y : ℕ) : Miracl ℕ := guarded x (pure (x % y))

/-- `mad(x, y, z, w, w, r)`; the addition is left out when `z` is `x` or `y`. -/
def mad (x y : ℕ) (z : Option ℕ) (w r : ℕ) : Miracl ℕ := guarded r (pure ((x * y + z.getD 0) % w))

/-- `xgcd(x, y, x, x, x)`: the positive cofactor of `x`. -/
def xgcd (x y : ℕ) : Miracl ℕ := guarded x (pure (Inverse.cofactor x y))

/-- The remainder of the generator's words, which are `raw` taken together. -/
def bigrand (raw w x : ℕ) : Miracl ℕ := guarded x (pure (raw % w))

/-- The point with the given coordinates, taken modulo `p`. -/
def epointSet (x y : ℕ) (pt : Point) : Miracl (Bool × Point) := guarded (false, pt) <|
  if on : ecc256.OnCurve (.affine (x % p) (y % p)) then pure (true, ⟨.affine (x % p) (y % p), on⟩)
  else pure (false, pt)

def epointInit : Point := 0

def pointAtInfinity (pt : Point) : Bool := decide (pt = 0)

def epointGet (pt : Point) (x y : ℕ) : Miracl (ℕ × ℕ) := guarded (x, y) <|
  match pt.coordinates with
  | .infinity => pure (0, 0)
  | .affine x y => pure (x, y)

/-- The product `3 e` has to be a big number; until then `pt` is a copy of `pa`. -/
def ecurveMult (e : ℕ) (pa pt : Point) : Miracl Point := guarded pt <|
  if 3 * e < 2 ^ (32 * nib) then pure (e • pa) else berror overflow pa

/-- `pt` becomes `pa + pt`. -/
def ecurveAdd (pa pt : Point) : Miracl Point := guarded pt (pure (pa + pt))

def ecurveMult2 (e : ℕ) (pt : Point) (ea : ℕ) (pa old : Point) : Miracl Point :=
  if e = 0 then ecurveMult ea pa old
  else guarded old <|
    match mrJsf ea e with
    | some _ => pure (e • pt + ea • pa)
    | none => fun _ => none

end Miracl

/-! What the routines do while no error is pending. -/

theorem words_le_iff (x k : ℕ) : words x ≤ k ↔ x < 2 ^ (32 * k) := by
  unfold words
  split
  · rename_i zero
    simp [zero]
  · rename_i nonzero
    rw [← Nat.log2_lt nonzero]
    omega

namespace Miracl

section
variable {α : Type} (old : α) (routine : Miracl α)

@[simp] theorem guarded_mirsys : (guarded old routine).run mirsys = routine.run mirsys := rfl

theorem guarded_error {mip : Mip} (pending : mip.ERNUM ≠ 0) :
    (guarded old routine).run mip = some (old, mip) := by
  simp [guarded, pending]

end

@[simp] theorem lift_some {α : Type} (value : α) (mip : Mip) :
    (liftM (some value) : Miracl α).run mip = some (value, mip) := rfl

theorem bytesToBig_run (bytes : Bytes) (short : bytes.length ≤ 4 * nib) (x : ℕ) :
    (bytesToBig bytes.length bytes x).run mirsys = some (Bytes.value bytes, mirsys) := by
  have significant : ¬ 4 * nib < (bytes.dropWhile (· == 0)).length :=
    Nat.not_lt.mpr ((List.dropWhile_sublist _).length_le.trans short)
  cases bytes with
  | nil => rfl
  | cons byte bytes =>
    have positive : ¬ ((byte :: bytes).length : ℤ) ≤ 0 := by simp
    simp only [bytesToBig, guarded_mirsys, if_neg positive, Int.toNat_natCast, Bytes.read_length]
    change StateT.run (if _ then _ else _) mirsys = _
    rw [if_neg significant, Bytes.value_dropWhile]
    rfl

/-- The octets of the number in the first `len` octets. -/
def significant (len : ℤ) (ptr : Bytes) : ℕ := ((ptr.take len.toNat).dropWhile (· == 0)).length

/-- The number in the first `len` octets. One that needs more words than a big number has is refused (`failure`), or
harms memory (`none`). -/
def bigOf (len : ℤ) (ptr : Bytes) : OptionT Option ℕ :=
  if len ≤ 0 then return 0
  else if 4 * nib < significant len ptr then
    if mrLent ((significant len ptr + 3) / 4) ≤ nib then failure else OptionT.mk none
  else return Bytes.value (ptr.take len.toNat)

/-- A test of what has been read. -/
def checked {α : Type} (value : Option α) : OptionT Option α := OptionT.mk (some value)

@[simp] theorem checked_some {α : Type} (value : α) : checked (some value) = pure value := rfl

/-- What `bytes_to_big` leaves: a number, or a pending error. -/
def afterRead : Option ℕ → ℕ × Mip
  | some value => (value, mirsys)
  | none => (0, ⟨overflow⟩)

theorem bytesToBig_readable {len : ℤ} {ptr : Bytes} (readable : len ≤ ptr.length) (x : ℕ) :
    (bytesToBig len ptr x).run mirsys = (bigOf len ptr).run.map afterRead := by
  by_cases empty : len ≤ 0
  · simp only [bytesToBig, guarded_mirsys, bigOf, if_pos empty]
    rfl
  have inside : len.toNat ≤ ptr.length := by omega
  simp only [bytesToBig, guarded_mirsys, bigOf, if_neg empty, Bytes.read_of_le inside]
  change StateT.run (if 4 * nib < significant len ptr then _ else _) mirsys = _
  split
  · change StateT.run (if mrLent ((significant len ptr + 3) / 4) ≤ nib then _ else _) mirsys = _
    split
    · rfl
    · rfl
  · rw [Bytes.value_dropWhile]
    rfl

theorem bigOf_short {len : ℤ} (short : len ≤ 4 * nib) (ptr : Bytes) :
    bigOf len ptr = pure (Bytes.value (ptr.take len.toNat)) := by
  rw [bigOf]
  split
  · next empty => rw [Int.toNat_of_nonpos empty, List.take_zero, Bytes.value_nil]
  · have bound := (List.dropWhile_sublist (l := ptr.take len.toNat) (· == 0)).length_le
    rw [List.length_take] at bound
    rw [if_neg]
    unfold significant
    omega

theorem bytesToBig_take {ptr : Bytes} (room : 32 ≤ ptr.length) (x : ℕ) :
    (bytesToBig 32 ptr x).run mirsys = some (Bytes.value (ptr.take 32), mirsys) := by
  rw [bytesToBig_readable (by omega), bigOf_short (by decide)]
  rfl

@[simp] theorem bigOf_octets (bytes : Octets) : bigOf 32 bytes.toList = pure bytes.value := by
  have whole : bytes.toList.take 32 = bytes.toList := List.take_of_length_le (by simp)
  rw [bigOf_short (by decide), show (32 : ℤ).toNat = 32 from rfl, whole]
  rfl

@[simp] theorem bytesToBig_octets (bytes : Octets) (x : ℕ) :
    (bytesToBig 32 bytes.toList x).run mirsys = some (bytes.value, mirsys) := by
  have run := bytesToBig_run bytes.toList (by simp [nib]) x
  rwa [Vector.length_toList] at run

theorem bigToBytes_run {x : ℕ} (nonzero : x ≠ 0) (fits : x < 2 ^ 256) (ptr : Octets) :
    (bigToBytes x ptr).run mirsys = some ((32, octets x), mirsys) := by
  simp only [bigToBytes, guarded_mirsys, if_neg nonzero, if_neg (Nat.not_le.mpr fits)]
  rfl

theorem bigToBytesAt_run {x : ℕ} (nonzero : x ≠ 0) (fits : x < 2 ^ 256) (offset : ℕ) (mem : Bytes) :
    (bigToBytesAt x offset mem).run mirsys = (mem.write offset (octets x).toList).map (·, mirsys) := by
  simp only [bigToBytesAt, guarded_mirsys, if_neg nonzero, if_neg (Nat.not_le.mpr fits)]
  cases mem.write offset (octets x).toList <;> rfl

theorem add_run {x y : ℕ} (hx : x < 2 ^ 256) (hy : y < 2 ^ 256) (z : ℕ) :
    (add x y z).run mirsys = some (x + y, mirsys) := by
  have short := (words_le_iff (x + y) 9).mpr (by rw [show 32 * 9 = 256 + 32 from rfl, pow_add]; omega)
  have small : ¬ nib < words (x + y) := by simp only [nib]; omega
  simp only [add, guarded_mirsys, if_neg small]
  rfl

theorem multiply_run {x y : ℕ} (hx : x < 2 ^ 256) (hy : y < 2 ^ 256) (z : ℕ) :
    (multiply x y z).run mirsys = some (x * y, mirsys) := by
  have short := (words_le_iff x 8).mpr hx
  have short' := (words_le_iff y 8).mpr hy
  have small : ¬ nib < words x + words y := by simp only [nib]; omega
  simp only [multiply, guarded_mirsys, if_neg small]
  rfl

/-- What `big_to_bytes` leaves in an array for a number that fits. -/
def filled (x : ℕ) (ptr : Octets) : Octets := if x = 0 then ptr else octets x

theorem bigToBytes_filled {x : ℕ} (fits : x < 2 ^ 256) (ptr : Octets) :
    (bigToBytes x ptr).run mirsys = some ((if x = 0 then 0 else 32, filled x ptr), mirsys) := by
  by_cases zero : x = 0
  · simp only [bigToBytes, guarded_mirsys, filled, if_pos zero]
    rfl
  · rw [bigToBytes_run zero fits, filled, if_neg zero, if_neg zero]

@[simp] theorem subtract_run (x y z : ℕ) : (subtract x y z).run mirsys = some (x - y, mirsys) := rfl

@[simp] theorem divide_run (x y : ℕ) : (divide x y).run mirsys = some (x % y, mirsys) := rfl

@[simp] theorem mad_run (x y : ℕ) (z : Option ℕ) (w r : ℕ) :
    (mad x y z w r).run mirsys = some ((x * y + z.getD 0) % w, mirsys) := rfl

@[simp] theorem xgcd_run (x y : ℕ) : (xgcd x y).run mirsys = some (Inverse.cofactor x y, mirsys) := rfl

@[simp] theorem bigrand_run (raw w x : ℕ) : (bigrand raw w x).run mirsys = some (raw % w, mirsys) := rfl

theorem mod_n_lt (x : ℕ) : x % n < 2 ^ 256 := (Nat.mod_lt x n_prime.pos).trans n_lt

theorem room_of_lt {e : ℕ} (small : e < 2 ^ 256) : 3 * e < 2 ^ (32 * nib) :=
  lt_of_words (show 3 * e < 2 ^ (32 * 9) by rw [show 32 * 9 = 256 + 32 from rfl, pow_add]; omega) (by decide)

theorem ecurveMult_room {e : ℕ} (room : 3 * e < 2 ^ (32 * nib)) (pa pt : Point) :
    (ecurveMult e pa pt).run mirsys = some (e • pa, mirsys) := by
  rw [ecurveMult, guarded_mirsys, if_pos room]
  rfl

theorem ecurveMult_run {e : ℕ} (small : e < 2 ^ 256) (pa pt : Point) :
    (ecurveMult e pa pt).run mirsys = some (e • pa, mirsys) := ecurveMult_room (room_of_lt small) pa pt

theorem ecurveMult_overflow {e : ℕ} (large : ¬ 3 * e < 2 ^ (32 * nib)) (pa pt : Point) :
    (ecurveMult e pa pt).run mirsys = some (pa, ⟨overflow⟩) := by
  rw [ecurveMult, guarded_mirsys, if_neg large]
  rfl

@[simp] theorem ecurveAdd_run (pa pt : Point) : (ecurveAdd pa pt).run mirsys = some (pa + pt, mirsys) := rfl

theorem ecurveMult2_room {e ea : ℕ} (room : 3 * e < 2 ^ (32 * nib)) (room' : 3 * ea < 2 ^ (32 * nib))
    (pt pa old : Point) : (ecurveMult2 e pt ea pa old).run mirsys = some (e • pt + ea • pa, mirsys) := by
  rw [ecurveMult2]
  split
  · next zero => rw [ecurveMult_room room', zero, zero_nsmul, zero_add]
  · obtain ⟨form, digits, -⟩ := mrJsf_value (room_for_digits room') (room_for_digits room)
    rw [guarded_mirsys, digits]
    rfl

theorem ecurveMult2_run {e ea : ℕ} (small : e < 2 ^ 256) (small' : ea < 2 ^ 256) (pt pa old : Point) :
    (ecurveMult2 e pt ea pa old).run mirsys = some (e • pt + ea • pa, mirsys) :=
  ecurveMult2_room (room_of_lt small) (room_of_lt small') pt pa old

end Miracl

/-! Coordinates. -/

/-- The abscissa that `epoint_get` delivers, zero at infinity. -/
def abscissa (pt : Point) : ℕ :=
  match pt.coordinates with
  | .infinity => 0
  | .affine x _ => x

def ordinate (pt : Point) : ℕ :=
  match pt.coordinates with
  | .infinity => 0
  | .affine _ y => y

theorem coordinates_of_ne_zero {pt : Point} (finite : pt ≠ 0) :
    pt.coordinates = .affine (abscissa pt) (ordinate pt) := by
  unfold abscissa ordinate
  rcases same : pt.coordinates with _ | ⟨x, y⟩
  · exact absurd (Curve.Point.ext same) finite
  · rfl

theorem abscissa_lt (pt : Point) : abscissa pt < p := by
  have on := pt.on_curve
  unfold abscissa
  rcases same : pt.coordinates with _ | ⟨x, y⟩
  · exact p_prime.pos
  · rw [same] at on
    exact on.1

theorem ordinate_lt (pt : Point) : ordinate pt < p := by
  have on := pt.on_curve
  unfold ordinate
  rcases same : pt.coordinates with _ | ⟨x, y⟩
  · exact p_prime.pos
  · rw [same] at on
    exact on.2.1

structure NonzeroCoordinates (pt : Point) : Prop where
  abscissa_ne : abscissa pt ≠ 0
  ordinate_ne : ordinate pt ≠ 0

theorem NonzeroCoordinates.finite {pt : Point} (nonzero : NonzeroCoordinates pt) : pt ≠ 0 := by
  rintro rfl
  exact nonzero.abscissa_ne rfl

/-- The first coordinate of a point as an array. -/
def xOctets (pt : Point) : Octets := octets (abscissa pt)
def yOctets (pt : Point) : Octets := octets (ordinate pt)

instance (pt : Point) : Decidable (NonzeroCoordinates pt) :=
  decidable_of_iff (abscissa pt ≠ 0 ∧ ordinate pt ≠ 0) ⟨fun h => ⟨h.1, h.2⟩, fun h => ⟨h.1, h.2⟩⟩

namespace Miracl

@[simp] theorem epointGet_run (pt : Point) (x y : ℕ) :
    (epointGet pt x y).run mirsys = some ((abscissa pt, ordinate pt), mirsys) := by
  rw [epointGet, guarded_mirsys]
  unfold abscissa ordinate
  cases pt.coordinates <;> rfl

/-- The point whose coordinates are congruent to the given numbers. -/
def pointOf (x y : ℕ) : Option Point :=
  if on : ecc256.OnCurve (.affine (x % p) (y % p)) then some ⟨_, on⟩ else none

theorem pointOf_ne_zero {x y : ℕ} {pt : Point} (set : pointOf x y = some pt) : pt ≠ 0 := by
  unfold pointOf at set
  split at set
  · cases set
    exact fun same => Coordinates.noConfusion (congrArg Curve.Point.coordinates same)
  · cases set

theorem epointSet_pointOf (x y : ℕ) (old : Point) : (epointSet x y old).run mirsys =
    some (match pointOf x y with | some pt => (true, pt) | none => (false, old), mirsys) := by
  simp only [epointSet, guarded_mirsys, pointOf]
  split <;> rfl

theorem epointSet_error {mip : Mip} (pending : mip.ERNUM ≠ 0) (x y : ℕ) (old : Point) :
    (epointSet x y old).run mip = some ((false, old), mip) := guarded_error _ _ pending

theorem bytesToBig_error {mip : Mip} (pending : mip.ERNUM ≠ 0) (len : ℤ) (ptr : Bytes) (x : ℕ) :
    (bytesToBig len ptr x).run mip = some (x, mip) := guarded_error _ _ pending

theorem bigToBytes_error {mip : Mip} (pending : mip.ERNUM ≠ 0) (x : ℕ) (ptr : Octets) :
    (bigToBytes x ptr).run mip = some ((0, ptr), mip) := guarded_error _ _ pending

theorem epointGet_error {mip : Mip} (pending : mip.ERNUM ≠ 0) (pt : Point) (x y : ℕ) :
    (epointGet pt x y).run mip = some ((x, y), mip) := guarded_error _ _ pending

theorem pointOf_coordinates {pt : Point} (finite : pt ≠ 0) : pointOf (abscissa pt) (ordinate pt) = some pt := by
  have on := pt.on_curve
  have same := coordinates_of_ne_zero finite
  rw [same] at on
  simp only [pointOf, Nat.mod_eq_of_lt (abscissa_lt pt), Nat.mod_eq_of_lt (ordinate_lt pt), dif_pos on]
  exact congrArg some (Curve.Point.ext same.symm)

theorem epointSet_run {pt : Point} (finite : pt ≠ 0) (old : Point) :
    (epointSet (abscissa pt) (ordinate pt) old).run mirsys = some ((true, pt), mirsys) := by
  rw [epointSet_pointOf, pointOf_coordinates finite]

theorem bigToBytes_abscissa {pt : Point} (nonzero : NonzeroCoordinates pt) (ptr : Octets) :
    (bigToBytes (abscissa pt) ptr).run mirsys = some ((32, xOctets pt), mirsys) :=
  bigToBytes_run nonzero.abscissa_ne ((abscissa_lt pt).trans p_lt) ptr

theorem bigToBytes_ordinate {pt : Point} (nonzero : NonzeroCoordinates pt) (ptr : Octets) :
    (bigToBytes (ordinate pt) ptr).run mirsys = some ((32, yOctets pt), mirsys) :=
  bigToBytes_run nonzero.ordinate_ne ((ordinate_lt pt).trans p_lt) ptr

end Miracl
end MyTools.Sm2
