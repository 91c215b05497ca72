import MyTools.Mpi.BinaryInverse
import MyTools.Mpi.Codec
import MyTools.Mpi.Multiplication
import MyTools.Mpi.ShiftLeft
import MyTools.Mpi.Square
import MyTools.Sm2.Signature

/-! The checks of a private and of a public key, and the generation of a pair of keys. The checks use the
numbers of eight words, the generation uses the other library. -/
namespace MyTools.Mpi
open Library CMpi

def gA : CMpi where
  word := #v[0xFFFFFFFC, 0xFFFFFFFF, 0x00000000, 0xFFFFFFFF, 0xFFFFFFFF, 0xFFFFFFFF, 0xFFFFFFFF, 0xFFFFFFFE]
  carry := 0
  sign := .positive
  length := 8

def gB : CMpi where
  word := #v[0x4D940E93, 0xDDBCBD41, 0x15AB8F92, 0xF39789F5, 0xCF6509A7, 0x4D5A9E4B, 0x9D9F5E34, 0x28E9FA9E]
  carry := 0
  sign := .positive
  length := 8

def gN : CMpi where
  word := #v[0x39D54123, 0x53BBF409, 0x21C6052B, 0x7203DF6B, 0xFFFFFFFF, 0xFFFFFFFF, 0xFFFFFFFF, 0xFFFFFFFE]
  carry := 0
  sign := .positive
  length := 8

theorem gA_abs : gA.abs = Sm2.a := by decide
theorem gB_abs : gB.abs = Sm2.b := by decide
theorem gN_abs : gN.abs = Sm2.n := by decide

/-- `CMpi_GetLengthInBytes`, which takes the leading zero words off the number. -/
def CMpi.getLengthInBytes (n : CMpi) : Option (CMpi × ℕ) := do
  let n ← n.regularize
  if n.length = 0 then some (n, 0)
  else do
    let j ← n.get (n.length - 1)
    let octets ← Loop.scan (fun i =>
      some (if j &&& (0xff : UInt32) <<< .ofNat (i * 8) ≠ 0 then some (i + 1) else none)) 0 4
    some (n, octets + (n.length - 1) * 4)

theorem gP_getLengthInBytes : gP.getLengthInBytes = some (gP, 32) := by rfl

end MyTools.Mpi

namespace MyTools.Sm2
open Library MyTools.Sm2.Miracl Mpi

/-- The local variables of the checks and of what they call, before they are assigned. -/
structure CheckLocals where
  d : CMpi
  x : CMpi
  y : CMpi
  left : CMpl
  right : CMpl
  temp₁ : CMpi
  temp₂ : CMpi
  mod₁ : CMpl.Scratch
  mod₂ : CMpl.Scratch
  mod₃ : CMpl.Scratch

def sm2CheckPoint (gP x y : CMpi) (locals : CheckLocals) : Option Bool := do
  if x.sign = .negtive ∨ y.sign = .negtive then some false
  else if !(← gP.largerThanAbs x) then some false
  else if !(← gP.largerThanAbs y) then some false
  else do
    let left ← x.fastSquare locals.left
    let left ← left.addi gA locals.temp₁
    let left ← left.mod gP locals.mod₁
    let left ← CMpl.multiplyInto .lowHalf (.own x) left
    let left ← left.addi gB locals.temp₂
    let left ← left.mod gP locals.mod₂
    let right ← y.fastSquare locals.right
    let right ← right.mod gP locals.mod₃
    right.l.equalsTo left.l

def sm2CheckPrikey (prikey : Octets) (locals : CheckLocals) : Option ℤ := do
  let (_, length) ← gP.getLengthInBytes
  let d ← locals.d.importBytes prikey.toList length
  if ← d.equalsToD 0 then some (-1)
  else if !(← gN.largerThanAbs d) then some (-1)
  else some 0

def sm2CheckPubkey (pubkey : Vector UInt8 64) (locals : CheckLocals) : Option ℤ := do
  let (gP, length) ← gP.getLengthInBytes
  let x ← locals.x.importBytes pubkey.toList length
  let (gP, length) ← gP.getLengthInBytes
  let y ← locals.y.importBytes (pubkey.toList.drop 32) length
  let valid ← sm2CheckPoint gP x y locals
  if valid = false then some (-1) else some 0

/-! The stages of the check of a point. -/

private structure Full (x : CMpi) (v : ℕ) : Prop where
  sign : x.sign = .positive
  length : x.length = 8
  value : x.abs = v

private structure Residue (r : CMpl) (v : ℕ) : Prop extends r.Positive where
  empty : r.h.length = 0
  value : r.l.abs = v % p

private theorem imported_run (x : CMpi) {content : Bytes} (enough : 32 ≤ content.length) :
    ∃ r, x.importBytes content 32 = some r ∧ Full r (Bytes.value (content.take 32)) := by
  have size : (content.take 32).length = 32 := List.length_take_of_le enough
  obtain ⟨r, run, imported⟩ := x.importBytes_imported (content.take 32) (Nat.le_of_eq size)
  have length := imported.length
  rw [size] at run length
  exact ⟨r, (x.importBytes_take content 32).trans run, imported.sign, length, imported.value⟩

private theorem Full.small {x : CMpi} {v : ℕ} (full : Full x v) : v < radix ^ 8 := by
  rw [← full.value, ← full.length]
  exact x.abs_lt

private theorem modP_run (n : CMpl) (scratch : CMpl.Scratch) (positive : n.Positive)
    (full : n.l.length = 8 ∨ n.h.length = 0) : ∃ r, n.mod gP scratch = some r ∧ Residue r n.abs := by
  obtain ⟨r, run, reduced⟩ := CMpl.fastReduction_run n gP scratch.inner ⟨positive.l_bounded, positive.h_bounded, full⟩
    (by decide) rfl gP_abs
  have special : gP.word = gP.word ∧ gP.length = 8 := ⟨rfl, rfl⟩
  refine ⟨r, ?_, ⟨?_, ?_, reduced.bounded, ?_⟩, reduced.empty, reduced.value⟩
  · rw [CMpl.mod, CMpl.reduction, if_pos special, run]
  · exact (reduced.l_sign (.inr positive.l_sign)).trans positive.l_sign
  · exact reduced.h_sign.trans positive.l_sign
  · exact reduced.empty.trans_le (Nat.zero_le 8)

private theorem addModP_run (n : CMpl) (b temp : CMpi) (scratch : CMpl.Scratch) {v : ℕ} (positive : n.Positive)
    (full : n.l.length = 8 ∨ n.h.length = 0) (coefficient : Full b v) (fits : n.abs + v < radix ^ 16) :
    ∃ s r, n.addi b temp = some s ∧ s.mod gP scratch = some r ∧ Residue r (n.abs + v) := by
  have wide : n.l.length = 8 ∨ n.h.abs = 0 := full.imp_right fun empty => by
    rw [CMpi.abs, empty, Limbs.value_zero]
  have length := coefficient.length
  obtain ⟨s, run, added⟩ := n.addi_positive b temp positive coefficient.sign (Nat.le_of_eq length) wide
    (coefficient.value ▸ fits)
  have longer := added.l_longer
  have bounded := added.l_bounded
  obtain ⟨r, r_run, residue⟩ := modP_run s scratch added.toPositive (.inl (by omega))
  rw [added.value, coefficient.value] at residue
  exact ⟨s, r, run, r_run, residue⟩

private theorem squareFull_run {x : CMpi} {v : ℕ} (full : Full x v) (junk : CMpl) :
    ∃ r, x.fastSquare junk = some r ∧ r.Positive ∧ r.l.length = 8 ∧ r.abs = v * v := by
  have length := full.length
  obtain ⟨r, run, square⟩ := CMpi.fastSquare_run x junk (by omega) (by omega)
  have l_length := square.l_length
  have h_length := square.h_length
  refine ⟨r, run, ⟨square.l_sign, square.h_sign, by omega, by omega⟩, by omega, ?_⟩
  rw [square.value, full.value]

private theorem timesFull_run {x : CMpi} {v w : ℕ} (full : Full x v) {left : CMpl} (residue : Residue left w) :
    ∃ r, CMpl.multiplyInto .lowHalf (.own x) left = some r ∧ r.Positive ∧ (r.l.length = 8 ∨ r.h.length = 0) ∧
      r.abs = w % p * v := by
  obtain ⟨r, run, product⟩ := CMpi.multiply_run left.l x left residue.l_bounded (Nat.le_of_eq full.length)
  have same : left.l.sign = x.sign := residue.l_sign.trans full.sign.symm
  have l_sign := product.l_sign
  have h_sign := product.h_sign
  rw [if_pos same] at l_sign h_sign
  refine ⟨r, (CMpl.multiplyInto_eq _ _ _).trans run, ⟨l_sign, h_sign, product.l_bounded, product.h_bounded⟩, product.full, ?_⟩
  rw [product.value, residue.value, full.value]

private theorem product_fits {u v w : ℕ} (hu : u < radix ^ 8) (hv : v < radix ^ 8) (hw : w < radix ^ 8) :
    u * v + w < radix ^ 16 := by
  have split : radix ^ 16 = radix ^ 8 * radix ^ 8 := (pow_add radix 8 8)
  have most : u * v + radix ^ 8 ≤ radix ^ 8 * radix ^ 8 := by
    calc u * v + radix ^ 8 ≤ u * radix ^ 8 + radix ^ 8 := Nat.add_le_add_right (Nat.mul_le_mul_left u hv.le) _
      _ = (u + 1) * radix ^ 8 := (Nat.succ_mul _ _).symm
      _ ≤ radix ^ 8 * radix ^ 8 := Nat.mul_le_mul_right _ hu
  rw [split]
  exact Nat.lt_of_lt_of_le (Nat.add_lt_add_left hw _) most

private theorem a_full : Full gA a := ⟨rfl, rfl, gA_abs⟩
private theorem b_full : Full gB b := ⟨rfl, rfl, gB_abs⟩

private theorem equation_iff (x y : ℕ) :
    y * y % p = (((x * x + a) % p) * x + b) % p ↔ y ^ 2 ≡ x ^ 3 + a * x + b [MOD p] := by
  have expanded : (x * x + a) * x + b = x ^ 3 + a * x + b := by ring
  rw [Nat.add_mod, Nat.mod_mul_mod, ← Nat.add_mod, expanded, pow_two, Nat.ModEq]

/-- Reduced coordinates of a point of the curve. -/
def IsPoint (X Y : ℕ) : Prop := X < p ∧ Y < p ∧ Y ^ 2 ≡ X ^ 3 + a * X + b [MOD p]

instance (X Y : ℕ) : Decidable (IsPoint X Y) :=
  inferInstanceAs (Decidable (X < p ∧ Y < p ∧ Y ^ 2 ≡ X ^ 3 + a * X + b [MOD p]))

private theorem sm2CheckPoint_run {x y : CMpi} {X Y : ℕ} (x_full : Full x X) (y_full : Full y Y) (locals : CheckLocals) :
    sm2CheckPoint gP x y locals = some (decide (IsPoint X Y)) := by
  have signs : ¬ (x.sign = .negtive ∨ y.sign = .negtive) := by
    rw [x_full.sign, y_full.sign]
    decide
  have x_test := CMpi.largerThanAbs_run gP x (by decide) (Nat.le_of_eq x_full.length)
  have y_test := CMpi.largerThanAbs_run gP y (by decide) (Nat.le_of_eq y_full.length)
  rw [gP_abs, x_full.value] at x_test
  rw [gP_abs, y_full.value] at y_test
  rw [sm2CheckPoint, if_neg signs, x_test, Option.bind_eq_bind, Option.bind_some]
  by_cases x_small : X < p
  · rw [decide_eq_true x_small, Bool.not_true, if_neg Bool.false_ne_true, y_test, Option.bind_some]
    by_cases y_small : Y < p
    · rw [decide_eq_true y_small, Bool.not_true, if_neg Bool.false_ne_true]
      obtain ⟨xx, xx_run, xx_positive, xx_full, xx_value⟩ := squareFull_run x_full locals.left
      obtain ⟨s, u, s_run, u_run, u_residue⟩ := addModP_run xx gA locals.temp₁ locals.mod₁ xx_positive (.inl xx_full)
        a_full (xx_value ▸ product_fits x_full.small x_full.small a_full.small)
      obtain ⟨t, t_run, t_positive, t_full, t_value⟩ := timesFull_run x_full u_residue
      have u_small : (xx.abs + a) % p < radix ^ 8 := (Nat.mod_lt _ p_prime.pos).trans p_lt
      obtain ⟨w, l, w_run, l_run, l_residue⟩ := addModP_run t gB locals.temp₂ locals.mod₂ t_positive t_full b_full
        (t_value ▸ product_fits u_small x_full.small b_full.small)
      obtain ⟨yy, yy_run, yy_positive, yy_full, yy_value⟩ := squareFull_run y_full locals.right
      obtain ⟨r, r_run, r_residue⟩ := modP_run yy locals.mod₃ yy_positive (.inl yy_full)
      have equal := CMpi.equalsTo_run r.l l.l r_residue.l_bounded l_residue.l_bounded
      rw [r_residue.value, l_residue.value, yy_value, t_value, xx_value] at equal
      simp only [xx_run, s_run, u_run, t_run, w_run, l_run, yy_run, r_run, Option.bind_eq_bind, Option.bind_some, equal,
        equation_iff, IsPoint, x_small, y_small, true_and]
    · rw [decide_eq_false y_small, Bool.not_false, if_pos rfl, decide_eq_false fun all => y_small all.2.1]
  · rw [decide_eq_false x_small, Bool.not_false, if_pos rfl, decide_eq_false fun all => x_small all.1]

/-- The numbers X and Y of a public key X‖Y. -/
def pubkeyX (pubkey : Vector UInt8 64) : ℕ := Bytes.value (pubkey.toList.take 32)
def pubkeyY (pubkey : Vector UInt8 64) : ℕ := Bytes.value (pubkey.toList.drop 32)

theorem sm2CheckPubkey_run (pubkey : Vector UInt8 64) (locals : CheckLocals) :
    sm2CheckPubkey pubkey locals = some (if IsPoint (pubkeyX pubkey) (pubkeyY pubkey) then 0 else -1) := by
  have size : pubkey.toList.length = 64 := Vector.length_toList
  have rest : (pubkey.toList.drop 32).length = 32 := by rw [List.length_drop, size]
  obtain ⟨x, x_run, x_full⟩ := imported_run locals.x (show 32 ≤ pubkey.toList.length by omega)
  obtain ⟨y, y_run, y_full⟩ := imported_run locals.y (Nat.le_of_eq rest.symm)
  rw [List.take_of_length_le (Nat.le_of_eq rest)] at y_full
  have check : sm2CheckPoint gP x y locals = some (decide (IsPoint (pubkeyX pubkey) (pubkeyY pubkey))) :=
    sm2CheckPoint_run x_full y_full locals
  rw [sm2CheckPubkey]
  simp only [gP_getLengthInBytes, x_run, y_run, check, Option.bind_eq_bind, Option.bind_some]
  by_cases point : IsPoint (pubkeyX pubkey) (pubkeyY pubkey)
  · rw [decide_eq_true point, if_neg Bool.false_ne_true.symm, if_pos point]
  · rw [decide_eq_false point, if_pos rfl, if_neg point]

/-- The check accepts exactly the affine points of the curve. -/
theorem sm2CheckPubkey_iff (pubkey : Vector UInt8 64) (locals : CheckLocals) :
    ∃ r, sm2CheckPubkey pubkey locals = some r ∧
      (r = 0 ↔ pubkeyX pubkey < gP.abs ∧ pubkeyY pubkey < gP.abs ∧
        pubkeyY pubkey ^ 2 ≡ pubkeyX pubkey ^ 3 + gA.abs * pubkeyX pubkey + gB.abs [MOD gP.abs]) := by
  rw [gP_abs, gA_abs, gB_abs]
  refine ⟨_, sm2CheckPubkey_run pubkey locals, ?_⟩
  change _ ↔ IsPoint (pubkeyX pubkey) (pubkeyY pubkey)
  split
  · next point => exact iff_of_true rfl point
  · next other => exact iff_of_false (by decide) other

theorem sm2CheckPrikey_run (prikey : Octets) (locals : CheckLocals) :
    sm2CheckPrikey prikey locals = some (if 0 < prikey.value ∧ prikey.value < n then 0 else -1) := by
  have size : prikey.toList.length = 32 := Vector.length_toList
  obtain ⟨d, d_run, d_full⟩ := imported_run locals.d (Nat.le_of_eq size.symm)
  rw [List.take_of_length_le (Nat.le_of_eq size)] at d_full
  have value : d.abs = prikey.value := d_full.value
  have zero_test := d.equalsToD_zero (Nat.le_of_eq d_full.length)
  have order_test := CMpi.largerThanAbs_run gN d (by decide) (Nat.le_of_eq d_full.length)
  rw [value] at zero_test order_test
  rw [gN_abs] at order_test
  rw [sm2CheckPrikey]
  simp only [gP_getLengthInBytes, d_run, zero_test, order_test, Option.bind_eq_bind, Option.bind_some]
  by_cases zero : prikey.value = 0
  · rw [decide_eq_true zero, if_pos rfl, if_neg fun range => absurd range.1 (Nat.not_lt.mpr (Nat.le_of_eq zero))]
  · rw [decide_eq_false zero, if_neg Bool.false_ne_true]
    by_cases small : prikey.value < n
    · rw [decide_eq_true small, Bool.not_true, if_neg Bool.false_ne_true, if_pos ⟨Nat.pos_of_ne_zero zero, small⟩]
    · rw [decide_eq_false small, Bool.not_false, if_pos rfl, if_neg fun range => small range.2]

theorem sm2CheckPrikey_iff (prikey : Octets) (locals : CheckLocals) :
    sm2CheckPrikey prikey locals = some 0 ↔ 0 < prikey.value ∧ prikey.value < n := by
  rw [sm2CheckPrikey_run, Option.some.injEq]
  split
  · next range => exact iff_of_true rfl range
  · next outside => exact iff_of_false (by decide) outside

/-! Signing with an accepted key. -/

/-- With the private key `1 + d` can be inverted, and what `sm2_sign` makes with its first draw is verified. -/
def Signs (prikey : Octets) : Prop :=
  Nat.Coprime (prikey.value + 1) n ∧
    ∀ (hash : Octets) (raw : ℕ) (out sig : Signature) (ret : ℤ),
      sm2Sign hash.toList 32 prikey.toList 32 [raw] out = some (ret, sig) →
        verifyOutput hash sig (prikey.value • base) = some 1

theorem lastAttempt_single {e d raw multiple k : ℕ} (attempt : lastAttempt e d [raw] 1 = some (multiple, k)) :
    multiple = k := by
  simp only [lastAttempt] at attempt
  split_ifs at attempt
  rw [Option.some.injEq, Prod.mk.injEq] at attempt
  rw [← attempt.1, ← attempt.2, Nat.mul_one]

theorem verified_of_single {d : ℕ} (positive : 0 < d) (small : d + 1 < n) (hash : Octets) (raw : ℕ) {out sig : Signature}
    {ret : ℤ} (signed : sm2Sign hash.toList 32 (octets d).toList 32 [raw] out = some (ret, sig)) :
    verifyOutput hash sig (d • base) = some 1 := by
  have below := Nat.lt_of_succ_lt small
  rw [sm2Sign_run hash below] at signed
  obtain ⟨⟨multiple, k⟩, attempt, equal⟩ := Option.map_eq_some_iff.mp signed
  obtain rfl := lastAttempt_single attempt
  have accepts := ((lastAttempt_final [raw] 1 attempt).accepts_iff (coprime_succ small)).mpr rfl
  cases equal
  rw [verifyOutput_signatureOf hash d _ _ (nsmul_base_ne_zero positive below), if_pos accepts]

/-- Of the accepted keys just the largest one cannot sign. -/
theorem signs_iff (prikey : Octets) (locals : CheckLocals) (accepted : sm2CheckPrikey prikey locals = some 0) :
    Signs prikey ↔ prikey.value ≠ n - 1 := by
  obtain ⟨positive, small⟩ := (sm2CheckPrikey_iff prikey locals).mp accepted
  constructor
  · rintro ⟨unit, -⟩ last
    have whole : prikey.value + 1 = n := by omega
    rw [whole, Nat.coprime_self] at unit
    exact absurd unit one_lt_n.ne'
  · intro other
    have room : prikey.value + 1 < n := by omega
    refine ⟨coprime_succ room, fun hash raw out sig ret signed => ?_⟩
    rw [← octets_of_value prikey] at signed
    exact verified_of_single positive room hash raw signed

def zeroLocals : CheckLocals where
  d := zeroWords
  x := zeroWords
  y := zeroWords
  left := ⟨zeroWords, zeroWords⟩
  right := ⟨zeroWords, zeroWords⟩
  temp₁ := zeroWords
  temp₂ := zeroWords
  mod₁ := .clear
  mod₂ := .clear
  mod₃ := .clear

theorem octets_accepted {d : ℕ} (positive : 0 < d) (small : d < n) (locals : CheckLocals) :
    sm2CheckPrikey (octets d) locals = some 0 := by
  rw [sm2CheckPrikey_iff, octets_value (small.trans n_lt)]
  exact ⟨positive, small⟩

theorem signs_iff_one : Signs (octets 1) ↔ (octets 1).value ≠ n - 1 :=
  signs_iff (octets 1) zeroLocals (octets_accepted Nat.one_pos one_lt_n zeroLocals)

/-- The check accepts the key n - 1, with which `1 + d` is the order of the base point. -/
theorem not_signs : ¬ ∀ prikey locals, sm2CheckPrikey prikey locals = some 0 → Signs prikey := by
  intro all
  have last : n - 1 < n := by decide +kernel
  have value := octets_value (last.trans n_lt)
  obtain ⟨unit, -⟩ := all (octets (n - 1)) zeroLocals (octets_accepted (by decide +kernel) last zeroLocals)
  rw [value, Nat.sub_add_cancel n_pos, Nat.coprime_self] at unit
  exact absurd unit one_lt_n.ne'

/-! The generation of keys. -/

structure KeyPair where
  wx : Octets
  wxlen : ℤ
  wy : Octets
  wylen : ℤ
  privkey : Octets
  privkeylen : ℤ

/-- The generator's words are `raw`. -/
def sm2Keygen (raw : ℕ) (out : KeyPair) : Option (ℤ × KeyPair) := call do
  let (_, g) ← epointSet gx gy epointInit
  let key1 ← bigrand raw n 0
  let g ← ecurveMult key1 g g
  let (x, y) ← epointGet g gx gy
  let (wxlen, wx) ← bigToBytes x out.wx
  let (wylen, wy) ← bigToBytes y out.wy
  let (privkeylen, privkey) ← bigToBytes key1 out.privkey
  return (1, ⟨wx, wxlen, wy, wylen, privkey, privkeylen⟩)

/-- All arrays are written, both checks accept them, and the public key is the private one's multiple of the
base point. -/
structure UsablePair (pair : KeyPair) : Prop where
  wxlen : pair.wxlen = 32
  wylen : pair.wylen = 32
  privkeylen : pair.privkeylen = 32
  prikey : ∀ locals, sm2CheckPrikey pair.privkey locals = some 0
  pubkey : ∀ locals, sm2CheckPubkey (pair.wx ++ pair.wy) locals = some 0
  multiple : (pair.privkey.value • base).coordinates = .affine pair.wx.value pair.wy.value

/-- What is left of the arrays. -/
def pairOf (k : ℕ) (out : KeyPair) : KeyPair where
  wx := filled (abscissa (k • base)) out.wx
  wxlen := if abscissa (k • base) = 0 then 0 else 32
  wy := filled (ordinate (k • base)) out.wy
  wylen := if ordinate (k • base) = 0 then 0 else 32
  privkey := filled k out.privkey
  privkeylen := if k = 0 then 0 else 32

theorem sm2Keygen_run (raw : ℕ) (out : KeyPair) : sm2Keygen raw out = some (1, pairOf (raw % n) out) := by
  have set_base : (epointSet gx gy epointInit).run mirsys = some ((true, base), mirsys) :=
    epointSet_run base_ne_zero epointInit
  have key_small := mod_n_lt raw
  have x_small := (abscissa_lt ((raw % n) • base)).trans p_lt
  have y_small := (ordinate_lt ((raw % n) • base)).trans p_lt
  simp only [sm2Keygen, call, StateT.run_bind, set_base, bigrand_run, ecurveMult_run key_small, epointGet_run,
    Option.bind_eq_bind, Option.bind_some, bigToBytes_filled x_small, bigToBytes_filled y_small, bigToBytes_filled key_small]
  rfl

theorem ordinate_ne_zero {k : ℕ} (finite : k • base ≠ 0) : ordinate (k • base) ≠ 0 := by
  intro zero
  have opposite : -(k • base) = k • base := by
    apply Curve.Point.ext
    have same := coordinates_of_ne_zero finite
    rw [zero] at same
    have negated : (-(k • base)).coordinates = ecc256.neg (k • base).coordinates := rfl
    rw [negated, same, Curve.neg, Curve.minus, Nat.zero_mod, Nat.sub_zero, Nat.zero_add, Nat.mod_self]
  have doubled : (k + k) • base = 0 := by
    rw [add_nsmul]
    exact neg_eq_iff_add_eq_zero.mp opposite
  have divides : n ∣ 2 * k := by
    rw [two_mul]
    exact Nat.dvd_of_mod_eq_zero ((nsmul_base_eq_zero_iff _).mp doubled)
  have odd : Nat.Coprime n 2 := by decide +kernel
  exact finite ((nsmul_base_eq_zero_iff k).mpr (Nat.mod_eq_zero_of_dvd (odd.dvd_of_dvd_mul_left divides)))

theorem isPoint_of_finite {pt : Point} (finite : pt ≠ 0) : IsPoint (abscissa pt) (ordinate pt) := by
  have on := pt.on_curve
  rw [coordinates_of_ne_zero finite] at on
  obtain ⟨x_small, y_small, equation⟩ := on
  refine ⟨x_small, y_small, ?_⟩
  have expanded : abscissa pt * abscissa pt * abscissa pt + a * abscissa pt + b =
      abscissa pt ^ 3 + a * abscissa pt + b := by ring
  rw [← expanded, pow_two]
  exact equation

theorem pubkey_append (wx wy : Octets) : pubkeyX (wx ++ wy) = wx.value ∧ pubkeyY (wx ++ wy) = wy.value := by
  have parts : (wx ++ wy).toList = wx.toList ++ wy.toList := Vector.toList_append
  have size : wx.toList.length = 32 := Vector.length_toList
  constructor
  · rw [pubkeyX, parts, List.take_left' size, Octets.value]
  · rw [pubkeyY, parts, List.drop_left' size, Octets.value]

theorem usablePair_iff {k : ℕ} (small : k < n) (out : KeyPair) :
    UsablePair (pairOf k out) ↔ k ≠ 0 ∧ abscissa (k • base) ≠ 0 := by
  constructor
  · intro usable
    constructor
    · intro zero
      have length := usable.privkeylen
      rw [pairOf, if_pos zero] at length
      cases length
    · intro zero
      have length := usable.wxlen
      rw [pairOf, if_pos zero] at length
      cases length
  · rintro ⟨drawn, x_ne⟩
    have positive := Nat.pos_of_ne_zero drawn
    have finite := nsmul_base_ne_zero positive small
    have y_ne := ordinate_ne_zero finite
    have key : (pairOf k out).privkey = octets k := if_neg drawn
    have wx : (pairOf k out).wx = xOctets (k • base) := if_neg x_ne
    have wy : (pairOf k out).wy = yOctets (k • base) := if_neg y_ne
    have x_value : (xOctets (k • base)).value = abscissa (k • base) := octets_value ((abscissa_lt _).trans p_lt)
    have y_value : (yOctets (k • base)).value = ordinate (k • base) := octets_value ((ordinate_lt _).trans p_lt)
    refine ⟨if_neg x_ne, if_neg y_ne, if_neg drawn, fun locals => ?_, fun locals => ?_, ?_⟩
    · rw [key]
      exact octets_accepted positive small locals
    · obtain ⟨x_same, y_same⟩ := pubkey_append (xOctets (k • base)) (yOctets (k • base))
      rw [wx, wy, sm2CheckPubkey_run, x_same, y_same, x_value, y_value, if_pos (isPoint_of_finite finite)]
    · rw [key, wx, wy, octets_value (small.trans n_lt), x_value, y_value]
      exact coordinates_of_ne_zero finite

/-- The pair is usable unless the draw is zero or the abscissa of its multiple of the base point is: zero is not
written. -/
theorem sm2Keygen_usable_iff (raw : ℕ) (out : KeyPair) :
    ∃ pair, sm2Keygen raw out = some (1, pair) ∧
      (UsablePair pair ↔ raw % n ≠ 0 ∧ abscissa ((raw % n) • base) ≠ 0) :=
  ⟨_, sm2Keygen_run raw out, usablePair_iff (Nat.mod_lt raw n_pos) out⟩

/-- The draw zero leaves all arrays as they were. -/
theorem not_sm2Keygen_usable : ¬ ∀ raw out pair, sm2Keygen raw out = some (1, pair) → UsablePair pair := by
  intro all
  have usable := all 0 ⟨octets 0, 0, octets 0, 0, octets 0, 0⟩ _ (sm2Keygen_run 0 _)
  obtain ⟨drawn, -⟩ := (usablePair_iff (Nat.mod_lt 0 n_pos) _).mp usable
  exact drawn (Nat.zero_mod n)

end MyTools.Sm2
