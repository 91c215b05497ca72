import Mathlib.Data.Finite.Defs
import Mathlib.Data.Fintype.EquivFin
import Mathlib.Data.UInt
import Mathlib.Tactic.Basic

/-! Words of 32 bits and the four octets they are made of, the lowest one first. -/
namespace MyTools.Library.Words

def pack (b0 b1 b2 b3 : UInt8) : UInt32 :=
  (b3.toUInt32 <<< 24) ||| (b2.toUInt32 <<< 16) ||| (b1.toUInt32 <<< 8) ||| b0.toUInt32

def octet (a : UInt32) (j : ℕ) : UInt8 := (a >>> .ofNat (8 * j)).toUInt8

private theorem toNat_lifted (x : UInt8) {count : ℕ} (small : count ≤ 24) :
    (x.toUInt32 <<< UInt32.ofNat count).toNat = x.toNat * 2 ^ count := by
  have bound := x.toNat_lt
  have power : 2 ^ count ≤ 2 ^ 24 := Nat.pow_le_pow_right Nat.two_pos small
  have fits : x.toNat * 2 ^ count ≤ 255 * 2 ^ 24 := Nat.mul_le_mul (Nat.le_of_lt_succ bound) power
  rw [UInt32.toNat_shiftLeft, UInt8.toNat_toUInt32,
    UInt32.toNat_ofNat_of_lt' (show count < UInt32.size from Nat.lt_of_le_of_lt small (by decide)),
    Nat.mod_eq_of_lt (show count < 32 by omega), Nat.shiftLeft_eq, Nat.mod_eq_of_lt (by omega)]

theorem toNat_pack (b0 b1 b2 b3 : UInt8) :
    (pack b0 b1 b2 b3).toNat = b3.toNat * 2 ^ 24 + (b2.toNat * 2 ^ 16 + (b1.toNat * 2 ^ 8 + b0.toNat)) := by
  have high : (b3.toUInt32 <<< 24).toNat = b3.toNat * 2 ^ 24 := toNat_lifted b3 (by decide)
  have second : (b2.toUInt32 <<< 16).toNat = b2.toNat * 2 ^ 16 := toNat_lifted b2 (by decide)
  have first : (b1.toUInt32 <<< 8).toNat = b1.toNat * 2 ^ 8 := toNat_lifted b1 (by decide)
  have b0_bound := b0.toNat_lt
  have b1_bound := b1.toNat_lt
  have b2_bound := b2.toNat_lt
  rw [pack, UInt32.toNat_or, UInt32.toNat_or, UInt32.toNat_or, high, second, first, UInt8.toNat_toUInt32, Nat.or_assoc,
    Nat.or_assoc, ← Nat.shiftLeft_eq b1.toNat, ← Nat.shiftLeft_add_eq_or_of_lt (i := 8) b0_bound,
    Nat.shiftLeft_eq, ← Nat.shiftLeft_eq b2.toNat, ← Nat.shiftLeft_add_eq_or_of_lt (i := 16) (by omega), Nat.shiftLeft_eq,
    ← Nat.shiftLeft_eq b3.toNat, ← Nat.shiftLeft_add_eq_or_of_lt (i := 24) (by omega), Nat.shiftLeft_eq]

theorem toNat_octet (a : UInt32) {j : ℕ} (inside : j < 4) : (octet a j).toNat = a.toNat / 2 ^ (8 * j) % 2 ^ 8 := by
  have small : 8 * j < UInt32.size := Nat.lt_of_lt_of_le (show 8 * j < 32 by omega) (by decide)
  rw [octet, UInt32.toNat_toUInt8, UInt32.toNat_shiftRight, UInt32.toNat_ofNat_of_lt' small,
    Nat.mod_eq_of_lt (show 8 * j < 32 by omega), Nat.shiftRight_eq_div_pow]

theorem toNat_turned (x : UInt32) {count : ℕ} (positive : 0 < count) (small : count < 32) :
    ((x <<< UInt32.ofNat count) ||| (x >>> UInt32.ofNat (32 - count))).toNat =
      x.toNat % 2 ^ (32 - count) * 2 ^ count + x.toNat / 2 ^ (32 - count) := by
  have bound := x.toNat_lt
  have split : 2 ^ (32 - count) * 2 ^ count = 2 ^ 32 := by rw [← Nat.pow_add, Nat.sub_add_cancel (Nat.le_of_lt small)]
  have low : x.toNat / 2 ^ (32 - count) < 2 ^ count := Nat.div_lt_of_lt_mul (by rw [split]; exact bound)
  have left : (x <<< UInt32.ofNat count).toNat = x.toNat % 2 ^ (32 - count) * 2 ^ count := by
    rw [UInt32.toNat_shiftLeft, UInt32.toNat_ofNat_of_lt' (Nat.lt_trans small (by decide)), Nat.mod_eq_of_lt small,
      Nat.shiftLeft_eq, ← split, Nat.mul_mod_mul_right]
  have right : (x >>> UInt32.ofNat (32 - count)).toNat = x.toNat / 2 ^ (32 - count) := by
    rw [UInt32.toNat_shiftRight, UInt32.toNat_ofNat_of_lt' (Nat.lt_of_le_of_lt (Nat.sub_le 32 count) (by decide)),
      Nat.mod_eq_of_lt (show 32 - count < 32 by omega), Nat.shiftRight_eq_div_pow]
  rw [UInt32.toNat_or, left, right, ← Nat.shiftLeft_eq, ← Nat.shiftLeft_add_eq_or_of_lt low]

section
variable (b0 b1 b2 b3 : UInt8)

theorem turn_eight : (pack b0 b1 b2 b3 <<< 8) ||| (pack b0 b1 b2 b3 >>> 24) = pack b3 b0 b1 b2 := by
  have turned := toNat_turned (pack b0 b1 b2 b3) (show 0 < 8 by decide) (by decide)
  have b0_bound := b0.toNat_lt
  have b1_bound := b1.toNat_lt
  have b2_bound := b2.toNat_lt
  apply UInt32.toNat_inj.mp
  refine turned.trans ?_
  rw [toNat_pack, toNat_pack]
  omega

theorem turn_sixteen : (pack b0 b1 b2 b3 <<< 16) ||| (pack b0 b1 b2 b3 >>> 16) = pack b2 b3 b0 b1 := by
  have turned := toNat_turned (pack b0 b1 b2 b3) (show 0 < 16 by decide) (by decide)
  have b0_bound := b0.toNat_lt
  have b1_bound := b1.toNat_lt
  apply UInt32.toNat_inj.mp
  refine turned.trans ?_
  rw [toNat_pack, toNat_pack]
  omega

theorem turn_back : (pack b0 b1 b2 b3 <<< 24) ||| (pack b0 b1 b2 b3 >>> 8) = pack b1 b2 b3 b0 := by
  have turned := toNat_turned (pack b0 b1 b2 b3) (show 0 < 24 by decide) (by decide)
  have b0_bound := b0.toNat_lt
  apply UInt32.toNat_inj.mp
  refine turned.trans ?_
  rw [toNat_pack, toNat_pack]
  omega

@[simp] theorem octet_pack_zero : octet (pack b0 b1 b2 b3) 0 = b0 := by
  have bound := b0.toNat_lt
  apply UInt8.toNat_inj.mp
  rw [toNat_octet _ (by decide), toNat_pack]
  omega

@[simp] theorem octet_pack_one : octet (pack b0 b1 b2 b3) 1 = b1 := by
  have b0_bound := b0.toNat_lt
  have bound := b1.toNat_lt
  apply UInt8.toNat_inj.mp
  rw [toNat_octet _ (by decide), toNat_pack]
  omega

@[simp] theorem octet_pack_two : octet (pack b0 b1 b2 b3) 2 = b2 := by
  have b0_bound := b0.toNat_lt
  have b1_bound := b1.toNat_lt
  have bound := b2.toNat_lt
  apply UInt8.toNat_inj.mp
  rw [toNat_octet _ (by decide), toNat_pack]
  omega

@[simp] theorem octet_pack_three : octet (pack b0 b1 b2 b3) 3 = b3 := by
  have b0_bound := b0.toNat_lt
  have b1_bound := b1.toNat_lt
  have b2_bound := b2.toNat_lt
  have bound := b3.toNat_lt
  apply UInt8.toNat_inj.mp
  rw [toNat_octet _ (by decide), toNat_pack]
  omega

end

@[simp] theorem pack_octets (a : UInt32) : pack (octet a 0) (octet a 1) (octet a 2) (octet a 3) = a := by
  have bound := a.toNat_lt
  apply UInt32.toNat_inj.mp
  rw [toNat_pack, toNat_octet a (by decide), toNat_octet a (by decide), toNat_octet a (by decide),
    toNat_octet a (by decide)]
  omega

instance finite_uInt8 : Finite UInt8 := Finite.of_injective UInt8.toFin fun _ _ same => UInt8.toFin_inj.mp same

instance finite_uInt32 : Finite UInt32 := Finite.of_injective UInt32.toFin fun _ _ same => UInt32.toFin_inj.mp same

theorem octet_xor (a b : UInt32) (j : ℕ) : octet (a ^^^ b) j = octet a j ^^^ octet b j := by
  rw [octet, UInt32.shiftRight_xor, UInt32.toUInt8_xor]
  rfl

theorem pack_xor (a0 a1 a2 a3 b0 b1 b2 b3 : UInt8) :
    pack a0 a1 a2 a3 ^^^ pack b0 b1 b2 b3 = pack (a0 ^^^ b0) (a1 ^^^ b1) (a2 ^^^ b2) (a3 ^^^ b3) := by
  rw [← pack_octets (pack a0 a1 a2 a3 ^^^ pack b0 b1 b2 b3)]
  simp only [octet_xor, octet_pack_zero, octet_pack_one, octet_pack_two, octet_pack_three]

end MyTools.Library.Words
