import MyTools.Library.Words

/-! Octets as polynomials over the field of two elements, of which only the sum and the products with
a fixed factor are needed, and the columns of four that a circulant matrix mixes. -/
namespace MyTools.Library.Polynomials
open Words
variable (modulus : UInt8)

/-- The product with the indeterminate; `modulus` is what the eighth power is reduced to. -/
def double (a : UInt8) : UInt8 := (a <<< 1) ^^^ (if a.toNat.testBit 7 then modulus else 0)

/-- The product with the polynomial that the low bits of `c` are. -/
def scale : (bits c : ℕ) → (y : UInt8) → UInt8
  | 0, _, _ => 0
  | bits + 1, c, y => (if c % 2 = 1 then y else 0) ^^^ scale bits (c / 2) (double modulus y)

def times (x y : UInt8) : UInt8 := scale modulus 8 x.toNat y

variable {modulus}

theorem double_xor (a b : UInt8) : double modulus (a ^^^ b) = double modulus a ^^^ double modulus b := by
  have masks : (if (a ^^^ b).toNat.testBit 7 then modulus else 0) =
      (if a.toNat.testBit 7 then modulus else 0) ^^^ (if b.toNat.testBit 7 then modulus else 0) := by
    rw [UInt8.toNat_xor, Nat.testBit_xor]
    cases a.toNat.testBit 7 <;> cases b.toNat.testBit 7 <;> simp
  rw [double, masks, UInt8.shiftLeft_xor, double, double]
  ac_rfl

theorem double_zero : double modulus 0 = 0 := by
  rw [double]
  simp

theorem scale_xor (bits c : ℕ) (a b : UInt8) :
    scale modulus bits c (a ^^^ b) = scale modulus bits c a ^^^ scale modulus bits c b := by
  induction bits generalizing c a b with
  | zero => simp only [scale, UInt8.xor_self]
  | succ bits ih =>
    rw [scale, scale, scale, double_xor, ih]
    by_cases odd : c % 2 = 1
    · rw [if_pos odd, if_pos odd, if_pos odd]
      ac_rfl
    · rw [if_neg odd, if_neg odd, if_neg odd, UInt8.zero_xor, UInt8.zero_xor, UInt8.zero_xor]

theorem scale_double (bits c : ℕ) (a : UInt8) :
    scale modulus bits c (double modulus a) = double modulus (scale modulus bits c a) := by
  induction bits generalizing c a with
  | zero => rw [scale, scale, double_zero]
  | succ bits ih =>
    rw [scale, scale, double_xor, ih]
    by_cases odd : c % 2 = 1
    · rw [if_pos odd, if_pos odd]
    · rw [if_neg odd, if_neg odd, double_zero]

theorem scale_zero (bits : ℕ) (y : UInt8) : scale modulus bits 0 y = 0 := by
  induction bits generalizing y with
  | zero => rfl
  | succ bits ih => rw [scale, Nat.zero_div, ih, if_neg (by decide), UInt8.xor_self]

theorem times_xor (x a b : UInt8) : times modulus x (a ^^^ b) = times modulus x a ^^^ times modulus x b :=
  scale_xor 8 _ a b

theorem times_double (x y : UInt8) : times modulus x (double modulus y) = double modulus (times modulus x y) :=
  scale_double 8 _ y

@[simp] theorem zero_times (y : UInt8) : times modulus 0 y = 0 := scale_zero 8 y

@[simp] theorem times_zero (x : UInt8) : times modulus x 0 = 0 := by
  have twice : times modulus x (0 ^^^ 0) = times modulus x 0 ^^^ times modulus x 0 := times_xor x 0 0
  rw [UInt8.xor_self, UInt8.xor_self] at twice
  exact twice

/-! Columns. -/

variable (modulus)

/-- The row 2, 3, 1, 1 of a circulant matrix. -/
def mixed (a0 a1 a2 a3 : UInt8) : UInt8 := double modulus a0 ^^^ (a1 ^^^ double modulus a1) ^^^ a2 ^^^ a3

/-- The row 14, 11, 13, 9. -/
def unmixed (a0 a1 a2 a3 : UInt8) : UInt8 :=
  times modulus 0xE a0 ^^^ times modulus 0xB a1 ^^^ times modulus 0xD a2 ^^^ times modulus 0x9 a3

def mixColumn (x : UInt32) : UInt32 :=
  pack (mixed modulus (octet x 0) (octet x 1) (octet x 2) (octet x 3))
    (mixed modulus (octet x 1) (octet x 2) (octet x 3) (octet x 0))
    (mixed modulus (octet x 2) (octet x 3) (octet x 0) (octet x 1))
    (mixed modulus (octet x 3) (octet x 0) (octet x 1) (octet x 2))

def unmixColumn (x : UInt32) : UInt32 :=
  pack (unmixed modulus (octet x 0) (octet x 1) (octet x 2) (octet x 3))
    (unmixed modulus (octet x 1) (octet x 2) (octet x 3) (octet x 0))
    (unmixed modulus (octet x 2) (octet x 3) (octet x 0) (octet x 1))
    (unmixed modulus (octet x 3) (octet x 0) (octet x 1) (octet x 2))

variable {modulus}

theorem times_low (x : UInt8) : times modulus 0x9 x = x ^^^ double modulus (double modulus (double modulus x)) ∧
    times modulus 0xB x = x ^^^ double modulus x ^^^ double modulus (double modulus (double modulus x)) ∧
    times modulus 0xD x = x ^^^ double modulus (double modulus x) ^^^ double modulus (double modulus (double modulus x)) ∧
    times modulus 0xE x =
      double modulus x ^^^ double modulus (double modulus x) ^^^ double modulus (double modulus (double modulus x)) := by
  refine ⟨?_, ?_, ?_, ?_⟩ <;> simp [times, scale, UInt8.xor_assoc]

private theorem cancel (a b : UInt8) : a ^^^ (a ^^^ b) = b := by rw [← UInt8.xor_assoc, UInt8.xor_self, UInt8.zero_xor]

private theorem left_comm (a b c : UInt8) : a ^^^ (b ^^^ c) = b ^^^ (a ^^^ c) := by
  rw [← UInt8.xor_assoc, UInt8.xor_comm a, UInt8.xor_assoc]

variable (modulus) in
theorem factors (a : UInt8) :
    (times modulus 0xE (double modulus a) ^^^ times modulus 0xB a ^^^ times modulus 0xD a ^^^
      times modulus 0x9 (a ^^^ double modulus a) = a) ∧
    (times modulus 0xE (a ^^^ double modulus a) ^^^ times modulus 0xB (double modulus a) ^^^ times modulus 0xD a ^^^
      times modulus 0x9 a = 0) ∧
    (times modulus 0xE a ^^^ times modulus 0xB (a ^^^ double modulus a) ^^^ times modulus 0xD (double modulus a) ^^^
      times modulus 0x9 a = 0) ∧
    (times modulus 0xE a ^^^ times modulus 0xB a ^^^ times modulus 0xD (a ^^^ double modulus a) ^^^
      times modulus 0x9 (double modulus a) = 0) := by
  simp only [(times_low _).1, (times_low _).2.1, (times_low _).2.2.1, (times_low _).2.2.2, double_xor]
  generalize double modulus a = a1
  generalize double modulus a1 = a2
  generalize double modulus a2 = a3
  generalize double modulus a3 = a4
  refine ⟨?_, ?_, ?_, ?_⟩ <;> simp only [UInt8.xor_comm, left_comm, cancel, UInt8.xor_self, UInt8.xor_zero]

theorem unmixed_mixed (a0 a1 a2 a3 : UInt8) : unmixed modulus (mixed modulus a0 a1 a2 a3) (mixed modulus a1 a2 a3 a0)
    (mixed modulus a2 a3 a0 a1) (mixed modulus a3 a0 a1 a2) = a0 := by
  have first := (factors modulus a0).1
  have second := (factors modulus a1).2.1
  have third := (factors modulus a2).2.2.1
  have fourth := (factors modulus a3).2.2.2
  have row (x a b c d : UInt8) : times modulus x (mixed modulus a b c d) = times modulus x (double modulus a) ^^^
      times modulus x (b ^^^ double modulus b) ^^^ times modulus x c ^^^ times modulus x d := by
    rw [mixed, times_xor, times_xor, times_xor]
  calc unmixed modulus (mixed modulus a0 a1 a2 a3) (mixed modulus a1 a2 a3 a0) (mixed modulus a2 a3 a0 a1)
        (mixed modulus a3 a0 a1 a2) = _ ^^^ _ ^^^ _ ^^^ _ := by
        rw [unmixed, row, row, row, row]
        ac_rfl
    _ = a0 ^^^ 0 ^^^ 0 ^^^ 0 := congrArg₂ _ (congrArg₂ _ (congrArg₂ _ first second) third) fourth
    _ = a0 := by rw [UInt8.xor_zero, UInt8.xor_zero, UInt8.xor_zero]

theorem unmixColumn_mixColumn (x : UInt32) : unmixColumn modulus (mixColumn modulus x) = x := by
  rw [mixColumn, unmixColumn]
  simp only [octet_pack_zero, octet_pack_one, octet_pack_two, octet_pack_three, unmixed_mixed, pack_octets]

theorem unmixColumn_xor (x y : UInt32) : unmixColumn modulus (x ^^^ y) = unmixColumn modulus x ^^^ unmixColumn modulus y := by
  have rows (a0 a1 a2 a3 b0 b1 b2 b3 : UInt8) : unmixed modulus (a0 ^^^ b0) (a1 ^^^ b1) (a2 ^^^ b2) (a3 ^^^ b3) =
      unmixed modulus a0 a1 a2 a3 ^^^ unmixed modulus b0 b1 b2 b3 := by
    simp only [unmixed, times_xor]
    ac_rfl
  simp only [unmixColumn, octet_xor, rows, pack_xor]

end MyTools.Library.Polynomials
