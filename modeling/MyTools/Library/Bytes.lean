import Mathlib.Data.List.Induction
import Mathlib.Tactic.Linarith
import Mathlib.Tactic.Ring

/-! Octet strings: the big-endian codec, bounded reads and copies between
objects of memory. -/
namespace MyTools.Library

abbrev Bytes := List UInt8

namespace Bytes

/-- The number that a string denotes, most significant octet first. -/
def value (bytes : Bytes) : ℕ := bytes.foldl (fun acc byte => acc * 256 + byte.toNat) 0

/-- The last `width` octets of a number, most significant first. -/
def ofNat : (width n : ℕ) → Bytes
  | 0, _ => []
  | width + 1, n => ofNat width (n / 256) ++ [UInt8.ofNat n]

@[simp] theorem value_nil : value [] = 0 := rfl

theorem value_concat (bytes : Bytes) (byte : UInt8) : value (bytes ++ [byte]) = value bytes * 256 + byte.toNat := by
  simp [value]

theorem value_append (high low : Bytes) : value (high ++ low) = value high * 256 ^ low.length + value low := by
  induction low using List.reverseRecOn with
  | nil => simp
  | append_singleton low byte ih =>
    rw [← List.append_assoc, value_concat, value_concat, ih, List.length_append, List.length_singleton, pow_succ]
    ring

theorem value_cons (byte : UInt8) (bytes : Bytes) :
    value (byte :: bytes) = byte.toNat * 256 ^ bytes.length + value bytes := by
  simpa [value] using value_append [byte] bytes

theorem value_lt (bytes : Bytes) : value bytes < 256 ^ bytes.length := by
  induction bytes with
  | nil => simp
  | cons byte bytes ih =>
    have small : byte.toNat + 1 ≤ 256 := byte.toNat_lt
    have scaled := Nat.mul_le_mul_right (256 ^ bytes.length) small
    rw [value_cons, List.length_cons, pow_succ']
    linarith

theorem value_dropWhile (bytes : Bytes) : value (bytes.dropWhile (· == 0)) = value bytes := by
  induction bytes with
  | nil => rfl
  | cons byte bytes ih =>
    rw [List.dropWhile_cons]
    split
    · rename_i zero
      rw [ih, value_cons, eq_of_beq zero]
      simp
    · rfl

theorem value_zeros (count : ℕ) : value (List.replicate count 0) = 0 := by
  induction count with
  | zero => rfl
  | succ count ih => rw [List.replicate_succ, value_cons, ih, UInt8.toNat_zero, Nat.zero_mul]

@[simp] theorem length_ofNat (width n : ℕ) : (ofNat width n).length = width := by
  induction width generalizing n with
  | zero => rfl
  | succ width ih => simp [ofNat, ih]

theorem value_ofNat (width n : ℕ) : value (ofNat width n) = n % 256 ^ width := by
  induction width generalizing n with
  | zero => simp [ofNat, Nat.mod_one]
  | succ width ih =>
    have split : n % 256 ^ (width + 1) = n % 256 + 256 * (n / 256 % 256 ^ width) := by
      rw [pow_succ', Nat.mod_mul]
    rw [ofNat, value_concat, ih, UInt8.toNat_ofNat', split]
    omega

theorem value_ofNat_of_lt {width n : ℕ} (fits : n < 256 ^ width) : value (ofNat width n) = n := by
  rw [value_ofNat, Nat.mod_eq_of_lt fits]

theorem ofNat_value (bytes : Bytes) : ofNat bytes.length (value bytes) = bytes := by
  induction bytes using List.reverseRecOn with
  | nil => rfl
  | append_singleton bytes byte ih =>
    have high : (value bytes * 256 + byte.toNat) / 256 = value bytes := by
      have small := byte.toNat_lt
      omega
    have low : UInt8.ofNat (value bytes * 256 + byte.toNat) = byte := by
      apply UInt8.toNat_inj.mp
      rw [UInt8.toNat_ofNat']
      have small := byte.toNat_lt
      omega
    rw [List.length_append, List.length_singleton, value_concat, ofNat, high, low, ih]

theorem value_injective {first second : Bytes} (same_length : first.length = second.length)
    (same_value : value first = value second) : first = second := by
  rw [← ofNat_value first, ← ofNat_value second, same_length, same_value]

/-- The first `size` octets of an object; undefined beyond its end. -/
def read (source : Bytes) (size : ℕ) : Option Bytes :=
  if size ≤ source.length then some (source.take size) else none

/-- Copy `source` over `target` from an offset on; undefined outside of `target`. -/
def write (target : Bytes) (offset : ℤ) (source : Bytes) : Option Bytes :=
  if 0 ≤ offset ∧ offset + source.length ≤ target.length then
    some (target.take offset.toNat ++ source ++ target.drop (offset.toNat + source.length))
  else none

theorem read_of_le {source : Bytes} {size : ℕ} (inside : size ≤ source.length) :
    source.read size = some (source.take size) := if_pos inside

theorem read_length (source : Bytes) : source.read source.length = some source := by
  rw [read_of_le le_rfl, List.take_length]

theorem read_eq_some {source bytes : Bytes} {size : ℕ} (ok : source.read size = some bytes) :
    size ≤ source.length ∧ bytes = source.take size ∧ bytes.length = size := by
  unfold read at ok
  split at ok
  · rename_i inside
    obtain rfl := Option.some.inj ok
    exact ⟨inside, rfl, by simpa using inside⟩
  · cases ok

theorem write_fill (filled rest source : Bytes) (offset : ℤ) (at_end : offset = filled.length)
    (fits : source.length ≤ rest.length) :
    (filled ++ rest).write offset source = some (filled ++ source ++ rest.drop source.length) := by
  subst at_end
  rw [write, if_pos (by simp; omega), Int.toNat_natCast, List.take_left, ← List.drop_drop, List.drop_left]

theorem write_length {target source result : Bytes} {offset : ℤ}
    (ok : target.write offset source = some result) : result.length = target.length := by
  unfold write at ok
  split at ok
  · rename_i inside
    obtain rfl := Option.some.inj ok
    simp only [List.length_append, List.length_take, List.length_drop]
    omega
  · cases ok

theorem write_inside {target source result : Bytes} {offset : ℤ} (ok : target.write offset source = some result) :
    0 ≤ offset ∧ offset + source.length ≤ target.length := by
  unfold write at ok
  split at ok
  · assumption
  · cases ok

theorem write_run (target : Bytes) (offset : ℤ) (source : Bytes) (low : 0 ≤ offset)
    (high : offset + source.length ≤ target.length) :
    ∃ result, target.write offset source = some result ∧ result.length = target.length := by
  have run : target.write offset source = some _ := if_pos ⟨low, high⟩
  exact ⟨_, run, write_length run⟩

def xor (first second : Bytes) : Bytes := List.zipWith (· ^^^ ·) first second

@[simp] theorem length_xor (first second : Bytes) :
    (xor first second).length = min first.length second.length := List.length_zipWith

theorem take_xor (first second : Bytes) (n : ℕ) : (xor first second).take n = xor (first.take n) (second.take n) :=
  List.take_zipWith

theorem xor_xor_cancel {stream text : Bytes} (same : stream.length = text.length) :
    xor stream (xor stream text) = text := by
  induction stream generalizing text with
  | nil => exact (List.eq_nil_of_length_eq_zero same.symm).symm
  | cons octet stream ih =>
    cases text with
    | nil => cases same
    | cons letter text =>
      have rest := ih (Nat.succ.inj same)
      simp only [xor, List.zipWith_cons_cons] at rest ⊢
      rw [rest, ← UInt8.xor_assoc, UInt8.xor_self, UInt8.zero_xor]

theorem xor_append_zeros (first second : Bytes) (count : ℕ) (same : first.length + count = second.length) :
    xor (first ++ List.replicate count 0) second = xor first (second.take first.length) ++ second.drop first.length := by
  have zeros (rest : Bytes) : xor (List.replicate rest.length 0) rest = rest := by
    induction rest with
    | nil => rfl
    | cons octet rest ih =>
      simp only [xor, List.length_cons, List.replicate_succ, List.zipWith_cons_cons] at ih ⊢
      rw [ih, UInt8.zero_xor]
  have front : first.length = (second.take first.length).length := by rw [List.length_take]; omega
  have length : (second.drop first.length).length = count := by rw [List.length_drop]; omega
  have tail := zeros (second.drop first.length)
  rw [length] at tail
  calc xor (first ++ List.replicate count 0) second =
        xor (first ++ List.replicate count 0) (second.take first.length ++ second.drop first.length) := by
        rw [List.take_append_drop]
    _ = xor first (second.take first.length) ++ xor (List.replicate count 0) (second.drop first.length) :=
        List.zipWith_append front
    _ = _ := by rw [tail]

end Bytes
end MyTools.Library
