import Mathlib.Data.List.Basic
import Mathlib.Tactic.Ring

/-! Strings taken in blocks: the compression of the whole blocks, what is left over,
and a state that receives a string in pieces through a buffer of one block. -/
namespace MyTools.Library.Blocks
variable {σ α : Type*} (f : σ → List α → σ) (size : ℕ)

/-- The first `count` blocks of a string, compressed in order. -/
def fold (input : List α) : (count : ℕ) → σ → σ
  | 0, h => h
  | count + 1, h => f (fold input count h) ((input.drop (size * count)).take size)

def absorb (h : σ) (input : List α) : σ := fold f size input (input.length / size) h

def residue (input : List α) : List α := input.drop (size * (input.length / size))

section
variable {f size}

theorem fold_append {front rest : List α} {count : ℕ} (inside : size * count ≤ front.length) (h : σ) :
    fold f size (front ++ rest) count h = fold f size front count h := by
  induction count with
  | zero => rfl
  | succ count ih =>
    rw [Nat.mul_succ] at inside
    rw [fold, fold, ih (by omega), List.drop_append_of_le_length (by omega),
      List.take_append_of_le_length (by rw [List.length_drop]; omega)]

theorem fold_add (input : List α) (m n : ℕ) (h : σ) :
    fold f size input (m + n) h = fold f size (input.drop (size * m)) n (fold f size input m h) := by
  induction n with
  | zero => rfl
  | succ n ih => rw [← Nat.add_assoc, fold, ih, fold, List.drop_drop, Nat.mul_add]

theorem length_residue (input : List α) : (residue size input).length = input.length % size := by
  rw [residue, List.length_drop, Nat.mod_eq_sub_mul_div]

theorem absorb_short {input : List α} (short : input.length < size) (h : σ) : absorb f size h input = h := by
  rw [absorb, Nat.div_eq_of_lt short, fold]

theorem residue_short {input : List α} (short : input.length < size) : residue size input = input := by
  rw [residue, Nat.div_eq_of_lt short, Nat.mul_zero, List.drop_zero]

private theorem drop_whole (front rest : List α) :
    (front ++ rest).drop (size * (front.length / size)) = residue size front ++ rest :=
  List.drop_append_of_le_length (Nat.mul_div_le _ _)

variable (positive : 0 < size)
include positive

private theorem length_parts (input : List α) (k : ℕ) :
    (input.length % size + k) / size + input.length / size = (input.length + k) / size := by
  have split : input.length + k = size * (input.length / size) + (input.length % size + k) := by
    rw [← Nat.add_assoc, Nat.div_add_mod]
  rw [split, Nat.mul_add_div positive, Nat.add_comm]

theorem absorb_append (h : σ) (front rest : List α) :
    absorb f size h (front ++ rest) = absorb f size (absorb f size h front) (residue size front ++ rest) := by
  rw [absorb, absorb, absorb, List.length_append, List.length_append, length_residue, ← length_parts positive front,
    Nat.add_comm, fold_add, drop_whole, fold_append (Nat.mul_div_le _ _)]

theorem residue_append (front rest : List α) :
    residue size (front ++ rest) = residue size (residue size front ++ rest) := by
  conv_lhs => rw [residue, List.length_append, ← length_parts positive front, Nat.add_comm, Nat.mul_add]
  rw [← List.drop_drop, drop_whole, ← length_residue, ← List.length_append, ← residue]

theorem residue_one {block : List α} (whole : block.length = size) : residue size block = [] := by
  rw [residue, whole, Nat.div_self positive, Nat.mul_one, ← whole, List.drop_length]

theorem absorb_one {block : List α} (whole : block.length = size) (h : σ) : absorb f size h block = f h block := by
  have one : block.length / size = 1 := by rw [whole, Nat.div_self positive]
  rw [absorb, one, fold, fold, Nat.mul_zero, List.drop_zero, ← whole, List.take_length]

theorem absorb_block {block : List α} (whole : block.length = size) (h : σ) (rest : List α) :
    absorb f size h (block ++ rest) = absorb f size (f h block) rest := by
  rw [absorb_append positive, residue_one positive whole, List.nil_append, absorb_one positive whole]

theorem residue_block {block : List α} (whole : block.length = size) (rest : List α) :
    residue size (block ++ rest) = residue size rest := by
  rw [residue_append positive, residue_one positive whole, List.nil_append]

theorem absorb_two {input : List α} (whole : input.length = size + size) (h : σ) :
    absorb f size h input = f (f h (input.take size)) (input.drop size) := by
  have front : (input.take size).length = size := by rw [List.length_take]; omega
  have back : (input.drop size).length = size := by rw [List.length_drop]; omega
  calc absorb f size h input = absorb f size h (input.take size ++ input.drop size) := by rw [List.take_append_drop]
    _ = absorb f size (f h (input.take size)) (input.drop size) := absorb_block positive front h _
    _ = f (f h (input.take size)) (input.drop size) := absorb_one positive back _

end

/-- The state and the buffer stand for `message`, received from `start` on. -/
structure Holds (start : σ) (message : List α) (h : σ) (buffer : List α) : Prop where
  state : h = absorb f size start message
  rest : buffer.take (message.length % size) = residue size message

namespace Holds
variable {f size} {start h : σ} {message chunk buffer : List α}

theorem initial (positive : 0 < size) (start : σ) (buffer : List α) : Holds f size start [] start buffer :=
  ⟨(absorb_short positive start).symm, by rw [residue_short positive]; simp⟩

theorem short (holds : Holds f size start message h buffer) (room : message.length % size + chunk.length < size)
    {buffer' : List α} (stored : buffer'.take (message.length % size + chunk.length) =
      buffer.take (message.length % size) ++ chunk) : Holds f size start (message ++ chunk) h buffer' := by
  have positive : 0 < size := by omega
  have small : (residue size message ++ chunk).length < size := by
    rwa [List.length_append, length_residue]
  constructor
  · rw [absorb_append positive, absorb_short small, holds.state]
  · rw [List.length_append, Nat.add_mod, Nat.mod_eq_of_lt (show chunk.length < size by omega),
      Nat.mod_eq_of_lt room, stored, holds.rest, residue_append positive, residue_short small]

/-- A longer chunk fills the buffer up, then its own blocks follow, then its rest is stored. -/
theorem long (holds : Holds f size start message h buffer) (positive : 0 < size) {gap : ℕ}
    (fills : message.length % size + gap = size) (reaches : gap ≤ chunk.length) {buffer' : List α}
    (stored : buffer'.take ((chunk.length - gap) % size) = residue size (chunk.drop gap)) :
    Holds f size start (message ++ chunk)
      (absorb f size (f h (buffer.take (message.length % size) ++ chunk.take gap)) (chunk.drop gap)) buffer' := by
  have block : (residue size message ++ chunk.take gap).length = size := by
    rw [List.length_append, length_residue, List.length_take, Nat.min_eq_left reaches, fills]
  have parts : residue size message ++ chunk = (residue size message ++ chunk.take gap) ++ chunk.drop gap := by
    rw [List.append_assoc, List.take_append_drop]
  constructor
  · rw [absorb_append positive, parts, absorb_block positive block, holds.rest, holds.state]
  · have length : (message ++ chunk).length % size = (chunk.length - gap) % size := by
      have whole : (message ++ chunk).length = (chunk.length - gap) + size * (message.length / size + 1) := by
        have := Nat.div_add_mod message.length size
        rw [List.length_append, Nat.mul_add, Nat.mul_one]
        omega
      rw [whole, Nat.add_mul_mod_self_left]
    rw [length, stored, residue_append positive, parts, residue_block positive block]

end Holds
end MyTools.Library.Blocks
