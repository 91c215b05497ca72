import MyTools.Library.Bytes
import Mathlib.Data.List.Basic

/-! Modes of operation over any function on blocks: what they make of a string, and that one direction
undoes the other. -/
namespace MyTools.Library.Modes

/-! Strings in blocks. -/

section
variable {α : Type*} {size : ℕ}

def block (size : ℕ) (text : List α) (k : ℕ) : List α := (text.drop (size * k)).take size

/-- The first `count` of a sequence of blocks. -/
def gather (f : ℕ → List α) : (count : ℕ) → List α
  | 0 => []
  | count + 1 => gather f count ++ f count

theorem length_block {text : List α} {k : ℕ} (inside : size * k + size ≤ text.length) : (block size text k).length = size := by
  rw [block, List.length_take, List.length_drop]
  omega

theorem length_gather {f : ℕ → List α} {count : ℕ} (whole : ∀ k, k < count → (f k).length = size) :
    (gather f count).length = size * count := by
  induction count with
  | zero => rfl
  | succ count ih =>
    rw [gather, List.length_append, ih fun k inside => whole k (Nat.lt_succ_of_lt inside), whole count count.lt_succ_self,
      Nat.mul_succ]

theorem gather_congr {f g : ℕ → List α} {count : ℕ} (same : ∀ k, k < count → f k = g k) : gather f count = gather g count := by
  induction count with
  | zero => rfl
  | succ count ih =>
    rw [gather, gather, ih fun k inside => same k (Nat.lt_succ_of_lt inside), same count count.lt_succ_self]

theorem gather_block (text : List α) (count : ℕ) : gather (block size text) count = text.take (size * count) := by
  induction count with
  | zero => rw [Nat.mul_zero, List.take_zero, gather]
  | succ count ih => rw [gather, ih, block, Nat.mul_succ, List.take_add]

theorem block_gather {f : ℕ → List α} {count k : ℕ} (whole : ∀ k, k < count → (f k).length = size) (inside : k < count) :
    block size (gather f count) k = f k := by
  induction count with
  | zero => exact absurd inside k.not_lt_zero
  | succ count ih =>
    have front : (gather f count).length = size * count := length_gather fun k low => whole k (Nat.lt_succ_of_lt low)
    rcases Nat.lt_succ_iff_lt_or_eq.mp inside with below | rfl
    · have room : size * k + size ≤ size * count := by
        rw [← Nat.mul_succ]
        exact Nat.mul_le_mul_left size below
      rw [← ih (fun k low => whole k (Nat.lt_succ_of_lt low)) below, block, block, gather,
        List.drop_append_of_le_length (by omega), List.take_append_of_le_length (by rw [List.length_drop]; omega)]
    · rw [block, gather, ← front, List.drop_left, ← whole k inside, List.take_length]

theorem block_append {text rest : List α} {k : ℕ} (inside : size * k + size ≤ text.length) :
    block size (text ++ rest) k = block size text k := by
  rw [block, block, List.drop_append_of_le_length (by omega), List.take_append_of_le_length (by rw [List.length_drop]; omega)]

end

/-- Zeros up to a whole number of blocks. -/
def pad (size : ℕ) (text : Bytes) : Bytes := text ++ List.replicate ((size - text.length % size) % size) 0

def blockCount (size length : ℕ) : ℕ := length / size + if length % size = 0 then 0 else 1

theorem length_pad {size : ℕ} (positive : 0 < size) (text : Bytes) :
    (pad size text).length = size * blockCount size text.length := by
  have parts := Nat.div_add_mod text.length size
  have small := Nat.mod_lt text.length positive
  rw [pad, List.length_append, List.length_replicate, blockCount]
  by_cases whole : text.length % size = 0
  · rw [if_pos whole, whole, Nat.sub_zero, Nat.mod_self, Nat.add_zero, Nat.add_zero]
    omega
  · rw [if_neg whole, Nat.mod_eq_of_lt (by omega), Nat.mul_add, Nat.mul_one]
    omega

theorem pad_eq {size : ℕ} (positive : 0 < size) (text : Bytes) :
    pad size text = text ++ List.replicate (size * blockCount size text.length - text.length) 0 := by
  have length := length_pad positive text
  rw [pad, List.length_append, List.length_replicate] at length
  rw [pad, ← length, Nat.add_sub_cancel_left]

theorem pad_whole {size : ℕ} {text : Bytes} (whole : text.length % size = 0) : pad size text = text := by
  rw [pad, whole, Nat.sub_zero, Nat.mod_self, List.replicate_zero, List.append_nil]

theorem take_pad (size : ℕ) (text : Bytes) : (pad size text).take text.length = text := List.take_left

theorem block_pad {size : ℕ} (positive : 0 < size) {text : Bytes} (rest : text.length % size ≠ 0) :
    block size (pad size text) (text.length / size) =
      text.drop (size * (text.length / size)) ++ List.replicate (size - text.length % size) 0 := by
  have parts := Nat.div_add_mod text.length size
  have small := Nat.mod_lt text.length positive
  rw [block, pad, Nat.mod_eq_of_lt (show size - text.length % size < size by omega),
    List.drop_append_of_le_length (by omega), List.take_of_length_le]
  rw [List.length_append, List.length_drop, List.length_replicate]
  omega

theorem blockCount_succ {size length : ℕ} (rest : length % size ≠ 0) : blockCount size length = length / size + 1 := by
  rw [blockCount, if_neg rest]

theorem blockCount_whole {size length : ℕ} (whole : length % size = 0) : blockCount size length = length / size := by
  rw [blockCount, if_pos whole, Nat.add_zero]

theorem le_blocks {size : ℕ} (positive : 0 < size) (length : ℕ) : length ≤ size * blockCount size length := by
  have padded := length_pad positive (List.replicate length 0)
  rw [pad, List.length_append, List.length_replicate] at padded
  exact padded ▸ Nat.le_add_right _ _

theorem blockCount_eq {size : ℕ} (positive : 0 < size) (length : ℕ) :
    blockCount size length = (length + (size - 1)) / size := by
  have parts := Nat.div_add_mod length size
  have small := Nat.mod_lt length positive
  rw [blockCount, eq_comm, Nat.div_eq_iff positive]
  split
  · next whole => rw [Nat.add_zero, Nat.mul_comm]; omega
  · next rest => rw [Nat.add_mul, Nat.mul_comm, Nat.one_mul]; omega

theorem div_le_blockCount (size length : ℕ) : length / size ≤ blockCount size length := Nat.le_add_right _ _

section
variable (E D : Bytes → Bytes) (size : ℕ)

/-! Block by block. -/

def ecb (text : Bytes) (count : ℕ) : Bytes := gather (fun k => E (block size text k)) count

/-! Each block is combined with the one before. -/

/-- The vector, or the block that the first `k` blocks of the text lead to. -/
def chain (iv text : Bytes) : (k : ℕ) → Bytes
  | 0 => iv
  | k + 1 => E (Bytes.xor (block size text k) (chain iv text k))

def cbc (iv text : Bytes) (count : ℕ) : Bytes := gather (fun k => chain E size iv text (k + 1)) count

/-- The vector, or the block before block `k`. -/
def before (iv cipher : Bytes) (k : ℕ) : Bytes := if k = 0 then iv else block size cipher (k - 1)

def cbcBack (iv cipher : Bytes) (count : ℕ) : Bytes :=
  gather (fun k => Bytes.xor (D (block size cipher k)) (before size iv cipher k)) count

end

section
variable {E D : Bytes → Bytes} {size : ℕ}

theorem length_chain (kept : ∀ b, b.length = size → (E b).length = size) {iv text : Bytes} (iv_size : iv.length = size)
    {k : ℕ} (inside : size * k ≤ text.length) : (chain E size iv text k).length = size := by
  induction k with
  | zero => exact iv_size
  | succ k ih =>
    rw [Nat.mul_succ] at inside
    apply kept
    rw [Bytes.length_xor, length_block inside, ih (by omega), Nat.min_self]

theorem chain_append {iv text rest : Bytes} {k : ℕ} (inside : size * k ≤ text.length) :
    chain E size iv (text ++ rest) k = chain E size iv text k := by
  induction k with
  | zero => rfl
  | succ k ih =>
    rw [Nat.mul_succ] at inside
    rw [chain, chain, ih (by omega), block_append inside]

theorem cbc_append {iv text rest : Bytes} {count : ℕ} (inside : size * count ≤ text.length) :
    cbc E size iv (text ++ rest) count = cbc E size iv text count := by
  apply gather_congr
  intro k below
  exact chain_append (Nat.le_trans (Nat.mul_le_mul_left size below) inside)

theorem length_cbc (kept : ∀ b, b.length = size → (E b).length = size) {iv text : Bytes} (iv_size : iv.length = size)
    {count : ℕ} (inside : size * count ≤ text.length) : (cbc E size iv text count).length = size * count := by
  apply length_gather
  intro k below
  exact length_chain kept iv_size (Nat.le_trans (Nat.mul_le_mul_left size below) inside)

private theorem xor_cancel_right {first second : Bytes} (same : first.length = second.length) :
    Bytes.xor (Bytes.xor first second) second = first := by
  have swapped (a b : Bytes) : Bytes.xor a b = Bytes.xor b a := List.zipWith_comm_of_comm UInt8.xor_comm
  rw [swapped, swapped first, Bytes.xor_xor_cancel same.symm]

theorem cbcBack_cbc (kept : ∀ b, b.length = size → (E b).length = size) (undo : ∀ b, b.length = size → D (E b) = b)
    {iv text : Bytes} (iv_size : iv.length = size) {count n : ℕ} (most : n ≤ count) (inside : size * count ≤ text.length) :
    cbcBack D size iv (cbc E size iv text count) n = text.take (size * n) := by
  rw [← gather_block]
  apply gather_congr
  intro k below
  have whole : ∀ k, k < count → (chain E size iv text (k + 1)).length = size := fun k below =>
    length_chain kept iv_size (Nat.le_trans (Nat.mul_le_mul_left size below) inside)
  have room : size * k + size ≤ text.length :=
    Nat.le_trans (Nat.mul_le_mul_left size (Nat.lt_of_lt_of_le below most)) inside
  have previous : before size iv (cbc E size iv text count) k = chain E size iv text k := by
    rw [before]
    split
    · next first => rw [first, chain]
    · next later =>
      rw [cbc, block_gather whole (show k - 1 < count by omega), Nat.sub_add_cancel (Nat.pos_of_ne_zero later)]
  have sizes : (block size text k).length = (chain E size iv text k).length := by
    rw [length_block room, length_chain kept iv_size (by omega)]
  rw [previous, cbc, block_gather whole (Nat.lt_of_lt_of_le below most), chain, undo _ (by
    rw [Bytes.length_xor, ← sizes, Nat.min_self, length_block room]), xor_cancel_right sizes]

theorem ecb_ecb (kept : ∀ b, b.length = size → (E b).length = size) (undo : ∀ b, b.length = size → D (E b) = b)
    {text : Bytes} {count : ℕ} (inside : size * count ≤ text.length) :
    ecb D size (ecb E size text count) count = text.take (size * count) := by
  rw [← gather_block]
  apply gather_congr
  intro k below
  have room (k : ℕ) (below : k < count) : (block size text k).length = size :=
    length_block (Nat.le_trans (Nat.mul_le_mul_left size below) inside)
  rw [ecb, block_gather (fun k below => kept _ (room k below)) below, undo _ (room k below)]

end

/-! Letter by letter, with a state. -/

section
variable {σ α β : Type*}

def translate (step : σ → α → β × σ) : (s : σ) → (xs : List α) → List β
  | _, [] => []
  | s, x :: xs => (step s x).1 :: translate step (step s x).2 xs

def after (step : σ → α → β × σ) (s : σ) (xs : List α) : σ := xs.foldl (fun s x => (step s x).2) s

variable {step : σ → α → β × σ} {s : σ}

@[simp] theorem length_translate (step : σ → α → β × σ) (s : σ) (xs : List α) : (translate step s xs).length = xs.length := by
  induction xs generalizing s with
  | nil => rfl
  | cons x xs ih => rw [translate, List.length_cons, List.length_cons, ih]

theorem translate_take (step : σ → α → β × σ) (s : σ) (xs : List α) (n : ℕ) :
    translate step s (xs.take n) = (translate step s xs).take n := by
  induction xs generalizing s n with
  | nil => rw [List.take_nil, translate, List.take_nil]
  | cons x xs ih =>
    cases n with
    | zero => rw [List.take_zero, List.take_zero, translate]
    | succ n => rw [List.take_succ_cons, translate, translate, List.take_succ_cons, ih]

theorem translate_append (step : σ → α → β × σ) (s : σ) (xs ys : List α) :
    translate step s (xs ++ ys) = translate step s xs ++ translate step (after step s xs) ys := by
  induction xs generalizing s with
  | nil => rfl
  | cons x xs ih =>
    rw [List.cons_append, translate, ih, translate, List.cons_append]
    rfl

theorem translate_concat (step : σ → α → β × σ) (s : σ) (xs : List α) (x : α) :
    translate step s (xs ++ [x]) = translate step s xs ++ [(step (after step s xs) x).1] :=
  translate_append step s xs [x]

theorem after_concat (step : σ → α → β × σ) (s : σ) (xs : List α) (x : α) :
    after step s (xs ++ [x]) = (step (after step s xs) x).2 := by
  rw [after, List.foldl_append]
  rfl

theorem translate_translate {back : σ → β → α × σ} (undo : ∀ s x, back s (step s x).1 = (x, (step s x).2)) (xs : List α) :
    translate back s (translate step s xs) = xs := by
  induction xs generalizing s with
  | nil => rfl
  | cons x xs ih => rw [translate, translate, undo, ih]

@[simp] theorem after_nil (step : σ → α → β × σ) (s : σ) : after step s [] = s := rfl

theorem after_cons (step : σ → α → β × σ) (s : σ) (x : α) (xs : List α) :
    after step s (x :: xs) = after step (step s x).2 xs := rfl

theorem translate_mirror {γ : Type*} {step : σ → α → (β × γ) × σ} {back : σ → β → (α × γ) × σ}
    (undo : ∀ s x, back s (step s x).1.1 = ((x, (step s x).1.2), (step s x).2)) (s : σ) (xs : List α) :
    translate back s ((translate step s xs).map Prod.fst) = xs.zip ((translate step s xs).map Prod.snd) ∧
      after back s ((translate step s xs).map Prod.fst) = after step s xs := by
  induction xs generalizing s with
  | nil => exact ⟨rfl, rfl⟩
  | cons x xs ih =>
    obtain ⟨read, state⟩ := ih (step s x).2
    constructor
    · rw [translate, List.map_cons, List.map_cons, translate, undo, read, List.zip_cons_cons]
    · rw [translate, List.map_cons, after_cons, undo, state, after_cons]

end
end MyTools.Library.Modes
