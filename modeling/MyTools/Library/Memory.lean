import MyTools.Library.Loop
import Mathlib.Data.List.Basic
import Mathlib.Logic.Function.Basic

/-! A flat memory of cells. A cell that holds nothing is not mapped, and an access to it is
undefined. Loops that fill a range of cells are brought into the form `write`. -/
namespace MyTools.Library

abbrev Memory (α : Type*) := ℕ → Option α

namespace Memory
variable {α : Type*}

def store (mem : Memory α) (a : ℕ) (x : α) : Option (Memory α) :=
  if (mem a).isSome then some (Function.update mem a (some x)) else none

def loads (mem : Memory α) (a : ℕ) : (count : ℕ) → Option (List α)
  | 0 => some []
  | count + 1 => do
    let x ← mem a
    some (x :: (← loads mem (a + 1) count))

/-- Stores to the cells from `a` on, one after the other. -/
def stores (mem : Memory α) (a : ℕ) : (xs : List α) → Option (Memory α)
  | [] => some mem
  | x :: xs => do stores (← mem.store a x) (a + 1) xs

/-- The cells from `a` on are replaced by `xs`. -/
def write (mem : Memory α) (a : ℕ) (xs : List α) : Memory α :=
  fun b => if a ≤ b ∧ b < a + xs.length then xs[b - a]? else mem b

def Holds (mem : Memory α) (a : ℕ) (xs : List α) : Prop := ∀ i, i < xs.length → mem (a + i) = xs[i]?

def Mapped (mem : Memory α) (a count : ℕ) : Prop := ∀ i, i < count → (mem (a + i)).isSome

def Apart (a m b n : ℕ) : Prop := a + m ≤ b ∨ b + n ≤ a

/-- Cells are stored from `target` on, and none of them is read after that as one of `source`. -/
def Ahead (source target count : ℕ) : Prop := target ≤ source ∨ source + count ≤ target

variable {mem : Memory α} {a b : ℕ} {xs ys : List α}

theorem write_inside (mem : Memory α) (a : ℕ) (xs : List α) {i : ℕ} (inside : i < xs.length) :
    mem.write a xs (a + i) = xs[i]? := by
  rw [write, if_pos ⟨Nat.le_add_right a i, Nat.add_lt_add_left inside a⟩, Nat.add_sub_cancel_left]

theorem write_outside (outside : b < a ∨ a + xs.length ≤ b) : mem.write a xs b = mem b := by
  rw [write, if_neg]
  omega

@[simp] theorem write_nil (mem : Memory α) (a : ℕ) : mem.write a [] = mem := by
  funext b
  exact write_outside (Nat.lt_or_ge b a)

theorem write_append (mem : Memory α) (a : ℕ) (xs ys : List α) :
    (mem.write a xs).write (a + xs.length) ys = mem.write a (xs ++ ys) := by
  funext b
  simp only [write, List.length_append]
  by_cases low : b < a + xs.length
  · rw [if_neg (by omega)]
    by_cases inside : a ≤ b
    · rw [if_pos ⟨inside, low⟩, if_pos (by omega), List.getElem?_append_left (by omega)]
    · rw [if_neg (by omega), if_neg (by omega)]
  · by_cases inside : b < a + (xs.length + ys.length)
    · rw [if_pos (by omega), if_pos (by omega), List.getElem?_append_right (by omega)]
      congr 1
      omega
    · rw [if_neg (by omega), if_neg (by omega), if_neg (by omega)]

theorem write_write (mem : Memory α) (a : ℕ) (shorter : xs.length ≤ ys.length) :
    (mem.write a xs).write a ys = mem.write a ys := by
  funext b
  simp only [write]
  by_cases inside : a ≤ b ∧ b < a + ys.length
  · rw [if_pos inside, if_pos inside]
  · rw [if_neg inside, if_neg inside, if_neg (by omega)]

theorem write_holds (held : mem.Holds a xs) : mem.write a xs = mem := by
  funext b
  rw [write]
  split
  · next inside =>
    have same := held (b - a) (by omega)
    rw [← same, Nat.add_sub_cancel' inside.1]
  · rfl

theorem holds_write (mem : Memory α) (a : ℕ) (xs : List α) : (mem.write a xs).Holds a xs :=
  fun _ inside => write_inside mem a xs inside

theorem Holds.write (held : mem.Holds b ys) (apart : Apart b ys.length a xs.length) : (mem.write a xs).Holds b ys := by
  intro i inside
  rw [write_outside (by unfold Apart at apart; omega), held i inside]

theorem Mapped.write {count : ℕ} (mapped : mem.Mapped b count) : (mem.write a xs).Mapped b count := by
  intro i inside
  rw [Memory.write]
  split
  · rw [List.getElem?_eq_getElem (by omega), Option.isSome_some]
  · exact mapped i inside

theorem Holds.mapped (held : mem.Holds a xs) : mem.Mapped a xs.length := by
  intro i inside
  rw [held i inside, List.getElem?_eq_getElem inside, Option.isSome_some]

theorem Holds.append (front : mem.Holds a xs) (back : mem.Holds (a + xs.length) ys) : mem.Holds a (xs ++ ys) := by
  intro i inside
  by_cases low : i < xs.length
  · rw [front i low, List.getElem?_append_left low]
  · have next := back (i - xs.length) (by rw [List.length_append] at inside; omega)
    rw [List.getElem?_append_right (Nat.not_lt.mp low), ← next]
    congr 1
    omega

theorem Holds.left (held : mem.Holds a (xs ++ ys)) : mem.Holds a xs := by
  intro i inside
  rw [held i (by rw [List.length_append]; omega), List.getElem?_append_left inside]

theorem Holds.right (held : mem.Holds a (xs ++ ys)) : mem.Holds (a + xs.length) ys := by
  intro i inside
  rw [Nat.add_assoc, held _ (by rw [List.length_append]; omega), List.getElem?_append_right (Nat.le_add_right _ _),
    Nat.add_sub_cancel_left]

theorem Holds.sub {whole : List α} {offset : ℕ} (held : mem.Holds a whole) (inside : offset + xs.length ≤ whole.length)
    (part : (whole.drop offset).take xs.length = xs) : mem.Holds (a + offset) xs := by
  intro i below
  rw [Nat.add_assoc, held _ (by omega), ← part, List.getElem?_take_of_lt below, List.getElem?_drop]

theorem Mapped.sub {n offset count : ℕ} (mapped : mem.Mapped a n) (inside : offset + count ≤ n) :
    mem.Mapped (a + offset) count := by
  intro i below
  rw [Nat.add_assoc]
  exact mapped _ (by omega)

theorem Mapped.shorten {n count : ℕ} (mapped : mem.Mapped a n) (inside : count ≤ n) : mem.Mapped a count :=
  fun i below => mapped i (Nat.lt_of_lt_of_le below inside)

/-- The cells from place `n` of a held list on, as long as what is stored does not reach them. -/
theorem Holds.rest {n : ℕ} (held : mem.Holds a ys) (outside : a = b ∨ Apart a ys.length b xs.length)
    (short : xs.length ≤ n) : (mem.write b xs).Holds (a + n) (ys.drop n) := by
  intro i inside
  rw [List.length_drop] at inside
  rw [write_outside (by unfold Apart at outside; omega), Nat.add_assoc, held _ (by omega), List.getElem?_drop]

theorem Holds.take (held : mem.Holds a xs) (count : ℕ) : mem.Holds a (xs.take count) := by
  intro i inside
  rw [List.length_take] at inside
  rw [held i (by omega), List.getElem?_take_of_lt (by omega)]

theorem loads_run (held : mem.Holds a xs) : mem.loads a xs.length = some xs := by
  induction xs generalizing a with
  | nil => rfl
  | cons x xs ih =>
    have first : mem a = some x := held 0 (Nat.succ_pos _)
    have rest : mem.Holds (a + 1) xs := by
      intro i inside
      rw [Nat.add_assoc, Nat.add_comm 1, held (i + 1) (Nat.succ_lt_succ inside)]
      rfl
    rw [List.length_cons, loads, first, Option.bind_eq_bind, Option.bind_some, ih rest]
    rfl

theorem store_run (mapped : (mem a).isSome) (x : α) : mem.store a x = some (mem.write a [x]) := by
  rw [store, if_pos mapped]
  congr 1
  funext b
  by_cases here : b = a
  · subst here
    rw [Function.update_self, write, if_pos (by simp), Nat.sub_self]
    rfl
  · rw [Function.update_of_ne here, write_outside (by simp; omega)]

theorem stores_run (mapped : mem.Mapped a xs.length) : mem.stores a xs = some (mem.write a xs) := by
  induction xs generalizing mem a with
  | nil => rw [stores, write_nil]
  | cons x xs ih =>
    have first : (mem a).isSome := mapped 0 (Nat.succ_pos _)
    have rest : (mem.write a [x]).Mapped (a + 1) xs.length := by
      apply Mapped.write
      apply mapped.sub
      exact Nat.le_of_eq (Nat.add_comm 1 xs.length)
    rw [stores, store_run first, Option.bind_eq_bind, Option.bind_some, ih rest]
    exact congrArg some (write_append mem a [x] xs)

theorem up_stores {body : ℕ → Memory α → Option (Memory α)} (mapped : mem.Mapped a xs.length)
    (step : ∀ i (inside : i < xs.length), body i (mem.write a (xs.take i)) =
      (mem.write a (xs.take i)).store (a + i) xs[i]) :
    Loop.up body xs.length mem = some (mem.write a xs) := by
  have reached : ∃ mem', Loop.up body xs.length mem = some mem' ∧ mem' = mem.write a (xs.take xs.length) := by
    apply Loop.up_rule fun i (mem' : Memory α) => mem' = mem.write a (xs.take i)
    · rw [List.take_zero, write_nil]
    · rintro i mem' inside rfl
      refine ⟨_, (step i inside).trans (store_run (mapped.write i inside) _), ?_⟩
      have length : (xs.take i).length = i := List.length_take_of_le (Nat.le_of_lt inside)
      have next := write_append mem a (xs.take i) [xs[i]]
      rw [length] at next
      rw [next, List.take_append_getElem inside]
  obtain ⟨mem', run, rfl⟩ := reached
  rw [run, List.take_length]

theorem Holds.ahead (held : mem.Holds b ys) (ahead : Ahead b a ys.length) {i : ℕ} (inside : i < ys.length)
    (short : xs.length ≤ i) : mem.write a xs (b + i) = ys[i]? := by
  rw [write_outside (by unfold Ahead at ahead; omega), held i inside]

end Memory
end MyTools.Library
