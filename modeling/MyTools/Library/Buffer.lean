import MyTools.Library.Loop
import Mathlib.Data.List.Basic

/-! Arrays of a fixed length: stores that are undefined outside, and the loop that
copies element by element. -/
namespace MyTools.Library.Buffer
variable {α : Type*} {size : ℕ}

def put (buffer : Vector α size) (i : ℕ) (x : α) : Option (Vector α size) :=
  if inside : i < size then some (buffer.set i x) else none

def store (buffer : Vector α size) (offset : ℕ) (source : List α) : Option (Vector α size) :=
  if inside : offset + source.length ≤ size then
    some ⟨(buffer.toList.take offset ++ source ++ buffer.toList.drop (offset + source.length)).toArray, by
      simp only [List.size_toArray, List.length_append, List.length_take, List.length_drop, Vector.length_toList]
      omega⟩
  else none

/-- `for (i = 0; i < count; i++) buffer[offset + i] = source[i];` -/
def copy (buffer : Vector α size) (offset : ℕ) (source : List α) (count : ℕ) : Option (Vector α size) :=
  Loop.up (fun i buffer => source[i]?.bind (put buffer (offset + i))) count buffer

theorem put_run (buffer : Vector α size) {i : ℕ} (inside : i < size) (x : α) :
    ∃ buffer', put buffer i x = some buffer' ∧ buffer'.toList = buffer.toList.set i x :=
  ⟨_, dif_pos inside, Vector.toList_set inside⟩

theorem store_run (buffer : Vector α size) (offset : ℕ) (source : List α) (inside : offset + source.length ≤ size) :
    ∃ buffer', store buffer offset source = some buffer' ∧
      buffer'.toList = buffer.toList.take offset ++ source ++ buffer.toList.drop (offset + source.length) :=
  ⟨_, dif_pos inside, rfl⟩

theorem store_fill {buffer : Vector α size} {filled : List α} (front : buffer.toList.take filled.length = filled)
    (source : List α) (offset : ℕ) (at_end : offset = filled.length) (inside : offset + source.length ≤ size) :
    ∃ buffer', store buffer offset source = some buffer' ∧
      buffer'.toList.take (filled ++ source).length = filled ++ source := by
  subst at_end
  obtain ⟨buffer', run, list⟩ := store_run buffer filled.length source inside
  exact ⟨buffer', run, by rw [list, front, List.take_left]⟩

theorem copy_run (buffer : Vector α size) (offset : ℕ) (source : List α) (count : ℕ) (inside : offset + count ≤ size)
    (readable : count ≤ source.length) :
    ∃ buffer', copy buffer offset source count = some buffer' ∧
      buffer'.toList = buffer.toList.take offset ++ source.take count ++ buffer.toList.drop (offset + count) := by
  refine Loop.up_rule (fun i (b : Vector α size) => b.toList = buffer.toList.take offset ++ source.take i ++ buffer.toList.drop (offset + i))
    (by simp) (fun i b below holds => ?_)
  have bound : offset + i < buffer.toList.length := by rw [Vector.length_toList]; omega
  have reads : source[i]? = some source[i] := List.getElem?_eq_getElem (by omega)
  have filled : (buffer.toList.take offset ++ source.take i).length = offset + i := by
    rw [List.length_append, List.length_take, List.length_take]; omega
  have grown : source.take (i + 1) = source.take i ++ [source[i]] := List.take_succ_eq_append_getElem (by omega)
  obtain ⟨b', run, list⟩ := put_run b (show offset + i < size by omega) source[i]
  refine ⟨b', by rw [reads, Option.bind_some, run], ?_⟩
  rw [list, holds, List.drop_eq_getElem_cons bound, List.set_append_right _ _ (Nat.le_of_eq filled), filled,
    Nat.sub_self, List.set_cons_zero, ← Nat.add_assoc, grown]
  simp only [List.append_assoc, List.singleton_append]

end MyTools.Library.Buffer
