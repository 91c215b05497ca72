import MyTools.SocketRandom.Generator

/-! The mixing of the pool. Its twist shifts three bits out of a word and replaces them by an entry of
`table`, whose leading three bits do not tell which ones they were: pools are merged. -/
namespace MyTools.SocketRandom
open Library

/-- `(temp >> 3) ^ table[temp & 7]` -/
def twist (temp : UInt32) : UInt32 := (temp >>> 3) ^^^ table.getD (temp &&& 7).toNat 0

/-- The entropy and the words that the first pass mixes with word 0. -/
def tapped (g : UInt32) (data : Vector UInt32 128) : UInt32 :=
  g ^^^ data[1] ^^^ data[25] ^^^ data[51] ^^^ data[76] ^^^ data[103]

theorem table_getElem (temp : UInt32) : table[(temp &&& 7).toNat]? = some (table.getD (temp &&& 7).toNat 0) := by
  have below : (temp &&& 7).toNat < table.length := by
    rw [UInt32.toNat_and]
    exact Nat.lt_succ_of_le Nat.and_le_right
  rw [List.getD_eq_getElem?_getD, List.getElem?_eq_getElem below, Option.getD_some]

theorem mix_first (g x : UInt32) (data : Vector UInt32 128) :
    mix g 0 (data.set 0 x) = some (data.set 0 (twist (x ^^^ tapped g data))) := by
  have own : (data.set 0 x)[0]? = some x := by simp
  have other (i : ℕ) (inside : i < 128) (apart : i ≠ 0) : (data.set 0 x)[i]? = some data[i] := by
    simp [apart.symm, Vector.getElem?_eq_getElem inside]
  have order : g ^^^ x ^^^ data[1] ^^^ data[25] ^^^ data[51] ^^^ data[76] ^^^ data[103] = x ^^^ tapped g data := by
    rw [tapped]
    ac_rfl
  have stored (y : UInt32) : Buffer.put (data.set 0 x) 0 y = some (data.set 0 y) := by
    rw [Buffer.put, dif_pos (by decide), Vector.set_set]
  simp only [mix, own, Nat.zero_add, Nat.reduceMod, other 1 (by decide) (by decide), other 25 (by decide) (by decide),
    other 51 (by decide) (by decide), other 76 (by decide) (by decide), other 103 (by decide) (by decide),
    Option.bind_eq_bind, Option.bind_some, order, table_getElem, stored]
  rfl

/-- The entries 2 and 3 of `table` begin with the same three bits, so that the twist takes two words to one. -/
theorem twist_merges : twist 2 = twist 0x20716633 := by decide

/-- Whatever the other words are and whatever entropy comes in, two values of the first word are merged. -/
theorem calcPool_merges (g : UInt32) (data : Vector UInt32 128) :
    calcPool g (data.set 0 (2 ^^^ tapped g data)) = calcPool g (data.set 0 (0x20716633 ^^^ tapped g data)) := by
  have cancelled (w : UInt32) : w ^^^ tapped g data ^^^ tapped g data = w := by
    rw [UInt32.xor_assoc, UInt32.xor_self, UInt32.xor_zero]
  have first : mix g 0 (data.set 0 (2 ^^^ tapped g data)) = mix g 0 (data.set 0 (0x20716633 ^^^ tapped g data)) := by
    rw [mix_first, mix_first, cancelled, cancelled, twist_merges]
  exact Loop.up_merged first 127

def firstWord (x : UInt32) : Vector UInt32 128 := (Vector.replicate 128 0).set 0 x

theorem firstWord_inj {x y : UInt32} (same : firstWord x = firstWord y) : x = y := by
  have entries := congrArg (·[0]?) same
  simpa [firstWord] using entries

theorem calcPool_not_injective (g : UInt32) : ¬ Function.Injective (calcPool g) := by
  intro injective
  have same := firstWord_inj (injective (calcPool_merges g (Vector.replicate 128 0)))
  exact absurd ((UInt32.xor_left_inj _).mp same) (by decide)

theorem calcPool_zero_merges :
    firstWord 2 ≠ firstWord 0x20716633 ∧ calcPool 0 (firstWord 2) = calcPool 0 (firstWord 0x20716633) := by
  refine ⟨fun same => absurd (firstWord_inj same) (by decide), ?_⟩
  have nothing : tapped 0 (Vector.replicate 128 0) = 0 := by decide
  have merged := calcPool_merges 0 (Vector.replicate 128 0)
  rw [nothing, UInt32.xor_zero, UInt32.xor_zero] at merged
  exact merged

end MyTools.SocketRandom
