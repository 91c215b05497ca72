import Mathlib.Data.List.GetD
import Mathlib.Logic.Function.Iterate
import MyTools.Library.Recurrence
import MyTools.Miracl.Aes

/-! The key schedule of `aes_init`: its nested loops write the standard's words, and any of them that
are as many as the key has lead back to the key. -/
namespace MyTools.Miracl
open Library Words Polynomials

/-- What the standard does to the word before, for word `j` of a key of `nk` words. -/
def tweak (nk j : ℕ) (x : UInt32) : UInt32 :=
  if j % nk = 0 then subByte (rotl24 x) ^^^ ((double reduction)^[j / nk - 1] 1).toUInt32
  else if 6 < nk ∧ j % nk = 4 then subByte x else x

theorem rco_eq {k : ℕ} (inside : k < 16) : rco.getD k 0 = ((double reduction)^[k] 1).toUInt32 := by
  have all : ∀ k, k < 16 → rco.getD k 0 = ((double reduction)^[k] 1).toUInt32 := by decide +kernel
  exact all k inside

/-- The words after the first `nk` are those of the standard. -/
def Follows (nk : ℕ) (w : List UInt32) : Prop :=
  ∀ j, nk ≤ j → j < w.length → w.getD j 0 = w.getD (j - nk) 0 ^^^ tweak nk j (w.getD (j - 1) 0)

theorem Follows.append {nk : ℕ} {w : List UInt32} (follows : Follows nk w) (positive : 0 < nk) {x : UInt32}
    (next : x = w.getD (w.length - nk) 0 ^^^ tweak nk w.length (w.getD (w.length - 1) 0)) : Follows nk (w ++ [x]) := by
  intro j low high
  have left {i : ℕ} (inside : i < w.length) : (w ++ [x]).getD i 0 = w.getD i 0 := List.getD_append _ _ _ _ inside
  rw [List.length_append, List.length_singleton] at high
  by_cases last : j = w.length
  · have new : (w ++ [x]).getD j 0 = x := by
      rw [last, List.getD_append_right _ _ _ _ (Nat.le_refl _), Nat.sub_self]
      rfl
    rw [new, left (by omega), left (by omega), next, last]
  · rw [left (by omega), left (by omega), left (by omega)]
    exact follows j low (by omega)

/-- The words of a pass that starts at `base`, after `i` of its words. -/
structure Stage (nk N : ℕ) (start : List UInt32) (base i : ℕ) (w : List UInt32) : Prop where
  follows : Follows nk w
  some_ : nk ≤ w.length
  length : w.length = min N (base + i)
  begins : start <+: w

section
variable {nk N : ℕ} {start w : List UInt32} {base i : ℕ}

theorem Stage.append (stage : Stage nk N start base i w) (positive : 0 < nk) (room : w.length < N) {x : UInt32}
    (next : x = w.getD (w.length - nk) 0 ^^^ tweak nk w.length (w.getD (w.length - 1) 0)) :
    Stage nk N start base (i + 1) (w ++ [x]) := by
  have length := stage.length
  refine ⟨stage.follows.append positive next, ?_, ?_, stage.begins.trans (List.prefix_append _ _)⟩
  · rw [List.length_append]
    exact Nat.le_add_right_of_le stage.some_
  · rw [List.length_append, List.length_singleton]
    omega

theorem Stage.full (stage : Stage nk N start base i w) (full : ¬ w.length < N) : Stage nk N start base (i + 1) w := by
  have length := stage.length
  exact ⟨stage.follows, stage.some_, by omega, stage.begins⟩

theorem Stage.plainWord (stage : Stage nk N start base i w) (whole : base % nk = 0) (inner : 0 < i) (inside : i < nk)
    (other : ¬ (6 < nk ∧ i = 4)) : Stage nk N start base (i + 1) (plainWord nk N w) := by
  rw [Miracl.plainWord]
  split
  · next room =>
    have position : w.length = base + i := by
      have length := stage.length
      omega
    have column : w.length % nk = i := by
      rw [position, Nat.add_mod, whole, Nat.zero_add, Nat.mod_mod, Nat.mod_eq_of_lt inside]
    have same : tweak nk w.length (w.getD (w.length - 1) 0) = w.getD (w.length - 1) 0 := by
      rw [tweak, column, if_neg (by omega), if_neg other]
    exact stage.append (by omega) room (by rw [same])
  · next full => exact stage.full full

theorem Stage.plainWords (stage : Stage nk N start base i w) (whole : base % nk = 0) (inner : 0 < i) {count : ℕ}
    (inside : i + count ≤ nk) (other : ∀ i', i ≤ i' → i' < i + count → ¬ (6 < nk ∧ i' = 4)) :
    Stage nk N start base (i + count) ((Miracl.plainWord nk N)^[count] w) := by
  induction count with
  | zero => exact stage
  | succ count ih =>
    rw [Function.iterate_succ_apply', ← Nat.add_assoc]
    exact (ih (by omega) fun i' low high => other i' low (by omega)).plainWord whole (by omega) (by omega)
      (other (i + count) (by omega) (by omega))

theorem Stage.middle (stage : Stage 8 N start base 4 w) (whole : base % 8 = 0) :
    Stage 8 N start base 5
      (if w.length < N then w ++ [w.getD (w.length - 8) 0 ^^^ subByte (w.getD (w.length - 1) 0)] else w) := by
  split
  · next room =>
    have column : w.length % 8 = 4 := by
      have length := stage.length
      omega
    have same : tweak 8 w.length (w.getD (w.length - 1) 0) = subByte (w.getD (w.length - 1) 0) := by
      rw [tweak, column, if_neg (by decide), if_pos (by decide)]
    exact stage.append (by decide) room (by rw [same])
  · next full => exact stage.full full

theorem Stage.keyPass {k : ℕ} (stage : Stage nk N start (nk * (k + 1)) 0 w) (sizes : nk = 4 ∨ nk = 6 ∨ nk = 8)
    (bound : N ≤ 60) (room : w.length < N) : Stage nk N start (nk * (k + 1 + 1)) 0 (keyPass nk N k w) := by
  have positive : 0 < nk := by omega
  have whole : nk * (k + 1) % nk = 0 := Nat.mul_mod_right nk (k + 1)
  have position : w.length = nk * (k + 1) := by
    have length := stage.length
    omega
  have few : k < 16 := by
    have most : 4 * (k + 1) ≤ nk * (k + 1) := Nat.mul_le_mul_right _ (by omega)
    omega
  have first := stage.append positive room
    (x := w.getD (w.length - nk) 0 ^^^ subByte (rotl24 (w.getD (w.length - 1) 0)) ^^^ rco.getD k 0) (by
      rw [tweak, position, if_pos whole, Nat.mul_div_cancel_left _ positive, Nat.add_sub_cancel, rco_eq few,
        UInt32.xor_assoc])
  have done {w' : List UInt32} (last : Stage nk N start (nk * (k + 1)) nk w') :
      Stage nk N start (nk * (k + 1 + 1)) 0 w' := by
    have length := last.length
    exact ⟨last.follows, last.some_, by rw [length, Nat.mul_succ nk (k + 1)]; rfl, last.begins⟩
  rw [Miracl.keyPass]
  split
  · next short =>
    have rest : Stage nk N start (nk * (k + 1)) (0 + 1 + (nk - 1)) _ :=
      first.plainWords whole Nat.one_pos (by omega) fun i' _ _ => by omega
    rw [Nat.zero_add, Nat.add_sub_cancel' (by omega)] at rest
    exact done rest
  · next long =>
    obtain rfl : nk = 8 := by omega
    have third : Stage 8 N start (8 * (k + 1)) 4 _ :=
      first.plainWords whole Nat.one_pos (show 0 + 1 + 3 ≤ 8 by decide) fun i' _ _ => by omega
    have fourth := third.middle whole
    exact done (fourth.plainWords whole (by decide) (show 5 + 3 ≤ 8 by decide) fun i' _ _ => by omega)

theorem Stage.keyPasses (sizes : nk = 4 ∨ nk = 6 ∨ nk = 8) (bound : N ≤ 60) {fuel k : ℕ}
    (stage : Stage nk N start (nk * (k + 1)) 0 w) (enough : N ≤ nk * (k + 1 + fuel)) :
    Follows nk (Miracl.keyPasses nk N fuel k w) ∧ (Miracl.keyPasses nk N fuel k w).length = N ∧
      start <+: Miracl.keyPasses nk N fuel k w := by
  induction fuel generalizing k w with
  | zero =>
    have length := stage.length
    rw [Nat.add_zero] at enough
    exact ⟨stage.follows, by rw [Miracl.keyPasses]; omega, stage.begins⟩
  | succ fuel ih =>
    rw [Miracl.keyPasses]
    split
    · next room => exact ih (stage.keyPass sizes bound room) (by rwa [Nat.add_right_comm, Nat.add_assoc])
    · next full =>
      have length := stage.length
      exact ⟨stage.follows, by omega, stage.begins⟩

end

def keyWord (key : Bytes) (i : ℕ) : UInt32 :=
  pack (key.getD (4 * i) 0) (key.getD (4 * i + 1) 0) (key.getD (4 * i + 2) 0) (key.getD (4 * i + 3) 0)

/-- The words of an initialised context: those of the key, and then those of the standard. -/
theorem aesInit_words {a b : Aes} {mode nk : ℤ} {key : Bytes} {iv : Option Block}
    (init : aesInit a mode nk key iv = some (true, b)) :
    (b.Nk = 4 ∨ b.Nk = 6 ∨ b.Nk = 8) ∧ b.Nr = 6 + b.Nk ∧ 4 * b.Nk ≤ key.length ∧
    (∀ i, i < b.Nk → b.fkey i = keyWord key i) ∧
    ∀ j, b.Nk ≤ j → j < nb * (b.Nr + 1) → b.fkey j = b.fkey (j - b.Nk) ^^^ tweak b.Nk j (b.fkey (j - 1)) := by
  simp only [aesInit] at init
  generalize (nk.tdiv 4).toNat = n at init
  split_ifs at init with size short
  · cases init
  · obtain ⟨-, rfl⟩ := Prod.mk.inj (Option.some.inj init)
    have sizes : n = 4 ∨ n = 6 ∨ n = 8 := by omega
    have length : ((List.range n).map (keyWord key)).length = n := by rw [List.length_map, List.length_range]
    have stage : Stage n (nb * (6 + n + 1)) ((List.range n).map (keyWord key)) (n * (0 + 1)) 0
        ((List.range n).map (keyWord key)) := by
      refine ⟨fun j low high => absurd high (by omega), by omega, ?_, List.prefix_refl _⟩
      rw [length]
      unfold nb
      omega
    have enough : nb * (6 + n + 1) ≤ n * (0 + 1 + nb * (6 + n + 1)) := by
      have most : 1 * (0 + 1 + nb * (6 + n + 1)) ≤ n * (0 + 1 + nb * (6 + n + 1)) := Nat.mul_le_mul_right _ (by omega)
      omega
    obtain ⟨follows, count, ⟨rest, begins⟩⟩ := stage.keyPasses sizes (by unfold nb; omega) enough
    refine ⟨sizes, rfl, Nat.not_lt.mp short, ?_, ?_⟩
    · intro i (inside : i < n)
      change (Miracl.keyPasses n (nb * (6 + n + 1)) (nb * (6 + n + 1)) 0 ((List.range n).map (keyWord key))).getD i 0 = _
      rw [← begins, List.getD_append _ _ _ _ (by omega), List.getD_eq_getElem _ _ (by omega), List.getElem_map,
        List.getElem_range]
    · intro j low high
      exact follows j low (by rw [count]; exact high)

theorem keyWord_octet (key : Bytes) (i : ℕ) {j : ℕ} (inside : j < 4) : octet (keyWord key i) j = key.getD (4 * i + j) 0 := by
  obtain rfl | rfl | rfl | rfl : j = 0 ∨ j = 1 ∨ j = 2 ∨ j = 3 := by omega
  all_goals simp only [keyWord, octet_pack_zero, octet_pack_one, octet_pack_two, octet_pack_three, Nat.add_zero]

theorem take_of_keyWords {key key' : Bytes} {count : ℕ} (room : 4 * count ≤ key.length) (room' : 4 * count ≤ key'.length)
    (same : ∀ i, i < count → keyWord key i = keyWord key' i) : key.take (4 * count) = key'.take (4 * count) := by
  have length : (key.take (4 * count)).length = (key'.take (4 * count)).length := by
    rw [List.length_take, List.length_take, Nat.min_eq_left room, Nat.min_eq_left room']
  apply List.ext_getElem length
  intro t low high
  rw [List.length_take] at low high
  have parts := Nat.div_add_mod t 4
  have left := keyWord_octet key (t / 4) (Nat.mod_lt t (show 0 < 4 by decide))
  have right := keyWord_octet key' (t / 4) (Nat.mod_lt t (show 0 < 4 by decide))
  rw [parts, List.getD_eq_getElem _ _ (by omega)] at left right
  rw [List.getElem_take, List.getElem_take, ← left, ← right, same (t / 4) (by omega)]

/-- What `aes_init` sets up is the standard's cipher under the standard's schedule, in both directions. -/
theorem aesInit_standard {a b : Aes} {mode nk : ℤ} {key : Bytes} {iv : Option Block}
    (init : aesInit a mode nk key iv = some (true, b)) :
    ((b.Nk = 4 ∨ b.Nk = 6 ∨ b.Nk = 8) ∧ b.Nr = 6 + b.Nk ∧ (∀ i, i < b.Nk → b.fkey i = keyWord key i) ∧
      ∀ j, b.Nk ≤ j → j < nb * (b.Nr + 1) → b.fkey j = b.fkey (j - b.Nk) ^^^ tweak b.Nk j (b.fkey (j - 1))) ∧
    (∀ buff, b.ecbEncrypt buff = store (standardEncrypt b.fkey b.Nr (load buff))) ∧
    (∀ buff, b.ecbDecrypt (b.ecbEncrypt buff) = buff) ∧ ∀ buff, b.ecbEncrypt (b.ecbDecrypt buff) = buff := by
  obtain ⟨sizes, rounds, -, first, follows⟩ := aesInit_words init
  have keyed := aesInit_keyed init
  exact ⟨⟨sizes, rounds, first, follows⟩, b.ecbEncrypt_eq, keyed.decrypt_encrypt, keyed.encrypt_decrypt⟩

def blank : Aes := ⟨0, 0, 0, fun _ => 0, fun _ => 0, .replicate 16 0⟩

def sevens : Aes := ((aesInit blank 2 16 (List.replicate 16 7) none).getD (false, blank)).2

theorem sevens_init : aesInit blank 2 16 (List.replicate 16 7) none = some (true, sevens) := rfl

theorem aesInit_standard_sevens : sevens.ecbEncrypt (sevens.ecbDecrypt (.replicate 16 1)) = .replicate 16 1 :=
  (aesInit_standard sevens_init).2.2.2 _

/-- As many words in a row as the key has lead back to the key. -/
theorem key_of_words {a a' b b' : Aes} {mode mode' nk nk' : ℤ} {key key' : Bytes} {iv iv' : Option Block}
    (init : aesInit a mode nk key iv = some (true, b)) (init' : aesInit a' mode' nk' key' iv' = some (true, b'))
    (size : b.Nk = b'.Nk) {p : ℕ} (inside : p + b.Nk ≤ nb * (b.Nr + 1))
    (window : ∀ j, p ≤ j → j < p + b.Nk → b.fkey j = b'.fkey j) : key.take (4 * b.Nk) = key'.take (4 * b.Nk) := by
  obtain ⟨sizes, rounds, room, first, follows⟩ := aesInit_words init
  obtain ⟨-, rounds', room', first', follows'⟩ := aesInit_words init'
  rw [← size] at rounds' room' first' follows'
  rw [rounds', ← rounds] at follows'
  have all := Recurrence.agree_of_window (x := b.fkey) (y := b'.fkey) (m := b.Nk) (N := nb * (b.Nr + 1)) (by
      intro i room same
      rw [follows _ (by omega) room, follows' _ (by omega) room, Nat.add_sub_cancel, same i (by omega) (by omega),
        same (i + b.Nk - 1) (by omega) (by omega)]) (by
      intro i room same
      have last := same (i + b.Nk) (by omega) (by omega)
      rw [follows _ (by omega) room, follows' _ (by omega) room, Nat.add_sub_cancel,
        same (i + b.Nk - 1) (by omega) (by omega)] at last
      exact (UInt32.xor_left_inj _).mp last) inside window
  apply take_of_keyWords room room'
  intro i low
  rw [← first i low, ← first' i low]
  refine all i ?_
  rw [rounds]
  unfold nb
  omega

theorem key_of_words_sevens : (List.replicate 16 (7 : UInt8)).take (4 * sevens.Nk) =
    (List.replicate 16 7).take (4 * sevens.Nk) :=
  key_of_words sevens_init sevens_init rfl (show 40 + 4 ≤ nb * (10 + 1) by decide) fun _ _ _ => rfl

end MyTools.Miracl
