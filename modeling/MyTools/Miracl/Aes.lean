import Mathlib.Data.Finite.Prod
import MyTools.Library.Bytes
import MyTools.Library.Rounds
import MyTools.Miracl.AesTables

/-! The block cipher of `mraes.c`. Its rounds look whole columns up in tables; they are those of the
standard, and decryption is encryption run from behind with the keys turned into the other order. -/
namespace MyTools.Miracl
open Library Words Polynomials

def nb : ℕ := 4

abbrev Block := Vector UInt8 16
/-- `MR_WORD p[4]` -/
abbrev Columns := Vector UInt32 4

structure Aes where
  Nk : ℕ
  Nr : ℕ
  mode : ℤ
  fkey : ℕ → UInt32
  rkey : ℕ → UInt32
  f : Block

/-- `MR_ECB` -/
def ecbMode : ℤ := 0

/-- `a->f[i] = iv[i]`, or zeros. -/
def Aes.reset (a : Aes) (mode : ℤ) (iv : Option Block) : Aes :=
  { a with mode := mode, f := if mode = ecbMode then .replicate 16 0 else iv.getD (.replicate 16 0) }

/-! The keys. -/

/-- `a->fkey[i+j] = a->fkey[i+j-nk] ^ a->fkey[i+j-1]`, while there is room. -/
def plainWord (nk N : ℕ) (w : List UInt32) : List UInt32 :=
  if w.length < N then w ++ [w.getD (w.length - nk) 0 ^^^ w.getD (w.length - 1) 0] else w

/-- One pass of the loop over `j` and `k`, where `j` is the number of words that are there. -/
def keyPass (nk N k : ℕ) (w : List UInt32) : List UInt32 :=
  let w := w ++ [w.getD (w.length - nk) 0 ^^^ subByte (rotl24 (w.getD (w.length - 1) 0)) ^^^ rco.getD k 0]
  if nk ≤ 6 then (plainWord nk N)^[nk - 1] w
  else
    let w := (plainWord nk N)^[3] w
    let w := if w.length < N then w ++ [w.getD (w.length - nk) 0 ^^^ subByte (w.getD (w.length - 1) 0)] else w
    (plainWord nk N)^[nk - 5] w

/-- The loop itself; every pass adds a word, so that `N` passes are enough. -/
def keyPasses (nk N : ℕ) : (fuel k : ℕ) → (w : List UInt32) → List UInt32
  | 0, _, w => w
  | fuel + 1, k, w => if w.length < N then keyPasses nk N fuel (k + 1) (keyPass nk N k w) else w

/-- The keys of decryption, in the other order and with the inner ones mixed. -/
def decryptKey (fkey : ℕ → UInt32) (Nr t : ℕ) : UInt32 :=
  if t < nb then fkey (t + nb * Nr)
  else if t < nb * Nr then invMixCol (fkey (nb * (Nr - t / nb) + t % nb))
  else fkey (t - nb * Nr)

/-- `aes_init`; `none` is a read behind the key. -/
def aesInit (a : Aes) (mode nk : ℤ) (key : Bytes) (iv : Option Block) : Option (Bool × Aes) :=
  let nk := (nk.tdiv 4).toNat
  if nk ≠ 4 ∧ nk ≠ 6 ∧ nk ≠ 8 then some (false, a)
  else if key.length < 4 * nk then none
  else
    let nr := 6 + nk
    let N := nb * (nr + 1)
    let cipherKey := (List.range nk).map fun i =>
      pack (key.getD (4 * i) 0) (key.getD (4 * i + 1) 0) (key.getD (4 * i + 2) 0) (key.getD (4 * i + 3) 0)
    let words := keyPasses nk N N 0 cipherKey
    let fkey := fun i => words.getD i 0
    some (true, { a.reset mode iv with Nk := nk, Nr := nr, fkey := fkey, rkey := decryptKey fkey nr })

/-! The rounds. -/

def load (buff : Block) : Columns :=
  .ofFn fun i : Fin 4 => pack buff[4 * i.val] buff[4 * i.val + 1] buff[4 * i.val + 2] buff[4 * i.val + 3]

def store (y : Columns) : Block := .ofFn fun j : Fin 16 => octet y[j.val / 4] (j.val % 4)

def addKey (key : ℕ → UInt32) (k : ℕ) (x : Columns) : Columns := .ofFn fun c : Fin 4 => key (k + c) ^^^ x[c]

def encryptRound (key : ℕ → UInt32) (k : ℕ) (x : Columns) : Columns := .ofFn fun c : Fin 4 =>
  key (k + c) ^^^ entry ftable (octet x[c] 0) ^^^ entry ftable1 (octet x[c + 1] 1) ^^^
    entry ftable2 (octet x[c + 2] 2) ^^^ entry ftable3 (octet x[c + 3] 3)

def encryptLast (key : ℕ → UInt32) (k : ℕ) (x : Columns) : Columns := .ofFn fun c : Fin 4 =>
  key (k + c) ^^^ (entry fbsub (octet x[c] 0)).toUInt32 ^^^ rotl8 (entry fbsub (octet x[c + 1] 1)).toUInt32 ^^^
    rotl16 (entry fbsub (octet x[c + 2] 2)).toUInt32 ^^^ rotl24 (entry fbsub (octet x[c + 3] 3)).toUInt32

def decryptRound (key : ℕ → UInt32) (k : ℕ) (x : Columns) : Columns := .ofFn fun c : Fin 4 =>
  key (k + c) ^^^ entry rtable (octet x[c] 0) ^^^ entry rtable1 (octet x[c + 3] 1) ^^^
    entry rtable2 (octet x[c + 2] 2) ^^^ entry rtable3 (octet x[c + 1] 3)

def decryptLast (key : ℕ → UInt32) (k : ℕ) (x : Columns) : Columns := .ofFn fun c : Fin 4 =>
  key (k + c) ^^^ (entry rbsub (octet x[c] 0)).toUInt32 ^^^ rotl8 (entry rbsub (octet x[c + 3] 1)).toUInt32 ^^^
    rotl16 (entry rbsub (octet x[c + 2] 2)).toUInt32 ^^^ rotl24 (entry rbsub (octet x[c + 1] 3)).toUInt32

/-- The loop `for (i = 1; i < a->Nr; i++)`, in which `k` is `NB * i`, after `count` passes. -/
def passes (round : (k : ℕ) → Columns → Columns) (x : Columns) : (count : ℕ) → Columns
  | 0 => x
  | count + 1 => round (nb * (count + 1)) (passes round x count)

def Aes.ecbEncrypt (a : Aes) (buff : Block) : Block :=
  let x := passes (encryptRound a.fkey) (addKey a.fkey 0 (load buff)) (a.Nr - 1)
  store (encryptLast a.fkey (nb * a.Nr) x)

def Aes.ecbDecrypt (a : Aes) (buff : Block) : Block :=
  let x := passes (decryptRound a.rkey) (addKey a.rkey 0 (load buff)) (a.Nr - 1)
  store (decryptLast a.rkey (nb * a.Nr) x)

/-! The standard's rounds. -/

def addRoundKey (k x : Columns) : Columns := .ofFn fun c : Fin 4 => k[c] ^^^ x[c]

def roundKey (key : ℕ → UInt32) (r : ℕ) : Columns := .ofFn fun c : Fin 4 => key (nb * r + c)

def subBytes (s : UInt8 → UInt8) (x : Columns) : Columns := .ofFn fun c : Fin 4 =>
  pack (s (octet x[c] 0)) (s (octet x[c] 1)) (s (octet x[c] 2)) (s (octet x[c] 3))

/-- Row `j` of the state is turned by `j` columns. -/
def shiftRows (x : Columns) : Columns := .ofFn fun c : Fin 4 =>
  pack (octet x[c] 0) (octet x[c + 1] 1) (octet x[c + 2] 2) (octet x[c + 3] 3)

def invShiftRows (x : Columns) : Columns := .ofFn fun c : Fin 4 =>
  pack (octet x[c] 0) (octet x[c + 3] 1) (octet x[c + 2] 2) (octet x[c + 1] 3)

def mixColumns (x : Columns) : Columns := x.map (mixColumn reduction)

def invMixColumns (x : Columns) : Columns := x.map (unmixColumn reduction)

def substituteRows (x : Columns) : Columns := shiftRows (subBytes substitute x)

def restoreRows (x : Columns) : Columns := invShiftRows (subBytes (entry rbsub) x)

def standardEncrypt (key : ℕ → UInt32) (Nr : ℕ) (x : Columns) : Columns :=
  Rounds.cipher addRoundKey substituteRows mixColumns (roundKey key) Nr x

/-- Decryption as it describes it under the name of the equivalent inverse cipher. -/
def standardDecrypt (key : ℕ → UInt32) (Nr : ℕ) (x : Columns) : Columns :=
  Rounds.cipher addRoundKey restoreRows invMixColumns (roundKey key) Nr x

theorem entry_fbsub : entry fbsub = substitute := funext fbsub_eq

theorem columns_ext {x y : Columns} (same : ∀ c : Fin 4, x[c] = y[c]) : x = y :=
  Vector.ext fun c inside => same ⟨c, inside⟩

private theorem regroup (k a b c d : UInt32) : k ^^^ a ^^^ b ^^^ c ^^^ d = k ^^^ (a ^^^ b ^^^ c ^^^ d) := by ac_rfl

theorem encryptRound_eq (key : ℕ → UInt32) (r : ℕ) (x : Columns) :
    encryptRound key (nb * r) x = addRoundKey (roundKey key r) (mixColumns (shiftRows (subBytes (entry fbsub) x))) := by
  apply columns_ext
  intro c
  have column := ftable_column (octet x[c] 0) (octet x[c + 1] 1) (octet x[c + 2] 2) (octet x[c + 3] 3)
  simp only [encryptRound, addRoundKey, roundKey, mixColumns, shiftRows, subBytes, Fin.getElem_fin, Vector.getElem_ofFn,
    Vector.getElem_map, Fin.eta, octet_pack_zero, octet_pack_one, octet_pack_two, octet_pack_three, regroup] at column ⊢
  exact congrArg (key (nb * r + c) ^^^ ·) column

theorem encryptLast_eq (key : ℕ → UInt32) (r : ℕ) (x : Columns) :
    encryptLast key (nb * r) x = addRoundKey (roundKey key r) (shiftRows (subBytes (entry fbsub) x)) := by
  apply columns_ext
  intro c
  simp only [encryptLast, addRoundKey, roundKey, shiftRows, subBytes, Fin.getElem_fin, Vector.getElem_ofFn, Fin.eta,
    octet_pack_zero, octet_pack_one, octet_pack_two, octet_pack_three, regroup, placed]

theorem decryptRound_eq (key : ℕ → UInt32) (r : ℕ) (x : Columns) :
    decryptRound key (nb * r) x = addRoundKey (roundKey key r) (invMixColumns (invShiftRows (subBytes (entry rbsub) x))) := by
  apply columns_ext
  intro c
  have column := rtable_column (octet x[c] 0) (octet x[c + 3] 1) (octet x[c + 2] 2) (octet x[c + 1] 3)
  simp only [decryptRound, addRoundKey, roundKey, invMixColumns, invShiftRows, subBytes, Fin.getElem_fin,
    Vector.getElem_ofFn, Vector.getElem_map, Fin.eta, octet_pack_zero, octet_pack_one, octet_pack_two, octet_pack_three,
    regroup] at column ⊢
  exact congrArg (key (nb * r + c) ^^^ ·) column

theorem decryptLast_eq (key : ℕ → UInt32) (r : ℕ) (x : Columns) :
    decryptLast key (nb * r) x = addRoundKey (roundKey key r) (invShiftRows (subBytes (entry rbsub) x)) := by
  apply columns_ext
  intro c
  simp only [decryptLast, addRoundKey, roundKey, invShiftRows, subBytes, Fin.getElem_fin, Vector.getElem_ofFn, Fin.eta,
    octet_pack_zero, octet_pack_one, octet_pack_two, octet_pack_three, regroup, placed]

theorem addKey_eq (key : ℕ → UInt32) (x : Columns) : addKey key 0 x = addRoundKey (roundKey key 0) x := by
  apply columns_ext
  intro c
  simp only [addKey, addRoundKey, roundKey, Fin.getElem_fin, Vector.getElem_ofFn, Nat.mul_zero]

theorem passes_eq {sub mix : Columns → Columns} {key : ℕ → UInt32} {round : ℕ → Columns → Columns}
    (step : ∀ r x, round (nb * r) x = addRoundKey (roundKey key r) (mix (sub x))) (x : Columns) (count : ℕ) :
    passes round (addKey key 0 x) count = Rounds.state addRoundKey sub mix (roundKey key) x count := by
  induction count with
  | zero => rw [passes, addKey_eq, Rounds.state]
  | succ count ih => rw [passes, step, ih, Rounds.state]

theorem Aes.ecbEncrypt_eq (a : Aes) (buff : Block) :
    a.ecbEncrypt buff = store (standardEncrypt a.fkey a.Nr (load buff)) := by
  have state := passes_eq (encryptRound_eq a.fkey) (load buff) (a.Nr - 1)
  rw [entry_fbsub] at state
  simp only [Aes.ecbEncrypt, encryptLast_eq, state, entry_fbsub]
  rfl

theorem Aes.ecbDecrypt_eq (a : Aes) (buff : Block) :
    a.ecbDecrypt buff = store (standardDecrypt a.rkey a.Nr (load buff)) := by
  have state := passes_eq (decryptRound_eq a.rkey) (load buff) (a.Nr - 1)
  simp only [Aes.ecbDecrypt, decryptLast_eq, state]
  rfl

/-! Decryption after encryption. -/

theorem addRoundKey_cancel (k x : Columns) : addRoundKey k (addRoundKey k x) = x := by
  apply columns_ext
  intro c
  simp only [addRoundKey, Fin.getElem_fin, Vector.getElem_ofFn, ← UInt32.xor_assoc, UInt32.xor_self, UInt32.zero_xor]

theorem sub_back (x : Columns) : restoreRows (substituteRows x) = x := by
  apply columns_ext
  intro c
  have turned : c + 3 + 1 = c ∧ c + 2 + 2 = c ∧ c + 1 + 3 = c := by
    revert c
    decide
  simp only [restoreRows, substituteRows, invShiftRows, shiftRows, subBytes, Fin.getElem_fin, Vector.getElem_ofFn,
    Fin.eta, octet_pack_zero, octet_pack_one, octet_pack_two, octet_pack_three, ← fbsub_eq, rbsub_fbsub, turned, pack_octets]

theorem mix_back (x : Columns) : invMixColumns (mixColumns x) = x := by
  apply columns_ext
  intro c
  simp only [invMixColumns, mixColumns, Fin.getElem_fin, Vector.getElem_map, unmixColumn_mixColumn]

theorem invMixColumns_add (k x : Columns) :
    invMixColumns (addRoundKey k x) = addRoundKey (invMixColumns k) (invMixColumns x) := by
  apply columns_ext
  intro c
  simp only [invMixColumns, addRoundKey, Fin.getElem_fin, Vector.getElem_map, Vector.getElem_ofFn, unmixColumn_xor]

theorem load_store (y : Columns) : load (store y) = y := by
  apply columns_ext
  intro c
  have column (j : ℕ) (small : j < 4) : (4 * c.val + j) / 4 = c.val := by omega
  have row (j : ℕ) (small : j < 4) : (4 * c.val + j) % 4 = j := by omega
  have first_column : 4 * c.val / 4 = c.val := column 0 (by decide)
  have first_row : 4 * c.val % 4 = 0 := row 0 (by decide)
  simp only [load, store, Fin.getElem_fin, Vector.getElem_ofFn, first_column, first_row, column 1 (by decide),
    row 1 (by decide), column 2 (by decide), row 2 (by decide), column 3 (by decide), row 3 (by decide), pack_octets]

theorem store_load (buff : Block) : store (load buff) = buff := by
  apply Vector.ext
  intro j inside
  have parts := Nat.div_add_mod j 4
  have rows : j % 4 = 0 ∨ j % 4 = 1 ∨ j % 4 = 2 ∨ j % 4 = 3 := by omega
  simp only [load, store, Vector.getElem_ofFn]
  rcases rows with row | row | row | row
  · rw [row, Nat.add_zero] at parts
    simp only [row, octet_pack_zero, parts]
  · rw [row] at parts
    simp only [row, octet_pack_one, parts]
  · rw [row] at parts
    simp only [row, octet_pack_two, parts]
  · rw [row] at parts
    simp only [row, octet_pack_three, parts]

/-- The two key tables belong together. -/
structure Aes.Keyed (a : Aes) : Prop where
  rounds : 0 < a.Nr
  turned : a.rkey = decryptKey a.fkey a.Nr

theorem aesInit_keyed {a b : Aes} {mode nk : ℤ} {key : Bytes} {iv : Option Block}
    (init : aesInit a mode nk key iv = some (true, b)) : b.Keyed := by
  simp only [aesInit] at init
  split_ifs at init
  · cases init
  · obtain ⟨-, rfl⟩ := Prod.mk.inj (Option.some.inj init)
    exact ⟨Nat.add_pos_left (by decide) _, rfl⟩

theorem roundKey_first (fkey : ℕ → UInt32) (Nr : ℕ) : roundKey (decryptKey fkey Nr) 0 = roundKey fkey Nr := by
  apply columns_ext
  intro c
  have inside : c.val < nb := c.isLt
  simp only [roundKey, Fin.getElem_fin, Vector.getElem_ofFn, decryptKey, Nat.mul_zero, Nat.zero_add, if_pos inside,
    Nat.add_comm c.val]

theorem roundKey_inner {fkey : ℕ → UInt32} {Nr r : ℕ} (positive : 0 < r) (inside : r < Nr) :
    roundKey (decryptKey fkey Nr) r = invMixColumns (roundKey fkey (Nr - r)) := by
  apply columns_ext
  intro c
  have column : (nb * r + c.val) / nb = r := by unfold nb; omega
  have row : (nb * r + c.val) % nb = c.val := by unfold nb; omega
  have above : ¬ nb * r + c.val < nb := by unfold nb; omega
  have below : nb * r + c.val < nb * Nr := by unfold nb; omega
  simp only [roundKey, invMixColumns, Fin.getElem_fin, Vector.getElem_ofFn, Vector.getElem_map, decryptKey, if_neg above,
    if_pos below, column, row, invMixCol_eq]

theorem roundKey_last {fkey : ℕ → UInt32} {Nr : ℕ} (positive : 0 < Nr) :
    roundKey (decryptKey fkey Nr) Nr = roundKey fkey 0 := by
  apply columns_ext
  intro c
  have above : ¬ nb * Nr + c.val < nb := by unfold nb; omega
  simp only [roundKey, Fin.getElem_fin, Vector.getElem_ofFn, decryptKey, if_neg above,
    if_neg (Nat.not_lt.mpr (Nat.le_add_right _ _)), Nat.add_sub_cancel_left, Nat.mul_zero, Nat.zero_add]

theorem Aes.Keyed.decrypt_encrypt {a : Aes} (keyed : a.Keyed) (buff : Block) : a.ecbDecrypt (a.ecbEncrypt buff) = buff := by
  have rounds := keyed.rounds
  have first : roundKey a.rkey 0 = roundKey a.fkey a.Nr := by rw [keyed.turned, roundKey_first]
  have inner (r : ℕ) (positive : 0 < r) (inside : r < a.Nr) :
      roundKey a.rkey r = invMixColumns (roundKey a.fkey (a.Nr - r)) := by
    rw [keyed.turned, roundKey_inner positive inside]
  have last : roundKey a.rkey a.Nr = roundKey a.fkey 0 := by rw [keyed.turned, roundKey_last rounds]
  have back := Rounds.cipher_back addRoundKey_cancel sub_back mix_back invMixColumns_add rounds first inner last (load buff)
  rw [Aes.ecbDecrypt_eq, Aes.ecbEncrypt_eq, load_store, standardDecrypt, standardEncrypt, back, store_load]

instance : Finite Block := Finite.of_injective (fun (buff : Block) (j : Fin 16) => buff[j]) fun _ _ same =>
  Vector.ext fun j inside => congrFun same ⟨j, inside⟩

theorem Aes.Keyed.encrypt_decrypt {a : Aes} (keyed : a.Keyed) (buff : Block) : a.ecbEncrypt (a.ecbDecrypt buff) = buff := by
  have onto : Function.Surjective a.ecbDecrypt := fun block => ⟨a.ecbEncrypt block, keyed.decrypt_encrypt block⟩
  exact Finite.injective_iff_surjective.mpr onto (keyed.decrypt_encrypt _)

end MyTools.Miracl
