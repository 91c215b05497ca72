import MyTools.Library.Modes
import MyTools.Miracl.AesSchedule

/-! The modes of operation of `mraes.c`. A buffer has 16 octets here, of which a mode may use fewer. -/
namespace MyTools.Miracl
open Library Modes

/-- `MR_CBC` -/
def cbcMode : ℤ := 1
def cfb1 : ℤ := 2
def pcfb1 : ℤ := 10
def ofb1 : ℤ := 14

/-- The labels `MR_CFB1`, `MR_CFB2` and `MR_CFB4`. -/
def cfbModes : List ℤ := [2, 3, 5]
/-- The labels `MR_PCFB1`, `MR_PCFB2` and `MR_PCFB4`. -/
def pcfbModes : List ℤ := [10, 11, 13]
/-- The labels from `MR_OFB1` to `MR_OFB16`. -/
def ofbModes : List ℤ := [14, 15, 17, 21, 29]

/-- `bytes = a->mode - first + 1` -/
def modeBytes (mode first : ℤ) : ℕ := (mode - first + 1).toNat

/-- A `char`, which is signed, as an unsigned word. -/
def signedChar (x : UInt8) : UInt32 := if x < 128 then x.toUInt32 else 0xFFFFFF00 ||| x.toUInt32

/-- `for (j = 0; j < bytes; j++) fell_off = (fell_off << 8) | a->f[j]` -/
def fellOff (f : Block) (bytes : ℕ) : UInt32 :=
  (f.toList.take bytes).foldl (fun fell_off x => (fell_off <<< 8) ||| signedChar x) 0

/-- `for (j = 0; j < bytes; j++) buff[j] ^= st[j]` -/
def xorFirst (bytes : ℕ) (buff st : Block) : Block :=
  .ofFn fun j : Fin 16 =>
    let b := buff.toList.getD j 0
    if j.val < bytes then b ^^^ st.toList.getD j 0 else b

/-- `f[j - bytes] = f[j]` for the octets from `bytes` on, and then `f[16 - bytes + j] = fresh[j]`. -/
def shiftIn (bytes : ℕ) (f fresh : Block) : Block :=
  .ofFn fun i : Fin 16 => if room : i.val + bytes < 16 then f[i.val + bytes] else fresh.toList.getD (i.val + bytes - 16) 0

/-- `buff[j] ^ st[16 - bytes + j]` -/
def propagated (bytes : ℕ) (buff st : Block) : Block :=
  .ofFn fun j : Fin 16 => buff.toList.getD j 0 ^^^ st.toList.getD (16 - bytes + j) 0

def Aes.encrypt (a : Aes) (buff : Block) : UInt32 × Block × Aes :=
  if a.mode = ecbMode then (0, a.ecbEncrypt buff, a)
  else if a.mode = cbcMode then
    let buff := a.ecbEncrypt (xorFirst 16 buff a.f)
    (0, buff, { a with f := buff })
  else if a.mode ∈ cfbModes then
    let bytes := modeBytes a.mode cfb1
    let st := a.ecbEncrypt a.f
    let buff := xorFirst bytes buff st
    (fellOff a.f bytes, buff, { a with f := shiftIn bytes a.f buff })
  else if a.mode ∈ ofbModes then
    let f := a.ecbEncrypt a.f
    (0, xorFirst (modeBytes a.mode ofb1) buff f, { a with f := f })
  else if a.mode ∈ pcfbModes then
    let bytes := modeBytes a.mode pcfb1
    let st := a.ecbEncrypt a.f
    let buff := xorFirst bytes buff st
    (fellOff a.f bytes, buff, { a with f := shiftIn bytes a.f (propagated bytes buff st) })
  else (0, buff, a)

def Aes.decrypt (a : Aes) (buff : Block) : UInt32 × Block × Aes :=
  if a.mode = ecbMode then (0, a.ecbDecrypt buff, a)
  else if a.mode = cbcMode then (0, xorFirst 16 (a.ecbDecrypt buff) a.f, { a with f := buff })
  else if a.mode ∈ cfbModes then
    let bytes := modeBytes a.mode cfb1
    let st := a.ecbEncrypt a.f
    (fellOff a.f bytes, xorFirst bytes buff st, { a with f := shiftIn bytes a.f buff })
  else if a.mode ∈ ofbModes then
    let f := a.ecbEncrypt a.f
    (0, xorFirst (modeBytes a.mode ofb1) buff f, { a with f := f })
  else if a.mode ∈ pcfbModes then
    let bytes := modeBytes a.mode pcfb1
    let st := a.ecbEncrypt a.f
    (fellOff a.f bytes, xorFirst bytes buff st, { a with f := shiftIn bytes a.f (propagated bytes buff st) })
  else (0, buff, a)

theorem xorFirst_cancel (bytes : ℕ) (buff st : Block) : xorFirst bytes (xorFirst bytes buff st) st = buff := by
  apply Vector.ext
  intro j inside
  have octet (v : Block) : v.toList.getD j 0 = v[j] := by
    rw [List.getD_eq_getElem _ _ (by rwa [Vector.length_toList]), Vector.getElem_toList]
  simp only [xorFirst, Vector.getElem_ofFn, octet]
  split_ifs
  · rw [UInt8.xor_assoc, UInt8.xor_self, UInt8.xor_zero]
  · rfl

theorem Aes.Keyed.decrypt_step {a : Aes} (keyed : a.Keyed) (buff : Block) :
    a.decrypt (a.encrypt buff).2.1 = ((a.encrypt buff).1, buff, (a.encrypt buff).2.2) := by
  simp only [Aes.encrypt, Aes.decrypt]
  split_ifs
  · simp only [keyed.decrypt_encrypt]
  · simp only [keyed.decrypt_encrypt, xorFirst_cancel]
  · simp only [xorFirst_cancel]
  · simp only [xorFirst_cancel]
  · simp only [xorFirst_cancel]
  · rfl

theorem Aes.encrypt_keys (a : Aes) (buff : Block) : ∃ f, (a.encrypt buff).2.2 = { a with f := f } := by
  simp only [Aes.encrypt]
  split_ifs
  all_goals exact ⟨_, rfl⟩

theorem Aes.Keyed.encrypt {a : Aes} (keyed : a.Keyed) (buff : Block) : (a.encrypt buff).2.2.Keyed := by
  obtain ⟨f, same⟩ := a.encrypt_keys buff
  rw [same]
  exact ⟨keyed.rounds, keyed.turned⟩

theorem Aes.Keyed.reset {a : Aes} (keyed : a.Keyed) (mode : ℤ) (iv : Option Block) : (a.reset mode iv).Keyed :=
  ⟨keyed.rounds, keyed.turned⟩

/-! Two parties over a whole run, in which the mode and the register are set again at any time. -/

abbrev KeyedAes := {a : Aes // a.Keyed}

inductive Command
  | crypt (buff : Block)
  | reset (mode : ℤ) (iv : Option Block)

/-- The command for the other side, and what `aes_encrypt` returned. -/
def encryptStep (a : KeyedAes) : Command → (Command × UInt32) × KeyedAes
  | .crypt buff => ((.crypt (a.1.encrypt buff).2.1, (a.1.encrypt buff).1), ⟨(a.1.encrypt buff).2.2, a.2.encrypt buff⟩)
  | .reset mode iv => ((.reset mode iv, 0), ⟨a.1.reset mode iv, a.2.reset mode iv⟩)

theorem Aes.decrypt_keys (a : Aes) (buff : Block) : ∃ f, (a.decrypt buff).2.2 = { a with f := f } := by
  simp only [Aes.decrypt]
  split_ifs
  all_goals exact ⟨_, rfl⟩

theorem Aes.Keyed.decrypt {a : Aes} (keyed : a.Keyed) (buff : Block) : (a.decrypt buff).2.2.Keyed := by
  obtain ⟨f, same⟩ := a.decrypt_keys buff
  rw [same]
  exact ⟨keyed.rounds, keyed.turned⟩

def decryptStep (a : KeyedAes) : Command → (Command × UInt32) × KeyedAes
  | .crypt buff => ((.crypt (a.1.decrypt buff).2.1, (a.1.decrypt buff).1), ⟨(a.1.decrypt buff).2.2, a.2.decrypt buff⟩)
  | .reset mode iv => ((.reset mode iv, 0), ⟨a.1.reset mode iv, a.2.reset mode iv⟩)

theorem decryptStep_encryptStep (a : KeyedAes) (command : Command) :
    decryptStep a (encryptStep a command).1.1 = ((command, (encryptStep a command).1.2), (encryptStep a command).2) := by
  cases command with
  | crypt buff =>
    have step := a.2.decrypt_step buff
    have buffer : (a.1.decrypt (a.1.encrypt buff).2.1).2.1 = buff := by rw [step]
    have reported : (a.1.decrypt (a.1.encrypt buff).2.1).1 = (a.1.encrypt buff).1 := by rw [step]
    have register : (a.1.decrypt (a.1.encrypt buff).2.1).2.2 = (a.1.encrypt buff).2.2 := by rw [step]
    simp only [encryptStep, decryptStep, buffer, reported, register]
  | reset mode iv => rfl

/-- Whatever is sent in whatever modes, the other side reads it, both report the same, and they stay in step. -/
theorem decrypt_encrypt_run {a b : Aes} {mode nk : ℤ} {key : Bytes} {iv : Option Block}
    (init : aesInit a mode nk key iv = some (true, b)) (commands : List Command) :
    let start : KeyedAes := ⟨b, aesInit_keyed init⟩
    let sent := Modes.translate encryptStep start commands
    Modes.translate decryptStep start (sent.map Prod.fst) = commands.zip (sent.map Prod.snd) ∧
      after decryptStep start (sent.map Prod.fst) = after encryptStep start commands :=
  translate_mirror decryptStep_encryptStep ⟨b, aesInit_keyed init⟩ commands

theorem decrypt_encrypt_run_sevens :
    let start : KeyedAes := ⟨sevens, aesInit_keyed sevens_init⟩
    let commands : List Command := [.crypt (.replicate 16 1), .reset cbcMode (some (.replicate 16 2)), .crypt (.replicate 16 3)]
    let sent := Modes.translate encryptStep start commands
    Modes.translate decryptStep start (sent.map Prod.fst) = commands.zip (sent.map Prod.snd) :=
  (decrypt_encrypt_run sevens_init
    [.crypt (.replicate 16 1), .reset cbcMode (some (.replicate 16 2)), .crypt (.replicate 16 3)]).1

/-! The register of a mode that feeds the cipher text back. -/

def Agree (k : ℕ) (f g : Block) : Prop := ∀ i, (inside : i < 16) → 16 - k ≤ i → f[i] = g[i]

theorem agree_all {f g : Block} (agree : Agree 16 f g) : f = g := Vector.ext fun i inside => agree i inside (by omega)

theorem agree_shiftIn {k : ℕ} {f g : Block} (agree : Agree k f g) (bytes : ℕ) (fresh : Block) :
    Agree (k + bytes) (shiftIn bytes f fresh) (shiftIn bytes g fresh) := by
  intro i inside late
  simp only [shiftIn, Vector.getElem_ofFn]
  split_ifs with room
  · exact agree _ room (by omega)
  · rfl

/-- A call of `aes_decrypt`, of which the caller looks at the buffer alone. -/
def decryptBlock (a : Aes) (buff : Block) : Block × Aes := ((a.decrypt buff).2.1, (a.decrypt buff).2.2)

def encryptBlock (a : Aes) (buff : Block) : Block × Aes := ((a.encrypt buff).2.1, (a.encrypt buff).2.2)

theorem decrypt_cfb {a : Aes} (cfb : a.mode ∈ cfbModes) (buff : Block) :
    (a.decrypt buff).2.2 = { a with f := shiftIn (modeBytes a.mode cfb1) a.f buff } := by
  have other : a.mode ≠ ecbMode ∧ a.mode ≠ cbcMode := by
    constructor
    all_goals
      rintro same
      rw [same] at cfb
      revert cfb
      decide
  rw [Aes.decrypt, if_neg other.1, if_neg other.2, if_pos cfb]

theorem after_cfb {a : Aes} (cfb : a.mode ∈ cfbModes) (g : Block) (cs : List Block) {k : ℕ} (agree : Agree k a.f g) :
    ∃ f f', after decryptBlock a cs = { a with f := f } ∧ after decryptBlock { a with f := g } cs = { a with f := f' } ∧
      Agree (k + modeBytes a.mode cfb1 * cs.length) f f' := by
  induction cs generalizing a g k with
  | nil => exact ⟨a.f, g, rfl, rfl, agree⟩
  | cons c cs ih =>
    have next : (decryptBlock a c).2 = { a with f := shiftIn (modeBytes a.mode cfb1) a.f c } := decrypt_cfb cfb c
    have next' : (decryptBlock { a with f := g } c).2 = { a with f := shiftIn (modeBytes a.mode cfb1) g c } :=
      decrypt_cfb (a := { a with f := g }) cfb c
    have moved := agree_shiftIn agree (modeBytes a.mode cfb1) c
    obtain ⟨f, f', first, second, same⟩ := ih (a := { a with f := shiftIn (modeBytes a.mode cfb1) a.f c }) cfb
      (shiftIn (modeBytes a.mode cfb1) g c) moved
    refine ⟨f, f', ?_, ?_, ?_⟩
    · rw [after_cons, next, first]
    · rw [after_cons, next', second]
    · rw [List.length_cons, Nat.mul_succ, Nat.add_comm _ (modeBytes a.mode cfb1), ← Nat.add_assoc]
      exact same

theorem decryptBlock_encryptBlock {a : Aes} (keyed : a.Keyed) (buff : Block) :
    decryptBlock a (encryptBlock a buff).1 = (buff, (encryptBlock a buff).2) := by
  rw [decryptBlock, encryptBlock, keyed.decrypt_step]

theorem Aes.Keyed.encryptBlocks {a : Aes} (keyed : a.Keyed) (ps : List Block) : (after encryptBlock a ps).Keyed := by
  induction ps generalizing a with
  | nil => exact keyed
  | cons p ps ih => exact ih (keyed.encrypt p)

theorem decryptBlocks_encryptBlocks {a : Aes} (keyed : a.Keyed) (ps : List Block) :
    Modes.translate decryptBlock a (Modes.translate encryptBlock a ps) = ps ∧
      after decryptBlock a (Modes.translate encryptBlock a ps) = after encryptBlock a ps := by
  induction ps generalizing a with
  | nil =>
    rw [Modes.translate, Modes.translate, after_nil, after_nil]
    exact ⟨rfl, rfl⟩
  | cons p ps ih =>
    have step := decryptBlock_encryptBlock keyed p
    obtain ⟨read, state⟩ := ih (a := (encryptBlock a p).2) (keyed.encrypt p)
    constructor
    · rw [Modes.translate, Modes.translate, step, read]
    · rw [Modes.translate, after_cons, step, state, after_cons]

/-- A receiver that starts from any register reads all that is sent behind 16 octets. -/
theorem cfb_synchronizes {a : Aes} (keyed : a.Keyed) (cfb : a.mode ∈ cfbModes) (g : Block) (ps qs : List Block)
    (enough : 16 ≤ modeBytes a.mode cfb1 * ps.length) :
    (Modes.translate decryptBlock { a with f := g } (Modes.translate encryptBlock a (ps ++ qs))).drop ps.length = qs := by
  have start : Agree 0 a.f g := fun i inside late => absurd inside (by omega)
  obtain ⟨f, f', first, second, agree⟩ := after_cfb cfb g (Modes.translate encryptBlock a ps) start
  have same : f = f' := agree_all fun i inside late => agree i inside (by rw [length_translate]; omega)
  have state : after decryptBlock { a with f := g } (Modes.translate encryptBlock a ps) = after encryptBlock a ps := by
    rw [second, ← same, ← first, (decryptBlocks_encryptBlocks keyed ps).2]
  have behind : (Modes.translate decryptBlock { a with f := g } (Modes.translate encryptBlock a ps)).length = ps.length := by
    rw [length_translate, length_translate]
  rw [translate_append, translate_append, state, (decryptBlocks_encryptBlocks (keyed.encryptBlocks ps) qs).1, ← behind,
    List.drop_left]

theorem cfb_synchronizes_sevens : (Modes.translate decryptBlock { sevens with f := .replicate 16 9 }
    (Modes.translate encryptBlock sevens (List.replicate 16 (.replicate 16 4) ++ [.replicate 16 5]))).drop 16 =
      [.replicate 16 5] :=
  cfb_synchronizes (aesInit_keyed sevens_init) (by decide) (.replicate 16 9) (List.replicate 16 (.replicate 16 4))
    [.replicate 16 5] (by decide)

end MyTools.Miracl
