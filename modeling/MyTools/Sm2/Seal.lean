import MyTools.Miracl.AesModes
import MyTools.Sm2.Staged

/-! `enrand` and `derand` with the cipher they call: they are the two that the staged routines are
modelled with. -/
namespace MyTools.Sm2
open Library

def enkey : Bytes := [
  0xB1, 0x6B, 0xA0, 0xDA, 0x27, 0xC5, 0x24, 0x9A, 0xF6, 0x1D, 0x6E, 0x6E, 0x12, 0xD1, 0x59, 0xA5,
  0xB6, 0x74, 0x64, 0x34, 0xEB, 0xD6, 0x1B, 0x62, 0xEA, 0xEB, 0xC3, 0xCC, 0x31, 0x5E, 0x42, 0x1D]

/-- `memcpy(iv, enkey, 16)` -/
def enkeyIv : Miracl.Block := ⟨(enkey.take 16).toArray, by decide⟩

theorem size_block {r : Bytes} (room : 16 ≤ r.length) : (r.take 16).toArray.size = 16 := by simp [room]

/-- The loop over `i`, with `count` passes left. -/
def sealBlocks (crypt : Miracl.Aes → Miracl.Block → UInt32 × Miracl.Block × Miracl.Aes) :
    (count : ℕ) → (a : Miracl.Aes) → (r : Bytes) → Option Bytes
  | 0, _, r => some r
  | count + 1, a, r =>
    if room : 16 ≤ r.length then do
      let (_, buff, a) := crypt a ⟨(r.take 16).toArray, size_block room⟩
      return buff.toList ++ (← sealBlocks crypt count a (r.drop 16))
    else none

/-- What the two have in common; `a` is not initialised before. -/
def sealRun (crypt : Miracl.Aes → Miracl.Block → UInt32 × Miracl.Block × Miracl.Aes) (a : Miracl.Aes) (r : Bytes)
    (rlen : ℤ) : Option Bytes := do
  let (ready, a) ← Miracl.aesInit a Miracl.ecbMode 16 (enkey.take 16) (some enkeyIv)
  if ready then
    if 16 * blockCount rlen < 2 ^ 31 then sealBlocks crypt (blockCount rlen) a r else none
  else return r

def enrandRun (a : Miracl.Aes) (r : Bytes) (rlen : ℤ) : Option Bytes := sealRun Miracl.Aes.encrypt a r rlen

def derandRun (a : Miracl.Aes) (r : Bytes) (rlen : ℤ) : Option Bytes := sealRun Miracl.Aes.decrypt a r rlen

def sealContext (a : Miracl.Aes) : Miracl.Aes :=
  ((Miracl.aesInit a Miracl.ecbMode 16 (enkey.take 16) (some enkeyIv)).getD (false, a)).2

theorem sealContext_init (a : Miracl.Aes) :
    Miracl.aesInit a Miracl.ecbMode 16 (enkey.take 16) (some enkeyIv) = some (true, sealContext a) := rfl

theorem sealContext_mode (a : Miracl.Aes) : (sealContext a).mode = Miracl.ecbMode := rfl

def enkeyAes (a : Miracl.Aes) : Aes where
  encrypt := (sealContext a).ecbEncrypt
  decrypt := (sealContext a).ecbDecrypt
  decrypt_encrypt := (Miracl.aesInit_keyed (sealContext_init a)).decrypt_encrypt

theorem sealBlocks_eq {crypt : Miracl.Aes → Miracl.Block → UInt32 × Miracl.Block × Miracl.Aes} {a : Miracl.Aes}
    {f : Miracl.Block → Miracl.Block} (ecb : ∀ buff, crypt a buff = (0, f buff, a)) (count : ℕ) (r : Bytes) :
    sealBlocks crypt count a r = cryptBlocks f count r := by
  induction count generalizing r with
  | zero => rfl
  | succ count ih =>
    rw [sealBlocks, cryptBlocks]
    split
    · simp only [ecb, ih]
    · rfl

theorem sealRun_eq {crypt : Miracl.Aes → Miracl.Block → UInt32 × Miracl.Block × Miracl.Aes} {a : Miracl.Aes}
    {f : Miracl.Block → Miracl.Block} (ecb : ∀ buff, crypt (sealContext a) buff = (0, f buff, sealContext a)) (r : Bytes)
    (rlen : ℤ) : sealRun crypt a r rlen = cryptLoop f r rlen := by
  simp only [sealRun, sealContext_init, Option.bind_eq_bind, Option.bind_some, if_true, sealBlocks_eq ecb]
  rfl

theorem enrandRun_eq (a : Miracl.Aes) (r : Bytes) (rlen : ℤ) : enrandRun a r rlen = enrand (enkeyAes a) r rlen := by
  have ecb (buff : Miracl.Block) : (sealContext a).encrypt buff = (0, (sealContext a).ecbEncrypt buff, sealContext a) := by
    rw [Miracl.Aes.encrypt, if_pos (sealContext_mode a)]
  exact sealRun_eq ecb r rlen

theorem derandRun_eq (a : Miracl.Aes) (r : Bytes) (rlen : ℤ) : derandRun a r rlen = derand (enkeyAes a) r rlen := by
  have ecb (buff : Miracl.Block) : (sealContext a).decrypt buff = (0, (sealContext a).ecbDecrypt buff, sealContext a) := by
    rw [Miracl.Aes.decrypt, if_pos (sealContext_mode a)]
  exact sealRun_eq ecb r rlen

theorem cryptBlocks_frame {f : Miracl.Block → Miracl.Block} {count : ℕ} {r s : Bytes} (run : cryptBlocks f count r = some s) :
    16 * count ≤ r.length ∧ s.length = r.length ∧ s.drop (16 * count) = r.drop (16 * count) := by
  induction count generalizing r s with
  | zero =>
    obtain rfl := Option.some.inj run
    exact ⟨Nat.zero_le _, rfl, rfl⟩
  | succ count ih =>
    rw [cryptBlocks] at run
    split at run
    · next room =>
      obtain ⟨rest, rest_run, same⟩ := Option.bind_eq_some_iff.mp run
      obtain rfl := Option.some.inj same
      obtain ⟨enough, length, tail⟩ := ih rest_run
      rw [List.length_drop] at enough length
      have whole (block : Miracl.Block) : block.toList.length = 16 := Vector.length_toList
      refine ⟨by omega, by rw [List.length_append, whole, length]; omega, ?_⟩
      rw [Nat.mul_succ, Nat.add_comm, ← List.drop_drop, ← List.drop_drop, List.drop_left' (whole _), tail]
    · cases run

/-- Whatever was in the contexts before, the second undoes the first, and nothing behind the blocks is touched. This
is so when the blocks lie inside of the array and the loop ends before `i` overflows. -/
theorem derandRun_enrandRun (a a' : Miracl.Aes) (r : Bytes) (rlen : ℤ) :
    if 16 * blockCount rlen ≤ r.length ∧ 16 * blockCount rlen < 2 ^ 31 then
      ∃ s, enrandRun a r rlen = some s ∧ derandRun a' s rlen = some r ∧ s.length = r.length ∧
        s.drop (16 * blockCount rlen) = r.drop (16 * blockCount rlen)
    else enrandRun a r rlen = none := by
  have same : enkeyAes a' = enkeyAes a := rfl
  rw [enrandRun_eq, enrand]
  by_cases fits : 16 * blockCount rlen < 2 ^ 31
  · rw [cryptLoop_run fits]
    split
    · next room =>
      obtain ⟨s, run, -⟩ := cryptBlocks_run (enkeyAes a).encrypt (blockCount rlen) room.1
      obtain ⟨-, length, tail⟩ := cryptBlocks_frame run
      refine ⟨s, run, ?_, length, tail⟩
      rw [derandRun_eq, same, derand, cryptLoop_run fits]
      exact cryptBlocks_decrypt (enkeyAes a) (blockCount rlen) run
    · next short =>
      apply Option.eq_none_iff_forall_ne_some.mpr
      intro s run
      exact short ⟨(cryptBlocks_frame run).1, fits⟩
  · rw [if_neg fun both => fits both.2]
    exact cryptLoop_overflow fits _ r

end MyTools.Sm2
