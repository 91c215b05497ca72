import MyTools.Library.Buffer
import MyTools.Sm3.Standard

/-! The second implementation of the hash function, `SM3Init`, `SM3Update` and
`SM3Final`, and its agreement with the one-shot `sm3` of the first. -/
namespace MyTools.SocketRandom
open Library Blocks Buffer
open Sm3 (Registers)

/-- The round constants are signed. -/
def T : List Int32 := List.replicate 16 0x79cc4519 ++ List.replicate 48 0x7a879d8a

def FF1 (x y z : UInt32) : UInt32 := x ^^^ y ^^^ z
def FF2 (x y z : UInt32) : UInt32 := (x &&& y) ||| (x &&& z) ||| (y &&& z)
def GG1 (x y z : UInt32) : UInt32 := x ^^^ y ^^^ z
def GG2 (x y z : UInt32) : UInt32 := (x &&& y) ||| (~~~x &&& z)

/-- Shift counts are taken modulo 32, as on the target. -/
def cyclicLEFT (x n : UInt32) : UInt32 := (x <<< n) ||| (x >>> (32 - n))

/-- The same macro at a signed word. -/
def cyclicLEFTInt (x n : Int32) : Int32 := (x <<< n) ||| (x >>> (32 - n))

def P0 (x : UInt32) : UInt32 := x ^^^ cyclicLEFT x 9 ^^^ cyclicLEFT x 17
def P1 (x : UInt32) : UInt32 := x ^^^ cyclicLEFT x 15 ^^^ cyclicLEFT x 23

def encode (input : List UInt32) : Bytes := input.flatMap fun (x : UInt32) =>
  [((x >>> 24) &&& 0xff).toUInt8, ((x >>> 16) &&& 0xff).toUInt8, ((x >>> 8) &&& 0xff).toUInt8, (x &&& 0xff).toUInt8]

def decode : Bytes → List UInt32
  | b₀ :: b₁ :: b₂ :: b₃ :: rest =>
    (b₃.toUInt32 ||| (b₂.toUInt32 <<< 8) ||| (b₁.toUInt32 <<< 16) ||| (b₀.toUInt32 <<< 24)) :: decode rest
  | _ => []

def extended (w0 : List UInt32) : UInt32 :=
  let i := w0.length
  let w := P1 (w0.getD (i - 16) 0 ^^^ w0.getD (i - 9) 0 ^^^ cyclicLEFT (w0.getD (i - 3) 0) 15)
  w ^^^ cyclicLEFT (w0.getD (i - 13) 0) 7 ^^^ w0.getD (i - 6) 0

/-- `W0` after some steps of the second loop; the first copies the words of the block. -/
def messageExtend (buffer : List UInt32) : (steps : ℕ) → List UInt32
  | 0 => buffer
  | steps + 1 => messageExtend buffer steps ++ [extended (messageExtend buffer steps)]

/-- One pass of the loop over `i`; `W1[i]` is `W0[i] ^ W0[i + 4]`. -/
def transformStep (w0 : List UInt32) (i : ℕ) (r : Registers) : Registers :=
  let ss := cyclicLEFT r.a 12 + r.e + (cyclicLEFTInt (T.getD i 0) (Int32.ofNat i)).toUInt32
  let ss1 := cyclicLEFT ss 7
  let ss2 := ss1 ^^^ cyclicLEFT r.a 12
  let w1 := w0.getD i 0 ^^^ w0.getD (i + 4) 0
  let tt1 := (if i ≤ 15 then FF1 r.a r.b r.c else FF2 r.a r.b r.c) + r.d + ss2 + w1
  let tt2 := (if i ≤ 15 then GG1 r.e r.f r.g else GG2 r.e r.f r.g) + r.h + ss1 + w0.getD i 0
  ⟨tt1, r.a, cyclicLEFT r.b 9, r.c, P0 tt2, r.e, cyclicLEFT r.f 19, r.g⟩

def transformSteps (w0 : List UInt32) : (count : ℕ) → Registers → Registers
  | 0, r => r
  | i + 1, r => transformStep w0 i (transformSteps w0 i r)

def sm3Transform (state : Registers) (buffer : Bytes) : Registers :=
  let r := transformSteps (messageExtend (decode buffer) 52) 64 state
  ⟨state.a ^^^ r.a, state.b ^^^ r.b, state.c ^^^ r.c, state.d ^^^ r.d, state.e ^^^ r.e, state.f ^^^ r.f,
    state.g ^^^ r.g, state.h ^^^ r.h⟩

/-- The context; `count` is the number of bits, high word first. -/
structure Sm3Ctx where
  state : Registers
  count0 : UInt32
  count1 : UInt32
  buffer : Vector UInt8 64

def sm3Init (context : Sm3Ctx) : Sm3Ctx :=
  { context with
    count0 := 0
    count1 := 0
    state := ⟨0x7380166f, 0x4914b2b9, 0x172442d7, 0xda8a0600, 0xa96f30bc, 0x163138aa, 0xe38dee4d, 0xb0fb0e4e⟩ }

/-- The index of the loop takes 2^26 values: a loop that makes more passes makes them forever. -/
def passes : ℕ := 2 ^ 26 + 1

/-- `for (i = partLen; i + 63 < inputLen; i += 64)`, with the final value of `i`. -/
def sm3UpdateBlocks (state : Registers) (input : Bytes) (inputLen partLen : UInt32) : Option (UInt32 × Registers) :=
  Loop.whileDo (fun (i, _) => some (decide (i + 63 < inputLen)))
    (fun (i, state) => do return (i + 64, sm3Transform state (← Bytes.read (input.drop i.toNat) 64))) passes
    (partLen, state)

def sm3Update (context : Sm3Ctx) (input : Bytes) (inputLen : UInt32) : Option Sm3Ctx := do
  let index := (context.count1 >>> 3) &&& 0x3F
  let count1 := context.count1 + (inputLen <<< 3)
  let count0 := if count1 < inputLen <<< 3 then context.count0 + 1 else context.count0
  let count0 := count0 + (inputLen >>> 29)
  let partLen := 64 - index
  if partLen ≤ inputLen then do
    let buffer ← copy context.buffer index.toNat input partLen.toNat
    let (i, state) ← sm3UpdateBlocks (sm3Transform context.state buffer.toList) input inputLen partLen
    let buffer ← copy buffer 0 (input.drop i.toNat) (inputLen - i).toNat
    return ⟨state, count0, count1, buffer⟩
  else do
    let buffer ← copy context.buffer index.toNat input inputLen.toNat
    return ⟨context.state, count0, count1, buffer⟩

def PADDING : Bytes := 0x80 :: List.replicate 63 0

def zeroized : Sm3Ctx := ⟨⟨0, 0, 0, 0, 0, 0, 0, 0⟩, 0, 0, Vector.replicate 64 0⟩

/-- The digest and what is left of the context. -/
def sm3Final (context : Sm3Ctx) : Option (Vector UInt8 32 × Sm3Ctx) := do
  let bits := encode [context.count0, context.count1]
  let index := (context.count1 >>> 3) &&& 0x3f
  let padLen := if index < 56 then 56 - index else 120 - index
  let context ← sm3Update context PADDING padLen
  let context ← sm3Update context bits 8
  return (⟨(encode context.state.words).toArray, by simp [encode, Registers.words]⟩, zeroized)

def sm3Chunks (context : Sm3Ctx) (chunks : List Bytes) : Option (Vector UInt8 32) := do
  let context ← chunks.foldlM (fun context chunk => sm3Update context chunk (UInt32.ofNat chunk.length)) (sm3Init context)
  let (digest, _) ← sm3Final context
  return digest

/-! The two compression functions agree. -/

theorem cyclicLEFT_eq (x n : UInt32) (small : n &&& 31 = n) : cyclicLEFT x n = Sm3.rotl x n := by
  rw [cyclicLEFT, Sm3.rotl, small]

private theorem or_reverse (a b c d : UInt32) : d ||| c ||| b ||| a = a ||| b ||| c ||| d := by ac_rfl

theorem decode_eq (input : Bytes) : decode input = Sm3.blockWords input := by
  induction input using decode.induct with
  | case1 b₀ b₁ b₂ b₃ rest ih =>
    rw [decode, Sm3.blockWords, ih, or_reverse]
  | case2 input short =>
    rw [decode.eq_2 input short, Sm3.blockWords.eq_2 input short]

theorem extended_eq (w0 : List UInt32) : extended w0 = Sm3.nextWord w0 := by
  simp only [extended, Sm3.nextWord, P1, cyclicLEFT_eq _ 15 rfl, cyclicLEFT_eq _ 23 rfl, cyclicLEFT_eq _ 7 rfl]
  ac_rfl

theorem messageExtend_eq (buffer : List UInt32) (steps : ℕ) : messageExtend buffer steps = Sm3.sm3Ms buffer steps := by
  induction steps with
  | zero => rfl
  | succ steps ih => rw [messageExtend, Sm3.sm3Ms, ih, extended_eq]

theorem cyclicLEFTInt_eq : ∀ i < 64, (cyclicLEFTInt (T.getD i 0) (Int32.ofNat i)).toUInt32 =
    Sm3.rotl (if i < 16 then 0x79CC4519 else 0x7A879D8A) (UInt32.ofNat i) := by decide +kernel

theorem transformSteps_eq (w0 : List UInt32) {count : ℕ} (inside : count ≤ 64) (r : Registers) :
    transformSteps w0 count r = Sm3.sm3Rounds w0 count r := by
  induction count with
  | zero => rfl
  | succ i ih =>
    rw [transformSteps, ih (by omega), Sm3.sm3Rounds, transformStep, cyclicLEFTInt_eq i (by omega)]
    simp only [cyclicLEFT_eq _ 12 rfl, cyclicLEFT_eq _ 7 rfl, cyclicLEFT_eq _ 9 rfl, cyclicLEFT_eq _ 19 rfl, P0,
      cyclicLEFT_eq _ 17 rfl, ← Nat.lt_succ_iff]
    split <;> rfl

theorem sm3Transform_eq (state : Registers) (buffer : Bytes) : sm3Transform state buffer = Sm3.sm3Cf state buffer := by
  rw [sm3Transform, Sm3.sm3Cf, transformSteps_eq _ le_rfl, messageExtend_eq, decode_eq]

/-! The context follows the message. -/

/-- The whole blocks of the message are compressed, the rest is in `buffer`, and
`count` is its length in bits. -/
structure Received (message : Bytes) (context : Sm3Ctx) : Prop where
  holds : Holds Sm3.sm3Cf 64 Registers.initial message context.state context.buffer.toList
  count : context.count0.toNat * 2 ^ 32 + context.count1.toNat = 8 * message.length

theorem received_init (context : Sm3Ctx) : Received [] (sm3Init context) := ⟨Holds.initial (by decide) _ _, by simp [sm3Init]⟩

theorem Received.index {message : Bytes} {context : Sm3Ctx} (received : Received message context) :
    ((context.count1 >>> 3) &&& 0x3F).toNat = message.length % 64 := by
  have count := received.count
  have shift : (context.count1 >>> 3).toNat = context.count1.toNat / 2 ^ 3 := Sm3.toNat_shiftRight (show 3 < 32 by decide) _
  have mask : ((context.count1 >>> 3) &&& 0x3F).toNat = (context.count1 >>> 3).toNat % 64 := Sm3.toNat_and_63 _
  rw [mask, shift]
  omega

private theorem carried {c₀ c₁ high low length n : ℕ} (count : c₀ * 2 ^ 32 + c₁ = 8 * length)
    (bits : high * 2 ^ 32 + low = 8 * n) (fits : length + n < 2 ^ 61) :
    ((c₀ + (c₁ + low) / 2 ^ 32) % 2 ^ 32 + high) % 2 ^ 32 * 2 ^ 32 + (c₁ + low) % 2 ^ 32 = 8 * (length + n) := by
  have parts := Nat.div_add_mod (c₁ + low) (2 ^ 32)
  generalize (c₁ + low) / 2 ^ 32 = carry at *
  generalize (c₁ + low) % 2 ^ 32 = rest at *
  have total : (c₀ + carry + high) * 2 ^ 32 + rest = 8 * (length + n) := by linarith
  have small : c₀ + carry + high < 2 ^ 32 := by
    generalize c₀ + carry + high = word at total
    omega
  rw [Nat.mod_add_mod, Nat.mod_eq_of_lt small, total]

theorem count_run {count0 count1 n : UInt32} {length : ℕ} (count : count0.toNat * 2 ^ 32 + count1.toNat = 8 * length)
    (fits : length + n.toNat < 2 ^ 61) :
    ((if count1 + (n <<< 3) < n <<< 3 then count0 + 1 else count0) + (n >>> 29)).toNat * 2 ^ 32 +
      (count1 + (n <<< 3)).toNat = 8 * (length + n.toNat) := by
  have high : (n >>> 29).toNat = n.toNat / 2 ^ 29 := Sm3.toNat_shiftRight (show 29 < 32 by decide) _
  have low : (n <<< 3).toNat = n.toNat * 2 ^ 3 % 2 ^ 32 := by
    rw [UInt32.toNat_shiftLeft, Nat.shiftLeft_eq]; rfl
  have bits : (n >>> 29).toNat * 2 ^ 32 + (n <<< 3).toNat = 8 * n.toNat := by
    have quotient : n.toNat * 2 ^ 3 / 2 ^ 32 = n.toNat / 2 ^ 29 := Nat.mul_div_mul_right n.toNat (2 ^ 29) (by decide)
    have parts := Nat.div_add_mod (n.toNat * 2 ^ 3) (2 ^ 32)
    rw [high, low, ← quotient]
    linarith
  have small₁ := count1.toNat_lt
  have small_low := (n <<< 3).toNat_lt
  have one : (1 : UInt32).toNat = 1 := rfl
  have carry : (if count1 + (n <<< 3) < n <<< 3 then count0 + 1 else count0).toNat =
      (count0.toNat + (count1.toNat + (n <<< 3).toNat) / 2 ^ 32) % 2 ^ 32 := by
    have small₀ := count0.toNat_lt
    split
    all_goals
      rename_i wrapped
      rw [UInt32.lt_iff_toNat_lt, UInt32.toNat_add] at wrapped
    · rw [UInt32.toNat_add, one]
      omega
    · omega
  rw [UInt32.toNat_add, UInt32.toNat_add, carry]
  exact carried count bits fits

/-- The bound of the loop does not wrap while the position in the block and the chunk together stay below 2^32. -/
theorem sm3UpdateBlocks_run (state : Registers) {input : Bytes} {n p : UInt32} (readable : n.toNat ≤ input.length)
    (reaches : p.toNat ≤ n.toNat) (inside : 0 < p.toNat ∧ p.toNat ≤ 64) (bound : 64 - p.toNat + n.toNat < 2 ^ 32) :
    ∃ i, sm3UpdateBlocks state input n p = some (i, absorb Sm3.sm3Cf 64 state ((input.take n.toNat).drop p.toNat)) ∧
      i.toNat = p.toNat + 64 * ((n.toNat - p.toNat) / 64) := by
  have chunk_length : ((input.take n.toNat).drop p.toNat).length = n.toNat - p.toNat := by
    rw [List.length_drop, List.length_take, Nat.min_eq_left readable]
  let invariant (s : UInt32 × Registers) : Prop := ∃ k, s.1.toNat = p.toNat + 64 * k ∧ s.1.toNat ≤ n.toNat ∧
    s.2 = fold Sm3.sm3Cf 64 ((input.take n.toNat).drop p.toNat) k state
  have start : invariant (p, state) := ⟨0, by simp, reaches, rfl⟩
  have next (i : UInt32) (k : ℕ) (at_i : i.toNat = p.toNat + 64 * k) (below : i.toNat ≤ n.toNat) :
      (i + 63).toNat = i.toNat + 63 := by
    rw [UInt32.toNat_add]
    exact Nat.mod_eq_of_lt (show i.toNat + 63 < 2 ^ 32 by omega)
  have enough : (n.toNat - p.toNat) / 64 < passes := by
    have := n.toNat_lt
    unfold passes
    omega
  have step (s : UInt32 × Registers) (holds : invariant s) : some (decide (s.1 + 63 < n)) = some false ∨
      some (decide (s.1 + 63 < n)) = some true ∧ ∃ s',
        (do return (s.1 + 64, sm3Transform s.2 (← Bytes.read (input.drop s.1.toNat) 64))) = some s' ∧
          invariant s' ∧ (n.toNat - s'.1.toNat) / 64 < (n.toNat - s.1.toNat) / 64 := by
    obtain ⟨i, state'⟩ := s
    obtain ⟨k, at_i, below, folded⟩ := holds
    dsimp only at at_i below folded ⊢
    by_cases more : i + 63 < n
    · refine .inr ⟨congrArg some (decide_eq_true more), ?_⟩
      rw [UInt32.lt_iff_toNat_lt, next i k at_i below] at more
      have after : (i + 64).toNat = i.toNat + 64 := by
        rw [UInt32.toNat_add]
        exact Nat.mod_eq_of_lt (show i.toNat + 64 < 2 ^ 32 by have := n.toNat_lt; omega)
      have block : Bytes.read (input.drop i.toNat) 64 =
          some ((((input.take n.toNat).drop p.toNat).drop (64 * k)).take 64) := by
        rw [Bytes.read_of_le (by rw [List.length_drop]; omega), List.drop_drop, ← at_i, List.drop_take, List.take_take,
          Nat.min_eq_left (by omega)]
      refine ⟨_, by rw [block]; rfl, ⟨k + 1, ?_, ?_, ?_⟩, ?_⟩
      all_goals dsimp only
      · rw [after]; omega
      · rw [after]; omega
      · rw [fold, ← folded, sm3Transform_eq]
      · rw [after]; omega
    · exact .inl (congrArg some (decide_eq_false more))
  obtain ⟨⟨i, state'⟩, run, ⟨k, at_i, below, folded⟩, left⟩ := Loop.whileDo_rule invariant _ start enough step
  dsimp only at at_i below folded left
  have done : ¬ i + 63 < n := of_decide_eq_false (Option.some.inj left)
  rw [UInt32.lt_iff_toNat_lt, next i k at_i below] at done
  have count : k = (n.toNat - p.toNat) / 64 := by omega
  subst count
  refine ⟨i, run.trans ?_, at_i⟩
  rw [folded, absorb, chunk_length]

theorem received_update {message : Bytes} {context : Sm3Ctx} (received : Received message context) (input : Bytes)
    (n : UInt32) (readable : n.toNat ≤ input.length) (bound : message.length % 64 + n.toNat < 2 ^ 32)
    (fits : message.length + n.toNat < 2 ^ 61) :
    ∃ context', sm3Update context input n = some context' ∧ Received (message ++ input.take n.toNat) context' := by
  have at_index := received.index
  have counted := count_run received.count fits
  have position := Nat.mod_lt message.length (show 64 > 0 by decide)
  have length : (input.take n.toNat).length = n.toNat := by rw [List.length_take, Nat.min_eq_left readable]
  have total : 8 * (message.length + n.toNat) = 8 * (message ++ input.take n.toNat).length := by
    rw [List.length_append, length]
  rw [total] at counted
  obtain ⟨holds, count⟩ := received
  simp only [sm3Update]
  generalize (context.count1 >>> 3) &&& 0x3F = index at *
  have part : (64 - index).toNat = 64 - message.length % 64 := by
    rw [UInt32.toNat_sub_of_le _ _ (UInt32.le_iff_toNat_le.mpr (by rw [at_index]; exact position.le)), at_index]
    rfl
  generalize 64 - index = partLen at *
  rw [at_index]
  by_cases full : partLen ≤ n
  · -- the buffer is full: the blocks of the chunk follow, its rest goes to the front of the buffer
    rw [if_pos full]
    rw [UInt32.le_iff_toNat_le] at full
    obtain ⟨buffer, copied, contents⟩ := copy_run context.buffer (message.length % 64) input partLen.toNat (by omega)
      (by omega)
    have block : buffer.toList = context.buffer.toList.take (message.length % 64) ++
        (input.take n.toNat).take (64 - message.length % 64) := by
      rw [contents, List.drop_of_length_le (by simp; omega), List.append_nil, List.take_take, part, Nat.min_eq_left]
      omega
    obtain ⟨i, run, at_i⟩ := sm3UpdateBlocks_run (sm3Transform context.state buffer.toList) readable full (by omega)
      (by omega)
    have left : (n - i).toNat = (n.toNat - (64 - message.length % 64)) % 64 := by
      rw [UInt32.toNat_sub_of_le _ _ (UInt32.le_iff_toNat_le.mpr (by omega)), at_i, part]
      omega
    obtain ⟨buffer', copied', contents'⟩ := copy_run buffer 0 (input.drop i.toNat) (n - i).toNat (by omega)
      (by rw [List.length_drop]; omega)
    simp only [copied, run, copied', Option.bind_eq_bind, Option.bind_some]
    refine ⟨_, rfl, ?_, counted⟩
    rw [part, sm3Transform_eq, block]
    refine holds.long (by decide) (by omega) (by omega) ?_
    rw [length, contents', ← left, List.take_zero, List.nil_append, List.take_left' (by simp; omega), residue,
      List.length_drop, length, List.drop_drop, ← part, ← at_i, List.drop_take]
    congr 1
    rw [left, at_i, part]
    omega
  · rw [if_neg full]
    rw [UInt32.le_iff_toNat_le] at full
    obtain ⟨buffer, copied, contents⟩ := copy_run context.buffer (message.length % 64) input n.toNat (by omega) readable
    rw [copied]
    refine ⟨_, rfl, holds.short (by omega) ?_, counted⟩
    rw [length, contents, List.take_left' (by simp; omega)]

theorem received_chunks {message : Bytes} {context : Sm3Ctx} (received : Received message context)
    (chunks : List Bytes) (fits : (message ++ chunks.flatten).length < 2 ^ 32) :
    ∃ context', chunks.foldlM (fun context chunk => sm3Update context chunk (UInt32.ofNat chunk.length)) context =
      some context' ∧ Received (message ++ chunks.flatten) context' := by
  induction chunks generalizing message context with
  | nil => exact ⟨context, rfl, by simpa using received⟩
  | cons chunk chunks ih =>
    rw [List.flatten_cons, ← List.append_assoc] at fits ⊢
    have small : message.length + chunk.length < 2 ^ 32 := by
      simp only [List.length_append] at fits
      omega
    have length : (UInt32.ofNat chunk.length).toNat = chunk.length := UInt32.toNat_ofNat_of_lt' (show chunk.length < 2 ^ 32 by omega)
    have part := Nat.mod_le message.length 64
    obtain ⟨middle, first, received⟩ := received_update received chunk _ length.le (by omega) (by omega)
    rw [length, List.take_length] at received
    obtain ⟨context', rest, received⟩ := ih received fits
    exact ⟨context', by rw [List.foldlM_cons, first]; exact rest, received⟩

theorem encode_eq (words : List UInt32) : encode words = words.flatMap Sm3.bigEndian := by
  have octet (x : UInt32) : (x &&& 0xff).toUInt8 = x.toUInt8 := by
    apply UInt8.toNat_inj.mp
    rw [UInt32.toNat_toUInt8, UInt32.toNat_toUInt8, UInt32.toNat_and]
    have mask : x.toNat &&& (0xff : UInt32).toNat = x.toNat % 2 ^ 8 := Nat.and_two_pow_sub_one_eq_mod x.toNat 8
    rw [mask, Nat.mod_mod]
  simp only [encode, octet]
  rfl

theorem sm3Final_run {message : Bytes} {context : Sm3Ctx} (received : Received message context)
    (fits : message.length < 2 ^ 60) : sm3Final context = some (Sm3.digest message, zeroized) := by
  have at_index := received.index
  have position := Nat.mod_lt message.length (show 64 > 0 by decide)
  have bits : encode [context.count0, context.count1] = Bytes.ofNat 8 (8 * message.length) := by
    rw [encode_eq, ← received.count, ← Sm3.bigEndian_pair]
    simp
  simp only [sm3Final, bits]
  generalize (context.count1 >>> 3) &&& 0x3f = index at *
  have length_eq : (if index < 56 then 56 - index else 120 - index).toNat = (119 - message.length % 64) % 64 + 1 := by
    have constants : (56 : UInt32).toNat = 56 ∧ (120 : UInt32).toNat = 120 := ⟨rfl, rfl⟩
    split
    all_goals
      rename_i few
      rw [UInt32.lt_iff_toNat_lt, constants.1, at_index] at few
      rw [UInt32.toNat_sub_of_le _ _ (UInt32.le_iff_toNat_le.mpr (by omega)), at_index]
      omega
  generalize (if index < 56 then 56 - index else 120 - index) = padLen at *
  have zeros : PADDING.take padLen.toNat = 0x80 :: List.replicate ((119 - message.length % 64) % 64) 0 := by
    rw [length_eq, PADDING, List.take_succ_cons, List.take_replicate, Nat.min_eq_left (by omega)]
  have size : PADDING.length = 64 := rfl
  have eight : (8 : UInt32).toNat = (Bytes.ofNat 8 (8 * message.length)).length := by rw [Bytes.length_ofNat]; rfl
  obtain ⟨middle, first, received⟩ := received_update received PADDING padLen (by omega) (by omega) (by omega)
  have longer : (message ++ PADDING.take padLen.toNat).length ≤ message.length + 64 := by
    rw [List.length_append, List.length_take]; omega
  have part := Nat.mod_lt (message ++ PADDING.take padLen.toNat).length (show 64 > 0 by decide)
  obtain ⟨last, second, received⟩ := received_update received (Bytes.ofNat 8 (8 * message.length)) 8 eight.le
    (by rw [eight, Bytes.length_ofNat]; omega) (by rw [eight, Bytes.length_ofNat]; omega)
  have padded : message ++ PADDING.take padLen.toNat ++ (Bytes.ofNat 8 (8 * message.length)).take (8 : UInt32).toNat =
      message ++ Sm3.padding message.length := by
    rw [eight, List.take_length, zeros, List.append_assoc]
    rfl
  rw [padded] at received
  rw [first, Option.bind_eq_bind, Option.bind_some, second, Option.bind_some]
  apply congrArg (fun digest => some (digest, zeroized))
  apply Vector.toArray_inj.mp
  rw [Sm3.digest, ← received.holds.state, Sm3.output]
  simp only [encode_eq]

theorem sm3Chunks_eq_sm3 (context : Sm3Ctx) (chunks : List Bytes) (short : chunks.flatten.length < 2 ^ 32) :
    sm3Chunks context chunks = some (Sm3.sm3 chunks.flatten) := by
  obtain ⟨context', updates, received⟩ := received_chunks (received_init context) chunks short
  rw [List.nil_append] at received
  rw [sm3Chunks, updates, Option.bind_eq_bind, Option.bind_some, sm3Final_run received (by omega),
    ← Sm3.sm3_eq_digest short]
  rfl

/-- The second chunk fills the buffer, the third one leaves whole blocks to the loop. -/
theorem sm3Chunks_letters_agree :
    let chunks : List Bytes := [List.replicate 60 0x61, List.replicate 10 0x62, [], List.replicate 130 0x63]
    sm3Chunks zeroized chunks = some (Sm3.sm3 chunks.flatten) := by
  intro chunks
  exact sm3Chunks_eq_sm3 zeroized chunks (by simp [chunks, -List.reduceReplicate])

end MyTools.SocketRandom
