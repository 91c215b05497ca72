import MyTools.Sm4.Access

/-! `sm4_cfb_encrypt` and `sm4_ofb_encrypt`: both translate the text octet by octet through one register. -/
namespace MyTools.Sm4
open Library Memory Modes

/-- The array `iv` and the place of its next octet. -/
structure Register where
  iv : Bytes
  n : ℕ
  size : iv.length = 16
  inside : n < 16

section
variable (feed : UInt8 → UInt8 → UInt8 → UInt8) (roundKey : Vector UInt32 32)

/-- At the front, the array is encrypted before it is used. -/
def Register.fresh (r : Register) : Bytes := if r.n = 0 then encryptBlock roundKey r.iv else r.iv

theorem Register.length_fresh (r : Register) : (r.fresh roundKey).length = 16 := by
  rw [Register.fresh]
  split
  · exact length_encryptBlock roundKey r.iv
  · exact r.size

def Register.octet (r : Register) : UInt8 :=
  (r.fresh roundKey).get ⟨r.n, (r.length_fresh roundKey).symm ▸ r.inside⟩

theorem Register.fresh_run (r : Register) :
    (if r.n = 0 then sm4Encrypt r.iv roundKey.toList else some r.iv) = some (r.fresh roundKey) := by
  rw [Register.fresh]
  split
  · exact sm4Encrypt_run r.size roundKey
  · rfl

theorem Register.octet_run (r : Register) : (r.fresh roundKey)[r.n]? = some (r.octet roundKey) :=
  List.getElem?_eq_getElem _

def Register.feedStep (r : Register) (x : UInt8) : UInt8 × Register :=
  (x ^^^ r.octet roundKey,
    { iv := (r.fresh roundKey).set r.n (feed x (x ^^^ r.octet roundKey) (r.octet roundKey))
      n := (r.n + 1) % 16
      size := List.length_set.trans (r.length_fresh roundKey)
      inside := Nat.mod_lt _ (Nat.succ_pos 15) })

theorem streamStep_run {s : Stream} {r : Register} {x : UInt8} {mem : Memory UInt8} (n : s.n = r.n) (iv : s.iv = r.iv)
    (read : s.mem s.input = some x) (stored : s.mem.store s.out (x ^^^ r.octet roundKey) = some mem) :
    streamStep feed roundKey.toList s = some ⟨mem, s.input + 1, s.out + 1, (r.feedStep feed roundKey x).2.n,
      (r.feedStep feed roundKey x).2.iv, s.l - 1⟩ := by
  rw [streamStep, n, iv, r.fresh_run roundKey, Option.bind_eq_bind, Option.bind_some, r.octet_run roundKey,
    Option.bind_eq_bind, Option.bind_some, read, Option.bind_some, stored]
  rfl

theorem feedStep_back {back : UInt8 → UInt8 → UInt8 → UInt8} (same : ∀ x k, back (x ^^^ k) x k = feed x (x ^^^ k) k)
    (r : Register) (x : UInt8) :
    r.feedStep back roundKey (r.feedStep feed roundKey x).1 = (x, (r.feedStep feed roundKey x).2) := by
  have again : x ^^^ r.octet roundKey ^^^ r.octet roundKey = x := by
    rw [UInt8.xor_assoc, UInt8.xor_self, UInt8.xor_zero]
  simp only [Register.feedStep, again, same]

end

section
variable {feed : UInt8 → UInt8 → UInt8 → UInt8} {key iv : Vector UInt8 16} {text : Bytes}

def start (iv : Vector UInt8 16) : Register := ⟨iv.toList, 0, Vector.length_toList, Nat.succ_pos 15⟩

def streamed (feed : UInt8 → UInt8 → UInt8 → UInt8) (key iv : Vector UInt8 16) (text : Bytes) : Bytes :=
  Modes.translate (Register.feedStep feed (roundKeys key)) (start iv) text

def register (feed : UInt8 → UInt8 → UInt8 → UInt8) (key iv : Vector UInt8 16) (text : Bytes) : Register :=
  after (Register.feedStep feed (roundKeys key)) (start iv) text

def ChainBuffers.streaming (b : ChainBuffers key iv text text.length) (feed : UInt8 → UInt8 → UInt8 → UInt8) (k : ℕ) :
    Stream where
  mem := b.mem.write b.output (streamed feed key iv (text.take k))
  input := b.input + k
  out := b.output + k
  n := (register feed key iv (text.take k)).n
  iv := (register feed key iv (text.take k)).iv
  l := text.length - k

theorem length_streamed (feed : UInt8 → UInt8 → UInt8 → UInt8) (key iv : Vector UInt8 16) (text : Bytes) :
    (streamed feed key iv text).length = text.length :=
  length_translate _ _ _

theorem streamed_take (n : ℕ) : streamed feed key iv (text.take n) = (streamed feed key iv text).take n :=
  translate_take _ _ _ _

theorem streamed_succ {k : ℕ} (inside : k < text.length) :
    streamed feed key iv (text.take (k + 1)) = streamed feed key iv (text.take k) ++
      [text[k] ^^^ (register feed key iv (text.take k)).octet (roundKeys key)] := by
  rw [← List.take_append_getElem inside, streamed, translate_concat]
  rfl

theorem register_succ {k : ℕ} (inside : k < text.length) :
    register feed key iv (text.take (k + 1)) =
      ((register feed key iv (text.take k)).feedStep feed (roundKeys key) text[k]).2 := by
  rw [← List.take_append_getElem inside, register, after_concat]
  rfl

theorem ChainBuffers.streaming_step (b : ChainBuffers key iv text text.length) {k : ℕ} (inside : k < text.length) :
    streamStep feed (roundKeys key).toList (b.streaming feed k) = some (b.streaming feed (k + 1)) := by
  have written : (streamed feed key iv (text.take k)).length = k := by
    rw [length_streamed, List.length_take_of_le (Nat.le_of_lt inside)]
  have read : (b.streaming feed k).mem (b.input + k) = some text[k] := by
    have held := b.rest_held (by omega) (Nat.le_of_eq written) 0 (by rw [List.length_drop]; omega)
    rw [List.getElem?_drop] at held
    exact held.trans (List.getElem?_eq_getElem inside)
  have mapped : ((b.streaming feed k).mem (b.output + k)).isSome :=
    (b.mapped.sub (Nat.succ_le_of_lt inside)).write 0 Nat.zero_lt_one
  have stored (x : UInt8) : (b.streaming feed k).mem.store (b.output + k) x =
      some (b.mem.write b.output (streamed feed key iv (text.take k) ++ [x])) := by
    have next := write_append b.mem b.output (streamed feed key iv (text.take k)) [x]
    rw [written] at next
    exact (store_run mapped x).trans (congrArg some next)
  have run := streamStep_run feed (roundKeys key) (s := b.streaming feed k) rfl rfl read (stored _)
  rw [run, ← streamed_succ inside, ← register_succ inside]
  rfl

theorem ChainBuffers.streaming_loop (b : ChainBuffers key iv text text.length)
    (feed : UInt8 → UInt8 → UInt8 → UInt8) (length : UInt32) (size : length.toNat = text.length) :
    ∃ s, whileOctets feed (roundKeys key).toList ⟨b.mem, b.input, b.output, 0, iv.toList, length.toNat⟩ = some s ∧
      s.mem = b.mem.write b.output (streamed feed key iv text) := by
  have begun : b.streaming feed 0 = ⟨b.mem, b.input, b.output, 0, iv.toList, length.toNat⟩ := by
    rw [size, ← write_nil b.mem b.output]
    rfl
  have loop : whileOctets feed (roundKeys key).toList (b.streaming feed 0) = some (b.streaming feed text.length) := by
    apply Loop.whileDo_states (b.streaming feed)
    · exact Nat.lt_succ_self text.length
    · intro k inside
      exact congrArg some (decide_eq_true (show text.length - k ≠ 0 by omega))
    · intro k inside
      exact b.streaming_step inside
    · exact congrArg some (decide_eq_false (show ¬ text.length - text.length ≠ 0 by omega))
  rw [begun] at loop
  refine ⟨_, loop, ?_⟩
  show b.mem.write b.output (streamed feed key iv (text.take text.length)) = _
  rw [List.take_length]

theorem ChainBuffers.cfb (b : ChainBuffers key iv text text.length) (length : UInt32) (size : length.toNat = text.length) :
    sm4CfbEncrypt b.input b.output length b.userkey b.ivec 1 b.mem =
        some (b.mem.write b.output (streamed (fun _ y _ => y) key iv text)) ∧
      sm4CfbEncrypt b.input b.output length b.userkey b.ivec 0 b.mem =
        some (b.mem.write b.output (streamed (fun x _ _ => x) key iv text)) := by
  obtain ⟨read, set⟩ := setKey_run b.key_held
  have iv_read := loads_run b.iv_held
  rw [Vector.length_toList] at iv_read
  by_cases null : b.input = 0 ∨ b.output = 0 ∨ b.userkey = 0 ∨ b.ivec = 0
  · obtain rfl := b.empty id null
    simp only [sm4CfbEncrypt, if_pos null, streamed, Modes.translate, write_nil, and_self]
  · obtain ⟨s, run, stored⟩ := b.streaming_loop (fun _ y _ => y) length size
    obtain ⟨s', run', stored'⟩ := b.streaming_loop (fun x _ _ => x) length size
    constructor
    · rw [sm4CfbEncrypt, if_neg null, if_neg (by decide), read, Option.bind_eq_bind, Option.bind_some, set,
        Option.bind_eq_bind, Option.bind_some, iv_read, Option.bind_eq_bind, Option.bind_some, if_pos rfl, run,
        Option.bind_some, stored]
    · rw [sm4CfbEncrypt, if_neg null, if_neg (by decide), read, Option.bind_eq_bind, Option.bind_some, set,
        Option.bind_eq_bind, Option.bind_some, iv_read, Option.bind_eq_bind, Option.bind_some, if_neg (by decide), run',
        Option.bind_some, stored']

theorem ChainBuffers.ofb (b : ChainBuffers key iv text text.length) (length : UInt32) (size : length.toNat = text.length) :
    sm4OfbEncrypt b.input b.output length b.userkey b.ivec b.mem =
      some (b.mem.write b.output (streamed (fun _ _ k => k) key iv text)) := by
  obtain ⟨read, set⟩ := setKey_run b.key_held
  have iv_read := loads_run b.iv_held
  rw [Vector.length_toList] at iv_read
  by_cases null : b.input = 0 ∨ b.output = 0 ∨ b.userkey = 0 ∨ b.ivec = 0
  · obtain rfl := b.empty id null
    rw [sm4OfbEncrypt, if_pos null, streamed, Modes.translate, write_nil]
  · obtain ⟨s, run, stored⟩ := b.streaming_loop (fun _ _ k => k) length size
    rw [sm4OfbEncrypt, if_neg null, read, Option.bind_eq_bind, Option.bind_some, set,
      Option.bind_eq_bind, Option.bind_some, iv_read, Option.bind_eq_bind, Option.bind_some, run, Option.bind_some, stored]

end

theorem streamed_streamed {feed back : UInt8 → UInt8 → UInt8 → UInt8}
    (same : ∀ x k, back (x ^^^ k) x k = feed x (x ^^^ k) k) (key iv : Vector UInt8 16) (text : Bytes) :
    streamed back key iv (streamed feed key iv text) = text :=
  translate_translate (feedStep_back feed (roundKeys key) same) text

/-- Both modes undo themselves, and each octet of the output only depends on the octets of the input up to it. -/
theorem streamModes_roundTrip (key iv : Vector UInt8 16) :
    ∃ encrypt decrypt crypt : Bytes → Bytes,
      (∀ (text : Text) (b : ChainBuffers key iv text.bytes text.bytes.length),
        sm4CfbEncrypt b.input b.output text.length b.userkey b.ivec 1 b.mem =
          some (b.mem.write b.output (encrypt text.bytes)) ∧
        sm4CfbEncrypt b.input b.output text.length b.userkey b.ivec 0 b.mem =
          some (b.mem.write b.output (decrypt text.bytes)) ∧
        sm4OfbEncrypt b.input b.output text.length b.userkey b.ivec b.mem =
          some (b.mem.write b.output (crypt text.bytes))) ∧
      ∀ text : Bytes, (encrypt text).length = text.length ∧ (decrypt text).length = text.length ∧
        (crypt text).length = text.length ∧ decrypt (encrypt text) = text ∧ crypt (crypt text) = text ∧
        ∀ n, encrypt (text.take n) = (encrypt text).take n ∧ decrypt (text.take n) = (decrypt text).take n ∧
          crypt (text.take n) = (crypt text).take n := by
  refine ⟨streamed (fun _ y _ => y) key iv, streamed (fun x _ _ => x) key iv, streamed (fun _ _ k => k) key iv,
    fun text b => ?_, fun text => ?_⟩
  · obtain ⟨forward, back⟩ := b.cfb text.length text.toNat_length
    exact ⟨forward, back, b.ofb text.length text.toNat_length⟩
  · refine ⟨length_streamed _ _ _ _, length_streamed _ _ _ _, length_streamed _ _ _ _, ?_, ?_, fun n => ?_⟩
    · exact streamed_streamed (fun _ _ => rfl) key iv text
    · exact streamed_streamed (fun _ _ => rfl) key iv text
    · exact ⟨streamed_take n, streamed_take n, streamed_take n⟩

end MyTools.Sm4
