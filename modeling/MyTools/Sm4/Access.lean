import MyTools.Sm4.Routines

/-! What the steps of the modes leave in memory, and the buffers of a call. -/
namespace MyTools.Sm4
open Library Memory Modes

/-! Sources. -/

/-- The source holds `xs`, also when the cells from `out` on have been stored up to the one that is read. -/
def Source.Reads (x : Source) (mem : Memory UInt8) (out : ℕ) (xs : Bytes) : Prop :=
  ∀ (written : Bytes) (n : ℕ), written.length ≤ n → n < xs.length → x.get (mem.write out written) n = xs[n]?

variable {mem : Memory UInt8} {out : ℕ} {x y : Source} {xs ys : Bytes}

theorem reads_pointer {a : ℕ} (held : mem.Holds a xs) (ahead : Ahead a out xs.length) :
    (Source.pointer a).Reads mem out xs :=
  fun _ _ short inside => held.ahead ahead inside short

theorem reads_array (mem : Memory UInt8) (out : ℕ) (xs : Bytes) : (Source.array xs).Reads mem out xs :=
  fun _ _ _ _ => rfl

theorem reads_octet (mem : Memory UInt8) (out count : ℕ) (x : UInt8) :
    (Source.octet x).Reads mem out (List.replicate count x) := by
  intro written n _ inside
  rw [List.length_replicate] at inside
  rw [List.getElem?_replicate, if_pos inside]
  rfl

theorem Source.Reads.take (reads : x.Reads mem out xs) (count : ℕ) : x.Reads mem out (xs.take count) := by
  intro written n short inside
  rw [List.length_take] at inside
  rw [reads written n short (by omega), List.getElem?_take_of_lt (by omega)]

theorem xorTo_run (x_reads : x.Reads mem out xs) (y_reads : y.Reads mem out ys) (same : xs.length = ys.length)
    (mapped : mem.Mapped out xs.length) : xorTo x y out xs.length mem = some (mem.write out (Bytes.xor xs ys)) := by
  have length : (Bytes.xor xs ys).length = xs.length := by rw [Bytes.length_xor, same, Nat.min_self]
  rw [xorTo, ← length]
  apply up_stores
  · rw [length]
    exact mapped
  · intro i inside
    have short : ((Bytes.xor xs ys).take i).length ≤ i := List.length_take_le i _
    have first : i < xs.length := length ▸ inside
    have second : i < ys.length := same ▸ first
    rw [x_reads _ i short first, y_reads _ i short second, List.getElem?_eq_getElem first,
      List.getElem?_eq_getElem second, Option.bind_eq_bind, Option.bind_some, Option.bind_some]
    congr 1
    exact List.getElem_zipWith.symm

theorem copyTo_run (x_reads : x.Reads mem out xs) (mapped : mem.Mapped out xs.length) (ws : Bytes)
    (inside : ws.length ≤ xs.length) :
    copyTo x out ws.length xs.length (mem.write out ws) = some (mem.write out (ws ++ xs.drop ws.length)) := by
  have length : (xs.drop ws.length).length = xs.length - ws.length := List.length_drop
  rw [copyTo, ← length, ← write_append]
  apply up_stores
  · apply Mapped.write
    apply mapped.sub
    rw [length]
    omega
  · intro i below
    have cells : (ws ++ (xs.drop ws.length).take i).length ≤ ws.length + i := by
      rw [List.length_append, List.length_take]
      omega
    have place : ws.length + i < xs.length := by omega
    rw [write_append, x_reads _ (ws.length + i) cells place, List.getElem?_eq_getElem place, Option.bind_eq_bind,
      Option.bind_some, ← Nat.add_assoc, List.getElem_drop]

theorem copyTo_all (x_reads : x.Reads mem out xs) (mapped : mem.Mapped out xs.length) :
    copyTo x out 0 xs.length mem = some (mem.write out xs) := by
  have run := copyTo_run x_reads mapped [] (Nat.zero_le _)
  rw [write_nil] at run
  exact run

/-! The cipher on pointers. -/

theorem length_encryptBlock (roundKey : Vector UInt32 32) (block : Bytes) : (encryptBlock roundKey block).length = 16 :=
  length_output _

theorem length_decryptBlock (roundKey : Vector UInt32 32) (block : Bytes) : (decryptBlock roundKey block).length = 16 :=
  length_output _

section
variable (roundKey : Vector UInt32 32) {input : ℕ} {block : Bytes}

theorem encryptTo_run (held : mem.Holds input block) (size : block.length = 16) (mapped : mem.Mapped out 16) :
    encryptTo input out roundKey.toList mem = some (mem.write out (encryptBlock roundKey block)) := by
  have read := loads_run held
  rw [size] at read
  rw [encryptTo, read, Option.bind_eq_bind, Option.bind_some, sm4Encrypt_run size, Option.bind_some]
  exact stores_run (length_encryptBlock roundKey block ▸ mapped)

theorem decryptTo_run (held : mem.Holds input block) (size : block.length = 16) (mapped : mem.Mapped out 16) :
    decryptTo input out roundKey.toList mem = some (mem.write out (decryptBlock roundKey block)) := by
  have read := loads_run held
  rw [size] at read
  rw [decryptTo, read, Option.bind_eq_bind, Option.bind_some, sm4Decrypt_run size, Option.bind_some]
  exact stores_run (length_decryptBlock roundKey block ▸ mapped)

end

/-- Either direction undoes the other one, whether the three buffers are the same, overlap or are apart. -/
theorem decryptTo_encryptTo (roundKey : Vector UInt32 32) (block : Vector UInt8 16) (mem : Memory UInt8)
    (input middle out : ℕ) (held : mem.Holds input block.toList) (middle_mapped : mem.Mapped middle 16)
    (out_mapped : mem.Mapped out 16) :
    (∃ mem', (do decryptTo middle out roundKey.toList (← encryptTo input middle roundKey.toList mem)) = some mem' ∧
      mem'.Holds out block.toList) ∧
    ∃ mem', (do encryptTo middle out roundKey.toList (← decryptTo input middle roundKey.toList mem)) = some mem' ∧
      mem'.Holds out block.toList := by
  have size : block.toList.length = 16 := Vector.length_toList
  constructor
  · have back := decryptTo_run roundKey (holds_write mem middle (encryptBlock roundKey block.toList))
      (length_encryptBlock roundKey _) out_mapped.write
    rw [decryptBlock_encryptBlock roundKey size] at back
    rw [encryptTo_run roundKey held size middle_mapped, Option.bind_eq_bind, Option.bind_some, back]
    exact ⟨_, rfl, holds_write _ _ _⟩
  · have back := encryptTo_run roundKey (holds_write mem middle (decryptBlock roundKey block.toList))
      (length_decryptBlock roundKey _) out_mapped.write
    rw [encryptBlock_decryptBlock roundKey size] at back
    rw [decryptTo_run roundKey held size middle_mapped, Option.bind_eq_bind, Option.bind_some, back]
    exact ⟨_, rfl, holds_write _ _ _⟩

/-- In place, in a memory of sixteen cells. -/
theorem decryptTo_encryptTo_inPlace :
    (∃ mem', (do
        decryptTo 1 1 (Vector.replicate 32 0).toList (← encryptTo 1 1 (Vector.replicate 32 0).toList
          (Memory.write (fun _ => none) 1 (List.replicate 16 7)))) = some mem' ∧
      mem'.Holds 1 (Vector.replicate 16 7).toList) ∧
    ∃ mem', (do
        encryptTo 1 1 (Vector.replicate 32 0).toList (← decryptTo 1 1 (Vector.replicate 32 0).toList
          (Memory.write (fun _ => none) 1 (List.replicate 16 7)))) = some mem' ∧
      mem'.Holds 1 (Vector.replicate 16 7).toList := by
  have held : (Memory.write (fun _ => none) 1 (List.replicate 16 7)).Holds 1 (Vector.replicate 16 (7 : UInt8)).toList := by
    rw [Vector.toList_replicate]
    exact holds_write _ _ _
  exact decryptTo_encryptTo (Vector.replicate 32 0) (Vector.replicate 16 7) _ 1 1 1 held held.mapped held.mapped

/-! The calls. -/

def roundKeys (key : Vector UInt8 16) : Vector UInt32 32 :=
  ⟨((List.range 32).map fun i => schedule key.toList (i + 4)).toArray, by simp⟩

theorem setKey_run {key : Vector UInt8 16} {userkey : ℕ} (held : mem.Holds userkey key.toList) :
    mem.loads userkey 16 = some key.toList ∧ sm4SetKey key.toList = some (roundKeys key).toList := by
  have size : key.toList.length = 16 := Vector.length_toList
  have read := loads_run held
  rw [size] at read
  exact ⟨read, sm4SetKey_run size⟩

/-- A text whose length the parameter `length` can hold. -/
structure Text where
  bytes : Bytes
  fits : bytes.length < 2 ^ 32

def Text.length (text : Text) : UInt32 := .ofNat text.bytes.length

theorem Text.toNat_length (text : Text) : text.length.toNat = text.bytes.length := UInt32.toNat_ofNat_of_lt' text.fits

/-- The buffers of a call on `text`: the output, of `room` octets, is the input itself or lies apart from it. -/
structure Buffers (key : Vector UInt8 16) (text : Bytes) (room : ℕ) where
  mem : Memory UInt8
  userkey : ℕ
  input : ℕ
  output : ℕ
  null : mem 0 = none
  key_held : mem.Holds userkey key.toList
  text_held : mem.Holds input text
  mapped : mem.Mapped output room
  overlap : input = output ∨ Apart input text.length output room

/-- The buffers of a call with a vector, which is not stored over. -/
structure ChainBuffers (key iv : Vector UInt8 16) (text : Bytes) (room : ℕ) extends Buffers key text room where
  ivec : ℕ
  iv_held : mem.Holds ivec iv.toList
  iv_apart : Apart ivec 16 output room

/-- A memory with the key, the vector, the text and room behind it. -/
def layout (key iv : Vector UInt8 16) (text : Bytes) (room : ℕ) : Memory UInt8 :=
  Memory.write (fun _ => none) 1 (key.toList ++ (iv.toList ++ (text ++ List.replicate room 0)))

theorem layout_held (key iv : Vector UInt8 16) (text : Bytes) (room : ℕ) :
    (layout key iv text room).Holds 1 key.toList ∧ (layout key iv text room).Holds 17 iv.toList ∧
      (layout key iv text room).Holds 33 text ∧ (layout key iv text room).Mapped 33 (text.length + room) := by
  have whole : (layout key iv text room).Holds 1 (key.toList ++ (iv.toList ++ (text ++ List.replicate room 0))) :=
    holds_write _ _ _
  have behind_key := whole.right
  rw [Vector.length_toList] at behind_key
  have behind_iv := behind_key.right
  rw [Vector.length_toList] at behind_iv
  have mapped := behind_iv.mapped
  rw [List.length_append, List.length_replicate] at mapped
  exact ⟨whole.left, behind_key.left, behind_iv.left, mapped⟩

/-- Both kinds of buffers exist: in place, or with the output behind the text. -/
def ChainBuffers.laid (key iv : Vector UInt8 16) (text : Bytes) (room : ℕ) (inPlace : Bool) :
    ChainBuffers key iv text room where
  mem := layout key iv text room
  userkey := 1
  input := 33
  output := if inPlace then 33 else 33 + text.length
  ivec := 17
  null := write_outside (.inl Nat.zero_lt_one)
  key_held := (layout_held key iv text room).1
  iv_held := (layout_held key iv text room).2.1
  text_held := (layout_held key iv text room).2.2.1
  mapped := by
    have mapped := (layout_held key iv text room).2.2.2
    cases inPlace with
    | true => exact mapped.shorten (Nat.le_add_left _ _)
    | false => exact mapped.sub (Nat.le_refl _)
  overlap := by
    cases inPlace with
    | true => exact .inl rfl
    | false => exact .inr (.inl (Nat.le_refl _))
  iv_apart := by
    left
    cases inPlace with
    | true => exact Nat.le_refl 33
    | false => exact Nat.le_add_right 33 _

theorem Buffers.ahead {key : Vector UInt8 16} {text : Bytes} {room : ℕ} (b : Buffers key text room) :
    b.output ≤ b.input ∨ b.input + text.length ≤ b.output := by
  rcases b.overlap with same | before | behind
  · exact .inl (Nat.le_of_eq same.symm)
  · exact .inr before
  · exact .inl (Nat.le_trans (Nat.le_add_right _ _) behind)

theorem Buffers.rest_held {key : Vector UInt8 16} {text : Bytes} {room : ℕ} (b : Buffers key text room) {written : Bytes}
    {n : ℕ} (inside : written.length ≤ room) (short : written.length ≤ n) :
    (b.mem.write b.output written).Holds (b.input + n) (text.drop n) := by
  apply b.text_held.rest _ short
  apply b.overlap.imp_right
  unfold Apart
  omega

theorem Buffers.reads {key : Vector UInt8 16} {text : Bytes} {room : ℕ} (b : Buffers key text room) {written : Bytes}
    {n : ℕ} (inside : written.length ≤ room) (short : written.length ≤ n) :
    (Source.pointer (b.input + n)).Reads (b.mem.write b.output written) (b.output + n) (text.drop n) := by
  apply reads_pointer (b.rest_held inside short)
  have ahead := b.ahead
  rw [Ahead, List.length_drop]
  omega

theorem address_ne {a count : ℕ} (null : mem 0 = none) (mapped : mem.Mapped a count) (some_ : 0 < count) : a ≠ 0 := by
  rintro rfl
  have first := mapped 0 some_
  rw [null] at first
  cases first

theorem Buffers.empty {key : Vector UInt8 16} {text : Bytes} {room : ℕ} (b : Buffers key text room)
    (room_some : 0 < text.length → 0 < room) (null : b.input = 0 ∨ b.output = 0 ∨ b.userkey = 0) : text = [] := by
  by_contra text_some
  have text_some := List.length_pos_of_ne_nil text_some
  have key_some : 0 < key.toList.length := by rw [Vector.length_toList]; exact Nat.succ_pos 15
  rcases null with null | null | null
  · exact address_ne b.null b.text_held.mapped text_some null
  · exact address_ne b.null b.mapped (room_some text_some) null
  · exact address_ne b.null b.key_held.mapped key_some null

theorem ChainBuffers.empty {key iv : Vector UInt8 16} {text : Bytes} {room : ℕ} (b : ChainBuffers key iv text room)
    (room_some : 0 < text.length → 0 < room) (null : b.input = 0 ∨ b.output = 0 ∨ b.userkey = 0 ∨ b.ivec = 0) :
    text = [] := by
  have iv_some : 0 < iv.toList.length := by rw [Vector.length_toList]; exact Nat.succ_pos 15
  have ivec_some : b.ivec ≠ 0 := address_ne b.null b.iv_held.mapped iv_some
  exact b.toBuffers.empty room_some (null.imp_right (Or.imp_right fun last => last.resolve_right ivec_some))

theorem whileBlocks_states (state : ℕ → Pass) {body : Pass → Option Pass} {count rest : ℕ} (short : rest < 16)
    (len : ∀ k, k ≤ count → (state k).len = 16 * (count - k) + rest)
    (step : ∀ k, k < count → body (state k) = some (state (k + 1))) :
    whileBlocks body (state 0) = some (state count) := by
  apply Loop.whileDo_states state
  · rw [len 0 (Nat.zero_le count)]
    omega
  · intro k inside
    rw [len k inside.le, decide_eq_true (show 16 ≤ 16 * (count - k) + rest by omega)]
  · exact step
  · rw [len count (Nat.le_refl count), decide_eq_false (show ¬ 16 ≤ 16 * (count - count) + rest by omega)]

end MyTools.Sm4
