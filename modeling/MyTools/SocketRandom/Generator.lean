import MyTools.Library.Run
import MyTools.SocketRandom.HashId

/-! The random number generator: `srand_sm3_init`, `srand_sm3_reseed` and
`srand_sm3_generate`. The answers of the world (`malloc`, the clock, the entropy) are arguments. -/
namespace MyTools.SocketRandom
open Library Buffer
open Sm2 (Malloc)

/-- The global `srand_sm3`; its array `C` is never used. -/
structure SrandSm3 where
  V : Vector UInt8 512
  reseedLastTime : UInt64
  outCnt : UInt32
  outMaxTimes : UInt32
  outMaxInterval : UInt64
  pool : Vector UInt32 128

def table : List UInt32 :=
  [0x00, 0xAF6B3073, 0xD9700E70, 0xDD7E22B6, 0x4636AE04, 0xB5C51761, 0x9F6E2C9F, 0xD302552D]

/-- The return code, and the output with the digest in front. -/
def calcDf {size : ℕ} (ctx : Sm3Ctx) (data : Bytes) (len : UInt32) (out : Vector UInt8 size) :
    Option (ℕ × Vector UInt8 size) :=
  if len = 0 then some (1, out) else do
  let ctx ← sm3Update (sm3Init ctx) data len
  let (hash, _) ← sm3Final ctx
  return (0, ← store out 0 hash.toList)

def mix (g : UInt32) (j : ℕ) (data : Vector UInt32 128) : Option (Vector UInt32 128) := do
  let temp := g ^^^ (← data[j]?)
  let temp := temp ^^^ (← data[(j + 1) % 128]?)
  let temp := temp ^^^ (← data[(j + 25) % 128]?)
  let temp := temp ^^^ (← data[(j + 51) % 128]?)
  let temp := temp ^^^ (← data[(j + 76) % 128]?)
  let temp := temp ^^^ (← data[(j + 103) % 128]?)
  put data j ((temp >>> 3) ^^^ (← table[(temp &&& 7).toNat]?))

def calcPool (g : UInt32) (data : Vector UInt32 128) : Option (Vector UInt32 128) := Loop.up (mix g) 128 data

def poolBytes (pool : Vector UInt32 128) : Bytes := pool.toList.flatMap Sm3.littleEndian

/-- What a call finds: one allocation, the contents of a local context, entropy and time. -/
structure World where
  malloc : Malloc
  ctx : Sm3Ctx
  entropy : UInt32
  time : UInt64

def srandSm3Init (s : SrandSm3) (w : World) (pnonce : Option Bytes) (nonceLen : UInt16) : Option (ℕ × SrandSm3) :=
  match pnonce with
  | none => some (1, s)
  | some nonce =>
    if nonceLen = 0 then some (1, s) else
    if 512 < nonceLen then some (1, s) else
    match w.malloc (nonceLen.toNat + 512) with
    | none => some (2, s)
    | some data => do
      let pool ← calcPool w.entropy (Vector.replicate 128 0)
      let data ← store data 0 (poolBytes pool)
      let data ← store data 512 (← nonce.read nonceLen.toNat)
      let (_, V) ← calcDf w.ctx data.toList (nonceLen.toUInt32 + 512) (Vector.replicate 512 0)
      return (0, ⟨V, w.time, 1, 1024, 60, pool⟩)

def srandSm3Reseed (s : SrandSm3) (w : World) : Option (ℕ × SrandSm3) :=
  match w.malloc (1 + 10 + 512) with
  | none => some (2, s)
  | some data => do
    let pool ← calcPool w.entropy s.pool
    let data ← put data 0 0x01
    let data ← store data 1 [0x31, 0x35, 0x39, 0x33, 0x35, 0x37, 0x37, 0x38, 0x31, 0x31]
    let data ← store data (1 + 10) (poolBytes pool)
    let (_, V) ← calcDf w.ctx data.toList (1 + 10 + 512) s.V
    return (0, { s with V := V, pool := pool, reseedLastTime := w.time, outCnt := 1 })

/-- The two conditions that ask for a reseed. -/
def SrandSm3.stale (s : SrandSm3) (time : UInt64) : Bool :=
  s.outMaxTimes ≤ s.outCnt || s.outMaxInterval ≤ (time - s.reseedLastTime) / 1000000

/-- The reseed that `srand_sm3_generate` asks for; its result is not looked at. -/
def SrandSm3.refresh (s : SrandSm3) (w : World) (time : UInt64) : Option SrandSm3 :=
  if s.stale time then (srandSm3Reseed s w).map Prod.snd else some s

/-- The next digest, from the work buffer `data`. -/
def SrandSm3.produce (s : SrandSm3) (ctx : Sm3Ctx) (data : Vector UInt8 (1 + 32 + 512)) :
    Option (Vector UInt8 32 × SrandSm3) := do
  let data ← put data 0 0x02
  let data ← store data 1 [0x31, 0x34, 0x37, 0x32, 0x35, 0x38, 0x33, 0x36, 0x39]
  let data ← store data (1 + 32) s.V.toList
  let (_, hash) ← calcDf ctx data.toList (1 + 32 + 512) (Vector.replicate 32 0)
  let V ← store s.V 0 hash.toList
  return (hash, { s with V := V, outCnt := s.outCnt + 1 })

/-- `out` is what the pointer points to; the world `first` is that of the reseed. -/
def srandSm3Generate (s : SrandSm3) (first w : World) (len : UInt32) (out : Option Bytes) :
    Option (ℕ × Option Bytes × SrandSm3) :=
  match out with
  | none => some (1, none, s)
  | some buffer =>
    if 32 < len then some (1, some buffer, s) else do
    let s ← s.refresh first w.time
    match w.malloc (1 + 32 + 512) with
    | none => return (2, some buffer, s)
    | some data =>
      let (hash, s) ← s.produce w.ctx data
      return (0, some (← buffer.write 0 (hash.toList.take len.toNat)), s)

/-! What each routine does. -/

theorem mix_run (g : UInt32) {j : ℕ} (inside : j < 128) (data : Vector UInt32 128) : ∃ data', mix g j data = some data' := by
  have entry (i : ℕ) (below : i < 128) : ∃ x, data[i]? = some x := ⟨_, Vector.getElem?_eq_getElem below⟩
  have other (i : ℕ) : ∃ x, data[i % 128]? = some x := entry _ (Nat.mod_lt i (by decide))
  have constant (temp : UInt32) : ∃ x, table[(temp &&& 7).toNat]? = some x := by
    have below : (temp &&& 7).toNat < table.length := by
      rw [UInt32.toNat_and]
      exact Nat.lt_succ_of_le Nat.and_le_right
    exact ⟨_, List.getElem?_eq_getElem below⟩
  obtain ⟨x₀, r₀⟩ := entry j inside
  obtain ⟨x₁, r₁⟩ := other (j + 1)
  obtain ⟨x₂, r₂⟩ := other (j + 25)
  obtain ⟨x₃, r₃⟩ := other (j + 51)
  obtain ⟨x₄, r₄⟩ := other (j + 76)
  obtain ⟨x₅, r₅⟩ := other (j + 103)
  obtain ⟨x₆, r₆⟩ := constant (g ^^^ x₀ ^^^ x₁ ^^^ x₂ ^^^ x₃ ^^^ x₄ ^^^ x₅)
  simp only [mix, r₀, r₁, r₂, r₃, r₄, r₅, r₆, Option.bind_eq_bind, Option.bind_some]
  obtain ⟨data', stored, -⟩ := put_run data inside (((g ^^^ x₀ ^^^ x₁ ^^^ x₂ ^^^ x₃ ^^^ x₄ ^^^ x₅) >>> 3) ^^^ x₆)
  exact ⟨data', stored⟩

theorem calcPool_run (g : UInt32) (data : Vector UInt32 128) : ∃ data', calcPool g data = some data' := by
  obtain ⟨data', run, -⟩ := Loop.up_rule (fun _ _ => True) (s := data) trivial fun j data inside _ => by
    obtain ⟨data', run⟩ := mix_run g inside data
    exact ⟨data', run, trivial⟩
  exact ⟨data', run⟩

theorem length_poolBytes (pool : Vector UInt32 128) : (poolBytes pool).length = 512 := by
  rw [poolBytes, List.length_flatMap]
  simp [Sm3.littleEndian]

theorem calcDf_run {size : ℕ} (ctx : Sm3Ctx) (data : Bytes) (len : UInt32) (nonempty : len ≠ 0)
    (readable : len.toNat ≤ data.length) (fits : len.toNat < 2 ^ 31) (out : Vector UInt8 size) (room : 32 ≤ size) :
    ∃ out', calcDf ctx data len out = some (0, out') ∧
      out'.toList = (Sm3.sm3 (data.take len.toNat)).toList ++ out.toList.drop 32 := by
  obtain ⟨ctx', update, received⟩ := received_update (received_init ctx) data len readable (by simp; omega)
    (by simp; omega)
  rw [List.nil_append] at received
  have final := sm3Final_sm3 received (by rw [List.length_take]; omega)
  obtain ⟨out', stored, list⟩ := store_run out 0 (Sm3.sm3 (data.take len.toNat)).toList (by simpa using room)
  refine ⟨out', ?_, ?_⟩
  · simp only [calcDf, if_neg nonempty, update, final, stored, Option.bind_eq_bind, Option.bind_some]
    rfl
  · rw [list, List.take_zero, List.nil_append, Vector.length_toList]

theorem srandSm3Reseed_none {w : World} (refused : w.malloc (1 + 10 + 512) = none) (s : SrandSm3) :
    srandSm3Reseed s w = some (2, s) := by
  simp only [srandSm3Reseed, refused]

/-- The string behind `V` after a reseed. -/
def reseedMessage (pool : Vector UInt32 128) : Bytes :=
  [0x01, 0x31, 0x35, 0x39, 0x33, 0x35, 0x37, 0x37, 0x38, 0x31, 0x31] ++ poolBytes pool

theorem srandSm3Reseed_run {w : World} {data : Vector UInt8 (1 + 10 + 512)} (granted : w.malloc (1 + 10 + 512) = some data)
    (s : SrandSm3) : ∃ V pool, srandSm3Reseed s w =
        some (0, { s with V := V, pool := pool, reseedLastTime := w.time, outCnt := 1 }) ∧
      calcPool w.entropy s.pool = some pool ∧
        V.toList = (Sm3.sm3 (reseedMessage pool)).toList ++ s.V.toList.drop 32 := by
  have size : data.toList.length = 523 := Vector.length_toList
  obtain ⟨pool, pooled⟩ := calcPool_run w.entropy s.pool
  obtain ⟨d₁, s₁, l₁⟩ := put_run data (show 0 < 1 + 10 + 512 by decide) 0x01
  obtain ⟨d₂, s₂, l₂⟩ := store_run d₁ 1 [0x31, 0x35, 0x39, 0x33, 0x35, 0x37, 0x37, 0x38, 0x31, 0x31] (by decide)
  obtain ⟨d₃, s₃, l₃⟩ := store_run d₂ (1 + 10) (poolBytes pool) (by rw [length_poolBytes])
  obtain ⟨V, hashed, list⟩ := calcDf_run w.ctx d₃.toList (1 + 10 + 512) (by decide)
    (by rw [Vector.length_toList]; decide) (by decide) s.V (by decide)
  have message : d₃.toList.take (1 + 10 + 512 : UInt32).toNat = reseedMessage pool := by
    obtain ⟨first, rest, parts⟩ : ∃ first rest, data.toList = first :: rest := List.exists_cons_of_length_pos (by omega)
    have front : d₂.toList.take (1 + 10) = [0x01, 0x31, 0x35, 0x39, 0x33, 0x35, 0x37, 0x37, 0x38, 0x31, 0x31] := by
      rw [l₂, l₁, parts]
      rfl
    have all : (1 + 10 + 512 : UInt32).toNat = d₃.toList.length := by rw [Vector.length_toList]; rfl
    have spent : d₂.toList.drop (1 + 10 + (poolBytes pool).length) = [] :=
      List.drop_of_length_le (by rw [length_poolBytes, Vector.length_toList])
    rw [all, List.take_length, l₃, front, spent, List.append_nil, reseedMessage]
  rw [message] at list
  refine ⟨V, pool, ?_, pooled, list⟩
  simp only [srandSm3Reseed, granted, pooled, s₁, s₂, s₃, hashed, Option.bind_eq_bind, Option.bind_some]
  rfl

/-- The string behind an output block: a tag, what `malloc` left in 23 octets of the work buffer, and `V`. -/
def workMessage (data : Vector UInt8 (1 + 32 + 512)) (V : Bytes) : Bytes :=
  [0x02, 0x31, 0x34, 0x37, 0x32, 0x35, 0x38, 0x33, 0x36, 0x39] ++ (data.toList.drop 10).take 23 ++ V

theorem produce_run (s : SrandSm3) (ctx : Sm3Ctx) (data : Vector UInt8 (1 + 32 + 512)) :
    ∃ V, s.produce ctx data = some (Sm3.sm3 (workMessage data s.V.toList), { s with V := V, outCnt := s.outCnt + 1 }) ∧
      V.toList = (Sm3.sm3 (workMessage data s.V.toList)).toList ++ s.V.toList.drop 32 := by
  have size : data.toList.length = 545 := Vector.length_toList
  obtain ⟨d₁, s₁, l₁⟩ := put_run data (show 0 < 1 + 32 + 512 by decide) 0x02
  obtain ⟨d₂, s₂, l₂⟩ := store_run d₁ 1 [0x31, 0x34, 0x37, 0x32, 0x35, 0x38, 0x33, 0x36, 0x39] (by decide)
  obtain ⟨d₃, s₃, l₃⟩ := store_run d₂ (1 + 32) s.V.toList (by rw [Vector.length_toList])
  have message : d₃.toList.take (1 + 32 + 512 : UInt32).toNat = workMessage data s.V.toList := by
    obtain ⟨first, rest, parts⟩ : ∃ first rest, data.toList = first :: rest := List.exists_cons_of_length_pos (by omega)
    have front : d₂.toList.take (1 + 32) =
        [0x02, 0x31, 0x34, 0x37, 0x32, 0x35, 0x38, 0x33, 0x36, 0x39] ++ (data.toList.drop 10).take 23 := by
      rw [l₂, l₁, parts]
      rfl
    have all : (1 + 32 + 512 : UInt32).toNat = d₃.toList.length := by rw [Vector.length_toList]; rfl
    have spent : d₂.toList.drop (1 + 32 + s.V.toList.length) = [] := List.drop_of_length_le (by simp)
    rw [all, List.take_length, l₃, front, spent, List.append_nil, workMessage]
  obtain ⟨hash, hashed, l₄⟩ := calcDf_run ctx d₃.toList (1 + 32 + 512) (by decide)
    (by rw [Vector.length_toList]; decide) (by decide) (Vector.replicate 32 0) le_rfl
  have digest : hash = Sm3.sm3 (workMessage data s.V.toList) := by
    rw [message, List.drop_of_length_le (by simp), List.append_nil] at l₄
    exact Vector.toList_inj.mp l₄
  obtain ⟨V, stored, l₅⟩ := store_run s.V 0 hash.toList (by simp)
  refine ⟨V, ?_, ?_⟩
  · rw [← digest]
    simp only [SrandSm3.produce, s₁, s₂, s₃, hashed, stored, Option.bind_eq_bind, Option.bind_some]
    rfl
  · rw [l₅, ← digest, List.take_zero, List.nil_append, Vector.length_toList]

theorem init_run (s : SrandSm3) {w : World} {nonce bytes : Bytes} {nonceLen : UInt16} (nonempty : nonceLen ≠ 0)
    (small : ¬ 512 < nonceLen) {data : Vector UInt8 (nonceLen.toNat + 512)}
    (granted : w.malloc (nonceLen.toNat + 512) = some data) (readable : nonce.read nonceLen.toNat = some bytes) :
    ∃ V pool, srandSm3Init s w (some nonce) nonceLen = some (0, ⟨V, w.time, 1, 1024, 60, pool⟩) ∧
      V.toList.drop 32 = List.replicate 480 0 := by
  have short : nonceLen.toNat ≤ 512 := UInt16.le_iff_toNat_le.mp (UInt16.not_lt.mp small)
  have total : (nonceLen.toUInt32 + 512).toNat = nonceLen.toNat + 512 := by
    have constant : (512 : UInt32).toNat = 512 := rfl
    rw [UInt32.toNat_add, UInt16.toNat_toUInt32, constant]
    omega
  have positive : nonceLen.toUInt32 + 512 ≠ 0 := by
    intro zero
    rw [zero] at total
    exact absurd total (by simp)
  obtain ⟨-, -, length⟩ := Bytes.read_eq_some readable
  obtain ⟨pool, pooled⟩ := calcPool_run w.entropy (Vector.replicate 128 0)
  obtain ⟨d₁, s₁, -⟩ := store_run data 0 (poolBytes pool) (by rw [length_poolBytes]; omega)
  obtain ⟨d₂, s₂, -⟩ := store_run d₁ 512 bytes (by omega)
  obtain ⟨V, hashed, list⟩ := calcDf_run w.ctx d₂.toList (nonceLen.toUInt32 + 512) positive
    (by rw [Vector.length_toList, total]) (by rw [total]; omega) (Vector.replicate 512 0) (by decide)
  refine ⟨V, pool, ?_, ?_⟩
  · simp only [srandSm3Init, if_neg nonempty, if_neg small, granted, pooled, s₁, readable, s₂, hashed,
      Option.bind_eq_bind, Option.bind_some]
    rfl
  · rw [list, List.drop_left' Vector.length_toList, Vector.toList_replicate, List.drop_replicate]

/-- Either the initialisation is refused and nothing changes, or the counter starts at 1 and
`V` holds a digest and zeros. -/
theorem init_cases {s s' : SrandSm3} {w : World} {pnonce : Option Bytes} {nonceLen : UInt16} {code : ℕ}
    (run : srandSm3Init s w pnonce nonceLen = some (code, s')) :
    code ≠ 0 ∧ s' = s ∨ code = 0 ∧ ∃ V pool, s' = ⟨V, w.time, 1, 1024, 60, pool⟩ ∧
      V.toList.drop 32 = List.replicate 480 0 := by
  have refused {error : ℕ} (nonzero : error ≠ 0) (run : some (error, s) = some (code, s')) : code ≠ 0 ∧ s' = s := by
    obtain ⟨rfl, rfl⟩ := Prod.mk.inj (Option.some.inj run)
    exact ⟨nonzero, rfl⟩
  cases pnonce with
  | none => exact .inl (refused (by decide) run)
  | some nonce =>
    by_cases empty : nonceLen = 0
    · rw [srandSm3Init, if_pos empty] at run
      exact .inl (refused (by decide) run)
    by_cases large : 512 < nonceLen
    · rw [srandSm3Init, if_neg empty, if_pos large] at run
      exact .inl (refused (by decide) run)
    cases granted : w.malloc (nonceLen.toNat + 512) with
    | none =>
      simp only [srandSm3Init, if_neg empty, if_neg large, granted] at run
      exact .inl (refused (by decide) run)
    | some data =>
      cases readable : nonce.read nonceLen.toNat with
      | none =>
        simp [srandSm3Init, if_neg empty, if_neg large, granted, readable] at run
      | some bytes =>
        obtain ⟨V, pool, accepted, zeros⟩ := init_run s empty large granted readable
        obtain ⟨rfl, rfl⟩ := Prod.mk.inj (Option.some.inj (accepted.symm.trans run))
        exact .inr ⟨rfl, V, pool, rfl, zeros⟩

theorem reseed_cases {s s' : SrandSm3} {w : World} {code : ℕ} (run : srandSm3Reseed s w = some (code, s')) :
    s' = s ∧ w.malloc (1 + 10 + 512) = none ∨
      ∃ V pool, s' = { s with V := V, pool := pool, reseedLastTime := w.time, outCnt := 1 } := by
  cases granted : w.malloc (1 + 10 + 512) with
  | none =>
    rw [srandSm3Reseed_none granted] at run
    obtain ⟨-, rfl⟩ := Prod.mk.inj (Option.some.inj run)
    exact .inl ⟨rfl, rfl⟩
  | some data =>
    obtain ⟨V, pool, accepted, -⟩ := srandSm3Reseed_run granted s
    obtain ⟨-, rfl⟩ := Prod.mk.inj (Option.some.inj (accepted.symm.trans run))
    exact .inr ⟨V, pool, rfl⟩

theorem refresh_cases {s s' : SrandSm3} {w : World} {time : UInt64} (run : s.refresh w time = some s') :
    s' = s ∧ (s.stale time = false ∨ w.malloc (1 + 10 + 512) = none) ∨
      ∃ V pool, s' = { s with V := V, pool := pool, reseedLastTime := w.time, outCnt := 1 } := by
  unfold SrandSm3.refresh at run
  cases old : s.stale time with
  | false =>
    rw [old] at run
    exact .inl ⟨(Option.some.inj run).symm, .inl rfl⟩
  | true =>
    rw [old, if_pos rfl] at run
    obtain ⟨⟨code, s''⟩, reseeded, rfl⟩ := Option.map_eq_some_iff.mp run
    rcases reseed_cases reseeded with ⟨same, refused⟩ | accepted
    · exact .inl ⟨same, .inr refused⟩
    · exact .inr accepted

theorem generate_run {s t : SrandSm3} {first w : World} {len : UInt32} {buffer : Bytes} (short : ¬ 32 < len)
    (room : len.toNat ≤ buffer.length) (refreshed : s.refresh first w.time = some t)
    {data : Vector UInt8 (1 + 32 + 512)} (granted : w.malloc (1 + 32 + 512) = some data) :
    ∃ V buffer', srandSm3Generate s first w len (some buffer) =
        some (0, some buffer', { t with V := V, outCnt := t.outCnt + 1 }) ∧
      buffer'.take len.toNat = (Sm3.sm3 (workMessage data t.V.toList)).toList.take len.toNat := by
  obtain ⟨V, produced, -⟩ := produce_run t w.ctx data
  have size : ((Sm3.sm3 (workMessage data t.V.toList)).toList.take len.toNat).length = len.toNat := by
    have small : len.toNat ≤ 32 := UInt32.le_iff_toNat_le.mp (UInt32.not_lt.mp short)
    rw [List.length_take, Vector.length_toList, Nat.min_eq_left small]
  have written := Bytes.write_fill [] buffer ((Sm3.sm3 (workMessage data t.V.toList)).toList.take len.toNat) 0 rfl
    (by rw [size]; exact room)
  rw [List.nil_append, List.nil_append, size] at written
  refine ⟨V, (Sm3.sm3 (workMessage data t.V.toList)).toList.take len.toNat ++ buffer.drop len.toNat, ?_,
    List.take_left' size⟩
  simp only [srandSm3Generate, if_neg short, refreshed, granted, produced, written, Option.bind_eq_bind, Option.bind_some]
  rfl

/-- A call is rejected, or it asks for a reseed where one is due and then either finds no
memory or puts out a digest. -/
theorem generate_cases {s s' : SrandSm3} {first w : World} {len : UInt32} {out out' : Option Bytes} {code : ℕ}
    (run : srandSm3Generate s first w len out = some (code, out', s')) :
    (out = none ∨ 32 < len) ∧ code = 1 ∧ s' = s ∨
    ∃ buffer t, out = some buffer ∧ ¬ 32 < len ∧ s.refresh first w.time = some t ∧
      (w.malloc (1 + 32 + 512) = none ∧ code = 2 ∧ s' = t ∨
        ∃ data V, w.malloc (1 + 32 + 512) = some data ∧ code = 0 ∧
          buffer.write 0 ((Sm3.sm3 (workMessage data t.V.toList)).toList.take len.toNat) = out' ∧
          s' = { t with V := V, outCnt := t.outCnt + 1 } ∧
          V.toList = (Sm3.sm3 (workMessage data t.V.toList)).toList ++ t.V.toList.drop 32) := by
  cases out with
  | none =>
    obtain ⟨rfl, -, rfl⟩ := by simpa [srandSm3Generate] using run
    exact .inl ⟨.inl rfl, rfl, rfl⟩
  | some buffer =>
    by_cases long : 32 < len
    · rw [srandSm3Generate, if_pos long] at run
      obtain ⟨rfl, -, rfl⟩ := by simpa using run
      exact .inl ⟨.inr long, rfl, rfl⟩
    rw [srandSm3Generate, if_neg long] at run
    obtain ⟨t, refreshed, run⟩ := Option.bind_eq_some_iff.mp run
    refine .inr ⟨buffer, t, rfl, long, refreshed, ?_⟩
    cases granted : w.malloc (1 + 32 + 512) with
    | none =>
      simp only [granted] at run
      obtain ⟨rfl, -, rfl⟩ := by simpa using run
      exact .inl ⟨rfl, rfl, rfl⟩
    | some data =>
      obtain ⟨V, produced, list⟩ := produce_run t w.ctx data
      simp only [granted, produced, Option.bind_eq_bind, Option.bind_some] at run
      obtain ⟨buffer', written, run⟩ := Option.bind_eq_some_iff.mp run
      obtain ⟨rfl, rfl, rfl⟩ := by simpa using run
      exact .inr ⟨data, V, rfl, rfl, written, rfl, list⟩

end MyTools.SocketRandom
