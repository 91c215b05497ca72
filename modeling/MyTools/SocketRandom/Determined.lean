import MyTools.SocketRandom.Reseed

/-! What the output depends on. A reseed hashes what it has written; an output block is hashed with
the octets 10 to 32 of its work buffer as `malloc` left them. -/
namespace MyTools.SocketRandom
open Library

/-- Two worlds that answer alike and may hold anything in their memory and in the local context. -/
structure World.Alike (w w' : World) : Prop where
  malloc : ∀ size, (w.malloc size).isSome = (w'.malloc size).isSome
  entropy : w.entropy = w'.entropy
  time : w.time = w'.time

/-- A call of `srand_sm3_generate`, with the worlds of its reseed and of its own. -/
structure Request where
  first : World
  w : World
  len : UInt32
  out : Option Bytes

def Request.serve (s : SrandSm3) (request : Request) : Option (ℕ × Option Bytes × SrandSm3) :=
  srandSm3Generate s request.first request.w request.len request.out

/-- The return codes and outputs of the calls, and the state after them. -/
def serveAll : SrandSm3 → List Request → Option (List (ℕ × Option Bytes) × SrandSm3)
  | s, [] => some ([], s)
  | s, request :: requests => do
    let (code, out, s) ← request.serve s
    let (answers, s) ← serveAll s requests
    some ((code, out) :: answers, s)

structure Request.Alike (request request' : Request) : Prop where
  first : request.first.Alike request'.first
  w : request.w.Alike request'.w
  len : request.len = request'.len
  out : request.out = request'.out

/-- The octets of the work buffer that are hashed and never written. -/
def World.unwritten (w : World) : Option Bytes :=
  (w.malloc (1 + 32 + 512)).map fun data => (data.toList.drop 10).take 23

/-- The call is rejected, or the octets it does not write are the same. -/
def Request.SameUnwritten (request request' : Request) : Prop :=
  request.out = none ∨ 32 < request.len ∨ request.w.unwritten = request'.w.unwritten

theorem World.Alike.both {w w' : World} (alike : w.Alike w') (size : ℕ) :
    w.malloc size = none ∧ w'.malloc size = none ∨
      ∃ data data', w.malloc size = some data ∧ w'.malloc size = some data' := by
  have same := alike.malloc size
  cases refused : w.malloc size with
  | none =>
    rw [refused] at same
    exact .inl ⟨rfl, Option.isSome_eq_false_iff.mp same.symm |> Option.isNone_iff_eq_none.mp⟩
  | some data =>
    rw [refused] at same
    obtain ⟨data', granted⟩ := Option.isSome_iff_exists.mp same.symm
    exact .inr ⟨data, data', rfl, granted⟩

theorem reseed_alike {w w' : World} (alike : w.Alike w') (s : SrandSm3) : srandSm3Reseed s w = srandSm3Reseed s w' := by
  rcases alike.both (1 + 10 + 512) with ⟨refused, refused'⟩ | ⟨data, data', granted, granted'⟩
  · rw [srandSm3Reseed_none refused, srandSm3Reseed_none refused']
  · obtain ⟨V, pool, run, pooled, list⟩ := srandSm3Reseed_run granted s
    obtain ⟨V', pool', run', pooled', list'⟩ := srandSm3Reseed_run granted' s
    rw [← alike.entropy, pooled, Option.some.injEq] at pooled'
    subst pooled'
    have same : V = V' := Vector.toList_inj.mp (list.trans list'.symm)
    rw [run, run', same, alike.time]

theorem refresh_alike {w w' : World} (alike : w.Alike w') (s : SrandSm3) (time : UInt64) :
    s.refresh w time = s.refresh w' time := by
  rw [SrandSm3.refresh, SrandSm3.refresh, reseed_alike alike]

theorem workMessage_eq_iff (data data' : Vector UInt8 (1 + 32 + 512)) (V : Bytes) :
    workMessage data V = workMessage data' V ↔ (data.toList.drop 10).take 23 = (data'.toList.drop 10).take 23 := by
  rw [workMessage, workMessage, List.append_left_inj, List.append_right_inj]

/-- The state and the block depend on the unwritten octets, and on no others of the work buffer. -/
theorem produce_alike (s : SrandSm3) (ctx ctx' : Sm3Ctx) {data data' : Vector UInt8 (1 + 32 + 512)}
    (unwritten : (data.toList.drop 10).take 23 = (data'.toList.drop 10).take 23) :
    s.produce ctx data = s.produce ctx' data' := by
  have message := (workMessage_eq_iff data data' s.V.toList).mpr unwritten
  obtain ⟨V, run, list⟩ := produce_run s ctx data
  obtain ⟨V', run', list'⟩ := produce_run s ctx' data'
  rw [message] at run list
  have same : V = V' := Vector.toList_inj.mp (list.trans list'.symm)
  rw [run, run', same]

theorem serve_alike {request request' : Request} (alike : request.Alike request')
    (unwritten : request.SameUnwritten request') (s : SrandSm3) : request.serve s = request'.serve s := by
  obtain ⟨first, w, len, out⟩ := request
  obtain ⟨first', w', len', out'⟩ := request'
  obtain ⟨first_alike, w_alike, rfl, rfl⟩ := alike
  dsimp only at first_alike w_alike
  rw [Request.serve, Request.serve]
  cases out with
  | none => rfl
  | some buffer =>
    by_cases long : 32 < len
    · rw [srandSm3Generate, if_pos long, srandSm3Generate, if_pos long]
    · have same : w.unwritten = w'.unwritten := by
        rcases unwritten with absent | large | same
        · cases absent
        · exact absurd large long
        · exact same
      simp only [srandSm3Generate, if_neg long, refresh_alike first_alike, w_alike.time]
      rcases w_alike.both (1 + 32 + 512) with ⟨refused, refused'⟩ | ⟨data, data', granted, granted'⟩
      · rw [refused, refused']
      · rw [World.unwritten, granted, World.unwritten, granted', Option.map_some, Option.map_some, Option.some.injEq] at same
        simp only [granted, granted', fun s => produce_alike s w.ctx w'.ctx same]

/-- In runs where the octets that are never written agree, the memory does not matter. -/
theorem serveAll_determined {requests requests' : List Request}
    (alike : List.Forall₂ (fun request request' => request.Alike request' ∧ request.SameUnwritten request') requests
      requests') (s : SrandSm3) : serveAll s requests = serveAll s requests' := by
  induction alike generalizing s with
  | nil => rfl
  | cons both rest ih =>
    rw [serveAll, serveAll, serve_alike both.1 both.2]
    congr 1
    funext ⟨code, out, s⟩
    dsimp only
    rw [ih]

/-- As `calm`, with other contents of the memory. -/
def noisy (f : ℕ → UInt8) : World := { calm with malloc := fun _ => some (Vector.ofFn fun i => f i.val) }

theorem noisy_alike (f g : ℕ → UInt8) : (noisy f).Alike (noisy g) := ⟨fun _ => rfl, rfl, rfl⟩

def oneOctet (w : World) : Request := ⟨calm, w, 1, some [0]⟩

def started : SrandSm3 := ⟨Vector.replicate 512 0, 0, 1, 1024, 60, Vector.replicate 128 0⟩

theorem oneOctet_alike (f g : ℕ → UInt8) : (oneOctet (noisy f)).Alike (oneOctet (noisy g)) :=
  ⟨⟨fun _ => rfl, rfl, rfl⟩, noisy_alike f g, rfl, rfl⟩

theorem serveAll_determined_noisy :
    serveAll started [oneOctet (noisy fun _ => 0)] = serveAll started [oneOctet (noisy fun i => if i < 10 then 1 else 0)] :=
  serveAll_determined (.cons ⟨oneOctet_alike _ _, .inr (.inr (by decide +kernel))⟩ .nil) started

theorem serveAll_oneOctet (f : ℕ → UInt8) : ∃ buffer s, serveAll started [oneOctet (noisy f)] = some ([(0, some buffer)], s) ∧
    buffer.take 1 = (Sm3.sm3 (workMessage (Vector.ofFn fun i => f i.val) (List.replicate 512 0))).toList.take 1 := by
  obtain ⟨V, buffer, served, octet⟩ := generate_run (w := noisy f) (show ¬ (32 : UInt32) < 1 by decide)
    (show (1 : UInt32).toNat ≤ ([0] : Bytes).length by decide)
    (calm_refresh (Vector.replicate 512 0) (Vector.replicate 128 0) calm (show ¬ (1024 : UInt32) ≤ 1 by decide))
    (show (noisy f).malloc (1 + 32 + 512) = some _ from rfl)
  rw [Vector.toList_replicate] at octet
  have first : (oneOctet (noisy f)).serve started =
      some (0, some buffer, { started with V := V, outCnt := started.outCnt + 1 }) := served
  refine ⟨buffer, { started with V := V, outCnt := started.outCnt + 1 }, ?_, octet⟩
  rw [serveAll, first, Option.bind_eq_bind, Option.bind_some]
  rfl

/-- What `malloc` left in the work buffer comes out. -/
theorem not_serveAll_determined :
    (oneOctet (noisy fun _ => 0)).Alike (oneOctet (noisy fun _ => 1)) ∧
      serveAll started [oneOctet (noisy fun _ => 0)] ≠ serveAll started [oneOctet (noisy fun _ => 1)] := by
  refine ⟨oneOctet_alike _ _, fun same => ?_⟩
  obtain ⟨zeros, s, run, octet⟩ := serveAll_oneOctet fun _ => 0
  obtain ⟨ones, s', run', octet'⟩ := serveAll_oneOctet fun _ => 1
  rw [run, run', Option.some.injEq, Prod.mk.injEq, List.cons.injEq, Prod.mk.injEq, Option.some.injEq] at same
  rw [same.1.1.2, octet'] at octet
  revert octet
  decide +kernel

end MyTools.SocketRandom
