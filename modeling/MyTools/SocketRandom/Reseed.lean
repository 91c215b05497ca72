import MyTools.SocketRandom.Generator

/-! Runs of the generator: how far the counter of output blocks gets between two
reseeds, and what a block tells about the next one. -/
namespace MyTools.SocketRandom
open Library

inductive Call
  | init (w : World) (pnonce : Option Bytes) (nonceLen : UInt16)
  | reseed (w : World)
  | generate (first w : World) (len : UInt32) (out : Option Bytes)

def Call.after (s : SrandSm3) : Call → Option SrandSm3
  | .init w pnonce nonceLen => (srandSm3Init s w pnonce nonceLen).map fun (_, s) => s
  | .reseed w => (srandSm3Reseed s w).map fun (_, s) => s
  | .generate first w len out => (srandSm3Generate s first w len out).map fun (_, _, s) => s

def Takes (s : SrandSm3) (call : Call) (s' : SrandSm3) : Prop := call.after s = some s'

theorem takes_init {s s' : SrandSm3} {w : World} {pnonce : Option Bytes} {nonceLen : UInt16}
    (taken : Takes s (.init w pnonce nonceLen) s') :
    s' = s ∨ ∃ V pool, s' = ⟨V, w.time, 1, 1024, 60, pool⟩ := by
  rw [Takes, Call.after] at taken
  obtain ⟨⟨code, s''⟩, run, rfl⟩ := Option.map_eq_some_iff.mp taken
  rcases init_cases run with ⟨-, same⟩ | ⟨-, V, pool, started, -⟩
  · exact .inl same
  · exact .inr ⟨V, pool, started⟩

theorem takes_reseed {s s' : SrandSm3} {w : World} (taken : Takes s (.reseed w) s') :
    s' = s ∨ ∃ V pool, s' = { s with V := V, pool := pool, reseedLastTime := w.time, outCnt := 1 } := by
  rw [Takes, Call.after] at taken
  obtain ⟨⟨code, s''⟩, run, rfl⟩ := Option.map_eq_some_iff.mp taken
  rcases reseed_cases run with ⟨same, -⟩ | reseeded
  · exact .inl same
  · exact .inr reseeded

theorem takes_generate {s s' : SrandSm3} {first w : World} {len : UInt32} {out : Option Bytes}
    (taken : Takes s (.generate first w len out) s') :
    (out = none ∨ 32 < len) ∧ s' = s ∨ ∃ t, out ≠ none ∧ len ≤ 32 ∧ s.refresh first w.time = some t ∧
      (w.malloc (1 + 32 + 512) = none ∧ s' = t ∨
        w.malloc (1 + 32 + 512) ≠ none ∧ ∃ V, s' = { t with V := V, outCnt := t.outCnt + 1 }) := by
  rw [Takes, Call.after] at taken
  obtain ⟨⟨code, out', s''⟩, run, rfl⟩ := Option.map_eq_some_iff.mp taken
  rcases generate_cases run with ⟨rejected, -, same⟩ | ⟨buffer, t, rfl, short, refreshed, ⟨refused, -, same⟩ |
    ⟨data, V, granted, -, -, next, -⟩⟩
  · exact .inl ⟨rejected, same⟩
  · exact .inr ⟨t, Option.some_ne_none _, UInt32.not_lt.mp short, refreshed, .inl ⟨refused, same⟩⟩
  · exact .inr ⟨t, Option.some_ne_none _, UInt32.not_lt.mp short, refreshed, .inr ⟨by simp [granted], V, next⟩⟩

theorem takes_of_generate {s s' : SrandSm3} {first w : World} {len : UInt32} {out out' : Option Bytes} {code : ℕ}
    (run : srandSm3Generate s first w len out = some (code, out', s')) : Takes s (.generate first w len out) s' := by
  rw [Takes, Call.after, run, Option.map_some]

/-! The reseed limit. -/

def InBounds (s : SrandSm3) : Prop := 1 ≤ s.outCnt ∧ s.outCnt ≤ s.outMaxTimes

/-- At the limit the reseed finds no memory, and the output block does. -/
def Call.Overruns (s : SrandSm3) : Call → Prop
  | .generate first w len out => out ≠ none ∧ len ≤ 32 ∧ s.outMaxTimes ≤ s.outCnt ∧
      first.malloc (1 + 10 + 512) = none ∧ w.malloc (1 + 32 + 512) ≠ none
  | _ => False

theorem takes_outMaxTimes {s s' : SrandSm3} {call : Call} (limit : s.outMaxTimes = 1024) (taken : Takes s call s') :
    s'.outMaxTimes = 1024 := by
  cases call with
  | init w pnonce nonceLen =>
    rcases takes_init taken with rfl | ⟨V, pool, rfl⟩
    · exact limit
    · rfl
  | reseed w =>
    rcases takes_reseed taken with rfl | ⟨V, pool, rfl⟩
    · exact limit
    · exact limit
  | generate first w len out =>
    rcases takes_generate taken with ⟨-, rfl⟩ | ⟨t, -, -, run, next⟩
    · exact limit
    · have refreshed : t.outMaxTimes = 1024 := by
        rcases refresh_cases run with ⟨rfl, -⟩ | ⟨V, pool, rfl⟩
        · exact limit
        · exact limit
      rcases next with ⟨-, rfl⟩ | ⟨-, V, rfl⟩
      · exact refreshed
      · exact refreshed

theorem inBounds_iff_toNat {s : SrandSm3} (limit : s.outMaxTimes = 1024) :
    InBounds s ↔ 1 ≤ s.outCnt.toNat ∧ s.outCnt.toNat ≤ 1024 := by
  rw [InBounds, limit, UInt32.le_iff_toNat_le, UInt32.le_iff_toNat_le]
  rfl

theorem toNat_succ {count : UInt32} (small : count.toNat ≤ 1024) : (count + 1).toNat = count.toNat + 1 := by
  have one : (1 : UInt32).toNat = 1 := rfl
  rw [UInt32.toNat_add, one]
  omega

theorem takes_inBounds {s s' : SrandSm3} {call : Call} (limit : s.outMaxTimes = 1024) (bounds : InBounds s)
    (within : ¬ call.Overruns s) (taken : Takes s call s') : InBounds s' := by
  have limit' := takes_outMaxTimes limit taken
  rw [inBounds_iff_toNat limit] at bounds
  rw [inBounds_iff_toNat limit']
  cases call with
  | init w pnonce nonceLen =>
    rcases takes_init taken with rfl | ⟨V, pool, rfl⟩
    · exact bounds
    · exact ⟨le_rfl, show (1 : UInt32).toNat ≤ 1024 by decide⟩
  | reseed w =>
    rcases takes_reseed taken with rfl | ⟨V, pool, rfl⟩
    · exact bounds
    · exact ⟨le_rfl, show (1 : UInt32).toNat ≤ 1024 by decide⟩
  | generate first w len out =>
    rcases takes_generate taken with ⟨-, rfl⟩ | ⟨t, valid, short, run, next⟩
    · exact bounds
    · -- after the reseed that was asked for there is room for one block more, unless memory ran out
      have room : 1 ≤ t.outCnt.toNat ∧ t.outCnt.toNat ≤ 1024 ∧
          (w.malloc (1 + 32 + 512) ≠ none → t.outCnt.toNat < 1024) := by
        rcases refresh_cases run with ⟨rfl, kept⟩ | ⟨V, pool, rfl⟩
        · refine ⟨bounds.1, bounds.2, fun granted => ?_⟩
          by_contra full
          have reached : t.outMaxTimes ≤ t.outCnt := by
            rw [limit, UInt32.le_iff_toNat_le]
            exact Nat.not_lt.mp full
          rcases kept with fresh | refused
          · simp [SrandSm3.stale, reached] at fresh
          · exact within ⟨valid, short, reached, refused, granted⟩
        · exact ⟨le_rfl, show (1 : UInt32).toNat ≤ 1024 by decide, fun _ => show (1 : UInt32).toNat < 1024 by decide⟩
      rcases next with ⟨-, rfl⟩ | ⟨granted, V, rfl⟩
      · exact ⟨room.1, room.2.1⟩
      · have step := toNat_succ room.2.1
        have below := room.2.2 granted
        exact ⟨by rw [step]; omega, by rw [step]; omega⟩

theorem not_inBounds_of_overruns {s s' : SrandSm3} {call : Call} (limit : s.outMaxTimes = 1024) (bounds : InBounds s)
    (overruns : call.Overruns s) (taken : Takes s call s') : ¬ InBounds s' := by
  have limit' := takes_outMaxTimes limit taken
  rw [inBounds_iff_toNat limit] at bounds
  rw [inBounds_iff_toNat limit']
  cases call with
  | init w pnonce nonceLen => exact overruns.elim
  | reseed w => exact overruns.elim
  | generate first w len out =>
    obtain ⟨valid, short, reached, refused, granted⟩ := overruns
    rw [limit, UInt32.le_iff_toNat_le] at reached
    have full : s.outCnt.toNat = 1024 := Nat.le_antisymm bounds.2 reached
    rcases takes_generate taken with ⟨rejected, -⟩ | ⟨t, -, -, run, ⟨none, -⟩ | ⟨-, V, rfl⟩⟩
    · rcases rejected with null | long
      · exact absurd null valid
      · exact absurd long (UInt32.not_lt.mpr short)
    · exact absurd none granted
    · have kept : t = s := by
        unfold SrandSm3.refresh at run
        split at run
        · rw [srandSm3Reseed_none refused] at run
          exact (Option.some.inj run).symm
        · exact (Option.some.inj run).symm
      subst kept
      rw [toNat_succ bounds.2, full]
      exact fun inside => absurd inside.2 (by decide)

/-- The counter stays in its bounds exactly in the runs in which no call overruns. -/
theorem outCnt_inBounds_iff {s₀ s s' : SrandSm3} {w : World} {pnonce : Option Bytes} {nonceLen : UInt16}
    {past : List (SrandSm3 × Call)} (started : srandSm3Init s₀ w pnonce nonceLen = some (0, s))
    (run : Run Takes s past s') :
    (InBounds s' ∧ ∀ t call, (t, call) ∈ past → InBounds t) ↔ ∀ t call, (t, call) ∈ past → ¬ call.Overruns t := by
  obtain ⟨limit, bounds⟩ : s.outMaxTimes = 1024 ∧ InBounds s := by
    rcases init_cases started with ⟨nonzero, -⟩ | ⟨-, V, pool, rfl, -⟩
    · exact absurd rfl nonzero
    · exact ⟨rfl, (inBounds_iff_toNat rfl).mpr ⟨le_rfl, show (1 : UInt32).toNat ≤ 1024 by decide⟩⟩
  have limits {past : List (SrandSm3 × Call)} {t : SrandSm3} (run : Run Takes s past t) : t.outMaxTimes = 1024 :=
    run.keeps (fun t => t.outMaxTimes = 1024) (fun _ _ => True) limit (fun _ _ _ limit _ taken => takes_outMaxTimes limit taken)
      (fun _ _ _ => trivial)
  have within {past : List (SrandSm3 × Call)} {t : SrandSm3} (run : Run Takes s past t)
      (steps : ∀ t call, (t, call) ∈ past → ¬ call.Overruns t) : t.outMaxTimes = 1024 ∧ InBounds t :=
    run.keeps (fun t => t.outMaxTimes = 1024 ∧ InBounds t) _ ⟨limit, bounds⟩ (fun t call t' holds allowed taken =>
      ⟨takes_outMaxTimes holds.1 taken, takes_inBounds holds.1 holds.2 allowed taken⟩) steps
  constructor
  · rintro ⟨last, all⟩ t call member overruns
    obtain ⟨before, -, shorter⟩ := run.reached member
    obtain ⟨t', taken, rfl | ⟨call', later⟩⟩ := run.successor member
    · exact not_inBounds_of_overruns (limits shorter) (all t call member) overruns taken last
    · exact not_inBounds_of_overruns (limits shorter) (all t call member) overruns taken (all t' call' later)
  · intro steps
    refine ⟨(within run steps).2, fun t call member => ?_⟩
    obtain ⟨before, inside, shorter⟩ := run.reached member
    exact (within shorter fun t call earlier => steps t call (inside.subset earlier)).2

/-! A run to the limit and past it. -/

/-- Memory for every request, a clock that stands still. -/
def calm : World := ⟨fun size => some (Vector.replicate size 0), zeroized, 0, 0⟩

def exhausted : World := { calm with malloc := fun _ => none }

def unset : SrandSm3 := ⟨Vector.replicate 512 0, 0, 0, 0, 0, Vector.replicate 128 0⟩

theorem calm_init : ∃ V pool, srandSm3Init unset calm (some [1]) 1 = some (0, ⟨V, 0, 1, 1024, 60, pool⟩) := by
  obtain ⟨V, pool, run, -⟩ := init_run unset (show (1 : UInt16) ≠ 0 by decide) (by decide)
    (show calm.malloc ((1 : UInt16).toNat + 512) = some _ from rfl) (show Bytes.read [1] (1 : UInt16).toNat = some [1] from rfl)
  exact ⟨V, pool, run⟩

theorem calm_fresh (V : Vector UInt8 512) (pool : Vector UInt32 128) {count : UInt32} (below : ¬ 1024 ≤ count) :
    SrandSm3.stale ⟨V, 0, count, 1024, 60, pool⟩ calm.time = false := by
  have early : ¬ (60 : UInt64) ≤ (0 - 0) / 1000000 := by decide
  rw [SrandSm3.stale, decide_eq_false below]
  exact decide_eq_false early

theorem calm_refresh (V : Vector UInt8 512) (pool : Vector UInt32 128) (w : World) {count : UInt32}
    (below : ¬ 1024 ≤ count) : SrandSm3.refresh ⟨V, 0, count, 1024, 60, pool⟩ w calm.time =
      some ⟨V, 0, count, 1024, 60, pool⟩ := by
  rw [SrandSm3.refresh, calm_fresh V pool below]
  rfl

theorem calm_generate (V : Vector UInt8 512) (pool : Vector UInt32 128) {first : World} {count : UInt32}
    (refreshed : SrandSm3.refresh ⟨V, 0, count, 1024, 60, pool⟩ first calm.time = some ⟨V, 0, count, 1024, 60, pool⟩) :
    ∃ V', Takes ⟨V, 0, count, 1024, 60, pool⟩ (.generate first calm 32 (some (List.replicate 32 0)))
      ⟨V', 0, count + 1, 1024, 60, pool⟩ := by
  obtain ⟨V', buffer', run, -⟩ := generate_run (show ¬ (32 : UInt32) < 32 by decide)
    (show (32 : UInt32).toNat ≤ (List.replicate 32 (0 : UInt8)).length by decide) refreshed
    (show calm.malloc (1 + 32 + 512) = some _ from rfl)
  exact ⟨V', takes_of_generate run⟩

theorem calm_run (V : Vector UInt8 512) (pool : Vector UInt32 128) {count : ℕ} (small : count ≤ 1023) :
    ∃ past V', Run Takes ⟨V, 0, 1, 1024, 60, pool⟩ past ⟨V', 0, UInt32.ofNat (count + 1), 1024, 60, pool⟩ := by
  induction count with
  | zero => exact ⟨[], V, Run.initial⟩
  | succ count ih =>
    obtain ⟨past, V', run⟩ := ih (by omega)
    have below : ¬ 1024 ≤ UInt32.ofNat (count + 1) := by
      rw [UInt32.le_iff_toNat_le, UInt32.toNat_ofNat_of_lt' (show count + 1 < 2 ^ 32 by omega)]
      exact Nat.not_le.mpr (show count + 1 < 1024 by omega)
    obtain ⟨V'', taken⟩ := calm_generate V' pool (calm_refresh V' pool calm below)
    rw [← UInt32.ofNat_one, ← UInt32.ofNat_add] at taken
    exact ⟨_, V'', Run.next run taken⟩

/-- The run to the limit puts out 1023 blocks. -/
theorem outCnt_inBounds_calm : ∃ s past s', s.outCnt = 1 ∧ s'.outCnt = 1024 ∧ Run Takes s past s' ∧
    ((InBounds s' ∧ ∀ t call, (t, call) ∈ past → InBounds t) ↔ ∀ t call, (t, call) ∈ past → ¬ call.Overruns t) := by
  obtain ⟨V, pool, started⟩ := calm_init
  obtain ⟨past, V', run⟩ := calm_run V pool le_rfl
  exact ⟨_, past, _, rfl, rfl, run, outCnt_inBounds_iff started run⟩

/-- At the limit a reseed that finds no memory goes unnoticed, and one block too many is put out. -/
theorem outCnt_leaves_bounds : ∃ s₀ s s' w pnonce nonceLen past, srandSm3Init s₀ w pnonce nonceLen = some (0, s) ∧
    Run Takes s past s' ∧ ¬ InBounds s' := by
  obtain ⟨V, pool, started⟩ := calm_init
  obtain ⟨past, V', run⟩ := calm_run V pool le_rfl
  obtain ⟨V'', taken⟩ := calm_generate V' pool (show SrandSm3.refresh ⟨V', 0, 1024, 1024, 60, pool⟩ exhausted calm.time = _ by
    rw [SrandSm3.refresh, srandSm3Reseed_none rfl]
    split <;> rfl)
  exact ⟨unset, _, _, calm, some [1], 1, _, started, Run.next run taken,
    show ¬ (_ ∧ (1024 + 1 : UInt32) ≤ 1024) from fun bounds => absurd bounds.2 (by decide)⟩

/-! What an output block tells about the next one. -/

/-- A call for 32 octets that puts out `block` without a reseed; `junk` is what its work buffer
held in the octets that are never written. -/
def Emits (junk : Bytes) (s : SrandSm3) (block : Bytes) (s' : SrandSm3) : Prop :=
  ∃ first w buffer buffer' data, srandSm3Generate s first w 32 (some buffer) = some (0, some buffer', s') ∧
    (s.stale w.time = false ∨ first.malloc (1 + 10 + 512) = none) ∧
    w.malloc (1 + 32 + 512) = some data ∧ (data.toList.drop 10).take 23 = junk ∧ buffer'.take 32 = block

/-- The state is reached from an initialisation by such calls, the last of which put out `block`. -/
def JustEmitted (junk : Bytes) (s : SrandSm3) (block : Bytes) : Prop :=
  ∃ s₀ s₁ w pnonce nonceLen past t, srandSm3Init s₀ w pnonce nonceLen = some (0, s₁) ∧
    Run (Emits junk) s₁ past t ∧ Emits junk t block s

/-- Two states have just put out the same block, and go on with different ones. -/
def HidesNext (junk : Bytes) : Prop :=
  ∃ s₁ s₂ block next₁ next₂ s₁' s₂', JustEmitted junk s₁ block ∧ JustEmitted junk s₂ block ∧
    Emits junk s₁ next₁ s₁' ∧ Emits junk s₂ next₂ s₂' ∧ next₁ ≠ next₂

def nextBlock (junk block : Bytes) : Bytes :=
  (Sm3.sm3 ([0x02, 0x31, 0x34, 0x37, 0x32, 0x35, 0x38, 0x33, 0x36, 0x39] ++ junk ++
    (block ++ List.replicate 480 0))).toList

theorem emits_spec {junk block : Bytes} {s s' : SrandSm3} (emits : Emits junk s block s') :
    block = (Sm3.sm3 ([0x02, 0x31, 0x34, 0x37, 0x32, 0x35, 0x38, 0x33, 0x36, 0x39] ++ junk ++ s.V.toList)).toList ∧
      s'.V.toList = block ++ s.V.toList.drop 32 := by
  obtain ⟨first, w, buffer, buffer', data, run, kept, granted, rfl, rfl⟩ := emits
  rcases generate_cases run with ⟨-, wrong, -⟩ | ⟨buffer₀, t, same, -, refreshed, ⟨-, wrong, -⟩ |
    ⟨data', V, granted', -, written, rfl, list⟩⟩
  · cases wrong
  · cases wrong
  obtain rfl := Option.some.inj same
  obtain rfl := Option.some.inj (granted.symm.trans granted')
  have unchanged : t = s := by
    unfold SrandSm3.refresh at refreshed
    rcases kept with fresh | refused
    · rw [fresh] at refreshed
      exact (Option.some.inj refreshed).symm
    · rw [srandSm3Reseed_none refused] at refreshed
      split at refreshed
      · exact (Option.some.inj refreshed).symm
      · exact (Option.some.inj refreshed).symm
  subst unchanged
  have digest : (Sm3.sm3 (workMessage data t.V.toList)).toList.take (32 : UInt32).toNat =
      (Sm3.sm3 (workMessage data t.V.toList)).toList := List.take_of_length_le (by simp)
  have block : buffer'.take 32 = (Sm3.sm3 (workMessage data t.V.toList)).toList := by
    rw [digest] at written
    obtain ⟨-, fits⟩ := Bytes.write_inside written
    have filled := Bytes.write_fill [] buffer (Sm3.sm3 (workMessage data t.V.toList)).toList 0 rfl (by omega)
    rw [List.nil_append, List.nil_append, written] at filled
    rw [Option.some.inj filled, List.take_left' (by simp)]
  rw [block, list]
  exact ⟨rfl, rfl⟩

/-- Without a reseed `V` is a block and zeros, so that it holds nothing that the block does not tell. -/
theorem justEmitted_V {junk block : Bytes} {s : SrandSm3} (emitted : JustEmitted junk s block) :
    s.V.toList = block ++ List.replicate 480 0 := by
  obtain ⟨s₀, s₁, w, pnonce, nonceLen, past, t, started, run, last⟩ := emitted
  have zeros : s₁.V.toList.drop 32 = List.replicate 480 0 := by
    rcases init_cases started with ⟨nonzero, -⟩ | ⟨-, V, pool, rfl, zeros⟩
    · exact absurd rfl nonzero
    · exact zeros
  have kept : t.V.toList.drop 32 = List.replicate 480 0 := by
    refine run.keeps (fun t => t.V.toList.drop 32 = List.replicate 480 0) (fun _ _ => True) zeros ?_ fun _ _ _ => trivial
    intro t block t' zeros _ emits
    obtain ⟨length, next⟩ := emits_spec emits
    rw [next, List.drop_left' (by rw [length, Vector.length_toList]), zeros]
  rw [(emits_spec last).2, kept]

theorem emits_next {junk block next : Bytes} {s s' : SrandSm3} (emitted : JustEmitted junk s block)
    (emits : Emits junk s next s') : next = nextBlock junk block := by
  rw [(emits_spec emits).1, justEmitted_V emitted, nextBlock]

theorem next_eq_of_emitted {junk block next₁ next₂ : Bytes} {s₁ s₂ s₁' s₂' : SrandSm3}
    (emitted₁ : JustEmitted junk s₁ block) (emitted₂ : JustEmitted junk s₂ block) (emits₁ : Emits junk s₁ next₁ s₁')
    (emits₂ : Emits junk s₂ next₂ s₂') : next₁ = next₂ := by
  rw [emits_next emitted₁ emits₁, emits_next emitted₂ emits₂]

theorem not_hidesNext (junk : Bytes) : ¬ HidesNext junk := by
  rintro ⟨_, _, _, _, _, _, _, emitted₁, emitted₂, emits₁, emits₂, different⟩
  exact different (next_eq_of_emitted emitted₁ emitted₂ emits₁ emits₂)

/-- Blocks are put out, and none of them hides the next one. -/
theorem calm_not_hidesNext : (∃ s block, JustEmitted (List.replicate 23 0) s block) ∧
    ¬ HidesNext (List.replicate 23 0) := by
  constructor
  · obtain ⟨V, pool, started⟩ := calm_init
    have below : ¬ (1024 : UInt32) ≤ 1 := by decide
    obtain ⟨V', buffer', run, -⟩ := generate_run (show ¬ (32 : UInt32) < 32 by decide)
      (show (32 : UInt32).toNat ≤ (List.replicate 32 (0 : UInt8)).length by decide)
      (calm_refresh V pool calm below)
      (show calm.malloc (1 + 32 + 512) = some _ from rfl)
    exact ⟨_, buffer'.take 32, unset, _, calm, some [1], 1, [], _, started, Run.initial,
      calm, calm, _, buffer', _, run,
      .inl (calm_fresh V pool below), rfl, rfl, rfl⟩
  · rintro ⟨_, _, _, _, _, _, _, emitted₁, emitted₂, emits₁, emits₂, different⟩
    exact different (next_eq_of_emitted emitted₁ emitted₂ emits₁ emits₂)

end MyTools.SocketRandom
