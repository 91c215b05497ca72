import MyTools.Sm2.Agreement

/-! What the agreement routines compute of their arguments. A pending error of the
library reaches the next test of a point, which then fails. -/
namespace MyTools.Sm2
open Library MyTools.Sm2.Miracl

/-- The number that an argument denotes, unless the library refuses it or memory is harmed. -/
def Arg.number (arg : Arg) : OptionT Option ℕ := bigOf arg.len arg.ptr

theorem Arg.toBig_run (arg : Arg) (x : ℕ) : (arg.toBig x).run mirsys = arg.number.run.map afterRead :=
  bytesToBig_readable arg.readable x

theorem Arg.toBig_error {mip : Mip} (pending : mip.ERNUM ≠ 0) (arg : Arg) (x : ℕ) :
    (arg.toBig x).run mip = some (x, mip) := bytesToBig_error pending _ _ _

/-- The number `2 ^ 127 + (x & (2 ^ 127 - 1))` of the protocol. -/
def xbarOf (kxbuf : Octets) : ℕ := Bytes.value (truncated kxbuf)

theorem truncated_length (kxbuf : Octets) : (truncated kxbuf).length = 16 := by
  have length : (kxbuf.toList.drop 16).length = 16 := by simp
  unfold truncated
  split
  · rename_i empty
    rw [empty] at length
    cases length
  · rename_i first rest split
    rw [split] at length
    exact length

theorem xbarOf_lt (kxbuf : Octets) : xbarOf kxbuf < 2 ^ 256 := by
  have bound := Bytes.value_lt (truncated kxbuf)
  rw [truncated_length] at bound
  exact bound.trans (by decide)

@[simp] theorem truncated_run (kxbuf : Octets) (x : ℕ) :
    (bytesToBig 16 (truncated kxbuf) x).run mirsys = some (xbarOf kxbuf, mirsys) := by
  have run := bytesToBig_run (truncated kxbuf) (by rw [truncated_length]; decide) x
  rwa [truncated_length] at run

theorem bigToBytes_tooBig {x : ℕ} (large : ¬ x < 2 ^ 256) (ptr : Octets) :
    (bigToBytes x ptr).run mirsys = some ((0, ptr), ⟨tooBig⟩) := by
  have nonzero : x ≠ 0 := by
    rintro rfl
    exact large (by decide)
  simp only [bigToBytes, guarded_mirsys, if_neg nonzero, if_pos (Nat.not_lt.mp large)]
  rfl

/-- What `readEphemeral` reads, unless it fails or leaves an error pending. -/
def ephemeralOf (kx ky : Arg) (kxbuf kybuf : Octets) : OptionT Option Ephemeral := do
  let x ← kx.number
  let y ← ky.number
  let pt ← checked (pointOf x y)
  if x < 2 ^ 256 ∧ y < 2 ^ 256 then
    return ⟨filled x kxbuf, filled y kybuf, xbarOf (filled x kxbuf), pt⟩
  else failure

/-- The point `(kx, ky)` as it is tested. -/
def tested (kx ky : Arg) : OptionT Option Point := do
  let x ← kx.number
  let y ← ky.number
  checked (pointOf x y)

theorem tested_run (kx ky : Arg) : (tested kx ky).run = Option.elimM kx.number.run (some none) fun x =>
    Option.elimM ky.number.run (some none) fun y => some (pointOf x y) := by
  simp only [tested, OptionT.run_bind]
  rfl

theorem readEphemeral_error {mip : Mip} (pending : mip.ERNUM ≠ 0) (kx ky : Arg) (kxbuf kybuf : Octets) (g : Point) :
    (readEphemeral kx ky kxbuf kybuf g).run mip = some (none, mip) := by
  simp only [readEphemeral, StateT.run_bind, Arg.toBig_error pending, epointSet_error pending, Option.bind_eq_bind,
    Option.bind_some, if_true]
  rfl

private theorem overflow_pending : (Mip.mk overflow).ERNUM ≠ 0 := by decide
private theorem tooBig_pending : (Mip.mk tooBig).ERNUM ≠ 0 := by decide
private theorem valid : ¬ true = false := Bool.noConfusion

/-- How `readEphemeral` ends: with the point, with a jump or an error pending, or not at all. -/
def Reading (kx ky : Arg) (run : Option (Option Ephemeral × Mip)) : Option (Option Ephemeral) → Prop
  | some (some e) => run = some (some e, mirsys) ∧ (tested kx ky).run = some (some e.point) ∧ e.xbar = xbarOf e.kxbuf
  | some none => ∃ e mip, run = some (e, mip) ∧ (e = none ∨ mip.ERNUM ≠ 0) ∧ (e = none ↔ (tested kx ky).run = some none)
  | none => run = none ∧ (tested kx ky).run = none

theorem readEphemeral_run (kx ky : Arg) (kxbuf kybuf : Octets) (g : Point) :
    Reading kx ky ((readEphemeral kx ky kxbuf kybuf g).run mirsys) (ephemeralOf kx ky kxbuf kybuf).run := by
  have x_run := kx.toBig_run 0
  have y_run := ky.toBig_run 0
  have tested_run := tested_run kx ky
  simp only [readEphemeral, ephemeralOf, StateT.run_bind, OptionT.run_bind, Option.elimM, x_run]
  rcases hx : kx.number.run with _ | _ | x
  · rw [hx] at tested_run
    exact ⟨rfl, tested_run⟩
  · rw [hx] at tested_run
    simp only [Option.map_some, afterRead, Option.bind_eq_bind, Option.bind_some, Arg.toBig_error overflow_pending,
      epointSet_error overflow_pending, if_true]
    exact ⟨_, _, rfl, .inl rfl, iff_of_true rfl tested_run⟩
  rcases hy : ky.number.run with _ | _ | y
  · rw [hx, hy] at tested_run
    simp only [Option.map_some, afterRead, Option.bind_eq_bind, Option.bind_some, y_run, hy]
    exact ⟨rfl, tested_run⟩
  · rw [hx, hy] at tested_run
    simp only [Option.map_some, afterRead, Option.bind_eq_bind, Option.bind_some, y_run, hy,
      epointSet_error overflow_pending, if_true]
    exact ⟨_, _, rfl, .inl rfl, iff_of_true rfl tested_run⟩
  simp only [Option.elimM, hx, hy, Option.elim_some, Option.bind_eq_bind, Option.bind_some] at tested_run
  simp only [Option.map_some, afterRead, Option.bind_eq_bind, Option.bind_some, y_run, hy, epointSet_pointOf, checked,
    OptionT.run_mk, Option.elim_some]
  cases point : pointOf x y with
  | none =>
    rw [point] at tested_run
    exact ⟨_, _, rfl, .inl rfl, iff_of_true rfl tested_run⟩
  | some pt =>
    rw [point] at tested_run
    simp only [if_neg valid, StateT.run_bind, Option.bind_eq_bind, Option.elim_some]
    by_cases x_fits : x < 2 ^ 256
    · by_cases y_fits : y < 2 ^ 256
      · simp only [bigToBytes_filled x_fits, bigToBytes_filled y_fits, truncated_run, Option.bind_some,
          if_pos (And.intro x_fits y_fits)]
        exact ⟨rfl, tested_run, rfl⟩
      · simp only [bigToBytes_filled x_fits, bigToBytes_tooBig y_fits, bytesToBig_error tooBig_pending, Option.bind_some,
          if_neg (fun both : x < 2 ^ 256 ∧ y < 2 ^ 256 => y_fits both.2)]
        exact ⟨_, _, rfl, .inr tooBig_pending, iff_of_false nofun (by rw [tested_run]; nofun)⟩
    · simp only [bigToBytes_tooBig x_fits, bigToBytes_error tooBig_pending, bytesToBig_error tooBig_pending,
        Option.bind_some, if_neg (fun both : x < 2 ^ 256 ∧ y < 2 ^ 256 => x_fits both.1)]
      exact ⟨_, _, rfl, .inr tooBig_pending, iff_of_false nofun (by rw [tested_run]; nofun)⟩

theorem mad_error {mip : Mip} (pending : mip.ERNUM ≠ 0) (x y : ℕ) (z : Option ℕ) (w r : ℕ) :
    (mad x y z w r).run mip = some (r, mip) := guarded_error _ _ pending

theorem sharedPoint_run {xbar t : ℕ} (xbar_lt : xbar < 2 ^ 256) (t_lt : t < 2 ^ 256) (g w : Point) (x y : ℕ)
    (xubuf yubuf : Octets) : (sharedPoint xbar t g w x y xubuf yubuf).run mirsys =
      some (if t • (w + xbar • g) = 0 then none else
        some (filled (abscissa (t • (w + xbar • g))) xubuf, filled (ordinate (t • (w + xbar • g))) yubuf), mirsys) := by
  simp only [sharedPoint, StateT.run_bind, ecurveMult_run xbar_lt, ecurveMult_run t_lt, ecurveAdd_run,
    Option.bind_eq_bind, Option.bind_some]
  generalize t • (w + xbar • g) = pt
  by_cases infinity : pt = 0
  · have test : pointAtInfinity pt = true := by simpa [pointAtInfinity] using infinity
    rw [if_pos test, if_pos infinity]
    rfl
  · have test : ¬ pointAtInfinity pt = true := by simpa [pointAtInfinity] using infinity
    have x_lt := (abscissa_lt pt).trans p_lt
    have y_lt := (ordinate_lt pt).trans p_lt
    simp only [if_neg test, if_neg infinity, StateT.run_bind, epointGet_run, Option.bind_eq_bind, Option.bind_some,
      bigToBytes_filled x_lt, bigToBytes_filled y_lt]
    rfl

/-- The peers' ephemeral points, the own one first, and the point that is agreed on. -/
structure Agreed where
  own : Ephemeral
  peer : Ephemeral
  point : Point

theorem run_bind_eq_some {α β : Type} {first : OptionT Option α} {rest : α → OptionT Option β} {value : β}
    (run : (first >>= rest).run = some (some value)) : ∃ x, first.run = some (some x) ∧ (rest x).run = some (some value) := by
  rw [OptionT.run_bind, Option.elimM] at run
  rcases read : first.run with _ | _ | x
  · rw [read] at run
    cases run
  · rw [read] at run
    cases run
  · rw [read] at run
    exact ⟨x, rfl, run⟩

theorem finite_of_agreed {own peer : Ephemeral} {point : Point} {a : Agreed}
    (agreed : (if point = 0 then failure else return ⟨own, peer, point⟩ : OptionT Option Agreed).run = some (some a)) :
    a.point ≠ 0 := by
  split at agreed
  · cases agreed
  · next finite =>
    cases agreed
    exact finite

/-- The local arrays that an agreed point leaves. -/
def Agreed.derived (l : Locals) (agreed : Agreed) : Derived where
  kx1buf := agreed.own.kxbuf
  ky1buf := agreed.own.kybuf
  kx2buf := agreed.peer.kxbuf
  ky2buf := agreed.peer.kybuf
  xubuf := filled (abscissa agreed.point) l.xubuf
  yubuf := filled (ordinate agreed.point) l.yubuf

/-- The point `(d + xbar k) (pt + xbar' R')`, unless something is refused on the way. -/
def agreedOf (kx1 ky1 privateKey : Arg) (number : Ephemeral → OptionT Option ℕ) (kx2 ky2 x y : Arg) (l : Locals) :
    OptionT Option Agreed := do
  let own ← ephemeralOf kx1 ky1 l.kx1buf l.ky1buf
  let da ← privateKey.number
  let k ← number own
  let peer ← ephemeralOf kx2 ky2 l.kx2buf l.ky2buf
  let x ← x.number
  let y ← y.number
  let w ← checked (pointOf x y)
  let point := ((own.xbar * k + da) % n) • (w + peer.xbar • peer.point)
  if point = 0 then failure else return ⟨own, peer, point⟩

/-- A routine that reads a scalar, or leaves an error pending. -/
structure Reads (scalar : Miracl ℕ) (number : OptionT Option ℕ) : Prop where
  run : scalar.run mirsys = number.run.map afterRead
  error : ∀ mip : Mip, mip.ERNUM ≠ 0 → ∃ k, scalar.run mip = some (k, mip)

theorem Arg.reads (arg : Arg) (x : ℕ) : Reads (arg.toBig x) arg.number where
  run := arg.toBig_run x
  error _ pending := ⟨x, arg.toBig_error pending x⟩

/-! A refused argument ends a routine, at once or at the next test of a point. -/

section
variable {α : Type}

/-- What a routine returns, whatever error it leaves pending. -/
def Leaves (routine : Miracl (Option α)) (result : OptionT Option α) : Prop := call routine = result.run

/-- Under a pending error the routine has nothing to return. -/
def Strict (routine : Miracl (Option α)) : Prop :=
  ∀ mip : Mip, mip.ERNUM ≠ 0 → routine.run mip = some (none, mip)

theorem call_bind {β : Type} {first : Miracl β} {rest : β → Miracl α} {value : β} {mip : Mip}
    (run : first.run mirsys = some (value, mip)) : call (first >>= rest) = ((rest value).run mip).map Prod.fst := by
  rw [Miracl.call, StateT.run_bind, run]
  rfl

theorem call_bind_none {β : Type} {first : Miracl β} {rest : β → Miracl α} (run : first.run mirsys = none) :
    call (first >>= rest) = none := by
  rw [Miracl.call, StateT.run_bind, run]
  rfl

theorem Strict.call {routine : Miracl (Option α)} (strict : Strict routine) {mip : Mip} (pending : mip.ERNUM ≠ 0) :
    (routine.run mip).map Prod.fst = some none := by
  rw [strict mip pending]
  rfl

section
variable {scalar : Miracl ℕ} {number : OptionT Option ℕ} {rest : ℕ → Miracl (Option α)} {result : ℕ → OptionT Option α}

theorem Reads.strict (reads : Reads scalar number) (strict : ∀ k, Strict (rest k)) : Strict (do rest (← scalar)) := by
  intro mip pending
  obtain ⟨k, run⟩ := reads.error mip pending
  rw [StateT.run_bind, run, Option.bind_eq_bind, Option.bind_some]
  exact strict k mip pending

theorem Reads.leaves (reads : Reads scalar number) (strict : ∀ k, Strict (rest k))
    (leaves : ∀ k, Leaves (rest k) (result k)) : Leaves (do rest (← scalar)) (number >>= result) := by
  have run := reads.run
  rw [Leaves, OptionT.run_bind, Option.elimM]
  rcases known : number.run with _ | _ | k
  · rw [known] at run
    exact call_bind_none run
  · rw [known] at run
    exact (call_bind run).trans ((strict 0).call overflow_pending)
  · rw [known] at run
    exact (call_bind run).trans (leaves k)

end

theorem Strict.mad {rest : ℕ → Miracl (Option α)} (strict : ∀ value, Strict (rest value)) (x y : ℕ) (z : Option ℕ)
    (w r : ℕ) : Strict (do rest (← mad x y z w r)) := by
  intro mip pending
  rw [StateT.run_bind, mad_error pending, Option.bind_eq_bind, Option.bind_some]
  exact strict r mip pending

theorem Leaves.mad {rest : ℕ → Miracl (Option α)} {result : OptionT Option α} {x y : ℕ} {z : Option ℕ} {w : ℕ}
    (leaves : Leaves (rest ((x * y + z.getD 0) % w)) result) (r : ℕ) : Leaves (do rest (← mad x y z w r)) result := leaves

theorem Strict.bigToBytes {rest : ℤ × Octets → Miracl (Option α)} (strict : ∀ written, Strict (rest written)) (x : ℕ)
    (ptr : Octets) : Strict (do rest (← bigToBytes x ptr)) := by
  intro mip pending
  rw [StateT.run_bind, bigToBytes_error pending, Option.bind_eq_bind, Option.bind_some]
  exact strict (0, ptr) mip pending

theorem Leaves.bigToBytes {rest : ℤ × Octets → Miracl (Option α)} {result : OptionT Option α}
    (strict : ∀ written, Strict (rest written)) (leaves : ∀ written, Leaves (rest written) result) (x : ℕ)
    (ptr : Octets) : Leaves (do rest (← bigToBytes x ptr)) (if x < 2 ^ 256 then result else failure) := by
  by_cases fits : x < 2 ^ 256
  · rw [if_pos fits]
    exact (call_bind (bigToBytes_filled fits ptr)).trans (leaves _)
  · rw [if_neg fits]
    exact (call_bind (bigToBytes_tooBig fits ptr)).trans ((strict (0, ptr)).call tooBig_pending)

theorem Strict.readEphemeral (rest : Ephemeral → Miracl (Option α)) (kx ky : Arg) (kxbuf kybuf : Octets) (g : Point) :
    Strict (do match ← readEphemeral kx ky kxbuf kybuf g with | none => return none | some e => rest e) := by
  intro mip pending
  rw [StateT.run_bind, readEphemeral_error pending, Option.bind_eq_bind, Option.bind_some]
  rfl

theorem Leaves.readEphemeral {rest : Ephemeral → Miracl (Option α)} {result : Ephemeral → OptionT Option α}
    (strict : ∀ e, Strict (rest e)) (leaves : ∀ e, e.xbar = xbarOf e.kxbuf → Leaves (rest e) (result e)) (kx ky : Arg)
    (kxbuf kybuf : Octets) (g : Point) :
    Leaves (do match ← readEphemeral kx ky kxbuf kybuf g with | none => return none | some e => rest e)
      (ephemeralOf kx ky kxbuf kybuf >>= result) := by
  have run := readEphemeral_run kx ky kxbuf kybuf g
  rw [Leaves, OptionT.run_bind, Option.elimM]
  rcases read : (ephemeralOf kx ky kxbuf kybuf).run with _ | _ | e
  · rw [read] at run
    exact call_bind_none run.1
  · rw [read] at run
    obtain ⟨e, mip, error, refused, -⟩ := run
    refine (call_bind error).trans ?_
    cases e with
    | none => rfl
    | some e => exact (strict e).call (refused.resolve_left (Option.some_ne_none _))
  · rw [read] at run
    exact (call_bind run.1).trans (leaves e run.2.2)

theorem Strict.epointSet {rest : Bool × Point → Miracl (Option α)} (refuses : ∀ w, rest (false, w) = pure none)
    (x y : ℕ) (old : Point) : Strict (do rest (← epointSet x y old)) := by
  intro mip pending
  rw [StateT.run_bind, epointSet_error pending, Option.bind_eq_bind, Option.bind_some, refuses]
  rfl

theorem Leaves.epointSet {rest : Bool × Point → Miracl (Option α)} {result : Point → OptionT Option α}
    (refuses : ∀ w, rest (false, w) = pure none) (leaves : ∀ w, Leaves (rest (true, w)) (result w)) (x y : ℕ)
    (old : Point) : Leaves (do rest (← epointSet x y old)) (checked (pointOf x y) >>= result) := by
  have run := epointSet_pointOf x y old
  rw [Leaves, OptionT.run_bind, Option.elimM, checked, OptionT.run_mk]
  cases set : pointOf x y with
  | none =>
    rw [set] at run
    rw [call_bind run, refuses]
    rfl
  | some w =>
    rw [set] at run
    exact (call_bind run).trans (leaves w)

theorem Leaves.sharedPoint {rest : Option (Octets × Octets) → Miracl (Option α)} (result : Octets → Octets → α)
    (stops : rest none = pure none)
    (ends : ∀ xubuf yubuf, rest (some (xubuf, yubuf)) = pure (some (result xubuf yubuf)))
    {xbar t : ℕ} (xbar_lt : xbar < 2 ^ 256) (t_lt : t < 2 ^ 256) (g w : Point) (x y : ℕ) (xubuf yubuf : Octets) :
    Leaves (do rest (← sharedPoint xbar t g w x y xubuf yubuf))
      (if t • (w + xbar • g) = 0 then failure else
        return result (filled (abscissa (t • (w + xbar • g))) xubuf) (filled (ordinate (t • (w + xbar • g))) yubuf)) := by
  rw [Leaves, call_bind (sharedPoint_run xbar_lt t_lt g w x y xubuf yubuf)]
  by_cases infinity : t • (w + xbar • g) = 0
  · rw [if_pos infinity, if_pos infinity, stops]
    rfl
  · rw [if_neg infinity, if_neg infinity, ends]
    rfl

end

theorem derive_leaves {scalar : Ephemeral → Miracl ℕ} {number : Ephemeral → OptionT Option ℕ}
    (reads : ∀ own, Reads (scalar own) (number own)) (kx1 ky1 privateKey kx2 ky2 x y : Arg) (l : Locals) :
    Leaves (derive kx1 ky1 privateKey scalar kx2 ky2 x y l)
      (Agreed.derived l <$> agreedOf kx1 ky1 privateKey number kx2 ky2 x y l) := by
  simp only [agreedOf, map_bind, apply_ite (Agreed.derived l <$> ·), map_failure, map_pure]
  unfold derive
  refine Leaves.readEphemeral (fun own => ?_) (fun own _ => ?_) _ _ _ _ _
  · refine (privateKey.reads _).strict fun da => (reads own).strict fun k => ?_
    exact Strict.mad (fun ta => Strict.readEphemeral _ _ _ _ _ _) _ _ _ _ _
  refine (privateKey.reads _).leaves (fun da => ?_) fun da => ?_
  · refine (reads own).strict fun k => ?_
    exact Strict.mad (fun ta => Strict.readEphemeral _ _ _ _ _ _) _ _ _ _ _
  refine (reads own).leaves (fun k => ?_) fun k => Leaves.mad ?_ _
  · exact Strict.mad (fun ta => Strict.readEphemeral _ _ _ _ _ _) _ _ _ _ _
  refine Leaves.readEphemeral (fun peer => ?_) (fun peer xbar => ?_) _ _ _ _ _
  · exact (x.reads _).strict fun x => (y.reads _).strict fun y => Strict.epointSet (fun _ => rfl) _ _ _
  refine (x.reads _).leaves (fun x => ?_) fun x => ?_
  · exact (y.reads _).strict fun y => Strict.epointSet (fun _ => rfl) _ _ _
  refine (y.reads _).leaves (fun y => Strict.epointSet (fun _ => rfl) _ _ _) fun y => ?_
  refine Leaves.epointSet (fun _ => rfl) (fun w => ?_) _ _ _
  have xbar_lt : peer.xbar < 2 ^ 256 := xbar ▸ xbarOf_lt peer.kxbuf
  exact Leaves.sharedPoint (Derived.mk own.kxbuf own.kybuf peer.kxbuf peer.kybuf) rfl (fun _ _ => rfl) xbar_lt
    (mod_n_lt _) _ _ _ _ _ _

theorem derive_run {scalar : Ephemeral → Miracl ℕ} {number : Ephemeral → OptionT Option ℕ}
    (reads : ∀ own, Reads (scalar own) (number own)) (kx1 ky1 privateKey kx2 ky2 x y : Arg) (l : Locals) :
    call (derive kx1 ky1 privateKey scalar kx2 ky2 x y l) =
      (agreedOf kx1 ky1 privateKey number kx2 ky2 x y l).run.map (Option.map (Agreed.derived l)) :=
  (derive_leaves reads kx1 ky1 privateKey kx2 ky2 x y l).trans (OptionT.run_map _ _)

/-- The same for `sm2_keyagreement_b1_9`, which also refuses static coordinates that do
not fit into its arrays. -/
def agreedB19 (k : ℕ) (own : Ephemeral) (privateB kx1 ky1 pax pay : Arg) (l : Locals) : OptionT Option Agreed := do
  let db ← privateB.number
  let peer ← ephemeralOf kx1 ky1 l.kx1buf l.ky1buf
  let x ← pax.number
  let y ← pay.number
  if x < 2 ^ 256 then
    if y < 2 ^ 256 then
      let w ← checked (pointOf x y)
      let point := ((own.xbar * k + db) % n) • (w + peer.xbar • peer.point)
      if point = 0 then failure else return ⟨own, peer, point⟩
    else failure
  else failure

/-- There the initiator's ephemeral point is the first one. -/
def Agreed.derivedB19 (l : Locals) (agreed : Agreed) : Derived where
  kx1buf := agreed.peer.kxbuf
  ky1buf := agreed.peer.kybuf
  kx2buf := agreed.own.kxbuf
  ky2buf := agreed.own.kybuf
  xubuf := filled (abscissa agreed.point) l.xubuf
  yubuf := filled (ordinate agreed.point) l.yubuf

theorem deriveB19_leaves (k : ℕ) (own : Ephemeral) (privateB kx1 ky1 pax pay : Arg) (l : LocalsB19) :
    Leaves (deriveB19 k own privateB kx1 ky1 pax pay l)
      (Agreed.derivedB19 l.toLocals <$> agreedB19 k own privateB kx1 ky1 pax pay l.toLocals) := by
  simp only [agreedB19, map_bind, apply_ite (Agreed.derivedB19 l.toLocals <$> ·), map_failure, map_pure]
  unfold deriveB19
  refine (privateB.reads _).leaves (fun db => ?_) fun db => Leaves.mad ?_ _
  · exact Strict.mad (fun tb => Strict.readEphemeral _ _ _ _ _ _) _ _ _ _ _
  refine Leaves.readEphemeral (fun peer => ?_) (fun peer xbar => ?_) _ _ _ _ _
  · refine (pax.reads _).strict fun x => (pay.reads _).strict fun y => ?_
    exact Strict.bigToBytes (fun _ => Strict.bigToBytes (fun _ => Strict.epointSet (fun _ => rfl) _ _ _) _ _) _ _
  refine (pax.reads _).leaves (fun x => ?_) fun x => ?_
  · refine (pay.reads _).strict fun y => ?_
    exact Strict.bigToBytes (fun _ => Strict.bigToBytes (fun _ => Strict.epointSet (fun _ => rfl) _ _ _) _ _) _ _
  refine (pay.reads _).leaves (fun y => ?_) fun y => ?_
  · exact Strict.bigToBytes (fun _ => Strict.bigToBytes (fun _ => Strict.epointSet (fun _ => rfl) _ _ _) _ _) _ _
  refine Leaves.bigToBytes (fun _ => ?_) (fun _ => ?_) _ _
  · exact Strict.bigToBytes (fun _ => Strict.epointSet (fun _ => rfl) _ _ _) _ _
  refine Leaves.bigToBytes (fun _ => ?_) (fun _ => ?_) _ _
  · exact Strict.epointSet (fun _ => rfl) _ _ _
  refine Leaves.epointSet (fun _ => rfl) (fun w => ?_) _ _ _
  have xbar_lt : peer.xbar < 2 ^ 256 := xbar ▸ xbarOf_lt peer.kxbuf
  exact Leaves.sharedPoint (Derived.mk peer.kxbuf peer.kybuf own.kxbuf own.kybuf) rfl (fun _ _ => rfl) xbar_lt
    (mod_n_lt _) _ _ _ _ _ _

end MyTools.Sm2
