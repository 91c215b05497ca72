import MyTools.Server.Accept

/-! Who uses a client descriptor: in runs where a thread closes its descriptor only when no other
thread of the connection is left, every thread works on the connection it was started for. -/
namespace MyTools.Server
open Library

/-- Every thread and every event belongs to a connection that is still open under its number. -/
structure Owned (s : State) : Prop where
  started : ∀ thread ∈ s.masks, s.table thread.fd = some thread.connection
  returned : ∀ fd c, .client fd c ∈ s.evs → s.table fd = some c
  pending : ∀ fd c, .client fd c ∈ s.ready → s.table fd = some c
  watched : ∀ fd c, (s.connection c).watch = some fd → s.table fd = some c

namespace Owned
variable {s s' : State}

theorem raise_listen (owned : Owned s) : Owned (s.raise .listen) := by
  unfold State.raise
  split
  · exact owned
  · refine ⟨owned.started, owned.returned, fun fd c pending => ?_, owned.watched⟩
    rcases List.mem_append.mp pending with earlier | last
    · exact owned.pending fd c earlier
    · cases List.mem_singleton.mp last

theorem raise_client (owned : Owned s) {fd c : ℕ} (known : s.table fd = some c) : Owned (s.raise (.client fd c)) := by
  unfold State.raise
  split
  · exact owned
  · refine ⟨owned.started, owned.returned, fun fd' c' pending => ?_, owned.watched⟩
    rcases List.mem_append.mp pending with earlier | last
    · exact owned.pending fd' c' earlier
    · obtain ⟨rfl, rfl⟩ := Event.client.inj (List.mem_singleton.mp last)
      exact known

theorem edge (owned : Owned s) (c : ℕ) : Owned (s.edge c) := by
  unfold State.edge
  split
  · next fd watch => exact owned.raise_client (owned.watched fd c watch)
  · exact owned

theorem setConnection (owned : Owned s) {c : ℕ} {k : Connection}
    (watch : ∀ fd, k.watch = some fd → s.table fd = some c) : Owned (s.setConnection c k) := by
  refine ⟨owned.started, owned.returned, owned.pending, fun fd c' watched => ?_⟩
  by_cases own : c' = c
  · subst own
    simp only [State.setConnection, Function.update_self] at watched
    exact watch fd watched
  · simp only [State.setConnection, Function.update_of_ne own] at watched
    exact owned.watched fd c' watched

theorem keepWatch (owned : Owned s) {c : ℕ} {k : Connection} (watch : k.watch = (s.connection c).watch) :
    Owned (s.setConnection c k) := by
  apply owned.setConnection
  intro fd same
  exact owned.watched fd c (watch ▸ same)

theorem forget (owned : Owned s) (c : ℕ) : Owned (s.forget c) := by
  have unwatched : Owned (s.setConnection c { s.connection c with watch := none }) :=
    owned.setConnection fun fd watched => by cases watched
  exact ⟨owned.started, owned.returned, fun fd c' pending => owned.pending fd c' (List.mem_of_mem_filter pending),
    unwatched.watched⟩

theorem go (owned : Owned s) {thread : Mask} (running : thread ∈ s.masks) (phase : Phase) :
    Owned (s.go thread phase) := by
  refine ⟨fun other member => ?_, owned.returned, owned.pending, owned.watched⟩
  rcases Multiset.mem_cons.mp member with rfl | elsewhere
  · exact owned.started thread running
  · exact owned.started other (Multiset.mem_of_mem_erase elsewhere)

theorem leave (owned : Owned s) (thread : Mask) : Owned (s.leave thread) :=
  ⟨fun other member => owned.started other (Multiset.mem_of_mem_erase member), owned.returned, owned.pending,
    owned.watched⟩

theorem move (owned : Owned s) (creator next : Creator) : Owned (s.move creator next) :=
  ⟨owned.started, owned.returned, owned.pending, owned.watched⟩

theorem receive (owned : Owned s) {thread : Mask} (running : thread ∈ s.masks)
    (run : s.receive thread = some s') : Owned s' := by
  unfold State.receive at run
  split at run
  · obtain rfl := Option.some.inj run
    exact owned.go running _
  · next c _ =>
    dsimp only at run
    split at run
    · obtain rfl := Option.some.inj run
      refine Owned.go (s := s.setConnection c _) ?_ running _
      exact owned.keepWatch rfl
    split at run
    · obtain rfl := Option.some.inj run
      refine Owned.go (s := s.setConnection c _) ?_ running _
      exact owned.keepWatch rfl
    split at run
    · obtain rfl := Option.some.inj run
      exact owned.go running _
    split at run
    · obtain rfl := Option.some.inj run
      exact owned.go running _
    · cases run

theorem client (owned : Owned s) {c : ℕ} {k : Connection} {guard : Prop} [Decidable guard]
    (run : (if guard then some ((s.setConnection c k).edge c) else none) = some s')
    (watch : k.watch = (s.connection c).watch) : Owned s' := by
  split at run
  · obtain rfl := Option.some.inj run
    exact (owned.keepWatch watch).edge c
  · cases run

theorem epollWait (owned : Owned s) (run : s.epollWait = some s') : Owned s' := by
  unfold State.epollWait at run
  split at run
  · obtain rfl := Option.some.inj run
    exact ⟨owned.started, fun fd c returned => owned.pending fd c (List.mem_of_mem_take returned),
      fun fd c pending => owned.pending fd c (List.mem_of_mem_drop pending), owned.watched⟩
  · cases run

theorem dispatch (owned : Owned s) (run : s.dispatch = some s') : Owned s' := by
  unfold State.dispatch at run
  split at run
  · cases run
  · next evs returned =>
    obtain rfl := Option.some.inj run
    exact ⟨owned.started, fun fd c later => owned.returned fd c (by rw [returned]; exact List.mem_cons_of_mem _ later),
      owned.pending, owned.watched⟩
  · next fd c evs returned =>
    obtain rfl := Option.some.inj run
    refine ⟨fun thread member => ?_, fun fd' c' later => ?_, owned.pending, owned.watched⟩
    · rcases Multiset.mem_cons.mp member with rfl | elsewhere
      · exact owned.returned fd c (by rw [returned]; exact List.mem_cons_self)
      · exact owned.started thread elsewhere
    · exact owned.returned fd' c' (by rw [returned]; exact List.mem_cons_of_mem _ later)

theorem accept (owned : Owned s) {fd : ℕ} (run : s.accept fd = some s') : Owned s' := by
  obtain ⟨c, queue, -, free, -, rfl⟩ := State.accept_cases run
  have kept {fd' c' : ℕ} (known : s.table fd' = some c') : Function.update s.table fd (some c) fd' = some c' := by
    rw [Function.update_of_ne, known]
    rintro rfl
    rw [free] at known
    cases known
  exact ⟨fun thread member => kept (owned.started thread member), fun fd' c' event => kept (owned.returned fd' c' event),
    fun fd' c' event => kept (owned.pending fd' c' event), fun fd' c' watch => kept (owned.watched fd' c' watch)⟩

theorem setNonblock (owned : Owned s) {fd : ℕ} (run : s.setNonblock fd = some s') : Owned s' := by
  unfold State.setNonblock at run
  split at run
  · have moved := owned.move (.accepted fd) (.nonblocking fd)
    dsimp only at run
    split at run
    · obtain rfl := Option.some.inj run
      exact moved
    · next c _ =>
      obtain rfl := Option.some.inj run
      exact moved.keepWatch rfl
  · cases run

theorem epollCtlAdd (owned : Owned s) {fd : ℕ} (run : s.epollCtlAdd fd = some s') : Owned s' := by
  unfold State.epollCtlAdd at run
  split at run
  · have ended : Owned { s with creators := s.creators.erase (.nonblocking fd) } :=
      ⟨owned.started, owned.returned, owned.pending, owned.watched⟩
    dsimp only at run
    split at run
    · obtain rfl := Option.some.inj run
      exact ended
    · next c known =>
      split at run
      · have registered := ended.setConnection (c := c)
          (k := { s.connection c with watch := some fd }) fun fd' watch => by cases watch; exact known
        split at run
        · obtain rfl := Option.some.inj run
          exact registered.edge c
        · obtain rfl := Option.some.inj run
          exact registered
      · obtain rfl := Option.some.inj run
        exact ended
  · cases run

end Owned

/-- Another thread of the connection is running, or one will be started for an event that
`epoll_wait` has returned. -/
def Shares (s : State) (thread : Mask) : Prop :=
  (∃ other ∈ s.masks.erase thread, other.connection = thread.connection) ∨
    ∃ event ∈ s.evs, event.comesFrom thread.connection

/-- A thread closes its descriptor while it shares the connection. -/
def ClosesShared (s : State) : Action → Prop
  | .mask thread _ => thread.phase = .closing ∧ Shares s thread
  | _ => False

instance (s : State) (thread : Mask) : Decidable (Shares s thread) :=
  haveI : Decidable (∃ other ∈ s.masks.erase thread, other.connection = thread.connection) :=
    Multiset.decidableExistsMultiset
  inferInstanceAs (Decidable (_ ∨ _))

instance (s : State) (action : Action) : Decidable (ClosesShared s action) := by
  cases action with
  | mask thread generated => exact inferInstanceAs (Decidable (_ ∧ _))
  | _ => exact inferInstanceAs (Decidable False)

theorem Owned.close {s : State} {thread : Mask} (owned : Owned s) (running : thread ∈ s.masks)
    (alone : ¬ Shares s thread) : Owned ((s.close thread.fd).leave thread) := by
  have own := owned.started thread running
  -- what keeps its connection keeps its number
  have kept {fd c : ℕ} (known : s.table fd = some c) (other : c ≠ thread.connection) :
      (s.close thread.fd).table fd = some c := by
    rw [State.close_table, Function.update_of_ne, known]
    rintro rfl
    rw [own] at known
    exact other (Option.some.inj known).symm
  have closed : s.close thread.fd =
      { s.forget thread.connection with table := Function.update s.table thread.fd none } := by
    rw [State.close, own]
  have forgotten := owned.forget thread.connection
  constructor
  · intro other member
    have elsewhere : other ∈ s.masks.erase thread := by
      rw [closed] at member
      exact member
    apply kept (owned.started other (Multiset.mem_of_mem_erase elsewhere))
    exact fun same => alone (.inl ⟨other, elsewhere, same⟩)
  · intro fd c event
    have returned : .client fd c ∈ s.evs := by
      rw [closed] at event
      exact event
    apply kept (owned.returned fd c returned)
    rintro rfl
    exact alone (.inr ⟨_, returned, decide_eq_true rfl⟩)
  · intro fd c event
    have left : .client fd c ∈ s.ready.filter fun event => !event.comesFrom thread.connection := by
      rw [closed] at event
      exact event
    apply kept (owned.pending fd c (List.mem_of_mem_filter left))
    rintro rfl
    have apart := List.of_mem_filter left
    simp only [Event.comesFrom, decide_true, Bool.not_true, Bool.false_eq_true] at apart
  · intro fd c watch
    have before : ((s.forget thread.connection).connection c).watch = some fd := by
      rw [closed] at watch
      exact watch
    apply kept (forgotten.watched fd c before)
    rintro rfl
    simp only [State.forget, State.setConnection, Function.update_self] at before
    cases before

theorem owned_step {s s' : State} {action : Action} (owned : Owned s) (alone : ¬ ClosesShared s action)
    (taken : Step s action s') : Owned s' := by
  cases action with
  | connect =>
    obtain rfl := Option.some.inj taken
    have raised := owned.raise_listen
    exact ⟨raised.started, raised.returned, raised.pending, raised.watched⟩
  | arrive c n => exact owned.client taken rfl
  | clientClose c => exact owned.client taken rfl
  | clientReset c => exact owned.client taken rfl
  | epollWait => exact owned.epollWait taken
  | dispatch => exact owned.dispatch taken
  | accept fd => exact owned.accept taken
  | setNonblock fd => exact owned.setNonblock taken
  | epollCtlAdd fd => exact owned.epollCtlAdd taken
  | mask thread generated =>
    have run : s.conmmunicationMask thread generated = some s' := taken
    unfold State.conmmunicationMask at run
    split at run
    · next running =>
      cases phase : thread.phase with
      | receiving => rw [phase] at run; exact owned.receive running run
      | generating =>
        rw [phase] at run
        dsimp only at run
        split at run
        · obtain rfl := Option.some.inj run
          exact owned.go running _
        · obtain rfl := Option.some.inj run
          exact owned.leave thread
      | deregistering =>
        rw [phase] at run
        obtain rfl := Option.some.inj run
        unfold State.epollCtlDel
        split
        · exact owned.go running _
        · next c _ => exact (owned.forget c).go running _
      | closing =>
        rw [phase] at run
        obtain rfl := Option.some.inj run
        exact owned.close running fun shares => alone ⟨phase, shares⟩
      | sending =>
        rw [phase] at run
        obtain rfl := Option.some.inj run
        exact owned.leave thread
    · cases run

/-! Numbers of open connections. -/

structure Numbered (s : State) : Prop where
  one : ∀ fd fd' c, s.table fd = some c → s.table fd' = some c → fd = fd'
  known : ∀ fd c, s.table fd = some c → c < s.connects
  waiting : ∀ c ∈ s.queue, c < s.connects ∧ ∀ fd, s.table fd ≠ some c
  distinct : s.queue.Nodup

/-- The connection has been closed: it has no number, and never gets one again. -/
structure Gone (s : State) (c : ℕ) : Prop where
  known : c < s.connects
  left : c ∉ s.queue
  closed : ∀ fd, s.table fd ≠ some c

private theorem closed_subset {s : State} {fd fd' c : ℕ} (entry : (s.close fd).table fd' = some c) :
    fd' ≠ fd ∧ s.table fd' = some c := by
  rw [State.close_table] at entry
  by_cases own : fd' = fd
  · rw [own, Function.update_self] at entry
    cases entry
  · rw [Function.update_of_ne own] at entry
    exact ⟨own, entry⟩

theorem numbered_step {s s' : State} {action : Action} (numbered : Numbered s) (taken : Step s action s') :
    Numbered s' := by
  rcases step_cases taken with ⟨-, apart⟩ | ⟨-, rfl⟩ | ⟨fd, -, accepted⟩ | ⟨thread, -, -, -, -, rfl⟩
  · obtain ⟨queue, connects, table, -⟩ := apart
    constructor
    · rw [table]
      exact numbered.one
    · rw [table, connects]
      exact numbered.known
    · rw [queue, table, connects]
      exact numbered.waiting
    · rw [queue]
      exact numbered.distinct
  · have table : s.connect.table = s.table := by
      simp only [State.connect, State.raise]
      split <;> rfl
    have fresh (fd : ℕ) : s.table fd ≠ some s.connects := by
      intro entry
      exact absurd (numbered.known fd _ entry) (Nat.lt_irrefl _)
    constructor
    · rw [table]
      exact numbered.one
    · rw [table]
      exact fun fd c entry => Nat.lt_succ_of_lt (numbered.known fd c entry)
    · rw [table]
      intro c member
      rcases List.mem_append.mp member with earlier | last
      · obtain ⟨known, unnumbered⟩ := numbered.waiting c earlier
        exact ⟨Nat.lt_succ_of_lt known, unnumbered⟩
      · rw [List.mem_singleton.mp last]
        exact ⟨Nat.lt_succ_self _, fresh⟩
    · apply List.Nodup.append numbered.distinct (List.nodup_singleton _)
      intro c earlier last
      rw [List.mem_singleton.mp last] at earlier
      exact Nat.lt_irrefl _ (numbered.waiting _ earlier).1
  · obtain ⟨c, queue, -, free, head, rfl⟩ := State.accept_cases accepted
    have inside : c ∈ s.queue := by
      rw [head]
      exact List.mem_cons_self
    obtain ⟨known, unnumbered⟩ := numbered.waiting c inside
    have split := numbered.distinct
    rw [head] at split
    have entry {fd' c' : ℕ} (now : Function.update s.table fd (some c) fd' = some c') :
        fd' = fd ∧ c' = c ∨ s.table fd' = some c' := by
      by_cases own : fd' = fd
      · rw [own, Function.update_self] at now
        exact .inl ⟨own, (Option.some.inj now).symm⟩
      · rw [Function.update_of_ne own] at now
        exact .inr now
    constructor
    · intro fd₁ fd₂ c' first second
      rcases entry first with ⟨rfl, rfl⟩ | before
      · rcases entry second with ⟨rfl, -⟩ | earlier
        · rfl
        · exact absurd earlier (unnumbered fd₂)
      · rcases entry second with ⟨-, rfl⟩ | earlier
        · exact absurd before (unnumbered fd₁)
        · exact numbered.one fd₁ fd₂ c' before earlier
    · intro fd' c' now
      rcases entry now with ⟨-, rfl⟩ | before
      · exact known
      · exact numbered.known fd' c' before
    · intro c' member
      have later : c' ∈ s.queue := by
        rw [head]
        exact List.mem_cons_of_mem c member
      refine ⟨(numbered.waiting c' later).1, fun fd' now => ?_⟩
      rcases entry now with ⟨-, rfl⟩ | before
      · exact (List.nodup_cons.mp split).1 member
      · exact (numbered.waiting c' later).2 fd' before
    · exact (List.nodup_cons.mp split).2
  · obtain ⟨queue, connects, -⟩ := s.close_frame thread.fd
    constructor
    · intro fd fd' c first second
      exact numbered.one fd fd' c (closed_subset first).2 (closed_subset second).2
    · intro fd c entry
      exact (numbered.known fd c (closed_subset entry).2).trans_eq connects.symm
    · intro c member
      obtain ⟨known, unnumbered⟩ := numbered.waiting c (queue ▸ member)
      exact ⟨known.trans_eq connects.symm, fun fd entry => unnumbered fd (closed_subset entry).2⟩
    · exact (congrArg List.Nodup queue).mpr numbered.distinct

theorem gone_step {s s' : State} {action : Action} {c : ℕ} (gone : Gone s c) (taken : Step s action s') :
    Gone s' c := by
  rcases step_cases taken with ⟨-, apart⟩ | ⟨-, rfl⟩ | ⟨fd, -, accepted⟩ | ⟨thread, -, -, -, -, rfl⟩
  · obtain ⟨queue, connects, table, -⟩ := apart
    exact ⟨connects ▸ gone.known, queue ▸ gone.left, table ▸ gone.closed⟩
  · have table : s.connect.table = s.table := by
      simp only [State.connect, State.raise]
      split <;> rfl
    refine ⟨Nat.lt_succ_of_lt gone.known, fun member => ?_, table ▸ gone.closed⟩
    rcases List.mem_append.mp member with earlier | last
    · exact gone.left earlier
    · exact absurd gone.known (List.mem_singleton.mp last ▸ Nat.lt_irrefl _)
  · obtain ⟨c', queue, -, -, head, rfl⟩ := State.accept_cases accepted
    have left := gone.left
    rw [head, List.mem_cons, not_or] at left
    refine ⟨gone.known, left.2, fun fd' entry => ?_⟩
    by_cases own : fd' = fd
    · simp only [own, Function.update_self, Option.some.injEq] at entry
      exact left.1 entry.symm
    · simp only [Function.update_of_ne own] at entry
      exact gone.closed fd' entry
  · obtain ⟨queue, connects, -⟩ := s.close_frame thread.fd
    exact ⟨gone.known.trans_eq connects.symm, fun member => gone.left (queue ▸ member),
      fun fd entry => gone.closed fd (closed_subset entry).2⟩

/-! Runs. -/

def Mask.Touches (thread : Mask) : Prop := thread.phase ≠ .generating

/-- A thread that was started for this connection closes its descriptor. -/
def Closes (c : ℕ) : Action → Prop
  | .mask thread _ => thread.phase = .closing ∧ thread.connection = c
  | _ => False

instance (c : ℕ) (action : Action) : Decidable (Closes c action) := by
  cases action with
  | mask thread generated => exact inferInstanceAs (Decidable (_ ∧ _))
  | _ => exact inferInstanceAs (Decidable False)

def closings (c : ℕ) (past : List (State × Action)) : ℕ := past.countP fun step => Closes c step.2

theorem closings_append (c : ℕ) (past : List (State × Action)) (s : State) (action : Action) :
    closings c (past ++ [(s, action)]) = closings c past + if Closes c action then 1 else 0 := by
  rw [closings, List.countP_append, List.countP_singleton, closings]
  simp only [decide_eq_true_eq]

theorem owned_start : Owned .start where
  started thread member := absurd member (Multiset.notMem_zero thread)
  returned fd c event := absurd event List.not_mem_nil
  pending fd c event := absurd event List.not_mem_nil
  watched fd c watch := by cases watch

theorem numbered_start : Numbered .start where
  one fd fd' c entry := by cases entry
  known fd c entry := by cases entry
  waiting c member := absurd member List.not_mem_nil
  distinct := List.nodup_nil

def Unshared (past : List (State × Action)) : Prop := ∀ t action, (t, action) ∈ past → ¬ ClosesShared t action

theorem owned_run {past : List (State × Action)} {s : State} (run : Run Step .start past s) (unshared : Unshared past) :
    Owned s ∧ Numbered s := by
  apply run.keeps (fun s => Owned s ∧ Numbered s) (fun s action => ¬ ClosesShared s action)
    ⟨owned_start, numbered_start⟩ _ unshared
  exact fun s action s' both alone taken => ⟨owned_step both.1 alone taken, numbered_step both.2 taken⟩

theorem gone_of_closed {s : State} {thread : Mask} (owned : Owned s) (numbered : Numbered s)
    (running : thread ∈ s.masks) : Gone ((s.close thread.fd).leave thread) thread.connection := by
  have own := owned.started thread running
  obtain ⟨queue, connects, -⟩ := s.close_frame thread.fd
  refine ⟨(numbered.known _ _ own).trans_eq connects.symm, fun member => ?_, fun fd entry => ?_⟩
  · exact (numbered.waiting _ (queue ▸ member)).2 _ own
  · obtain ⟨other, before⟩ := closed_subset entry
    exact other (numbered.one _ _ _ before own)

theorem closings_cases {past : List (State × Action)} {s : State} (run : Run Step .start past s)
    (unshared : Unshared past) (c : ℕ) : closings c past = 0 ∨ closings c past = 1 ∧ Gone s c := by
  induction run with
  | initial => exact .inl rfl
  | @next past s s' action run taken ih =>
    have earlier : Unshared past := fun t action member => unshared t action (List.mem_append_left _ member)
    obtain ⟨owned, numbered⟩ := owned_run run earlier
    rw [closings_append]
    by_cases closes : Closes c action
    · rw [if_pos closes]
      cases action with
      | mask thread generated =>
        obtain ⟨closing, rfl⟩ := closes
        obtain ⟨running, ⟨other, -⟩ | ⟨-, rfl⟩⟩ := State.conmmunicationMask_cases taken
        · exact absurd closing other
        · rcases ih earlier with never | ⟨-, gone⟩
          · exact .inr ⟨by rw [never], gone_of_closed owned numbered running⟩
          · exact absurd (owned.started thread running) (gone.closed _)
      | _ => exact closes.elim
    · rw [if_neg closes, Nat.add_zero]
      rcases ih earlier with never | ⟨once, gone⟩
      · exact .inl never
      · exact .inr ⟨once, gone_step gone taken⟩

/-- Each connection is closed at most once, and a thread uses its descriptor only while the
connection it was started for is open under that number. -/
def OneOwner (past : List (State × Action)) : Prop :=
  (∀ c, closings c past ≤ 1) ∧ ∀ t thread generated, (t, .mask thread generated) ∈ past → thread.Touches →
    t.table thread.fd = some thread.connection

theorem oneOwner_of_unshared {past : List (State × Action)} {s : State} (run : Run Step .start past s)
    (unshared : Unshared past) : OneOwner past := by
  constructor
  · intro c
    rcases closings_cases run unshared c with never | ⟨once, -⟩
    · exact never.le.trans (Nat.zero_le 1)
    · exact once.le
  · intro t thread generated member _
    obtain ⟨before, inside, shorter⟩ := run.reached member
    obtain ⟨t', taken, -⟩ := run.successor member
    obtain ⟨owned, -⟩ := owned_run shorter fun t action earlier => unshared t action (inside.mem earlier)
    exact owned.started thread (State.conmmunicationMask_cases taken).1

/-- Two clients are served at a time. The first one closes its connection, and a third one is accepted under its number. -/
def reusedNumber : List Action :=
  [.connect, .epollWait, .dispatch, .connect, .epollWait, .dispatch, .accept 5, .setNonblock 5, .accept 6,
    .epollCtlAdd 5, .setNonblock 6, .epollCtlAdd 6, .arrive 0 3, .epollWait, .dispatch, .mask ⟨5, 0, .receiving⟩ true,
    .arrive 1 2, .mask ⟨5, 0, .generating⟩ true, .epollWait, .dispatch, .mask ⟨6, 1, .receiving⟩ true,
    .mask ⟨5, 0, .receiving⟩ true, .mask ⟨5, 0, .sending⟩ true, .clientClose 0, .epollWait, .dispatch,
    .mask ⟨5, 0, .receiving⟩ true, .mask ⟨5, 0, .deregistering⟩ true, .mask ⟨5, 0, .closing⟩ true, .connect,
    .epollWait, .dispatch, .accept 5, .mask ⟨6, 1, .generating⟩ true, .setNonblock 5, .epollCtlAdd 5, .arrive 2 1,
    .epollWait, .dispatch, .mask ⟨5, 2, .receiving⟩ true, .mask ⟨5, 2, .generating⟩ true, .mask ⟨5, 2, .receiving⟩ true,
    .mask ⟨5, 2, .sending⟩ true, .clientClose 2, .epollWait, .dispatch, .mask ⟨5, 2, .receiving⟩ true,
    .mask ⟨5, 2, .deregistering⟩ true, .mask ⟨5, 2, .closing⟩ true]

theorem oneOwner_of_unshared_reusedNumber : (reusedNumber.foldlM State.act .start).isSome ∧
    OneOwner (Run.trace State.act .start reusedNumber) := by
  have possible : (reusedNumber.foldlM State.act .start).isSome := by decide
  have unshared : Unshared (Run.trace State.act .start reusedNumber) := by
    have checked : ∀ step ∈ Run.trace State.act .start reusedNumber, ¬ ClosesShared step.1 step.2 := by decide
    exact fun t action member => checked (t, action) member
  obtain ⟨s, taken⟩ := Option.isSome_iff_exists.mp possible
  exact ⟨possible, oneOwner_of_unshared (Run.of_foldlM .initial taken) unshared⟩

/-- A second thread was started for bytes that came while the first one was receiving. The first
closes the connection when the client has, and the second closes the next client's. -/
def twoThreads : List Action :=
  [.connect, .epollWait, .dispatch, .accept 5, .setNonblock 5, .epollCtlAdd 5, .arrive 0 3, .epollWait, .dispatch,
    .clientClose 0, .epollWait, .dispatch, .mask ⟨5, 0, .receiving⟩ true, .mask ⟨5, 0, .generating⟩ true,
    .mask ⟨5, 0, .receiving⟩ true, .mask ⟨5, 0, .deregistering⟩ true, .mask ⟨5, 0, .closing⟩ true,
    .mask ⟨5, 0, .receiving⟩ true, .connect, .epollWait, .dispatch, .accept 5]

theorem second_thread_closes_next_client : ∃ past s, Run Step .start past s ∧
    s.table 5 = some 1 ∧ ⟨5, 0, .closing⟩ ∈ s.masks ∧
      ∃ s', Step s (.mask ⟨5, 0, .closing⟩ true) s' ∧ s'.table 5 = none ∧
        ¬ OneOwner (past ++ [(s, .mask ⟨5, 0, .closing⟩ true)]) := by
  have shown : (twoThreads.foldlM State.act .start).map (fun s => (s.table 5, s.masks)) =
      some (some 1, {⟨5, 0, .closing⟩}) := by decide
  obtain ⟨s, taken, fields⟩ := Option.map_eq_some_iff.mp shown
  obtain ⟨number, masks⟩ := Prod.mk.inj fields
  have running : ⟨5, 0, .closing⟩ ∈ s.masks := by
    rw [masks]
    exact Multiset.mem_singleton_self _
  refine ⟨_, s, Run.of_foldlM .initial taken, number, running, _, if_pos running, ?_, ?_⟩
  · change (s.close 5).table 5 = none
    rw [State.close_table, Function.update_self]
  · intro owner
    have own := owner.2 s ⟨5, 0, .closing⟩ true (List.mem_append_right _ (List.mem_singleton_self _)) Phase.noConfusion
    rw [number] at own
    cases own

end MyTools.Server
