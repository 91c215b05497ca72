import MyTools.Server.Model

/-! One accept for one report: which connections the server never takes from the accept queue. -/
namespace MyTools.Server
open Library

namespace State

/-- The reports of the listening socket and the threads that will take one connection each. -/
def takers (s : State) : ℕ := s.ready.count .listen + s.evs.count .listen + s.creators.count .accepting

/-- No event of the listening socket is pending or being dispatched, and no accept thread runs. -/
def Quiet (s : State) : Prop := .listen ∉ s.ready ∧ .listen ∉ s.evs ∧ s.creators = 0

theorem Quiet.takers {s : State} (quiet : s.Quiet) : s.takers = 0 := by
  obtain ⟨ready, evs, creators⟩ := quiet
  rw [State.takers, List.count_eq_zero.mpr ready, List.count_eq_zero.mpr evs, creators, Multiset.count_zero]

/-- A step that neither brings a connection nor takes or closes one. -/
structure Apart (s s' : State) : Prop where
  queue : s'.queue = s.queue
  connects : s'.connects = s.connects
  table : s'.table = s.table
  takers : s'.takers = s.takers

theorem apart_refl (s : State) : s.Apart s := ⟨rfl, rfl, rfl, rfl⟩

theorem Apart.trans {s t u : State} (first : s.Apart t) (second : t.Apart u) : s.Apart u where
  queue := second.queue.trans first.queue
  connects := second.connects.trans first.connects
  table := second.table.trans first.table
  takers := second.takers.trans first.takers

theorem setConnection_apart (s : State) (c : ℕ) (k : Connection) : s.Apart (s.setConnection c k) := ⟨rfl, rfl, rfl, rfl⟩

theorem go_apart (s : State) (thread : Mask) (phase : Phase) : s.Apart (s.go thread phase) := ⟨rfl, rfl, rfl, rfl⟩

theorem leave_apart (s : State) (thread : Mask) : s.Apart (s.leave thread) := ⟨rfl, rfl, rfl, rfl⟩

theorem raise_client_apart (s : State) (fd c : ℕ) : s.Apart (s.raise (.client fd c)) := by
  unfold raise
  split
  · exact s.apart_refl
  · refine ⟨rfl, rfl, rfl, ?_⟩
    have other : [Event.client fd c].count .listen = 0 := rfl
    simp only [takers, List.count_append, other, Nat.add_zero]

theorem edge_apart (s : State) (c : ℕ) : s.Apart (s.edge c) := by
  unfold edge
  split
  · exact s.raise_client_apart _ c
  · exact s.apart_refl

theorem forget_apart (s : State) (c : ℕ) : s.Apart (s.forget c) := by
  refine ⟨rfl, rfl, rfl, ?_⟩
  simp only [takers, forget, setConnection]
  rw [List.count_filter rfl]

theorem epollCtlDel_apart (s : State) (fd : ℕ) : s.Apart (s.epollCtlDel fd) := by
  unfold epollCtlDel
  split
  · exact s.apart_refl
  · exact s.forget_apart _

theorem close_table (s : State) (fd : ℕ) : (s.close fd).table = Function.update s.table fd none := by
  unfold close
  split
  · next closed => rw [← closed, Function.update_eq_self]
  · rfl

theorem close_frame (s : State) (fd : ℕ) :
    (s.close fd).queue = s.queue ∧ (s.close fd).connects = s.connects ∧ (s.close fd).takers = s.takers := by
  unfold close
  split
  · exact ⟨rfl, rfl, rfl⟩
  · next c _ => exact ⟨rfl, rfl, (s.forget_apart c).takers⟩

theorem move_apart (s : State) (creator next : Creator) (old : creator ≠ .accepting) (new : next ≠ .accepting) :
    s.Apart (s.move creator next) := by
  refine ⟨rfl, rfl, rfl, ?_⟩
  simp only [takers, move]
  rw [Multiset.count_cons_of_ne new.symm, Multiset.count_erase_of_ne old.symm]

theorem receive_apart {s s' : State} {thread : Mask} (run : s.receive thread = some s') : s.Apart s' := by
  unfold receive at run
  split at run
  · obtain rfl := Option.some.inj run
    exact s.go_apart thread _
  · dsimp only at run
    split at run
    · obtain rfl := Option.some.inj run
      exact (s.setConnection_apart _ _).trans (go_apart _ thread _)
    split at run
    · obtain rfl := Option.some.inj run
      exact (s.setConnection_apart _ _).trans (go_apart _ thread _)
    split at run
    · obtain rfl := Option.some.inj run
      exact s.go_apart thread _
    split at run
    · obtain rfl := Option.some.inj run
      exact s.go_apart thread _
    · cases run

theorem conmmunicationMask_cases {s s' : State} {thread : Mask} {generated : Bool}
    (run : s.conmmunicationMask thread generated = some s') :
    thread ∈ s.masks ∧ (thread.phase ≠ .closing ∧ s.Apart s' ∨
      thread.phase = .closing ∧ s' = (s.close thread.fd).leave thread) := by
  unfold conmmunicationMask at run
  split at run
  · next running =>
    refine ⟨running, ?_⟩
    cases phase : thread.phase with
    | receiving => rw [phase] at run; exact .inl ⟨Phase.noConfusion, receive_apart run⟩
    | generating =>
      rw [phase] at run
      dsimp only at run
      split at run
      · obtain rfl := Option.some.inj run
        exact .inl ⟨Phase.noConfusion, s.go_apart thread _⟩
      · obtain rfl := Option.some.inj run
        exact .inl ⟨Phase.noConfusion, s.leave_apart thread⟩
    | deregistering =>
      rw [phase] at run
      obtain rfl := Option.some.inj run
      exact .inl ⟨Phase.noConfusion, (s.epollCtlDel_apart _).trans (go_apart _ thread _)⟩
    | closing =>
      rw [phase] at run
      exact .inr ⟨rfl, (Option.some.inj run).symm⟩
    | sending =>
      rw [phase] at run
      obtain rfl := Option.some.inj run
      exact .inl ⟨Phase.noConfusion, s.leave_apart thread⟩
  · cases run

theorem client_apart {s s' : State} {c : ℕ} {k : Connection} {guard : Prop} [Decidable guard]
    (run : (if guard then some ((s.setConnection c k).edge c) else none) = some s') : s.Apart s' := by
  split at run
  · obtain rfl := Option.some.inj run
    exact (s.setConnection_apart c k).trans (edge_apart _ c)
  · cases run

theorem setNonblock_apart {s s' : State} {fd : ℕ} (run : s.setNonblock fd = some s') : s.Apart s' := by
  unfold setNonblock at run
  split at run
  · have moved := s.move_apart (.accepted fd) (.nonblocking fd) Creator.noConfusion Creator.noConfusion
    dsimp only at run
    split at run
    · obtain rfl := Option.some.inj run
      exact moved
    · obtain rfl := Option.some.inj run
      exact moved.trans (setConnection_apart _ _ _)
  · cases run

theorem epollCtlAdd_apart {s s' : State} {fd : ℕ} (run : s.epollCtlAdd fd = some s') : s.Apart s' := by
  unfold epollCtlAdd at run
  split at run
  · have ended : s.Apart { s with creators := s.creators.erase (.nonblocking fd) } := by
      refine ⟨rfl, rfl, rfl, ?_⟩
      simp only [takers]
      rw [Multiset.count_erase_of_ne Creator.noConfusion]
    dsimp only at run
    split at run
    · obtain rfl := Option.some.inj run
      exact ended
    · split at run
      · split at run
        · obtain rfl := Option.some.inj run
          exact ended.trans ((setConnection_apart _ _ _).trans (edge_apart _ _))
        · obtain rfl := Option.some.inj run
          exact ended.trans (setConnection_apart _ _ _)
      · obtain rfl := Option.some.inj run
        exact ended
  · cases run

theorem epollWait_apart {s s' : State} (run : s.epollWait = some s') : s.Apart s' := by
  unfold epollWait at run
  split at run
  · next idle =>
    obtain rfl := Option.some.inj run
    refine ⟨rfl, rfl, rfl, ?_⟩
    have parts : (s.ready.take 1024).count .listen + (s.ready.drop 1024).count .listen = s.ready.count .listen := by
      rw [← List.count_append, List.take_append_drop]
    simp only [takers, idle.1, List.count_nil, Nat.add_zero]
    rw [Nat.add_comm ((s.ready.drop 1024).count _), parts]
  · cases run

theorem dispatch_apart {s s' : State} (run : s.dispatch = some s') : s.Apart s' := by
  unfold dispatch at run
  split at run
  · cases run
  · next evs returned =>
    obtain rfl := Option.some.inj run
    refine ⟨rfl, rfl, rfl, ?_⟩
    simp only [takers, returned, List.count_cons_self, Multiset.count_cons_self]
    omega
  · next fd c evs returned =>
    obtain rfl := Option.some.inj run
    refine ⟨rfl, rfl, rfl, ?_⟩
    simp only [takers, returned]
    rw [List.count_cons_of_ne Event.noConfusion]

theorem accept_cases {s s' : State} {fd : ℕ} (run : s.accept fd = some s') :
    ∃ c queue, .accepting ∈ s.creators ∧ s.table fd = none ∧ s.queue = c :: queue ∧
      s' = { s.move .accepting (.accepted fd) with queue, table := Function.update s.table fd (some c) } := by
  unfold accept at run
  split at run
  · next running =>
    split at run
    · cases run
    · next c queue waiting => exact ⟨c, queue, running.1, running.2, waiting, (Option.some.inj run).symm⟩
  · cases run

theorem accept_takers {s s' : State} {fd : ℕ} (run : s.accept fd = some s') :
    s.queue.length = s'.queue.length + 1 ∧ s.takers = s'.takers + 1 := by
  obtain ⟨c, queue, running, -, waiting, rfl⟩ := accept_cases run
  refine ⟨by rw [waiting, List.length_cons], ?_⟩
  have one := Multiset.count_pos.mpr running
  simp only [takers, move]
  rw [Multiset.count_cons_of_ne Creator.noConfusion, Multiset.count_erase_self]
  omega

end State

theorem step_cases {s s' : State} {action : Action} (taken : Step s action s') :
    (action ≠ .connect ∧ s.Apart s') ∨ (action = .connect ∧ s' = s.connect) ∨
      (∃ fd, action = .accept fd ∧ s.accept fd = some s') ∨
        ∃ thread generated, action = .mask thread generated ∧ thread ∈ s.masks ∧ thread.phase = .closing ∧
          s' = (s.close thread.fd).leave thread := by
  cases action with
  | connect => exact .inr (.inl ⟨rfl, (Option.some.inj taken).symm⟩)
  | arrive c n => exact .inl ⟨Action.noConfusion, State.client_apart taken⟩
  | clientClose c => exact .inl ⟨Action.noConfusion, State.client_apart taken⟩
  | clientReset c => exact .inl ⟨Action.noConfusion, State.client_apart taken⟩
  | epollWait => exact .inl ⟨Action.noConfusion, State.epollWait_apart taken⟩
  | dispatch => exact .inl ⟨Action.noConfusion, State.dispatch_apart taken⟩
  | accept fd => exact .inr (.inr (.inl ⟨fd, rfl, taken⟩))
  | setNonblock fd => exact .inl ⟨Action.noConfusion, State.setNonblock_apart taken⟩
  | epollCtlAdd fd => exact .inl ⟨Action.noConfusion, State.epollCtlAdd_apart taken⟩
  | mask thread generated =>
    obtain ⟨running, ⟨-, apart⟩ | ⟨closing, closed⟩⟩ := State.conmmunicationMask_cases taken
    · exact .inl ⟨Action.noConfusion, apart⟩
    · exact .inr (.inr (.inr ⟨thread, generated, rfl, running, closing, closed⟩))

/-- A client connects while an earlier event of the listening socket is still pending. -/
def Coalesces (s : State) (action : Action) : Prop := action = .connect ∧ .listen ∈ s.ready

instance (s : State) (action : Action) : Decidable (Coalesces s action) :=
  inferInstanceAs (Decidable (_ ∧ _))

def coalesced (past : List (State × Action)) : ℕ := past.countP fun step => Coalesces step.1 step.2

theorem coalesced_append (past : List (State × Action)) (s : State) (action : Action) :
    coalesced (past ++ [(s, action)]) = coalesced past + if Coalesces s action then 1 else 0 := by
  rw [coalesced, List.countP_append, List.countP_singleton, coalesced]
  simp only [decide_eq_true_eq]

theorem coalesced_eq_zero {past : List (State × Action)} :
    coalesced past = 0 ↔ ∀ t action, (t, action) ∈ past → ¬ Coalesces t action := by
  rw [coalesced, List.countP_eq_zero]
  simp only [decide_eq_true_eq, Prod.forall]

theorem connect_takers (s : State) :
    s.connect.takers + (if Coalesces s .connect then 1 else 0) = s.takers + 1 := by
  have coalesces : Coalesces s .connect ↔ .listen ∈ s.ready := and_iff_right rfl
  by_cases pending : .listen ∈ s.ready
  · rw [if_pos (coalesces.mpr pending)]
    simp only [State.takers, State.connect, State.raise, if_pos pending]
  · rw [if_neg (mt coalesces.mp pending)]
    have reported : [Event.listen].count .listen = 1 := rfl
    simp only [State.takers, State.connect, State.raise, if_neg pending, List.count_append, reported]
    omega

/-- Every connection in the accept queue has a report or a thread that will take it, except for
those that came while another report was pending. -/
theorem queue_length {past : List (State × Action)} {s : State} (run : Run Step .start past s) :
    s.queue.length = s.takers + coalesced past := by
  induction run with
  | initial => rfl
  | @next past s s' action run taken ih =>
    rw [coalesced_append]
    rcases step_cases taken with ⟨connects, apart⟩ | ⟨rfl, rfl⟩ | ⟨fd, rfl, accepted⟩ | ⟨thread, _, rfl, -, -, rfl⟩
    · rw [if_neg fun coalesces => connects coalesces.1, Nat.add_zero, apart.queue, apart.takers]
      exact ih
    · have takers := connect_takers s
      have length : s.connect.queue.length = s.queue.length + 1 := List.length_append
      omega
    · obtain ⟨length, takers⟩ := State.accept_takers accepted
      rw [if_neg fun coalesces => Action.noConfusion coalesces.1]
      omega
    · obtain ⟨queue, -, takers⟩ := s.close_frame thread.fd
      rw [if_neg fun coalesces => Action.noConfusion coalesces.1, Nat.add_zero]
      exact (congrArg List.length queue).trans (ih.trans (congrArg (· + _) takers.symm))

/-- When the accept side has come to rest, no connection is stranded in the accept queue if and
only if every connection so far came with a report of its own. -/
theorem queue_empty_iff {past : List (State × Action)} {s : State} (run : Run Step .start past s) (quiet : s.Quiet) :
    s.queue = [] ↔ ∀ t action, (t, action) ∈ past → ¬ Coalesces t action := by
  rw [← List.length_eq_zero_iff, queue_length run, quiet.takers, Nat.zero_add]
  exact coalesced_eq_zero

/-- The second client comes when the first report has been returned. -/
theorem queue_empty_iff_two_clients : ∃ past s, Run Step .start past s ∧ s.Quiet ∧
    ∀ t action, (t, action) ∈ past → ¬ Coalesces t action := by
  have shown : (([.connect, .epollWait, .connect, .dispatch, .epollWait, .accept 5, .dispatch, .setNonblock 5, .accept 6,
      .epollCtlAdd 5, .setNonblock 6, .epollCtlAdd 6] : List Action).foldlM State.act .start).map
        (fun s => (s.ready, s.evs, s.creators, s.queue)) = some ([], [], 0, []) := by
    decide
  obtain ⟨s, taken, fields⟩ := Option.map_eq_some_iff.mp shown
  simp only [Prod.mk.injEq] at fields
  obtain ⟨ready, evs, creators, queue⟩ := fields
  have run := Run.of_foldlM .initial taken
  have quiet : s.Quiet := ⟨by rw [ready]; exact List.not_mem_nil, by rw [evs]; exact List.not_mem_nil, creators⟩
  exact ⟨_, s, run, quiet, (queue_empty_iff run quiet).mp queue⟩

/-- The second client comes before the first report is returned, and is never accepted. -/
theorem second_client_stranded : ∃ past s, Run Step .start past s ∧ s.Quiet ∧ s.queue ≠ [] := by
  have shown : (([.connect, .connect, .epollWait, .dispatch, .accept 5, .setNonblock 5, .epollCtlAdd 5] :
      List Action).foldlM State.act .start).map (fun s => (s.ready, s.evs, s.creators, s.queue)) =
        some ([], [], 0, [1]) := by
    decide
  obtain ⟨s, taken, fields⟩ := Option.map_eq_some_iff.mp shown
  simp only [Prod.mk.injEq] at fields
  obtain ⟨ready, evs, creators, queue⟩ := fields
  have run := Run.of_foldlM .initial taken
  refine ⟨_, s, run, ⟨?_, ?_, creators⟩, ?_⟩
  · rw [ready]
    exact List.not_mem_nil
  · rw [evs]
    exact List.not_mem_nil
  · rw [queue]
    exact List.cons_ne_nil 1 []

end MyTools.Server
