import Mathlib.Algebra.BigOperators.Ring.Finset
import MyTools.CapBenchmark.Model
import MyTools.Library.Tally

/-! Every schedule of the benchmark adds every thread's iterations to the shared count once,
and the parent's last read comes after the last use of the mutex. -/
namespace MyTools.CapBenchmark
open Library

def Phase.Wrote : Phase → Prop
  | .written | .exited => True
  | _ => False

def Parent.HasRead (f : ℕ) : Parent → Prop
  | .forking _ => False
  | .reading i => f < i
  | .printed _ | .failed | .released => True

/-- The mutex and the shared count: a loaded count stays current while its thread holds the mutex. -/
structure Counting (g : Benchmark) (s : State) : Prop where
  member : ∀ id, s.thread id ≠ .absent → id ∈ g.ids
  holder : ∀ id, (s.thread id).Holds ↔ s.mutex = some id
  current : ∀ id i loopCount, s.thread id = .loaded i loopCount → loopCount = s.loopCount
  total : s.loopCount = ∑ id ∈ g.ids, (s.thread id).added

/-- Children and threads that do not exist yet. -/
structure Births (g : Benchmark) (s : State) : Prop where
  forked : ∀ f, (s.child f).phase ≠ .absent → f < g.processNum
  unforked : ∀ fnum, s.parent = .forking fnum → ∀ f, fnum ≤ f →
    (s.child f).phase = .absent ∧ ∀ t, s.thread (f, t) = .absent
  uncreated : ∀ f tnum, (s.child f).phase = .creating tnum → ∀ t, tnum ≤ t → s.thread (f, t) = .absent

/-- The thread counters and the eventfds. -/
structure Posting (g : Benchmark) (s : State) : Prop where
  counter : ∀ f, (s.child f).threadCnt = ∑ id ∈ g.team f, (s.thread id).done
  finished : ∀ f, (s.child f).phase.Wrote → (s.child f).threadCnt = g.threadNum
  posted : ∀ f, (s.child f).phase.Wrote → ¬ s.parent.HasRead f → s.efd f = 1
  unposted : ∀ f, ¬ (s.child f).phase.Wrote → s.efd f = 0
  read : ∀ f, f < g.processNum → s.parent.HasRead f → (s.child f).phase.Wrote
  reads : s.parent ≠ .failed

structure Inv (g : Benchmark) (s : State) : Prop extends Counting g s, Births g s, Posting g s

theorem inv_start (g : Benchmark) : Inv g .start where
  member id existing := absurd rfl existing
  holder id := by
    apply iff_of_false
    · exact not_false
    · exact (Option.some_ne_none id).symm
  current id i loopCount loaded := by cases loaded
  total := (Finset.sum_eq_zero fun id _ => rfl).symm
  forked f existing := absurd rfl existing
  unforked fnum _ f _ := ⟨rfl, fun t => rfl⟩
  uncreated f tnum creating := by cases creating
  counter f := (Finset.sum_eq_zero fun id _ => rfl).symm
  finished f wrote := wrote.elim
  posted f wrote := wrote.elim
  unposted f _ := rfl
  read f _ hasRead := hasRead.elim
  reads := Parent.noConfusion

/-! Steps of the threads. -/

/-- A thread touches its own place, its process's counters, the mutex and the shared count. -/
theorem testFun_frame {g : Benchmark} {s s' : State} {id : ℕ × ℕ} (run : g.testFun s id = some s') :
    s'.parent = s.parent ∧ s'.efd = s.efd ∧ (∀ f, (s'.child f).phase = (s.child f).phase) ∧
      s.thread id ≠ .absent ∧ (s.thread id).done = 0 ∧ ∃ next, next ≠ .absent ∧
        s'.thread = Function.update s.thread id next ∧
        ∀ f, (s'.child f).threadCnt = (s.child f).threadCnt + if f = id.1 then next.done else 0 := by
  unfold Benchmark.testFun at run
  split at run
  · cases run
  have same (f : ℕ) : (s.child f).threadCnt = (s.child f).threadCnt + if f = id.1 then 0 else 0 := by
    rw [ite_self, add_zero]
  cases place : s.thread id with
  | absent => rw [place] at run; cases run
  | testing i =>
    rw [place] at run
    obtain rfl := Option.some.inj run
    refine ⟨rfl, rfl, fun f => rfl, Thread.noConfusion, rfl, _, ?_, rfl, ?_⟩
    · split <;> exact Thread.noConfusion
    · split <;> exact same
  | locking i =>
    rw [place] at run
    dsimp only at run
    split at run
    · obtain rfl := Option.some.inj run
      exact ⟨rfl, rfl, fun f => rfl, Thread.noConfusion, rfl, _, Thread.noConfusion, rfl, same⟩
    · cases run
  | locked i =>
    rw [place] at run
    obtain rfl := Option.some.inj run
    refine ⟨rfl, rfl, fun f => ?_, Thread.noConfusion, rfl, _, Thread.noConfusion, rfl, fun f => ?_⟩
    · by_cases own : f = id.1
      · subst own
        simp only [State.setChild, Function.update_self]
      · simp only [State.setChild, State.setThread, Function.update_of_ne own]
    · by_cases own : f = id.1
      · subst own
        simp only [State.setChild, Function.update_self, Thread.done, ite_self, add_zero]
      · simp only [State.setChild, State.setThread, Function.update_of_ne own, if_neg own, add_zero]
  | counted i =>
    rw [place] at run
    obtain rfl := Option.some.inj run
    exact ⟨rfl, rfl, fun f => rfl, Thread.noConfusion, rfl, _, Thread.noConfusion, rfl, same⟩
  | loaded i loopCount =>
    rw [place] at run
    obtain rfl := Option.some.inj run
    exact ⟨rfl, rfl, fun f => rfl, Thread.noConfusion, rfl, _, Thread.noConfusion, rfl, same⟩
  | stored i =>
    rw [place] at run
    obtain rfl := Option.some.inj run
    exact ⟨rfl, rfl, fun f => rfl, Thread.noConfusion, rfl, _, Thread.noConfusion, rfl, same⟩
  | unlocked i =>
    rw [place] at run
    obtain rfl := Option.some.inj run
    refine ⟨rfl, rfl, fun f => ?_, Thread.noConfusion, rfl, _, Thread.noConfusion, rfl, fun f => ?_⟩
    · by_cases own : f = id.1
      · subst own
        simp only [State.setChild, Function.update_self]
      · simp only [State.setChild, State.setThread, Function.update_of_ne own]
    · by_cases own : f = id.1
      · subst own
        simp only [State.setChild, Function.update_self, Thread.done, if_true]
      · simp only [State.setChild, State.setThread, Function.update_of_ne own, if_neg own, add_zero]
  | ended i => rw [place] at run; cases run

theorem births_testFun {g : Benchmark} {s s' : State} {id : ℕ × ℕ} (births : Births g s)
    (run : g.testFun s id = some s') : Births g s' := by
  obtain ⟨parent, -, phases, existing, -, next, -, threads, -⟩ := testFun_frame run
  have absent {other : ℕ × ℕ} (none : s.thread other = .absent) : s'.thread other = .absent := by
    rw [threads, Function.update_of_ne, none]
    rintro rfl
    exact existing none
  constructor
  · intro f existing
    rw [phases] at existing
    exact births.forked f existing
  · intro fnum forking f later
    rw [parent] at forking
    obtain ⟨phase, none⟩ := births.unforked fnum forking f later
    exact ⟨(phases f).trans phase, fun t => absent (none t)⟩
  · intro f tnum creating t later
    rw [phases] at creating
    exact absent (births.uncreated f tnum creating t later)

theorem Posting.ended {g : Benchmark} {s : State} (posting : Posting g s) {id : ℕ × ℕ} (inside : id ∈ g.ids)
    (wrote : (s.child id.1).phase.Wrote) : ∃ i, s.thread id = .ended i := by
  have full : ∑ id ∈ g.team id.1, (s.thread id).done = (g.team id.1).card := by
    rw [← posting.counter, posting.finished _ wrote, g.card_team]
  have one := all_of_sum_eq_card _ _ (fun id => (s.thread id).done_le) full
    (g.mem_team.mpr ⟨rfl, (g.mem_ids.mp inside).2⟩)
  exact Thread.ended_of_done one

theorem posting_testFun {g : Benchmark} {s s' : State} {id : ℕ × ℕ} (counting : Counting g s) (posting : Posting g s)
    (run : g.testFun s id = some s') : Posting g s' := by
  obtain ⟨parent, efd, phases, existing, running, next, -, threads, counters⟩ := testFun_frame run
  have inside := counting.member id existing
  have unwritten (f : ℕ) (wrote : (s.child f).phase.Wrote) : f ≠ id.1 := by
    rintro rfl
    obtain ⟨i, ended⟩ := posting.ended inside wrote
    rw [ended] at running
    exact absurd running Nat.one_ne_zero
  constructor
  · intro f
    rw [counters, threads, posting.counter]
    by_cases own : f = id.1
    · have change := sum_change (g.team f) Thread.done s.thread (g.mem_team.mpr ⟨own.symm, (g.mem_ids.mp inside).2⟩) next
      rw [running, add_zero] at change
      rw [change, if_pos own]
    · rw [sum_unchanged _ _ _ _ _ fun other => absurd (g.mem_team.mp other).1.symm own, if_neg own, add_zero]
  · intro f wrote
    rw [phases] at wrote
    rw [counters, if_neg (unwritten f wrote), add_zero]
    exact posting.finished f wrote
  · intro f wrote unread
    rw [phases] at wrote
    rw [parent] at unread
    rw [efd]
    exact posting.posted f wrote unread
  · intro f unwritten
    rw [phases] at unwritten
    rw [efd]
    exact posting.unposted f unwritten
  · intro f inside hasRead
    rw [parent] at hasRead
    rw [phases]
    exact posting.read f inside hasRead
  · rw [parent]
    exact posting.reads

/-! Who holds the mutex after one thread has moved on. -/

private theorem holder_kept {g : Benchmark} {s : State} {id : ℕ × ℕ} {next : Thread} (counting : Counting g s)
    (same : next.Holds ↔ (s.thread id).Holds) (other : ℕ × ℕ) :
    (Function.update s.thread id next other).Holds ↔ s.mutex = some other := by
  by_cases own : other = id
  · subst own
    rw [Function.update_self, same]
    exact counting.holder other
  · rw [Function.update_of_ne own]
    exact counting.holder other

private theorem holder_taken {g : Benchmark} {s : State} {id : ℕ × ℕ} {next : Thread} (counting : Counting g s)
    (free : s.mutex = none) (takes : next.Holds) (other : ℕ × ℕ) :
    (Function.update s.thread id next other).Holds ↔ some id = some other := by
  by_cases own : other = id
  · subst own
    rw [Function.update_self]
    exact iff_of_true takes rfl
  · rw [Function.update_of_ne own, counting.holder, free]
    apply iff_of_false
    · exact (Option.some_ne_none other).symm
    · exact fun same => own (Option.some.inj same).symm

private theorem holder_given {g : Benchmark} {s : State} {id : ℕ × ℕ} {next : Thread} (counting : Counting g s)
    (holds : (s.thread id).Holds) (gives : ¬ next.Holds) (other : ℕ × ℕ) :
    (Function.update s.thread id next other).Holds ↔ none = some other := by
  apply iff_of_false
  · by_cases own : other = id
    · subst own
      rw [Function.update_self]
      exact gives
    · rw [Function.update_of_ne own, counting.holder, (counting.holder id).mp holds]
      exact fun same => own (Option.some.inj same).symm
  · exact (Option.some_ne_none other).symm

/-- A thread that changes the shared count holds the mutex, and adds what it counts as added. -/
private theorem counting_move {g : Benchmark} {s s' : State} {id : ℕ × ℕ} {next : Thread} (counting : Counting g s)
    (existing : s.thread id ≠ .absent) (threads : s'.thread = Function.update s.thread id next)
    (holder : ∀ other, (Function.update s.thread id next other).Holds ↔ s'.mutex = some other)
    (current : ∀ i loopCount, next = .loaded i loopCount → loopCount = s'.loopCount)
    (guarded : s'.loopCount = s.loopCount ∨ (s.thread id).Holds)
    (adds : s'.loopCount + (s.thread id).added = s.loopCount + next.added) : Counting g s' := by
  have inside := counting.member id existing
  constructor
  · intro other existing
    by_cases own : other = id
    · exact own ▸ inside
    · rw [threads, Function.update_of_ne own] at existing
      exact counting.member other existing
  · rw [threads]
    exact holder
  · intro other i loopCount loaded
    by_cases own : other = id
    · rw [own, threads, Function.update_self] at loaded
      exact current i loopCount loaded
    · rw [threads, Function.update_of_ne own] at loaded
      rcases guarded with same | holds
      · rw [same]
        exact counting.current other i loopCount loaded
      · have held := (counting.holder other).mp (by rw [loaded]; exact trivial)
        rw [(counting.holder id).mp holds] at held
        exact absurd (Option.some.inj held).symm own
  · have change := sum_change g.ids Thread.added s.thread inside next
    rw [← counting.total, ← adds, ← threads] at change
    exact (add_right_cancel change).symm

theorem counting_testFun {g : Benchmark} {s s' : State} {id : ℕ × ℕ} (counting : Counting g s)
    (run : g.testFun s id = some s') : Counting g s' := by
  have existing := (testFun_frame run).2.2.2.1
  unfold Benchmark.testFun at run
  split at run
  · cases run
  cases place : s.thread id with
  | absent => exact absurd place existing
  | testing i =>
    rw [place] at run
    obtain rfl := Option.some.inj run
    apply counting_move counting existing rfl
    · apply holder_kept counting
      rw [place]
      split <;> exact Iff.rfl
    · intro i loopCount loaded
      split at loaded <;> cases loaded
    · exact .inl rfl
    · rw [place]
      split <;> rfl
  | locking i =>
    rw [place] at run
    dsimp only at run
    split at run
    · next free =>
      obtain rfl := Option.some.inj run
      apply counting_move counting existing rfl
      · exact holder_taken counting free trivial
      · intro i loopCount loaded
        cases loaded
      · exact .inl rfl
      · rw [place]
        rfl
    · cases run
  | locked i =>
    rw [place] at run
    obtain rfl := Option.some.inj run
    apply counting_move counting existing rfl
    · apply holder_kept counting
      rw [place]
      exact Iff.rfl
    · intro i loopCount loaded
      cases loaded
    · exact .inl rfl
    · rw [place]
      rfl
  | counted i =>
    rw [place] at run
    obtain rfl := Option.some.inj run
    apply counting_move counting existing rfl
    · apply holder_kept counting
      rw [place]
      exact Iff.rfl
    · intro i loopCount loaded
      cases loaded
      rfl
    · exact .inl rfl
    · rw [place]
      rfl
  | loaded i loopCount =>
    rw [place] at run
    obtain rfl := Option.some.inj run
    have holds : (s.thread id).Holds := by
      rw [place]
      exact trivial
    apply counting_move counting existing rfl
    · apply holder_kept counting
      exact iff_of_true trivial holds
    · intro i loopCount loaded
      cases loaded
    · exact .inr holds
    · -- the count that was loaded is still the shared one
      rw [place, counting.current id i loopCount place]
      exact add_zero _
  | stored i =>
    rw [place] at run
    obtain rfl := Option.some.inj run
    have holds : (s.thread id).Holds := by
      rw [place]
      exact trivial
    apply counting_move counting existing rfl
    · exact holder_given counting holds not_false
    · intro i loopCount loaded
      cases loaded
    · exact .inl rfl
    · rw [place]
      rfl
  | unlocked i =>
    rw [place] at run
    obtain rfl := Option.some.inj run
    apply counting_move counting existing rfl
    · apply holder_kept counting
      rw [place]
      exact Iff.rfl
    · intro i loopCount loaded
      cases loaded
    · exact .inl rfl
    · rw [place]
      rfl
  | ended i => rw [place] at run; cases run

/-! Steps of the children, the parent and the timer. -/

theorem inv_testFun {g : Benchmark} {s s' : State} {id : ℕ × ℕ} (inv : Inv g s) (run : g.testFun s id = some s') :
    Inv g s' where
  toCounting := counting_testFun inv.toCounting run
  toBirths := births_testFun inv.toBirths run
  toPosting := posting_testFun inv.toCounting inv.toPosting run

private theorem phase_elsewhere (s : State) {f other : ℕ} (phase : Phase) (apart : other ≠ f) :
    (s.setPhase f phase).child other = s.child other := by
  simp only [State.setPhase, State.setChild, Function.update_of_ne apart]

private theorem phase_own (s : State) (f : ℕ) (phase : Phase) :
    ((s.setPhase f phase).child f).phase = phase := by
  simp only [State.setPhase, State.setChild, Function.update_self]

private theorem phase_threadCnt (s : State) (f other : ℕ) (phase : Phase) :
    ((s.setPhase f phase).child other).threadCnt = (s.child other).threadCnt := by
  by_cases own : other = f
  · simp only [own, State.setPhase, State.setChild, Function.update_self]
  · rw [phase_elsewhere s phase own]

private theorem inv_setPhase {g : Benchmark} {s : State} {f : ℕ} {phase : Phase} {efd : ℕ → ℕ} (inv : Inv g s)
    (existing : (s.child f).phase ≠ .absent)
    (creating : ∀ tnum, phase = .creating tnum → ∀ t, tnum ≤ t → s.thread (f, t) = .absent)
    (elsewhere : ∀ other, other ≠ f → efd other = s.efd other)
    (finished : phase.Wrote → (s.child f).threadCnt = g.threadNum)
    (posted : phase.Wrote → ¬ s.parent.HasRead f → efd f = 1) (unposted : ¬ phase.Wrote → efd f = 0)
    (stays : (s.child f).phase.Wrote → phase.Wrote) : Inv g { s.setPhase f phase with efd := efd } := by
  constructor
  · exact ⟨inv.member, inv.holder, inv.current, inv.total⟩
  · constructor
    · intro other present
      by_cases own : other = f
      · exact own ▸ inv.forked f existing
      · rw [phase_elsewhere s phase own] at present
        exact inv.forked other present
    · intro fnum forking other later
      have absent := inv.unforked fnum forking other later
      by_cases own : other = f
      · exact absurd (own ▸ absent.1) existing
      · exact ⟨by rw [phase_elsewhere s phase own]; exact absent.1, absent.2⟩
    · intro other tnum current
      by_cases own : other = f
      · subst own
        rw [phase_own] at current
        exact creating tnum current
      · rw [phase_elsewhere s phase own] at current
        exact inv.uncreated other tnum current
  · constructor
    · intro other
      rw [phase_threadCnt]
      exact inv.counter other
    · intro other wrote
      rw [phase_threadCnt]
      by_cases own : other = f
      · subst own
        rw [phase_own] at wrote
        exact finished wrote
      · rw [phase_elsewhere s phase own] at wrote
        exact inv.finished other wrote
    · intro other wrote unread
      by_cases own : other = f
      · subst own
        rw [phase_own] at wrote
        exact posted wrote unread
      · rw [phase_elsewhere s phase own] at wrote
        exact (elsewhere other own).trans (inv.posted other wrote unread)
    · intro other unwritten
      by_cases own : other = f
      · subst own
        rw [phase_own] at unwritten
        exact unposted unwritten
      · rw [phase_elsewhere s phase own] at unwritten
        exact (elsewhere other own).trans (inv.unposted other unwritten)
    · intro other inside hasRead
      have wrote := inv.read other inside hasRead
      by_cases own : other = f
      · subst own
        rw [phase_own]
        exact stays wrote
      · rw [phase_elsewhere s phase own]
        exact wrote
    · exact inv.reads

private theorem inv_appear {g : Benchmark} {s : State} (id : ℕ × ℕ) (inv : Inv g s) (absent : s.thread id = .absent)
    (inside : id ∈ g.ids) (existing : (s.child id.1).phase ≠ .absent)
    (counted : ∀ tnum, (s.child id.1).phase = .creating tnum → id.2 < tnum) :
    Inv g (s.setThread id (.testing 0)) := by
  have elsewhere {other : ℕ × ℕ} (apart : other ≠ id) :
      Function.update s.thread id (.testing 0) other = s.thread other := Function.update_of_ne apart _ _
  constructor
  · constructor
    · intro other existing
      by_cases own : other = id
      · exact own ▸ inside
      · exact inv.member other ((elsewhere own) ▸ existing)
    · apply holder_kept inv.toCounting
      rw [absent]
      exact Iff.rfl
    · intro other i loopCount loaded
      by_cases own : other = id
      · simp only [own, State.setThread, Function.update_self] at loaded
        cases loaded
      · exact inv.current other i loopCount ((elsewhere own) ▸ loaded)
    · exact inv.total.trans (sum_unchanged _ Thread.added _ _ _ fun _ => by rw [absent]; rfl).symm
  · constructor
    · exact inv.forked
    · intro fnum forking f later
      obtain ⟨phase, none⟩ := inv.unforked fnum forking f later
      refine ⟨phase, fun t => (elsewhere ?_).trans (none t)⟩
      rintro rfl
      exact existing phase
    · intro f tnum creating t later
      refine (elsewhere ?_).trans (inv.uncreated f tnum creating t later)
      rintro rfl
      exact absurd (counted tnum creating) (Nat.not_lt.mpr later)
  · constructor
    · intro f
      exact (inv.counter f).trans (sum_unchanged _ Thread.done _ _ _ fun _ => by rw [absent]; rfl).symm
    · exact inv.finished
    · exact inv.posted
    · exact inv.unposted
    · exact inv.read
    · exact inv.reads

theorem inv_child {g : Benchmark} {s s' : State} {f : ℕ} (inv : Inv g s) (run : g.child s f = some s') : Inv g s' := by
  unfold Benchmark.child at run
  cases phase : (s.child f).phase with
  | absent => rw [phase] at run; cases run
  | creating tnum =>
    have existing : (s.child f).phase ≠ .absent := by
      rw [phase]
      exact Phase.noConfusion
    have unwritten : s.efd f = 0 := by
      apply inv.unposted f
      rw [phase]
      exact not_false
    have stays : ¬ (s.child f).phase.Wrote := by
      rw [phase]
      exact not_false
    have absent := inv.uncreated f tnum phase
    rw [phase] at run
    dsimp only at run
    split at run
    · next more =>
      obtain rfl := Option.some.inj run
      have counted : Inv g (s.setPhase f (.creating (tnum + 1))) := by
        apply inv_setPhase inv existing
        · intro next same t later
          obtain rfl := Phase.creating.inj same
          exact absent t (Nat.le_of_succ_le later)
        · exact fun other _ => rfl
        · exact fun wrote => wrote.elim
        · exact fun wrote => wrote.elim
        · exact fun _ => unwritten
        · exact fun wrote => absurd wrote stays
      have own := phase_own s f (.creating (tnum + 1))
      apply inv_appear (f, tnum) counted (absent tnum le_rfl)
      · exact g.mem_ids.mpr ⟨inv.forked f existing, more⟩
      · rw [own]
        exact Phase.noConfusion
      · intro next same
        obtain rfl := Phase.creating.inj (own.symm.trans same)
        exact Nat.lt_succ_self tnum
    · obtain rfl := Option.some.inj run
      apply inv_setPhase inv existing
      · intro next same
        cases same
      · exact fun other _ => rfl
      · exact fun wrote => wrote.elim
      · exact fun wrote => wrote.elim
      · exact fun _ => unwritten
      · exact fun wrote => absurd wrote stays
  | polling =>
    have stays : ¬ (s.child f).phase.Wrote := by
      rw [phase]
      exact not_false
    rw [phase] at run
    dsimp only at run
    split at run
    · next all =>
      obtain rfl := Option.some.inj run
      apply inv_setPhase inv
      · rw [phase]
        exact Phase.noConfusion
      · intro next same
        cases same
      · exact fun other apart => Function.update_of_ne apart _ _
      · exact fun _ => all
      · intro _ _
        rw [Function.update_self, inv.unposted f stays]
      · exact fun unwritten => absurd trivial unwritten
      · exact fun _ => trivial
    · obtain rfl := Option.some.inj run
      exact inv
  | written =>
    have wrote : (s.child f).phase.Wrote := by
      rw [phase]
      exact trivial
    rw [phase] at run
    obtain rfl := Option.some.inj run
    apply inv_setPhase inv
    · rw [phase]
      exact Phase.noConfusion
    · intro next same
      cases same
    · exact fun other _ => rfl
    · exact fun _ => inv.finished f wrote
    · exact fun _ => inv.posted f wrote
    · exact fun unwritten => absurd trivial unwritten
    · exact fun _ => trivial
  | exited => rw [phase] at run; cases run

private theorem inv_fork {g : Benchmark} {s : State} {fnum : ℕ} (inv : Inv g s) (forking : s.parent = .forking fnum)
    (more : fnum < g.processNum) :
    Inv g { s.setChild fnum ⟨.creating 0, 0, 0⟩ with parent := .forking (fnum + 1) } := by
  obtain ⟨absent, threads⟩ := inv.unforked fnum forking fnum le_rfl
  have unread (f : ℕ) : ¬ s.parent.HasRead f := by
    rw [forking]
    exact not_false
  have elsewhere {f : ℕ} (apart : f ≠ fnum) :
      Function.update s.child fnum ⟨.creating 0, 0, 0⟩ f = s.child f := Function.update_of_ne apart _ _
  constructor
  · exact ⟨inv.member, inv.holder, inv.current, inv.total⟩
  · constructor
    · intro f existing
      by_cases own : f = fnum
      · exact own ▸ more
      · exact inv.forked f (elsewhere own ▸ existing)
    · intro next same f later
      obtain rfl := Parent.forking.inj same
      obtain ⟨phase, none⟩ := inv.unforked fnum forking f (Nat.le_of_succ_le later)
      refine ⟨?_, none⟩
      rw [← phase]
      exact congrArg Child.phase (elsewhere (Nat.ne_of_gt later))
    · intro f tnum creating t later
      by_cases own : f = fnum
      · rw [own]
        exact threads t
      · exact inv.uncreated f tnum (elsewhere own ▸ creating) t later
  · constructor
    · intro f
      by_cases own : f = fnum
      · subst own
        apply (congrArg Child.threadCnt (Function.update_self f _ s.child)).trans
        apply (Finset.sum_eq_zero _).symm
        rintro ⟨f', t⟩ member
        obtain rfl := (g.mem_team.mp member).1
        exact congrArg Thread.done (threads t)
      · exact (congrArg Child.threadCnt (elsewhere own)).trans (inv.counter f)
    · intro f wrote
      by_cases own : f = fnum
      · simp only [State.setChild, own, Function.update_self] at wrote
        exact wrote.elim
      · exact (congrArg Child.threadCnt (elsewhere own)).trans (inv.finished f (elsewhere own ▸ wrote))
    · intro f wrote _
      by_cases own : f = fnum
      · simp only [State.setChild, own, Function.update_self] at wrote
        exact wrote.elim
      · exact inv.posted f (elsewhere own ▸ wrote) (unread f)
    · intro f unwritten
      by_cases own : f = fnum
      · subst own
        apply inv.unposted f
        rw [absent]
        exact not_false
      · exact inv.unposted f (elsewhere own ▸ unwritten)
    · exact fun f _ hasRead => hasRead.elim
    · exact Parent.noConfusion

/-- The parent has forked every child, and reads no further than the eventfds it has seen written. -/
private theorem inv_parent {g : Benchmark} {s : State} (next : Parent) (efd : ℕ → ℕ) (inv : Inv g s)
    (forked : ∀ fnum, next ≠ .forking fnum) (later : ∀ f, s.parent.HasRead f → next.HasRead f)
    (read : ∀ f, f < g.processNum → next.HasRead f → (s.child f).phase.Wrote)
    (kept : ∀ f, ¬ next.HasRead f → efd f = s.efd f) (unposted : ∀ f, ¬ (s.child f).phase.Wrote → efd f = 0)
    (reads : next ≠ .failed) : Inv g { s with parent := next, efd := efd } where
  toCounting := ⟨inv.member, inv.holder, inv.current, inv.total⟩
  toBirths := ⟨inv.forked, fun fnum same => absurd same (forked fnum), inv.uncreated⟩
  toPosting := ⟨inv.counter, inv.finished,
    fun f wrote unread => (kept f unread).trans (inv.posted f wrote (mt (later f) unread)), unposted, read, reads⟩

theorem inv_parent_step {g : Benchmark} {s s' : State} (inv : Inv g s) (run : g.parent s = some s') : Inv g s' := by
  unfold Benchmark.parent at run
  cases place : s.parent with
  | forking fnum =>
    rw [place] at run
    dsimp only at run
    split at run
    · next more =>
      obtain rfl := Option.some.inj run
      exact inv_fork inv place more
    · obtain rfl := Option.some.inj run
      apply inv_parent (.reading 0) s.efd inv
      · exact fun fnum => Parent.noConfusion
      · intro f hasRead
        rw [place] at hasRead
        exact hasRead.elim
      · exact fun f _ hasRead => absurd hasRead (Nat.not_lt_zero f)
      · exact fun f _ => rfl
      · exact inv.unposted
      · exact Parent.noConfusion
  | reading i =>
    rw [place] at run
    dsimp only at run
    split at run
    · next more =>
      split at run
      · cases run
      · next readable =>
        have wrote : (s.child i).phase.Wrote := by
          by_contra unwritten
          exact readable (inv.unposted i unwritten)
        have unread : ¬ s.parent.HasRead i := by
          rw [place]
          exact Nat.lt_irrefl i
        rw [if_neg (not_not.mpr (inv.posted i wrote unread))] at run
        obtain rfl := Option.some.inj run
        apply inv_parent (.reading (i + 1)) (Function.update s.efd i 0) inv
        · exact fun fnum => Parent.noConfusion
        · intro f hasRead
          rw [place] at hasRead
          exact Nat.lt_succ_of_lt hasRead
        · intro f inside hasRead
          rcases Nat.lt_succ_iff_lt_or_eq.mp hasRead with earlier | rfl
          · exact inv.read f inside (by rw [place]; exact earlier)
          · exact wrote
        · intro f unread
          apply Function.update_of_ne
          rintro rfl
          exact unread (Nat.lt_succ_self f)
        · intro f unwritten
          rw [Function.update_of_ne, inv.unposted f unwritten]
          rintro rfl
          exact unwritten wrote
        · exact Parent.noConfusion
    · next last =>
      obtain rfl := Option.some.inj run
      apply inv_parent (.printed s.loopCount) s.efd inv
      · exact fun fnum => Parent.noConfusion
      · exact fun f _ => trivial
      · intro f inside _
        apply inv.read f inside
        rw [place]
        exact Nat.lt_of_lt_of_le inside (Nat.not_lt.mp last)
      · exact fun f _ => rfl
      · exact inv.unposted
      · exact Parent.noConfusion
  | printed totalLoop =>
    rw [place] at run
    obtain rfl := Option.some.inj run
    apply inv_parent .released s.efd inv
    · exact fun fnum => Parent.noConfusion
    · exact fun f _ => trivial
    · intro f inside _
      apply inv.read f inside
      rw [place]
      exact trivial
    · exact fun f _ => rfl
    · exact inv.unposted
    · exact Parent.noConfusion
  | failed => exact absurd place inv.reads
  | released => rw [place] at run; cases run

theorem alarmClock_cases {g : Benchmark} {s s' : State} (run : g.alarmClock s = some s') :
    s' = { s with loopStatus := 0 } := by
  unfold Benchmark.alarmClock at run
  split at run
  · cases run
  · split at run
    · cases run
    · exact (Option.some.inj run).symm

theorem inv_alarmClock {g : Benchmark} {s s' : State} (inv : Inv g s) (run : g.alarmClock s = some s') : Inv g s' := by
  rw [alarmClock_cases run]
  exact { toCounting := ⟨inv.member, inv.holder, inv.current, inv.total⟩
          toBirths := ⟨inv.forked, inv.unforked, inv.uncreated⟩
          toPosting := ⟨inv.counter, inv.finished, inv.posted, inv.unposted, inv.read, inv.reads⟩ }

theorem inv_step {g : Benchmark} {s s' : State} {action : Benchmark.Action} (inv : Inv g s)
    (taken : g.Step s action s') : Inv g s' := by
  cases action with
  | parent => exact inv_parent_step inv taken
  | child f => exact inv_child inv taken
  | thread id => exact inv_testFun inv taken
  | alarmClock => exact inv_alarmClock inv taken

/-! The end of a run. -/

def State.AllRead (g : Benchmark) (s : State) : Prop := ∀ f, f < g.processNum → s.parent.HasRead f

theorem Inv.ended {g : Benchmark} {s : State} (inv : Inv g s) (read : s.AllRead g) {id : ℕ × ℕ} (inside : id ∈ g.ids) :
    ∃ i, s.thread id = .ended i := by
  have existing := (g.mem_ids.mp inside).1
  exact inv.toPosting.ended inside (inv.read _ existing (read _ existing))

theorem Inv.still {g : Benchmark} {s s' : State} (inv : Inv g s) (read : s.AllRead g) (id : ℕ × ℕ) :
    g.testFun s id ≠ some s' := by
  intro run
  obtain ⟨-, -, -, existing, running, -⟩ := testFun_frame run
  obtain ⟨i, ended⟩ := inv.ended read (inv.member id existing)
  rw [ended] at running
  exact absurd running Nat.one_ne_zero

theorem Inv.idle {g : Benchmark} {s : State} (inv : Inv g s) (read : s.AllRead g) (id : ℕ × ℕ) :
    ¬ (s.thread id).Holds := by
  intro holds
  have existing : s.thread id ≠ .absent := by
    intro absent
    rw [absent] at holds
    exact holds
  obtain ⟨i, ended⟩ := inv.ended read (inv.member id existing)
  rw [ended] at holds
  exact holds

theorem child_frame {g : Benchmark} {s s' : State} {f : ℕ} (run : g.child s f = some s') :
    s'.parent = s.parent ∧ s'.loopCount = s.loopCount := by
  unfold Benchmark.child at run
  cases phase : (s.child f).phase with
  | absent => rw [phase] at run; cases run
  | creating tnum =>
    rw [phase] at run
    dsimp only at run
    split at run
    · obtain rfl := Option.some.inj run
      exact ⟨rfl, rfl⟩
    · obtain rfl := Option.some.inj run
      exact ⟨rfl, rfl⟩
  | polling =>
    rw [phase] at run
    dsimp only at run
    split at run
    · obtain rfl := Option.some.inj run
      exact ⟨rfl, rfl⟩
    · obtain rfl := Option.some.inj run
      exact ⟨rfl, rfl⟩
  | written =>
    rw [phase] at run
    obtain rfl := Option.some.inj run
    exact ⟨rfl, rfl⟩
  | exited => rw [phase] at run; cases run

theorem parent_cases {g : Benchmark} {s s' : State} (run : g.parent s = some s') :
    (∃ fnum, s.parent = .forking fnum) ∨ (∃ i, s.parent = .reading i ∧ i < g.processNum) ∨
      s' = { s with parent := .printed s.loopCount } ∨ s' = { s with parent := .released } := by
  unfold Benchmark.parent at run
  cases place : s.parent with
  | forking fnum => exact .inl ⟨fnum, rfl⟩
  | reading i =>
    rw [place] at run
    dsimp only at run
    split at run
    · next more => exact .inr (.inl ⟨i, rfl, more⟩)
    · exact .inr (.inr (.inl (Option.some.inj run).symm))
  | printed totalLoop =>
    rw [place] at run
    exact .inr (.inr (.inr (Option.some.inj run).symm))
  | failed =>
    rw [place] at run
    exact .inr (.inr (.inr (Option.some.inj run).symm))
  | released => rw [place] at run; cases run

/-- After the last read the shared count stays, and is what gets printed. -/
structure Settled (g : Benchmark) (s : State) : Prop where
  inv : Inv g s
  printed : ∀ totalLoop, s.parent = .printed totalLoop → totalLoop = s.loopCount

theorem allRead_step {g : Benchmark} {s s' : State} {action : Benchmark.Action} (inv : Inv g s) (read : s.AllRead g)
    (taken : g.Step s action s') : s'.AllRead g := by
  intro f inside
  have before := read f inside
  cases action with
  | parent =>
    rcases parent_cases taken with ⟨fnum, forking⟩ | ⟨i, reading, more⟩ | printed | released
    · rw [forking] at before
      exact before.elim
    · have own := read i more
      rw [reading] at own
      exact absurd own (Nat.lt_irrefl i)
    · rw [printed]
      exact trivial
    · rw [released]
      exact trivial
  | child f' =>
    rw [(child_frame taken).1]
    exact before
  | thread id => exact absurd taken (inv.still read id)
  | alarmClock =>
    rw [alarmClock_cases taken]
    exact before

theorem settled_step {g : Benchmark} {s s' : State} {action : Benchmark.Action} (settled : Settled g s)
    (taken : g.Step s action s') : Settled g s' := by
  refine ⟨inv_step settled.inv taken, ?_⟩
  intro totalLoop printed
  cases action with
  | parent =>
    have run : g.parent s = some s' := taken
    unfold Benchmark.parent at run
    cases place : s.parent with
    | forking fnum =>
      rw [place] at run
      dsimp only at run
      split at run
      · obtain rfl := Option.some.inj run
        cases printed
      · obtain rfl := Option.some.inj run
        cases printed
    | reading i =>
      rw [place] at run
      dsimp only at run
      split at run
      · split at run
        · cases run
        · split at run
          · obtain rfl := Option.some.inj run
            cases printed
          · obtain rfl := Option.some.inj run
            cases printed
      · obtain rfl := Option.some.inj run
        exact (Parent.printed.inj printed).symm
    | printed totalLoop =>
      rw [place] at run
      obtain rfl := Option.some.inj run
      cases printed
    | failed => exact absurd place settled.inv.reads
    | released => rw [place] at run; cases run
  | child f =>
    obtain ⟨parent, count⟩ := child_frame taken
    rw [count]
    exact settled.printed totalLoop (parent ▸ printed)
  | thread id =>
    rw [(testFun_frame taken).1] at printed
    have read : s.AllRead g := by
      intro f _
      rw [printed]
      exact trivial
    exact absurd taken (settled.inv.still read id)
  | alarmClock =>
    rw [alarmClock_cases taken] at printed ⊢
    exact settled.printed totalLoop printed

theorem settled_run {g : Benchmark} {past : List (State × Benchmark.Action)} {s : State}
    (run : Run g.Step .start past s) : Settled g s := by
  apply run.keeps (Settled g) (fun _ _ => True)
  · exact ⟨inv_start g, fun totalLoop printed => by cases printed⟩
  · exact fun s action s' settled _ taken => settled_step settled taken
  · exact fun _ _ _ => trivial

theorem Inv.quiet {g : Benchmark} {s s' : State} (inv : Inv g s) (read : s.AllRead g)
    {later : List (State × Benchmark.Action)} (run : Run g.Step s later s') (t : State) (id : ℕ × ℕ) :
    (t, .thread id) ∉ later := by
  intro member
  obtain ⟨before, -, shorter⟩ := run.reached member
  obtain ⟨t', taken, -⟩ := run.successor member
  have there : Inv g t ∧ t.AllRead g := by
    apply shorter.keeps (fun t => Inv g t ∧ t.AllRead g) (fun _ _ => True) ⟨inv, read⟩
    · exact fun s action s' both _ taken => ⟨inv_step both.1 taken, allRead_step both.1 both.2 taken⟩
    · exact fun _ _ _ => trivial
  exact there.1.still there.2 id taken

/-- The shared count when the parent prints is every thread's iterations added up; no thread holds
the mutex then, and none takes another step. -/
theorem printed_exact {g : Benchmark} {past : List (State × Benchmark.Action)} {s : State} {totalLoop : UInt64}
    (run : Run g.Step .start past s) (printed : s.parent = .printed totalLoop)
    (below : ∑ id ∈ g.ids, (s.thread id).iterations.toNat < 2 ^ 64) :
    s.loopCount.toNat = ∑ id ∈ g.ids, (s.thread id).iterations.toNat ∧ totalLoop = s.loopCount ∧ s.mutex = none ∧
      (∀ id, ¬ (s.thread id).Holds) ∧
      ∀ later s', Run g.Step s later s' → ∀ t id, (t, .thread id) ∉ later := by
  obtain ⟨inv, current⟩ := settled_run run
  have read : s.AllRead g := by
    intro f _
    rw [printed]
    exact trivial
  refine ⟨?_, current totalLoop printed, ?_, inv.idle read, fun later s' onward => inv.quiet read onward⟩
  · have added : ∑ id ∈ g.ids, (s.thread id).added = ∑ id ∈ g.ids, (s.thread id).iterations := by
      apply Finset.sum_congr rfl
      intro id inside
      obtain ⟨i, ended⟩ := inv.ended read inside
      rw [ended]
      rfl
    rw [inv.total, added, toNat_sum, Nat.mod_eq_of_lt below]
  · by_contra taken
    obtain ⟨id, holder⟩ := Option.ne_none_iff_exists'.mp taken
    exact inv.idle read id ((inv.holder id).mpr holder)

def twoChildren : Benchmark := ⟨2, 1, 0, 1⟩

/-- The first child has its count loaded while the second one waits for the mutex. -/
def overlapping : List Benchmark.Action :=
  [.parent, .child 0, .parent, .child 1, .thread (0, 0), .thread (1, 0), .parent, .thread (1, 0), .thread (0, 0),
    .thread (0, 0), .thread (0, 0), .thread (0, 0), .thread (0, 0), .thread (0, 0), .thread (1, 0), .child 0,
    .thread (1, 0), .thread (1, 0), .thread (0, 0), .child 0, .thread (1, 0), .thread (1, 0), .thread (1, 0),
    .child 0, .parent, .child 1, .child 1, .parent, .parent]

theorem printed_exact_overlapping : ∃ past s, Run twoChildren.Step .start past s ∧ s.parent = .printed 2 ∧
    s.loopCount.toNat = ∑ id ∈ twoChildren.ids, (s.thread id).iterations.toNat ∧ s.mutex = none := by
  have run : ((overlapping.foldlM twoChildren.act .start).map fun s =>
      (s.parent, (s.thread (0, 0)).iterations, (s.thread (1, 0)).iterations)) = some (.printed 2, 1, 1) := by
    decide
  obtain ⟨s, taken, shown⟩ := Option.map_eq_some_iff.mp run
  have run := Run.of_foldlM .initial taken
  have printed : s.parent = .printed 2 := congrArg Prod.fst shown
  have below : ∑ id ∈ twoChildren.ids, (s.thread id).iterations.toNat < 2 ^ 64 := by
    have ids : twoChildren.ids = {(0, 0), (1, 0)} := by decide
    have first : (s.thread (0, 0)).iterations = 1 := congrArg (fun t => t.2.1) shown
    have second : (s.thread (1, 0)).iterations = 1 := congrArg (fun t => t.2.2) shown
    rw [ids, Finset.sum_pair (by decide), first, second]
    decide
  obtain ⟨total, -, free, -⟩ := printed_exact run printed below
  exact ⟨_, s, run, printed, total, free⟩

end MyTools.CapBenchmark
