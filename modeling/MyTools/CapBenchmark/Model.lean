import Mathlib.Data.UInt
import Mathlib.Data.Finset.Prod
import Mathlib.Logic.Function.Basic
import MyTools.Library.Run

/-! The loop benchmark: a parent, its child processes and their threads, the process-shared
mutex, the shared loop count and one eventfd for each child. -/
namespace MyTools.CapBenchmark
open Library

structure Benchmark where
  processNum : ℕ
  threadNum : ℕ
  testTime : ℕ
  loop : UInt64

/-- Where a thread is in `TestFun`, with its local `i`. -/
inductive Thread
  | absent
  | testing (i : UInt64)
  | locking (i : UInt64)
  | locked (i : UInt64)
  | counted (i : UInt64)
  | loaded (i loopCount : UInt64)
  | stored (i : UInt64)
  | unlocked (i : UInt64)
  | ended (i : UInt64)
  deriving DecidableEq

inductive Phase
  | absent
  | creating (tnum : ℕ)
  | polling
  | written
  | exited
  deriving DecidableEq

structure Child where
  phase : Phase
  threadCnt : ℕ
  threadGlobalLoopCount : UInt64

inductive Parent
  | forking (fnum : ℕ)
  | reading (i : ℕ)
  | printed (totalLoop : UInt64)
  | failed
  | released
  deriving DecidableEq

structure State where
  parent : Parent
  child : ℕ → Child
  thread : ℕ × ℕ → Thread
  mutex : Option (ℕ × ℕ)
  loopCount : UInt64
  loopStatus : UInt64
  efd : ℕ → ℕ

namespace State

def start : State where
  parent := .forking 0
  child _ := ⟨.absent, 0, 0⟩
  thread _ := .absent
  mutex := none
  loopCount := 0
  loopStatus := 1
  efd _ := 0

def setThread (s : State) (id : ℕ × ℕ) (thread : Thread) : State :=
  { s with thread := Function.update s.thread id thread }

def setChild (s : State) (f : ℕ) (child : Child) : State :=
  { s with child := Function.update s.child f child }

def setPhase (s : State) (f : ℕ) (phase : Phase) : State := s.setChild f { s.child f with phase }

end State

namespace Benchmark
variable (g : Benchmark)

/-- The next step of a thread; a thread ends with its process. -/
def testFun (s : State) (id : ℕ × ℕ) : Option State :=
  if (s.child id.1).phase = .exited then none
  else
    match s.thread id with
    | .absent => none
    | .testing i => some (s.setThread id (if i < g.loop ∧ s.loopStatus ≠ 0 then .testing (i + 1) else .locking i))
    | .locking i => if s.mutex = none then some { s.setThread id (.locked i) with mutex := some id } else none
    | .locked i =>
      let child := s.child id.1
      some ((s.setThread id (.counted i)).setChild id.1
        { child with threadGlobalLoopCount := child.threadGlobalLoopCount + i })
    | .counted i => some (s.setThread id (.loaded i s.loopCount))
    | .loaded i loopCount => some { s.setThread id (.stored i) with loopCount := loopCount + i }
    | .stored i => some { s.setThread id (.unlocked i) with mutex := none }
    | .unlocked i =>
      let child := s.child id.1
      some ((s.setThread id (.ended i)).setChild id.1 { child with threadCnt := child.threadCnt + 1 })
    | .ended _ => none

def child (s : State) (f : ℕ) : Option State :=
  match (s.child f).phase with
  | .absent => none
  | .creating tnum =>
    if tnum < g.threadNum then some ((s.setThread (f, tnum) (.testing 0)).setPhase f (.creating (tnum + 1)))
    else some (s.setPhase f .polling)
  | .polling =>
    if (s.child f).threadCnt = g.threadNum then
      some { s.setPhase f .written with efd := Function.update s.efd f (s.efd f + 1) }
    else some s
  | .written => some (s.setPhase f .exited)
  | .exited => none

/-- The next step of the parent: a read blocks until its eventfd is written. -/
def parent (s : State) : Option State :=
  match s.parent with
  | .forking fnum =>
    if fnum < g.processNum then some { s.setChild fnum ⟨.creating 0, 0, 0⟩ with parent := .forking (fnum + 1) }
    else some { s with parent := .reading 0 }
  | .reading i =>
    if i < g.processNum then
      if s.efd i = 0 then none
      else if s.efd i ≠ 1 then some { s with efd := Function.update s.efd i 0, parent := .failed }
      else some { s with efd := Function.update s.efd i 0, parent := .reading (i + 1) }
    else some { s with parent := .printed s.loopCount }
  | .printed _ => some { s with parent := .released }
  | .failed => some { s with parent := .released }
  | .released => none

/-- The timer is set after the last fork, when there is a test time. -/
def alarmClock (s : State) : Option State :=
  match s.parent with
  | .forking _ => none
  | _ => if g.testTime = 0 then none else some { s with loopStatus := 0 }

inductive Action
  | parent
  | child (f : ℕ)
  | thread (id : ℕ × ℕ)
  | alarmClock

def act (s : State) : Action → Option State
  | .parent => g.parent s
  | .child f => g.child s f
  | .thread id => g.testFun s id
  | .alarmClock => g.alarmClock s

def Step (s : State) (action : Action) (s' : State) : Prop := g.act s action = some s'

def ids : Finset (ℕ × ℕ) := Finset.range g.processNum ×ˢ Finset.range g.threadNum

def team (f : ℕ) : Finset (ℕ × ℕ) := {f} ×ˢ Finset.range g.threadNum

theorem mem_ids {id : ℕ × ℕ} : id ∈ g.ids ↔ id.1 < g.processNum ∧ id.2 < g.threadNum := by
  rw [ids, Finset.mem_product, Finset.mem_range, Finset.mem_range]

theorem mem_team {f : ℕ} {id : ℕ × ℕ} : id ∈ g.team f ↔ id.1 = f ∧ id.2 < g.threadNum := by
  rw [team, Finset.mem_product, Finset.mem_singleton, Finset.mem_range]

theorem card_team (f : ℕ) : (g.team f).card = g.threadNum := by
  rw [team, Finset.card_product, Finset.card_singleton, Finset.card_range, one_mul]

end Benchmark

namespace Thread

def iterations : Thread → UInt64
  | .absent => 0
  | .testing i | .locking i | .locked i | .counted i | .loaded i _ | .stored i | .unlocked i | .ended i => i

/-- What the thread has added to the shared loop count. -/
def added : Thread → UInt64
  | .stored i | .unlocked i | .ended i => i
  | _ => 0

def done : Thread → ℕ
  | .ended _ => 1
  | _ => 0

def Holds : Thread → Prop
  | .locked _ | .counted _ | .loaded _ _ | .stored _ => True
  | _ => False

theorem done_le (thread : Thread) : thread.done ≤ 1 := by
  cases thread with
  | ended i => exact le_rfl
  | _ => exact Nat.zero_le 1

theorem ended_of_done {thread : Thread} (one : thread.done = 1) : ∃ i, thread = .ended i := by
  cases thread with
  | ended i => exact ⟨i, rfl⟩
  | _ => exact absurd one Nat.zero_ne_one

end Thread
end MyTools.CapBenchmark
