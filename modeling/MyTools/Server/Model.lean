import Mathlib.Data.Multiset.AddSub
import Mathlib.Logic.Function.Basic
import MyTools.Library.Run

/-! The random number server: the listening socket and its accept queue, the client descriptors, the
edge-triggered epoll instance, the event loop of `main` and the detached threads it starts. -/
namespace MyTools.Server
open Library

/-- A client connection as the kernel sees it; `watch` is the descriptor it is registered under. -/
structure Connection where
  received : ℕ
  eof : Bool
  reset : Bool
  nonblock : Bool
  watch : Option ℕ

/-- An event of the listening socket, or of a descriptor with the connection it came from. -/
inductive Event
  | listen
  | client (fd connection : ℕ)
  deriving DecidableEq

def Event.comesFrom (c : ℕ) : Event → Bool
  | .listen => false
  | .client _ c' => c' = c

/-- Where a thread is in `Create_connect`. -/
inductive Creator
  | accepting
  | accepted (fd : ℕ)
  | nonblocking (fd : ℕ)
  deriving DecidableEq

inductive Phase
  | receiving
  | generating
  | deregistering
  | closing
  | sending
  deriving DecidableEq

/-- A thread in `Conmmunication_mask`, its descriptor and the connection it was started for. -/
structure Mask where
  fd : ℕ
  connection : ℕ
  phase : Phase
  deriving DecidableEq

structure State where
  queue : List ℕ
  connects : ℕ
  connection : ℕ → Connection
  table : ℕ → Option ℕ
  ready : List Event
  evs : List Event
  creators : Multiset Creator
  masks : Multiset Mask

inductive Action
  | connect
  | arrive (c n : ℕ)
  | clientClose (c : ℕ)
  | clientReset (c : ℕ)
  | epollWait
  | dispatch
  | accept (fd : ℕ)
  | setNonblock (fd : ℕ)
  | epollCtlAdd (fd : ℕ)
  | mask (thread : Mask) (generated : Bool)
  deriving DecidableEq

namespace State

def start : State where
  queue := []
  connects := 0
  connection _ := ⟨0, false, false, false, none⟩
  table _ := none
  ready := []
  evs := []
  creators := 0
  masks := 0

def setConnection (s : State) (c : ℕ) (k : Connection) : State :=
  { s with connection := Function.update s.connection c k }

/-- An edge-triggered descriptor is reported once for all that happened since its last report. -/
def raise (s : State) (event : Event) : State :=
  if event ∈ s.ready then s else { s with ready := s.ready ++ [event] }

def edge (s : State) (c : ℕ) : State :=
  match (s.connection c).watch with
  | some fd => s.raise (.client fd c)
  | none => s

/-- No event of this connection stays in the epoll instance. -/
def forget (s : State) (c : ℕ) : State :=
  { s.setConnection c { s.connection c with watch := none } with
    ready := s.ready.filter fun event => !event.comesFrom c }

/-! What the clients do. -/

/-- A new connection waits in the accept queue of the listening socket. -/
def connect (s : State) : State :=
  { s.raise .listen with queue := s.queue ++ [s.connects], connects := s.connects + 1 }

def arrive (s : State) (c n : ℕ) : Option State :=
  let k := s.connection c
  if c < s.connects ∧ 0 < n ∧ k.eof = false ∧ k.reset = false then
    some ((s.setConnection c { k with received := k.received + n }).edge c)
  else none

def clientClose (s : State) (c : ℕ) : Option State :=
  let k := s.connection c
  if c < s.connects ∧ k.eof = false ∧ k.reset = false then some ((s.setConnection c { k with eof := true }).edge c)
  else none

def clientReset (s : State) (c : ℕ) : Option State :=
  let k := s.connection c
  if c < s.connects ∧ k.reset = false then some ((s.setConnection c { k with reset := true }).edge c)
  else none

/-! The event loop of `main`. -/

def epollWait (s : State) : Option State :=
  if s.evs = [] ∧ s.ready ≠ [] then some { s with evs := s.ready.take 1024, ready := s.ready.drop 1024 } else none

def dispatch (s : State) : Option State :=
  match s.evs with
  | [] => none
  | .listen :: evs => some { s with evs, creators := .accepting ::ₘ s.creators }
  | .client fd c :: evs => some { s with evs, masks := ⟨fd, c, .receiving⟩ ::ₘ s.masks }

/-! The threads of `Create_connect`. -/

def move (s : State) (creator next : Creator) : State :=
  { s with creators := next ::ₘ s.creators.erase creator }

/-- `accept` blocks on an empty queue, and gives the connection a number that no other one has. -/
def accept (s : State) (fd : ℕ) : Option State :=
  if .accepting ∈ s.creators ∧ s.table fd = none then
    match s.queue with
    | [] => none
    | c :: queue => some { s.move .accepting (.accepted fd) with queue, table := Function.update s.table fd (some c) }
  else none

def setNonblock (s : State) (fd : ℕ) : Option State :=
  if .accepted fd ∈ s.creators then
    let s := s.move (.accepted fd) (.nonblocking fd)
    match s.table fd with
    | none => some s
    | some c => some (s.setConnection c { s.connection c with nonblock := true })
  else none

/-- `Epoll_Ctl_ADD`: a descriptor that is readable already is reported at once. -/
def epollCtlAdd (s : State) (fd : ℕ) : Option State :=
  if .nonblocking fd ∈ s.creators then
    let s := { s with creators := s.creators.erase (.nonblocking fd) }
    match s.table fd with
    | none => some s
    | some c =>
      let k := s.connection c
      if k.watch = none then
        let s := s.setConnection c { k with watch := some fd }
        if 0 < k.received ∨ k.eof ∨ k.reset then some (s.edge c) else some s
      else some s
  else none

/-! The threads of `Conmmunication_mask`. -/

def epollCtlDel (s : State) (fd : ℕ) : State :=
  match s.table fd with
  | none => s
  | some c => s.forget c

def close (s : State) (fd : ℕ) : State :=
  match s.table fd with
  | none => s
  | some c => { s.forget c with table := Function.update s.table fd none }

def leave (s : State) (thread : Mask) : State := { s with masks := s.masks.erase thread }

def go (s : State) (thread : Mask) (phase : Phase) : State :=
  { s with masks := { thread with phase } ::ₘ s.masks.erase thread }

/-- `recv` of at most ten bytes and the branches on its result. -/
def receive (s : State) (thread : Mask) : Option State :=
  match s.table thread.fd with
  | none => some (s.go thread .closing)
  | some c =>
    let k := s.connection c
    if 0 < k.received then
      some ((s.setConnection c { k with received := k.received - 10 }).go thread .generating)
    else if k.reset then some ((s.setConnection c { k with reset := false, eof := true }).go thread .closing)
    else if k.eof then some (s.go thread .deregistering)
    else if k.nonblock then some (s.go thread .sending)
    else none

/-- `generated` tells whether `srand_sm3_generate` had the memory it asks for. -/
def conmmunicationMask (s : State) (thread : Mask) (generated : Bool) : Option State :=
  if thread ∈ s.masks then
    match thread.phase with
    | .receiving => s.receive thread
    | .generating => if generated then some (s.go thread .receiving) else some (s.leave thread)
    | .deregistering => some ((s.epollCtlDel thread.fd).go thread .closing)
    | .closing => some ((s.close thread.fd).leave thread)
    | .sending => some (s.leave thread)
  else none

def act (s : State) : Action → Option State
  | .connect => some s.connect
  | .arrive c n => s.arrive c n
  | .clientClose c => s.clientClose c
  | .clientReset c => s.clientReset c
  | .epollWait => s.epollWait
  | .dispatch => s.dispatch
  | .accept fd => s.accept fd
  | .setNonblock fd => s.setNonblock fd
  | .epollCtlAdd fd => s.epollCtlAdd fd
  | .mask thread generated => s.conmmunicationMask thread generated

end State

def Step (s : State) (action : Action) (s' : State) : Prop := s.act action = some s'

end MyTools.Server
