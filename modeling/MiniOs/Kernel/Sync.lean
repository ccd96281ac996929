import Mathlib.Data.Fintype.Card
import MiniOs.Kernel.Trap

/-!
# Semaphores and mutexes

`sync.c`, on one semaphore or one mutex. A region with interrupts off is one
step, and so is a read or a write of `owner` outside of such a region. Between
two steps a trap can take the processor away, so what the tasks do is a list of
events: a trap, or the next step of the task that is running. The tasks make no
system call but the one at the end of `task_block`.

A place is the step a task takes next. `holds` is no variable of the kernel: it
is who took the value of a mutex and has not given it back.

The value is an integer, without the bounds of `int`.
-/

namespace MiniOs.Kernel

open MiniOs.Lib

/-- Where a task stands in `sync.c`. The flag of `sem_wait` is set where
`mutex_lock` called it. -/
inductive Place where
  | outside
  -- `sem_wait`, at the head of its loop, and between the test and `task_block`
  | test (lock : Bool)
  | block (lock : Bool)
  -- `mutex_lock`, before it writes `owner`
  | own
  -- `mutex_unlock`, before it clears `owner`
  | disown
  -- `sem_post`, before the increment and before `task_wake_one`
  | increment
  | wake
  deriving DecidableEq, Repr

/-- The functions of `sync.c`. -/
inductive SyncCall where
  | semWait | semPost | mutexLock | mutexTrylock | mutexUnlock
  deriving DecidableEq, Repr

/-- A machine with a `struct mutex` at an address. A semaphore is a mutex whose
`owner` nobody looks at. -/
structure SyncState where
  machine : Machine
  address : Nat
  value : Int
  owner : Int
  place : Fin 16 → Place
  holds : Fin 16 → Bool

def semInit (m : Machine) (address : Nat) (value : Int) : SyncState where
  machine := m
  address := address
  value := if value < 0 then 0 else value
  owner := 0
  place _ := .outside
  holds _ := false

def mutexInit (m : Machine) (address : Nat) : SyncState :=
  { semInit m address 1 with owner := -1 }

/-- What happens next. -/
inductive SyncEvent where
  | trap (t : Trap)
  | call (c : SyncCall)
  | advance

/-- The event is no call of `sem_wait` or `sem_post` from outside of `sync.c`. -/
def SyncEvent.onMutex : SyncEvent → Bool
  | .call .semWait => false
  | .call .semPost => false
  | _ => true

namespace SyncState

variable (s : SyncState)

/-- The task that is running, and `task_current_pid`. -/
def current : Fin 16 := s.machine.current
def currentPid : Int := Kernel.currentPid s.machine.toSystem s.current

/-- The running task moves on. -/
def goto (p : Place) : SyncState := { s with place := Function.update s.place s.current p }

/-- The running task has the value, or does not have it any more. -/
def setHolds (b : Bool) : SyncState := { s with holds := Function.update s.holds s.current b }

/-- The running task calls a function. `mutex_trylock` is one step, and
`mutex_unlock` begins with a look at `owner`. -/
def begin : SyncCall → SyncState
  | .semWait => s.goto (.test false)
  | .semPost => s.goto .increment
  | .mutexLock => s.goto (.test true)
  | .mutexTrylock =>
    if s.value = 0 then s
    else { s with value := 0, owner := s.currentPid }.setHolds true
  | .mutexUnlock => if s.owner ≠ s.currentPid then s else s.goto .disown

/-- The running task takes its next step. -/
def advance : SyncState :=
  match s.place s.current with
  | .outside => s
  | .test lock =>
    if s.value > 0 then
      let s := { s with value := s.value - 1 }
      if lock then (s.setHolds true).goto .own else s.goto .outside
    else s.goto (.block lock)
  | .block lock =>
    { s.goto (.test lock) with machine := s.machine.taskBlock (.object s.address) }
  | .own => { s with owner := s.currentPid }.goto .outside
  | .disown => { s with owner := -1 }.goto .increment
  | .increment => ({ s with value := s.value + 1 }.setHolds false).goto .wake
  | .wake =>
    { s.goto .outside with machine := s.machine.taskWakeOne (.object s.address) }

/-- The code of the running task can go on. -/
def Runs : Prop := s.machine.halted = false ∧ s.machine.state s.current = .running

instance : Decidable s.Runs := inferInstanceAs (Decidable (_ ∧ _))

/-- One event. -/
def step : SyncEvent → SyncState
  | .trap t =>
    if t.IsEcall ∧ t.frame 17 ≠ 124 then s
    else { s with machine := s.machine.step (.trap t) }
  | .call c => if s.Runs ∧ s.place s.current = .outside then s.begin c else s
  | .advance => if s.Runs then s.advance else s

/-- Events one after the other. -/
def runEvents (events : List SyncEvent) : SyncState := run step s events

/-! ## Who is where -/

/-- The tasks that are blocked on the semaphore. -/
def blocked : Finset (Fin 16) :=
  Finset.univ.filter fun i =>
    s.machine.state i = .blocked ∧
      (s.machine.threads i).waitChannel = some (.object s.address)

/-- The tasks inside `sem_post`, between the increment and `task_wake_one`. -/
def posting : Finset (Fin 16) := Finset.univ.filter fun i => s.place i = .wake

/-- The tasks inside `sem_wait`, between the test and `task_block`. -/
def between : Finset (Fin 16) :=
  Finset.univ.filter fun i => s.place i = .block false ∨ s.place i = .block true

/-- A post comes at the right time: no task is about to block, and there is at most
one more asleep than the posts under way will wake. -/
def PostsInTime (e : SyncEvent) : Prop :=
  match e with
  | .advance => s.place s.current = .increment →
      s.between = ∅ ∧ s.blocked.card ≤ s.posting.card + 1
  | _ => True

instance (e : SyncEvent) : Decidable (s.PostsInTime e) :=
  match e with
  | .advance => inferInstanceAs (Decidable (_ → _))
  | .trap _ => isTrue trivial
  | .call _ => isTrue trivial

/-- The tasks that hold the mutex. -/
def holders : Finset (Fin 16) := Finset.univ.filter fun i => s.holds i = true

end SyncState

end MiniOs.Kernel
