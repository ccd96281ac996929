import MiniOs.Kernel.Syscall
import MiniOs.Kernel.User

/-!
# The scheduler

The other half of `task.c`: which task runs, what is saved when it stops
running, and what a task waits for. `System` has the half of `struct task` that
says who a task is; `Thread` is the half that says where it stands. A machine
is both, with the processor's registers as a trap leaves them, and every
function here does to its `System` what the function of the same name in
`Kernel/Task.lean` does.

`current` is a slot: `task_init` sets it and nothing clears it. The frame is the
array `trap_entry` passes to the handler; outside a trap it holds the registers
the last trap returned with. The counters that order tasks are natural numbers.

`ctx` is missing from `Thread`. It belongs to `switch_to`, which only `yield`
calls, and nothing calls `yield`.
-/

namespace MiniOs.Kernel

open MiniOs.Lib MiniOs.Fs

/-- A register, a CSR or an address. -/
abbrev Word := BitVec 64

-- as for the 16 slots of a table
instance neZeroRegs : NeZero 32 := ⟨by decide⟩

/-- `struct trap_context`. -/
structure TrapContext where
  regs : Fin 32 → Word
  epc : Word
  status : Word
  satp : Word

/-- A `wait_channel`: a task, or an object of the kernel such as a semaphore. -/
inductive Channel where
  | task (i : Fin 16)
  | object (address : Nat)
  deriving DecidableEq

/-- The rest of `struct task`. -/
structure Thread where
  trapCtx : TrapContext
  stack : Option Nat
  waitChannel : Option Channel
  timeSlice : Nat
  ticksLeft : Nat
  createdOrder : Nat
  readyOrder : Nat
  runtimeTicks : Nat
  contextSwitches : Nat
  addressSpace : AddressSpace

/-- `enum sched_policy`. -/
inductive Policy where
  | fcfs
  | rr
  deriving DecidableEq, Repr

/-- The control registers the kernel saves and restores. -/
structure Csr where
  sepc : Word
  sstatus : Word
  satp : Word
  sscratch : Word

/-- The statics of `task.c`, the memory, and the processor. `halted` is the write
to `TEST_FINISH`. In the source `order_counter` and the orders taken from it are
`uint64_t`, so a run has to stay below `2 ^ 64` of them. -/
structure Machine extends System where
  threads : Fin 16 → Thread
  current : Fin 16
  orderCounter : Nat
  policy : Policy
  quantum : Nat
  memory : Memory
  layout : Layout
  csr : Csr
  frame : Fin 32 → Word
  halted : Bool

/-- `SSTATUS_SPP` and `SSTATUS_SPIE`. -/
def sstatusSpp : Word := 0x100
def sstatusSpie : Word := 0x20

/-- `TASK_KERNEL_STACK_SIZE`. -/
def kernelStackSize : Nat := 4 * pageSize

namespace Machine

/-- An update of one half of a task. -/
def setTask (m : Machine) (i : Fin 16) (task : Task) : Machine :=
  { m with tasks := Function.update m.tasks i task }

def setThread (m : Machine) (i : Fin 16) (thread : Thread) : Machine :=
  { m with threads := Function.update m.threads i thread }

/-- The state of a task. -/
def state (m : Machine) (i : Fin 16) : TaskState := (m.tasks i).state

/-- `ready_order = ++order_counter` of a task that becomes ready. -/
def makeReady (m : Machine) (i : Fin 16) : Machine :=
  { (m.setTask i { m.tasks i with state := .ready }).setThread i
      { m.threads i with readyOrder := m.orderCounter + 1 } with
    orderCounter := m.orderCounter + 1 }

/-- The same for a task that was blocked. -/
def wake (m : Machine) (i : Fin 16) : Machine :=
  (m.setThread i { m.threads i with waitChannel := none }).makeReady i

/-! ## Selecting -/

def hasReadyNonIdle (m : Machine) : Bool :=
  (List.finRange 16).any fun i => i ≠ 0 ∧ m.state i = .ready

/-- `select_rr`: the slots after `current`, round to `current` itself. -/
def selectRr (m : Machine) : Option (Fin 16) :=
  ((List.finRange 16).map fun i => m.current + 1 + i).find? fun i => m.state i = .ready

/-- One round of `select_fcfs`. -/
def earlier (m : Machine) (best : Option (Fin 16)) (i : Fin 16) : Option (Fin 16) :=
  if m.state i ≠ .ready then best
  else
    match best with
    | none => some i
    | some b =>
      if (m.threads i).readyOrder < (m.threads b).readyOrder then some i else some b

def selectFcfs (m : Machine) : Option (Fin 16) :=
  (List.finRange 16).foldl m.earlier none

def selectNext (m : Machine) : Option (Fin 16) :=
  match m.policy with
  | .fcfs => m.selectFcfs
  | .rr => m.selectRr

/-! ## Switching -/

def saveTrapContext (m : Machine) (i : Fin 16) : Machine :=
  m.setThread i
    { m.threads i with trapCtx := ⟨m.frame, m.csr.sepc, m.csr.sstatus, m.csr.satp⟩ }

/-- The top of the kernel stack of a task: `task_current_kernel_stack_top`. -/
def kernelStackTop (m : Machine) (i : Fin 16) : Word :=
  match (m.threads i).stack with
  | none => BitVec.ofNat 64 stackTop
  | some base => BitVec.ofNat 64 (base + kernelStackSize)

def restoreTrapContext (m : Machine) (i : Fin 16) : Machine :=
  let context := (m.threads i).trapCtx
  { m with
    frame := context.regs
    csr := ⟨context.epc, context.status, context.satp, m.kernelStackTop i⟩ }

/-- The task that was selected takes over. -/
def resume (m : Machine) (next : Fin 16) : Machine :=
  let thread := m.threads next
  let m := m.setTask next { m.tasks next with state := .running }
  let m := m.setThread next
    { thread with
      ticksLeft := thread.timeSlice, contextSwitches := thread.contextSwitches + 1 }
  { m with current := next }.restoreTrapContext next

/-- The end of `switch_from_trap`, once `current` has to give way. -/
def giveWay (m : Machine) : Machine × Bool :=
  let prev := m.current
  let m := if m.state prev = .running then m.makeReady prev else m
  match m.selectNext with
  | none =>
    let thread := m.threads prev
    if m.state prev = .ready then
      ((m.setTask prev { m.tasks prev with state := .running }).setThread prev
        { thread with ticksLeft := thread.timeSlice }, false)
    else (m, false)
  | some next => (m.resume next, next ≠ prev)

/-- The part of `switch_from_trap` a timer tick goes through first: `true` where
the task keeps the processor. -/
def spendTick (m : Machine) : Machine × Bool :=
  let task := m.tasks m.current
  let thread := m.threads m.current
  let m := m.setThread m.current { thread with runtimeTicks := thread.runtimeTicks + 1 }
  if m.policy = .fcfs ∧ task.pid ≠ 0 ∧ task.state = .running then (m, true)
  else if m.policy = .rr ∧ task.state = .running ∧ task.pid ≠ 0 ∧ thread.ticksLeft > 1 then
    (m.setThread m.current
      { m.threads m.current with ticksLeft := thread.ticksLeft - 1 }, true)
  else (m, task.pid = 0 ∧ m.hasReadyNonIdle = false)

/-- `switch_from_trap`, with its answer. -/
def switchFromTrap (m : Machine) (force : Bool) : Machine × Bool :=
  if m.taskCount ≤ 1 then (m, false)
  else
    let m := m.saveTrapContext m.current
    if force then m.giveWay
    else
      match m.spendTick with
      | (m, true) => (m, false)
      | (m, false) => m.giveWay

/-- `sched_tick` and `task_reschedule`. -/
def schedTick (m : Machine) : Machine × Bool := m.switchFromTrap false
def taskReschedule (m : Machine) : Machine × Bool := m.switchFromTrap true

/-! ## Beginnings -/

def taskInit (m : Machine) : Machine :=
  { m with
    toSystem := Kernel.taskInit m.toSystem
    threads := fun i =>
      if i = 0 then
        { m.threads 0 with
          stack := none, timeSlice := m.quantum, ticksLeft := m.quantum
          createdOrder := 1, readyOrder := 1
          trapCtx := { (m.threads 0).trapCtx with
            satp := m.csr.satp, status := m.csr.sstatus ||| sstatusSpp } }
      else { m.threads i with stack := none }
    orderCounter := 1
    current := 0 }

/-- `task_stacks[slot]`. -/
def taskStack (m : Machine) (slot : Fin 16) : Nat :=
  m.layout.taskStacks + slot.val * kernelStackSize

/-- The thread of a new task; a task that could not be set up has no stack. -/
def newThread (m : Machine) (slot : Fin 16) (pid : Int) (context : TrapContext)
    (space : AddressSpace) : Thread :=
  { trapCtx := context
    stack := if pid < 0 then none else some (m.taskStack slot)
    waitChannel := none
    timeSlice := m.quantum
    ticksLeft := m.quantum
    createdOrder := m.orderCounter + 1
    readyOrder := m.orderCounter + 1
    runtimeTicks := 0
    contextSwitches := 0
    addressSpace := space }

/-- The registers a task created at `entry` starts with. -/
def entryContext (m : Machine) (slot : Fin 16) (entry : Word) : TrapContext :=
  { regs := Function.update (fun _ => 0) 2
      (BitVec.ofNat 64 (m.taskStack slot + kernelStackSize))
    epc := entry
    status := m.csr.sstatus ||| sstatusSpp ||| sstatusSpie
    satp := m.csr.satp }

def taskCreate (m : Machine) (entry : Word) (name : List UInt8) : Machine × Int :=
  if entry = 0 ∨ m.taskCount ≥ 16 then (m, -1)
  else
    match freeSlot m.toSystem with
    | none => (m, -1)
    | some slot =>
      match Kernel.taskCreate m.toSystem m.current name with
      | (k, pid) =>
        ({ m.setThread slot (m.newThread slot pid (m.entryContext slot entry)
              (m.threads slot).addressSpace) with
            toSystem := k
            orderCounter := m.orderCounter + 1 },
          pid)

/-- The registers of the child of a `fork`. -/
def forkContext (m : Machine) (childEpc : Word) (space : AddressSpace) : TrapContext :=
  { regs := Function.update m.frame 10 0
    epc := childEpc
    status := m.csr.sstatus &&& ~~~sstatusSpp
    satp := space.satp }

def taskForkFromTrap (m : Machine) (childEpc : Word) (space : AddressSpace) : Machine × Int :=
  if m.taskCount ≥ 16 then (m, -1)
  else
    match freeSlot m.toSystem with
    | none => (m, -1)
    | some slot =>
      match Kernel.taskFork m.toSystem m.current with
      | (k, pid) =>
        ({ m.setThread slot (m.newThread slot pid (m.forkContext childEpc space) space) with
            toSystem := k
            orderCounter := m.orderCounter + 1 },
          pid)

/-! ## Ends -/

/-- The parent of a task that ended is woken if it waits for it. -/
def wakeParent (m : Machine) (i : Fin 16) : Machine :=
  match findPid m.toSystem (m.tasks i).ppid with
  | none => m
  | some parent =>
    if m.state parent = .blocked ∧
        ((m.tasks parent).waitTarget < 0 ∨ (m.tasks parent).waitTarget = (m.tasks i).pid) then
      m.wake parent
    else m

/-- What `task_exit` and `task_kill` do to a task. -/
def endTask (m : Machine) (i : Fin 16) (exitCode : Int) : Machine :=
  let m := m.setTask i { m.tasks i with exitCode := exitCode, state := .zombie }
  let m := { m with toSystem := m.toSystem.call (.closeAll (m.tasks i).pid) }
  let m := m.wakeParent i
  { m with toSystem := adoptChildren m.toSystem (m.tasks i).pid }

def taskExit (m : Machine) (exitCode : Int) : Machine :=
  if (m.tasks m.current).pid = 0 then m else m.endTask m.current exitCode

def taskKill (m : Machine) (pid exitCode : Int) : Machine × Int :=
  match findPid m.toSystem pid with
  | none => (m, -1)
  | some target =>
    if (m.tasks target).pid = 0 ∨ target = m.current ∨ m.state target = .zombie ∨
        (m.tasks target).name = shellName then (m, -1)
    else
      ((m.setThread target { m.threads target with waitChannel := none }).endTask target
        exitCode, 0)

/-- The child `task_waitpid` reaps: the first in the table that is a zombie. -/
def zombieChild (m : Machine) (pid : Int) : Option (Fin 16) :=
  (List.finRange 16).find? fun i =>
    waitsFor m.toSystem m.current pid i && ((m.tasks i).state == .zombie)

/-- What reaping a child does besides the task table: its pages go back. -/
def release (m : Machine) (child : Fin 16) : Machine :=
  let thread := m.threads child
  if (m.tasks child).hasUserSpace then
    { m.setThread child { thread with stack := none, addressSpace := .zero } with
      memory := userSpaceDestroy m.memory thread.addressSpace }
  else m.setThread child { thread with stack := none }

/-- `task_waitpid`, with the status where a child was reaped. -/
def taskWaitpid (m : Machine) (pid : Int) (nohang : Bool) : Machine × Int × Option Int :=
  match Kernel.taskWaitpid m.toSystem m.current pid nohang with
  | (k, result, status) =>
    match m.zombieChild pid with
    | some child => ({ m.release child with toSystem := k }, result, status)
    | none =>
      if result = -2 then
        -- the task blocks, on itself
        ({ m.setThread m.current
              { m.threads m.current with waitChannel := some (.task m.current) } with
            toSystem := k }, result, status)
      else ({ m with toSystem := k }, result, status)

/-! ## Channels -/

/-- `task_block`, up to the system call it ends with. -/
def taskBlock (m : Machine) (channel : Channel) : Machine :=
  if (m.tasks m.current).pid = 0 then m
  else
    (m.setThread m.current { m.threads m.current with waitChannel := some channel }).setTask
      m.current { m.tasks m.current with state := .blocked }

/-- A task that `task_wake_one` and `task_wake_all` look for. -/
def waitsOn (m : Machine) (channel : Channel) (i : Fin 16) : Bool :=
  i ≠ 0 ∧ m.state i = .blocked ∧ (m.threads i).waitChannel = some channel

def taskWakeOne (m : Machine) (channel : Channel) : Machine :=
  match (List.finRange 16).find? (m.waitsOn channel) with
  | none => m
  | some i => m.wake i

def taskWakeAll (m : Machine) (channel : Channel) : Machine :=
  (List.finRange 16).foldl (fun m i => if m.waitsOn channel i then m.wake i else m) m

/-! ## Parameters -/

def taskSetScheduler (m : Machine) (policy : Policy) : Machine := { m with policy := policy }

def taskSetQuantum (m : Machine) (ticks : Nat) : Machine :=
  let ticks := if ticks = 0 then 1 else ticks
  { m with
    quantum := ticks
    threads := fun i =>
      if m.state i ≠ .unused then
        { m.threads i with timeSlice := ticks, ticksLeft := ticks }
      else m.threads i }

end Machine

end MiniOs.Kernel
