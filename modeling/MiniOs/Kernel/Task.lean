import MiniOs.Fs.Calls

/-!
# The task table

The part of `task.c` that decides who exists and what a process carries with it:
creation, `fork`, `exit`, `kill` and `waitpid`, and the working directory. The
task table calls into the file system to set up, copy and close descriptors, so
the state here is both of them together.

Which task runs is not decided here. The functions that the source applies to
`current` take its slot as an argument, and a run may hand the processor to any
task that is ready. Time slices, the order of the ready queue, saved registers
and address spaces belong to that other half and are left out.
-/

namespace MiniOs.Kernel

open MiniOs.Lib MiniOs.Fs

/-- `enum task_state`. -/
inductive TaskState where
  | unused
  | ready
  | running
  | blocked
  | zombie
  deriving DecidableEq, Repr

/-- `struct task`, as far as these functions read it. -/
structure Task where
  state : TaskState
  pid : Int
  ppid : Int
  exitCode : Int
  waitTarget : Int
  cwdInode : Nat
  hasUserSpace : Bool
  name : List UInt8
  deriving DecidableEq

/-- The statics of `task.c`, and the file system module. -/
structure System where
  tasks : Fin 16 → Task
  taskCount : Int
  nextPid : Int
  fs : FsSt

namespace System

/-- An update of one task. -/
def setTask (k : System) (i : Fin 16) (task : Task) : System :=
  { k with tasks := Function.update k.tasks i task }

/-- A call into the file system module. -/
def call (k : System) (c : Call) : System := { k with fs := step k.fs c }

end System

/-- `"idle"`. -/
def idleName : List UInt8 := [105, 100, 108, 101]

/-- `"fork-child"`. -/
def forkName : List UInt8 := [102, 111, 114, 107, 45, 99, 104, 105, 108, 100]

/-- `"shell"`. -/
def shellName : List UInt8 := [115, 104, 101, 108, 108]

/-- `copy_name`: what fits into the 16 bytes of a name. -/
def copyName (name : List UInt8) : List UInt8 := (cstr name).take 15

def findPid (k : System) (pid : Int) : Option (Fin 16) :=
  (List.finRange 16).find? fun i => (k.tasks i).state ≠ .unused ∧ (k.tasks i).pid = pid

/-- The lowest unused slot but the first, which `task_create` and `fork` take. -/
def freeSlot (k : System) : Option (Fin 16) :=
  (List.finRange 16).find? fun i => i ≠ 0 ∧ (k.tasks i).state = .unused

/-- One round of the loop of `task_init`. -/
def resetTask (k : System) (i : Fin 16) : System :=
  let k :=
    if (k.tasks i).state ≠ .unused ∧ (k.tasks i).pid ≥ 0 then k.call (.closeAll (k.tasks i).pid)
    else k
  k.setTask i
    { k.tasks i with
      state := .unused, pid := -1, ppid := -1, cwdInode := 0, hasUserSpace := false, name := [] }

def taskInit (k : System) : System :=
  let k := (List.finRange 16).foldl resetTask k
  let k := { k with taskCount := 1, nextPid := 1 }
  let k := k.setTask 0
    { k.tasks 0 with state := .running, pid := 0, ppid := -1, cwdInode := 0, name := idleName }
  k.call (.processInit 0)

/-- `task_create`, called by the task in slot `current`. -/
def taskCreate (k : System) (current : Fin 16) (name : List UInt8) : System × Int :=
  if k.taskCount ≥ 16 then (k, -1)
  else
    match freeSlot k with
    | none => (k, -1)
    | some slot =>
      let pid := k.nextPid
      let task : Task :=
        { state := .ready, pid := pid, ppid := (k.tasks current).pid, exitCode := 0
          waitTarget := -1, cwdInode := (k.tasks current).cwdInode, hasUserSpace := false
          name := copyName name }
      let k := { k.setTask slot task with nextPid := pid + 1, taskCount := k.taskCount + 1 }
      match minifsProcessInit k.fs.toFdTables pid with
      | (t, true) => ({ k with fs := k.fs.onTables t }, pid)
      | (t, false) =>
        let k := { k with fs := k.fs.onTables t, taskCount := k.taskCount - 1 }
        (k.setTask slot { k.tasks slot with state := .unused }, -1)

/-- `task_fork_from_trap`. -/
def taskFork (k : System) (current : Fin 16) : System × Int :=
  if k.taskCount ≥ 16 then (k, -1)
  else
    match freeSlot k with
    | none => (k, -1)
    | some slot =>
      let pid := k.nextPid
      let child : Task :=
        { state := .ready, pid := pid, ppid := (k.tasks current).pid, exitCode := 0
          waitTarget := -1, cwdInode := (k.tasks current).cwdInode, hasUserSpace := true
          name := forkName }
      let k := { k.setTask slot child with nextPid := pid + 1, taskCount := k.taskCount + 1 }
      match minifsProcessFork k.fs.toFdTables (k.tasks current).pid pid with
      | (t, true) => ({ k with fs := k.fs.onTables t }, pid)
      | (t, false) =>
        let k := { k with fs := k.fs.onTables t, taskCount := k.taskCount - 1 }
        (k.setTask slot { k.tasks slot with hasUserSpace := false, state := .unused }, -1)

/-- The parent of a task that ended is woken if it waits for it. -/
def wakeParent (k : System) (i : Fin 16) : System :=
  match findPid k (k.tasks i).ppid with
  | none => k
  | some parent =>
    if (k.tasks parent).state = .blocked ∧
        ((k.tasks parent).waitTarget < 0 ∨ (k.tasks parent).waitTarget = (k.tasks i).pid) then
      k.setTask parent { k.tasks parent with state := .ready }
    else k

/-- The children of a task that ended go to the idle task. -/
def adoptChildren (k : System) (pid : Int) : System :=
  { k with
    tasks := fun i =>
      if i ≠ 0 ∧ (k.tasks i).state ≠ .unused ∧ (k.tasks i).ppid = pid then
        { k.tasks i with ppid := 0 }
      else k.tasks i }

/-- What `task_exit` and `task_kill` do to a task. -/
def endTask (k : System) (i : Fin 16) (exitCode : Int) : System :=
  let k := k.setTask i { k.tasks i with exitCode := exitCode, state := .zombie }
  let k := k.call (.closeAll (k.tasks i).pid)
  let k := wakeParent k i
  adoptChildren k (k.tasks i).pid

def taskExit (k : System) (current : Fin 16) (exitCode : Int) : System :=
  if (k.tasks current).pid = 0 then k else endTask k current exitCode

def taskKill (k : System) (current : Fin 16) (pid exitCode : Int) : System × Int :=
  match findPid k pid with
  | none => (k, -1)
  | some target =>
    if (k.tasks target).pid = 0 ∨ target = current ∨ (k.tasks target).state = .zombie ∨
        (k.tasks target).name = shellName then (k, -1)
    else (endTask k target exitCode, 0)

/-- A child `waitpid` may be about. -/
def waitsFor (k : System) (current : Fin 16) (pid : Int) (i : Fin 16) : Bool :=
  i ≠ 0 ∧ (k.tasks i).state ≠ .unused ∧ (k.tasks i).ppid = (k.tasks current).pid ∧
    (pid > 0 → (k.tasks i).pid = pid)

/-- `task_waitpid`, with the status where a child was reaped. -/
def taskWaitpid (k : System) (current : Fin 16) (pid : Int) (nohang : Bool) :
    System × Int × Option Int :=
  match (List.finRange 16).find? fun i =>
      waitsFor k current pid i && ((k.tasks i).state == .zombie) with
  | some child =>
    let childPid := (k.tasks child).pid
    let status := (k.tasks child).exitCode
    let k := k.call (.closeAll childPid)
    let k := k.setTask child
      { k.tasks child with
        hasUserSpace := false, state := .unused, pid := -1, ppid := -1, name := [] }
    ({ k with taskCount := k.taskCount - 1 }, childPid, some status)
  | none =>
    if (List.finRange 16).any (waitsFor k current pid) then
      if nohang then (k, 0, none)
      else
        (k.setTask current { k.tasks current with waitTarget := pid, state := .blocked },
          -2, none)
    else (k, -1, none)

/-! ## The tree on the console -/

/-- A line of `dump_tree_node`: two blanks per level, the name, the pid in
parentheses and the name of the state in brackets. -/
structure TreeLine where
  depth : Nat
  name : List UInt8
  pid : Int
  state : TaskState
  deriving DecidableEq

/-- The tasks that name a pid as their parent, in the order of the table. -/
def childrenOf (k : System) (pid : Int) : List (Fin 16) :=
  (List.finRange 16).filter fun i => (k.tasks i).state ≠ .unused ∧ (k.tasks i).ppid = pid

/-- `dump_tree_node`, with the lines it prints. The recursion of the source has no
bound: where the fuel runs out there is no answer. -/
def dumpTreeNode (k : System) : Nat → Int → Nat → Option (List TreeLine)
  | 0, _, _ => none
  | fuel + 1, pid, depth =>
    match findPid k pid with
    | none => some []
    | some i =>
      let task := k.tasks i
      ((childrenOf k pid).mapM fun j =>
          dumpTreeNode k fuel (k.tasks j).pid (depth + 1)).map fun rows =>
        ⟨depth, task.name, task.pid, task.state⟩ :: rows.flatten

def taskDumpTree (k : System) (fuel : Nat) : Option (List TreeLine) := dumpTreeNode k fuel 0 0

/-! ## The running task -/

/-- `task_attach_address_space`. -/
def taskAttach (k : System) (current : Fin 16) : System :=
  k.setTask current { k.tasks current with hasUserSpace := true }

def taskSetCurrentCwd (k : System) (current : Fin 16) (inode : Nat) : System :=
  k.setTask current { k.tasks current with cwdInode := inode }

def taskSetCurrentName (k : System) (current : Fin 16) (name : List UInt8) : System :=
  k.setTask current { k.tasks current with name := copyName name }

end MiniOs.Kernel
