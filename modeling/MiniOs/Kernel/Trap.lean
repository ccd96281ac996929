import MiniOs.Kernel.Machine

/-!
# Traps

`trap_handler` of `trap.c` with the dispatcher of `syscall.c`, and what else
happens on the machine between traps. A trap is one step: interrupts are off
until `sret`.

What the hardware brings to a trap is arbitrary: the cause, the registers, the
pc, the status register and what the kernel can read of the caller's memory. So
is what code does between traps, as far as it only touches its own registers
and memory. What kernel code does to the task table between traps is an event of
its own.
-/

namespace MiniOs.Kernel

open MiniOs.Lib MiniOs.Fs

/-- The system calls of `syscall.h`. -/
inductive Sysno where
  | dup2 | mkdir | unlink | open | close | getdents | lseek | read | write | exit | wait
  | yield | fork | execve | waitpid | ps | chdir | getcwd | kill | setCloexec
  deriving DecidableEq, Repr

/-- The call behind a number. -/
def Sysno.ofNumber (number : Word) : Option Sysno :=
  if number = 24 then some .dup2
  else if number = 34 then some .mkdir
  else if number = 35 then some .unlink
  else if number = 56 then some .open
  else if number = 57 then some .close
  else if number = 61 then some .getdents
  else if number = 62 then some .lseek
  else if number = 63 then some .read
  else if number = 64 then some .write
  else if number = 93 then some .exit
  else if number = 95 then some .wait
  else if number = 124 then some .yield
  else if number = 220 then some .fork
  else if number = 221 then some .execve
  else if number = 260 then some .waitpid
  else if number = 400 then some .ps
  else if number = 402 then some .chdir
  else if number = 403 then some .getcwd
  else if number = 405 then some .kill
  else if number = 406 then some .setCloexec
  else none

/-- The loop of `copy_string_vector`, at entry `i` with `left` more allowed, and
`total_bytes` so far. -/
def copyStrings (mem : UserMemory) (userVector : Nat) :
    Nat → Nat → Nat → Option (List CStr × Nat)
  | left, i, total =>
    match copyFromUser mem ((userVector + 8 * i) % 2 ^ 64) 8 with
    | none => none
    | some bytes =>
      let pointer := Region.dword (fun i => bytes.getD i 0) 0
      if pointer = 0 then some ([], total)
      else
        match left with
        | 0 => none
        | left + 1 =>
          match copyStringFromUser mem pointer 128 with
          | none => none
          | some string =>
            let total := total + string.bytes.length + 1
            if total > userStringsMax then none
            else
              (copyStrings mem userVector left (i + 1) total).map fun (rest, total) =>
                (string :: rest, total)

def copyStringVector (mem : UserMemory) (userVector maximum total : Nat) :
    Option (List CStr × Nat) :=
  if userVector = 0 then some ([], total) else copyStrings mem userVector maximum 0 total

namespace Machine

/-- `trap_frame[10] = result`. -/
def answer (m : Machine) (result : Int) : Machine :=
  { m with frame := Function.update m.frame 10 (BitVec.ofInt 64 result) }

/-- A call that only concerns the task's own entry and the file system. -/
def onSystem (m : Machine) (outcome : System × Int) : Machine :=
  { m with toSystem := outcome.1 }.answer outcome.2

/-- `sys_exit`: the idle task cannot exit, and the machine stops. -/
def sysExit (m : Machine) (code : Nat) : Machine :=
  let m := m.taskExit (toInt code)
  if m.state m.current ≠ .zombie then { m with halted := true } else m

/-- `sys_waitpid`, with the status it delivers. -/
def sysWaitpid (m : Machine) (mem : UserMemory) (pid userStatus options : Nat) :
    Machine × Int × Option Int :=
  match m.taskWaitpid (toInt pid) (options % 2 = 1) with
  | (m, result, status) =>
    if result > 0 ∧ userStatus ≠ 0 ∧ copyToUser mem userStatus 4 = false then (m, -1, none)
    else (m, result, if userStatus = 0 then none else status)

def sysFork (m : Machine) : Machine × Int :=
  if (m.tasks m.current).hasUserSpace = false then (m, -1)
  else
    match userSpaceClone m.memory (m.threads m.current).addressSpace with
    | (memory, none) => ({ m with memory := memory }, -1)
    | (memory, some child) =>
      match { m with memory := memory }.taskForkFromTrap (m.csr.sepc + 4) child with
      | (m, pid) =>
        if pid < 0 then ({ m with memory := userSpaceDestroy m.memory child }, -1)
        else (m, pid)

/-- The registers a program starts with. -/
def startFrame (program : LoadedProgram) : Fin 32 → Word :=
  Function.update (Function.update (Function.update (Function.update (fun _ => 0)
    2 (BitVec.ofNat 64 program.stackPointer)) 10 (BitVec.ofNat 64 program.argc))
    11 (BitVec.ofNat 64 program.argvPointer)) 12 (BitVec.ofNat 64 program.envpPointer)

/-- The address space of the running task becomes that of a program. -/
def enterSpace (m : Machine) (space : AddressSpace) : Machine :=
  let thread := m.threads m.current
  { m.setThread m.current
      { thread with
        addressSpace := space, trapCtx := { thread.trapCtx with satp := space.satp } } with
    csr := { m.csr with satp := space.satp } }

def userExecve (m : Machine) (path : CStr) (argv envp : List CStr) : Machine × Bool :=
  match prepareProgram m.fs m.memory (m.tasks m.current).cwdInode path argv envp with
  | (s, memory, none) => ({ m with fs := s, memory := memory }, false)
  | (s, memory, some program) =>
    if (m.tasks m.current).hasUserSpace = false then
      ({ m with fs := s, memory := userSpaceDestroy memory program.space }, false)
    else
      let old := (m.threads m.current).addressSpace
      let m := { m with fs := s, memory := memory }.enterSpace program.space
      ({ m with
          memory := userSpaceDestroy m.memory old
          frame := startFrame program
          csr := { m.csr with sepc := BitVec.ofNat 64 program.entry } }, true)

def sysExecve (m : Machine) (mem : UserMemory) (userPath userArgv userEnvp : Nat) :
    Machine × Bool :=
  match copyPath mem userPath with
  | none => (m, false)
  | some path =>
    match copyStringVector mem userArgv userArgMax 0 with
    | none => (m, false)
    | some (argv, total) =>
      match copyStringVector mem userEnvp userEnvMax total with
      | none => (m, false)
      | some (envp, _) =>
        match m.userExecve path (if argv = [] then [path] else argv) envp with
        | (m, false) => (m, false)
        | (m, true) =>
          let k := m.toSystem.call (.closeExecFds (currentPid m.toSystem m.current))
          ({ m with toSystem := taskSetCurrentName k m.current path.bytes }, true)

/-- The `SYS_KILL` case of `syscall_dispatch`. -/
def sysKill (m : Machine) (pid signal : Nat) : Machine × Int :=
  let signal := if signal = 0 then 15 else toInt signal
  if signal ≠ 9 ∧ signal ≠ 15 then (m, -1) else m.taskKill (toInt pid) (128 + signal)

/-- The answer of a call that returns 0 or -1, or a number or -1. -/
def okOr (ok : Bool) : Int := if ok then 0 else -1
def numberOr (n : Option Nat) : Int := (n.map Int.ofNat).getD (-1)

/-- `syscall_dispatch`. The second component is what it returns: 1 where the
context was replaced, 2 for a yield, 0 otherwise. -/
def syscallDispatch (m : Machine) (mem : UserMemory) : Machine × Nat :=
  let k := m.toSystem
  let current := m.current
  let pid := currentPid k current
  let arg0 := (m.frame 10).toNat
  let arg1 := (m.frame 11).toNat
  let arg2 := (m.frame 12).toNat
  match Sysno.ofNumber (m.frame 17) with
  | some .read => (m.onSystem (Kernel.sysRead k current mem arg0 arg1 arg2), 0)
  | some .write => (m.onSystem (Kernel.sysWrite k current mem arg0 arg1 arg2), 0)
  | some .exit => (m.sysExit arg0, 0)
  | some .wait =>
    match m.sysWaitpid mem (2 ^ 64 - 1) 0 0 with
    | (m, result, _) => (m.answer result, 0)
  | some .waitpid =>
    match m.sysWaitpid mem arg0 arg1 arg2 with
    | (m, result, _) => (m.answer result, 0)
  | some .fork =>
    match m.sysFork with
    | (m, result) => (m.answer result, 0)
  | some .execve =>
    match m.sysExecve mem arg0 arg1 arg2 with
    | (m, true) => (m, 1)
    | (m, false) => (m.answer (-1), 0)
  | some .yield => (m, 2)
  | some .open => (m.onSystem (Kernel.sysOpen k current mem arg0 arg1), 0)
  | some .close =>
    (m.onSystem (k.call (.close pid (toInt arg0)),
      okOr (minifsClose k.fs.toFdTables pid (toInt arg0)).2), 0)
  | some .lseek =>
    (m.onSystem (k.call (.lseek pid (toInt arg0) (toInt64 arg1) (toInt arg2)),
      numberOr (minifsLseek k.fs pid (toInt arg0) (toInt64 arg1) (toInt arg2)).2), 0)
  | some .dup2 =>
    (m.onSystem (k.call (.dup2 pid (toInt arg0) (toInt arg1)),
      numberOr ((minifsDup2 k.fs.toFdTables pid (toInt arg0) (toInt arg1)).2.map (·.val))), 0)
  | some .getdents => (m.onSystem (Kernel.sysGetdents k current mem arg0 arg1 arg2), 0)
  | some .mkdir => (m.onSystem (Kernel.sysMkdir k current mem arg0), 0)
  | some .unlink => (m.onSystem (Kernel.sysUnlink k current mem arg0), 0)
  | some .chdir => (m.onSystem (Kernel.sysChdir k current mem arg0), 0)
  | some .getcwd => (m.onSystem (Kernel.sysGetcwd k current mem arg0 arg1), 0)
  | some .ps => (m.onSystem (Kernel.sysPs k mem arg0 arg1), 0)
  | some .kill =>
    match m.sysKill arg0 arg1 with
    | (m, result) => (m.answer result, 0)
  | some .setCloexec =>
    (m.onSystem (k.call (.setCloexec pid (toInt arg0) (toInt arg1 ≠ 0)),
      okOr (minifsSetCloexec k.fs.toFdTables pid (toInt arg0) (toInt arg1 ≠ 0)).2), 0)
  | none => (m.answer (-1), 0)

/-! ## The handler -/

/-- `trap_epc_write`. -/
def setEpc (m : Machine) (epc : Word) : Machine := { m with csr := { m.csr with sepc := epc } }

/-- `task_prepare_trap_return`. -/
def prepareTrapReturn (m : Machine) : Machine :=
  { m with csr := { m.csr with sscratch := m.kernelStackTop m.current } }

end Machine

/-- What the hardware and the running code bring to a trap. -/
structure Trap where
  cause : Word
  frame : Fin 32 → Word
  epc : Word
  status : Word
  mem : UserMemory

/-- A timer interrupt, and a system call from either mode. -/
def Trap.IsTimer (t : Trap) : Prop :=
  t.cause.msb = true ∧ t.cause &&& 0x7fffffffffffffff = 5
def Trap.IsEcall (t : Trap) : Prop := t.cause = 8 ∨ t.cause = 9

instance (t : Trap) : Decidable t.IsTimer := inferInstanceAs (Decidable (_ ∧ _))
instance (t : Trap) : Decidable t.IsEcall := inferInstanceAs (Decidable (_ ∨ _))

namespace Machine

/-- The machine as `trap_handler` finds it. -/
def trapped (m : Machine) (t : Trap) : Machine :=
  { m with frame := t.frame, csr := { m.csr with sepc := t.epc, sstatus := t.status } }

/-- The two `ecall` cases of `trap_handler`, from what `syscall_dispatch` left. -/
def afterDispatch (m : Machine) (epc : Word) (contextReplaced : Nat) : Machine :=
  if m.halted then m
  else if m.state m.current = .zombie ∨ m.state m.current = .blocked then
    let m :=
      if m.state m.current = .blocked ∧ contextReplaced = 2 then m.setEpc (epc + 4) else m
    match m.taskReschedule with
    | (m, rescheduled) =>
      (if rescheduled = false ∧ contextReplaced = 0 then m.setEpc (epc + 4)
        else m).prepareTrapReturn
  else (if contextReplaced = 0 then m.setEpc (epc + 4) else m).prepareTrapReturn

def trapHandler (m : Machine) (t : Trap) : Machine :=
  let m := m.trapped t
  if t.cause.msb then
    (if t.cause &&& 0x7fffffffffffffff = 5 then m.schedTick.1 else m).prepareTrapReturn
  else if t.cause = 8 ∨ t.cause = 9 then
    match m.syscallDispatch t.mem with
    | (m, contextReplaced) => m.afterDispatch t.epc contextReplaced
  else (m.setEpc (t.epc + 4)).prepareTrapReturn

/-! ## The first process -/

/-- A string literal. -/
def ascii (s : String) : List UInt8 := s.toList.map fun c => UInt8.ofNat c.toNat

/-- The path, the arguments and the environment of `user_init`. -/
def shellPath : CStr := ⟨ascii "/bin/shell", by decide⟩
def shellEnv : List CStr :=
  [⟨ascii "PATH=/bin:/tests", by decide⟩, ⟨ascii "HOME=/", by decide⟩,
    ⟨ascii "PWD=/", by decide⟩]

/-- `user_init` from the program on, and `enter_user`. -/
def enterUser (m : Machine) (program : LoadedProgram) : Machine :=
  let m := { m.enterSpace program.space with
    toSystem := taskAttach m.toSystem m.current }
  let thread := m.threads m.current
  let start := startFrame program
  let load (regs : Fin 32 → Word) : Fin 32 → Word := fun i =>
    if i = 2 ∨ i = 10 ∨ i = 11 ∨ i = 12 then start i else regs i
  { m.setThread m.current
      { thread with
        trapCtx := { thread.trapCtx with
          regs := load thread.trapCtx.regs, epc := BitVec.ofNat 64 program.entry } } with
    frame := load m.frame
    csr := { m.csr with
      sepc := BitVec.ofNat 64 program.entry
      sstatus := m.csr.sstatus &&& ~~~sstatusSpp ||| sstatusSpie
      sscratch := m.kernelStackTop m.current } }

/-- `user_task_entry`: the shell takes the place of the kernel thread, or the
thread exits. -/
def userTaskEntry (m : Machine) : Machine :=
  match prepareProgram m.fs m.memory (m.tasks m.current).cwdInode shellPath [shellPath]
      shellEnv with
  | (s, memory, none) => { m with fs := s, memory := memory }.taskExit 127
  | (s, memory, some program) => { m with fs := s, memory := memory }.enterUser program

end Machine

/-! ## Events -/

/-- What happens on the machine: a trap, or kernel code of the running task. A
task is blocked by `sync.c` on the address of a semaphore. -/
inductive Event where
  | trap (t : Trap)
  | create (entry : Word) (name : List UInt8)
  | userTaskEntry
  | exit (code : Int)
  | reap (pid : Int)
  | block (address : Nat)
  | wakeOne (address : Nat)
  | wakeAll (address : Nat)
  | setScheduler (policy : Policy)
  | setQuantum (ticks : Nat)

namespace Machine

/-- What the running task's code can do next. A task that is blocked stands in
`task_block`, before the `ecall` it ends with, and a zombie in the loop of
`user_task_entry`. That is so as long as the idle task blocks in no wait for a
child: after that, `trap_handler` would serve other calls of such tasks, which no
run here has. A task with an address space has left the kernel thread behind. -/
def enabled (m : Machine) : Event → Bool
  | .trap t =>
    match m.state m.current with
    | .running => true
    | .blocked => t.IsEcall → t.frame 17 = 124
    | .zombie => ¬ t.IsEcall
    | _ => false
  | .userTaskEntry => m.state m.current = .running ∧ (m.tasks m.current).hasUserSpace = false
  | _ => m.state m.current = .running

/-- An event that happens. -/
def perform (m : Machine) : Event → Machine
  | .trap t => m.trapHandler t
  | .create entry name => (m.taskCreate entry name).1
  | .userTaskEntry => m.userTaskEntry
  | .exit code => m.taskExit code
  | .reap pid => (m.taskWaitpid pid true).1
  | .block address => m.taskBlock (.object address)
  | .wakeOne address => m.taskWakeOne (.object address)
  | .wakeAll address => m.taskWakeAll (.object address)
  | .setScheduler policy => m.taskSetScheduler policy
  | .setQuantum ticks => m.taskSetQuantum ticks

/-- One event. Nothing happens on a machine that was switched off, and what the
running code cannot do does not happen. -/
def step (m : Machine) (e : Event) : Machine :=
  if m.halted = true ∨ m.enabled e = false then m else m.perform e

/-- Events one after the other. -/
def runEvents (m : Machine) (events : List Event) : Machine := run step m events

/-! ## The start -/

/-- `mem_init` and `vm_init`. -/
def initMemory (m : Machine) : Machine :=
  match vmInit { m.memory with toHeap := memInit m.layout } with
  | (memory, none) => { m with memory := memory }
  | (memory, some satp) => { m with memory := memory, csr := { m.csr with satp := satp } }

/-- `start_shell`; `entry` is the address of `user_task_entry`. -/
def startShellTask (m : Machine) (entry : Word) : Machine × Int :=
  ((m.taskSetScheduler .rr).taskInit.taskSetQuantum 1).taskCreate entry shellName

/-- `kernel_main` from `mem_init` to `start_shell`, where `minifs_init` found its disk in
order. -/
def kernelMain (m : Machine) (entry : Word) : Machine :=
  let m := m.initMemory
  let m := { m with fs := (minifsInit m.fs).1 }
  (m.startShellTask entry).1

end Machine

end MiniOs.Kernel
