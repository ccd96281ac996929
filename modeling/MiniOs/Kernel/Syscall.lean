import MiniOs.Kernel.Task

/-!
# System calls

`syscall.c`: what a process asks for, from the registers on. A call is served as
one step, since a trap is not preempted.

What the kernel can see of the caller's memory is `UserMemory`: a byte where the
page is mapped and readable, and where it may be written. The page walk behind
it, and the loader behind `execve`, are other modules; here a page is mapped or
not, a clone of the address space succeeds or not, and an executable loads or
not, as the request says. Loading reads the file system, so it leaves some
sector in `block_buffer`.

What a call writes to the caller's memory is not kept.
-/

namespace MiniOs.Kernel

open MiniOs.Lib MiniOs.Fs

/-! ## User memory -/

/-- The memory of a process, by virtual address. -/
structure UserMemory where
  read : Nat → Option UInt8
  writable : Nat → Bool

def copyFromUser (mem : UserMemory) (source length : Nat) : Option (List UInt8) :=
  if length = 0 then some []
  else if (source + length) % 2 ^ 64 < source then none
  else (List.range' source length).mapM mem.read

/-- `copy_to_user`, by whether it succeeds. -/
def copyToUser (mem : UserMemory) (destination length : Nat) : Bool :=
  length = 0 ∨
    destination ≤ (destination + length) % 2 ^ 64 ∧
      (List.range' destination length).all mem.writable

/-- `copy_string_from_user`: the bytes before the terminator, where there is one
within `capacity` bytes. -/
def copyStringFromUser (mem : UserMemory) : Nat → Nat → Option CStr
  | _, 0 => none
  | source, capacity + 1 =>
    match copyFromUser mem source 1 with
    | some [byte] =>
      if h : byte = 0 then some ⟨[], List.not_mem_nil⟩
      else
        (copyStringFromUser mem (source + 1) capacity).map fun rest =>
          ⟨byte :: rest.bytes, fun hmem =>
            (List.mem_cons.mp hmem).elim (fun hb => h hb.symm) rest.noNul⟩
    | _ => none

def copyPath (mem : UserMemory) (userPath : Nat) : Option CStr :=
  if userPath = 0 then none else copyStringFromUser mem userPath 256

/-- `(int)` of a register. -/
def toInt (arg : Nat) : Int := (BitVec.ofNat 32 arg).toInt

/-- `(int64_t)` of a register. -/
def toInt64 (arg : Nat) : Int := (BitVec.ofNat 64 arg).toInt

/-! ## The calls

Each returns what goes to register `a0`, with `fail()` as -1. -/

section Calls

variable (k : System) (current : Fin 16) (mem : UserMemory)

/-- `task_current_pid` and `task_current_cwd`. -/
def currentPid : Int := (k.tasks current).pid
def currentCwd : Nat := (k.tasks current).cwdInode

/-- The loop of `sys_write`. A round either takes a whole chunk or is the last,
so `length - done` rounds are enough. -/
def sysWriteLoop (pid fd : Int) (userBuffer length : Nat) :
    Nat → FsSt → Nat → FsSt × Int
  | 0, s, done => (s, done)
  | fuel + 1, s, done =>
    if length ≤ done then (s, done)
    else
      let chunk := min (length - done) 512
      match copyFromUser mem ((userBuffer + done) % 2 ^ 64) chunk with
      | none => (s, if done = 0 then -1 else done)
      | some bytes =>
        match minifsWrite s pid fd (some fun i => bytes.getD i 0) chunk with
        | (s, written) =>
          if written < 0 then (s, if done = 0 then -1 else done)
          else if written.toNat < chunk then (s, (done + written.toNat : Nat))
          else sysWriteLoop pid fd userBuffer length fuel s (done + written.toNat)

def sysWrite (fd userBuffer length : Nat) : System × Int :=
  if length = 0 then (k, 0)
  else if userBuffer = 0 then (k, -1)
  else
    match sysWriteLoop mem (currentPid k current) (toInt fd) userBuffer length length k.fs 0 with
    | (s, r) => ({ k with fs := s }, r)

/-- The loop of `sys_read`. -/
def sysReadLoop (pid fd : Int) (userBuffer length : Nat) :
    Nat → FsSt → Nat → FsSt × Int
  | 0, s, done => (s, done)
  | fuel + 1, s, done =>
    if length ≤ done then (s, done)
    else
      let chunk := min (length - done) 512
      match minifsRead s pid fd chunk with
      | (s, none) => (s, if done = 0 then -1 else done)
      | (s, some bytes) =>
        if bytes.length = 0 then (s, done)
        else if copyToUser mem ((userBuffer + done) % 2 ^ 64) bytes.length = false then
          (s, if done = 0 then -1 else done)
        else if bytes.length < chunk then (s, (done + bytes.length : Nat))
        else sysReadLoop pid fd userBuffer length fuel s (done + bytes.length)

def sysRead (fd userBuffer length : Nat) : System × Int :=
  if length = 0 then (k, 0)
  else if userBuffer = 0 then (k, -1)
  else
    match sysReadLoop mem (currentPid k current) (toInt fd) userBuffer length length k.fs 0 with
    | (s, r) => ({ k with fs := s }, r)

def sysWaitpid (pid userStatus options : Nat) : System × Int :=
  match taskWaitpid k current (toInt pid) (options % 2 = 1) with
  | (k, result, _) =>
    if result > 0 ∧ userStatus ≠ 0 ∧ copyToUser mem userStatus 4 = false then (k, -1)
    else (k, result)

/-- `sys_fork`; `cloned` is the outcome of `user_space_clone`. -/
def sysFork (cloned : Bool) : System × Int :=
  if (k.tasks current).hasUserSpace = false ∨ cloned = false then (k, -1)
  else taskFork k current

/-- `sys_execve` from the copied arguments on: `loaded` is the outcome of
`user_execve` and `sector` what it left in `block_buffer`. -/
def sysExecve (userPath : Nat) (loaded : Bool) (sector : Region) : System × Int :=
  match copyPath mem userPath with
  | none => (k, -1)
  | some path =>
    let k := { k with fs := { k.fs with blockBuffer := sector } }
    if loaded then
      let k := k.call (.closeExecFds (currentPid k current))
      (taskSetCurrentName k current path.bytes, 0)
    else (k, -1)

def sysOpen (userPath flags : Nat) : System × Int :=
  match copyPath mem userPath with
  | none => (k, -1)
  | some path =>
    match minifsOpen k.fs (currentPid k current) (currentCwd k current) (some path)
        (BitVec.ofNat 32 flags) with
    | (s, fd) => ({ k with fs := s }, (fd.map fun fd => (fd.val : Int)).getD (-1))

def sysGetdents (userPath userEntries capacity : Nat) : System × Int :=
  match (if userPath = 0 then some none else (copyPath mem userPath).map some) with
  | none => (k, -1)
  | some path =>
    match minifsGetdents k.fs (currentCwd k current) path (min capacity 128) with
    | (s, none) => ({ k with fs := s }, -1)
    | (s, some entries) =>
      let k := { k with fs := s }
      if copyToUser mem userEntries (64 * entries.length) then (k, entries.length)
      else (k, -1)

def sysChdir (userPath : Nat) : System × Int :=
  match copyPath mem userPath with
  | none => (k, -1)
  | some path =>
    match minifsChdir k.fs (currentCwd k current) (some path) with
    | (s, none) => ({ k with fs := s }, -1)
    | (s, some cwd) => (taskSetCurrentCwd { k with fs := s } current cwd, 0)

def sysMkdir (userPath : Nat) : System × Int :=
  match copyPath mem userPath with
  | none => (k, -1)
  | some path =>
    match minifsMkdir k.fs (currentCwd k current) (some path) with
    | (s, ok) => ({ k with fs := s }, if ok then 0 else -1)

def sysUnlink (userPath : Nat) : System × Int :=
  match copyPath mem userPath with
  | none => (k, -1)
  | some path =>
    match minifsUnlink k.fs (currentCwd k current) (some path) with
    | (s, ok) => ({ k with fs := s }, if ok then 0 else -1)

def sysGetcwd (userBuffer length : Nat) : System × Int :=
  if length = 0 ∨ length > 256 then (k, -1)
  else
    match minifsGetcwd k.fs (currentCwd k current) 256 with
    | (s, none) => ({ k with fs := s }, -1)
    | (s, some path) =>
      let k := { k with fs := s }
      if path.length + 1 > length ∨ copyToUser mem userBuffer (path.length + 1) = false then
        (k, -1)
      else (k, path.length)

/-- `task_get_processes`, by how many entries it fills in. -/
def taskGetProcesses (capacity : Nat) : Nat :=
  min ((List.finRange 16).countP fun i => (k.tasks i).state ≠ .unused) capacity

/-- `sys_ps`; a `struct task_info` has 48 bytes. -/
def sysPs (userEntries capacity : Nat) : System × Int :=
  let count := taskGetProcesses k (min capacity 16)
  if copyToUser mem userEntries (48 * count) then (k, count) else (k, -1)

/-- The `SYS_KILL` case of `syscall_dispatch`. -/
def sysKill (pid signal : Nat) : System × Int :=
  let signal := if signal = 0 then 15 else toInt signal
  if signal ≠ 9 ∧ signal ≠ 15 then (k, -1)
  else taskKill k current (toInt pid) (128 + signal)

end Calls

/-! ## Requests -/

/-- What a running task asks for: a system call with its registers, or one of
the two things kernel code does to start a process. -/
inductive Request where
  | read (fd userBuffer length : Nat)
  | write (fd userBuffer length : Nat)
  | exit (code : Nat)
  | waitpid (pid userStatus options : Nat)
  | fork (cloned : Bool)
  | execve (userPath : Nat) (loaded : Bool) (sector : Region)
  | open (userPath flags : Nat)
  | close (fd : Nat)
  | lseek (fd offset whence : Nat)
  | dup2 (oldfd newfd : Nat)
  | getdents (userPath userEntries capacity : Nat)
  | mkdir (userPath : Nat)
  | unlink (userPath : Nat)
  | chdir (userPath : Nat)
  | kill (pid signal : Nat)
  | setCloexec (fd enabled : Nat)
  | create (name : List UInt8)
  | attach

/-- The state after the task in slot `current` was served. -/
def serve (k : System) (current : Fin 16) (mem : UserMemory) : Request → System
  | .read fd userBuffer length => (sysRead k current mem fd userBuffer length).1
  | .write fd userBuffer length => (sysWrite k current mem fd userBuffer length).1
  | .exit code => taskExit k current (toInt code)
  | .waitpid pid userStatus options => (sysWaitpid k current mem pid userStatus options).1
  | .fork cloned => (sysFork k current cloned).1
  | .execve userPath loaded sector => (sysExecve k current mem userPath loaded sector).1
  | .open userPath flags => (sysOpen k current mem userPath flags).1
  | .close fd => k.call (.close (currentPid k current) (toInt fd))
  | .lseek fd offset whence =>
    k.call (.lseek (currentPid k current) (toInt fd) (toInt64 offset) (toInt whence))
  | .dup2 oldfd newfd => k.call (.dup2 (currentPid k current) (toInt oldfd) (toInt newfd))
  | .getdents userPath userEntries capacity =>
    (sysGetdents k current mem userPath userEntries capacity).1
  | .mkdir userPath => (sysMkdir k current mem userPath).1
  | .unlink userPath => (sysUnlink k current mem userPath).1
  | .chdir userPath => (sysChdir k current mem userPath).1
  | .kill pid signal => (sysKill k current pid signal).1
  | .setCloexec fd enabled =>
    k.call (.setCloexec (currentPid k current) (toInt fd) (toInt enabled ≠ 0))
  | .create name => (taskCreate k current name).1
  | .attach => taskAttach k current

/-- One turn: a task, its memory at the time, and its request. -/
structure Turn where
  current : Fin 16
  mem : UserMemory
  request : Request

/-- A task that the scheduler may have handed the processor to. -/
def Runnable (task : Task) : Prop := task.state = .ready ∨ task.state = .running

instance (task : Task) : Decidable (Runnable task) := inferInstanceAs (Decidable (_ ∨ _))

/-- A turn of a task that cannot run does not happen. -/
def turn (k : System) (t : Turn) : System :=
  if Runnable (k.tasks t.current) then serve k t.current t.mem t.request else k

/-- Turns one after the other, in whatever order they come. -/
def runTurns (k : System) (turns : List Turn) : System := run turn k turns

end MiniOs.Kernel
