import MiniOs.Fs.Files
import MiniOs.Lib.Run

/-!
# The interface of the file system

The functions `minifs.h` exports, as requests. A request carries the arguments
of the call, whatever they are: pids nobody has, descriptors out of range,
strings that are not paths. `step` serves one and keeps the state; a sequence of
calls is a run of `step`.

The user's buffer of a write is part of the request. The bytes a read returns
are not part of the state, so a run does not show them; they are the second
component of the function that was called.
-/

namespace MiniOs.Fs

open MiniOs.Lib

/-- A call of an exported function, with its arguments. -/
inductive Call where
  | processInit (pid : Int)
  | processFork (parentPid childPid : Int)
  | closeAll (pid : Int)
  | setCloexec (pid fd : Int) (on : Bool)
  | closeExecFds (pid : Int)
  | open (pid : Int) (cwd : Nat) (path : Option CStr) (flags : BitVec 32)
  | close (pid fd : Int)
  | pread (inode offset length : Nat)
  | read (pid fd : Int) (length : Nat)
  | write (pid fd : Int) (buffer : Option Region) (length : Nat)
  | lseek (pid fd offset whence : Int)
  | dup2 (pid oldfd newfd : Int)
  | getdents (cwd : Nat) (path : Option CStr) (capacity : Int)
  | mkdir (cwd : Nat) (path : Option CStr)
  | unlink (cwd : Nat) (path : Option CStr)
  | chdir (cwd : Nat) (path : Option CStr)

/-- A path that starts at the root. -/
def AbsolutePath (path : Option CStr) : Prop := (pathBytes path).head? = some slash

instance (path : Option CStr) : Decidable (AbsolutePath path) :=
  inferInstanceAs (Decidable (_ = _))

/-- The calls that can add or remove a name do so by an absolute path. -/
def Call.Absolute : Call → Prop
  | .open _ _ path _ => AbsolutePath path
  | .mkdir _ path => AbsolutePath path
  | .unlink _ path => AbsolutePath path
  | _ => True

/-- The state after a call that only concerns the descriptor tables. -/
def FsSt.onTables (s : FsSt) (t : FdTables) : FsSt := { s with toFdTables := t }

/-- Serve a call. -/
def step (s : FsSt) : Call → FsSt
  | .processInit pid => s.onTables (minifsProcessInit s.toFdTables pid).1
  | .processFork parentPid childPid =>
    s.onTables (minifsProcessFork s.toFdTables parentPid childPid).1
  | .closeAll pid => s.onTables (minifsCloseAll s.toFdTables pid)
  | .setCloexec pid fd on => s.onTables (minifsSetCloexec s.toFdTables pid fd on).1
  | .closeExecFds pid => s.onTables (minifsCloseExecFds s.toFdTables pid)
  | .open pid cwd path flags => (minifsOpen s pid cwd path flags).1
  | .close pid fd => s.onTables (minifsClose s.toFdTables pid fd).1
  | .pread inode offset length => (minifsPread s inode offset length).1
  | .read pid fd length => (minifsRead s pid fd length).1
  | .write pid fd buffer length => (minifsWrite s pid fd buffer length).1
  | .lseek pid fd offset whence => (minifsLseek s pid fd offset whence).1
  | .dup2 pid oldfd newfd => s.onTables (minifsDup2 s.toFdTables pid oldfd newfd).1
  | .getdents cwd path capacity => (minifsGetdents s cwd path capacity).1
  | .mkdir cwd path => (minifsMkdir s cwd path).1
  | .unlink cwd path => (minifsUnlink s cwd path).1
  | .chdir cwd path => (minifsChdir s cwd path).1

/-- The calls one after the other. -/
def runCalls (s : FsSt) (calls : List Call) : FsSt := run step s calls

end MiniOs.Fs
