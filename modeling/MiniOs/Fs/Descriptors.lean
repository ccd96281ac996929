import MiniOs.Fs.State

/-!
# Descriptors

The functions of `minifs.c` that only touch the open-file table and the
per-process descriptor tables. They are written over `FdTables`, so that it is
visible from their types that they cannot touch the disk; `Calls.lean` lifts
them to the whole state.

A process entry is found by scanning for its pid. The functions hold on to the
entry they found as the source holds on to a pointer: by its index, reading the
tables again at every use. `minifsProcessFork` depends on that, since parent
and child may be one and the same entry.
-/

namespace MiniOs.Fs

open MiniOs.Lib

-- one name for it, so that a numeral of a table index is the same term in every module
instance neZeroSlots : NeZero 16 := ⟨by decide⟩

namespace FdTables

/-- `open_files[i] = file`. -/
def setFile (t : FdTables) (i : Fin 64) (file : OpenFile) : FdTables :=
  { t with openFiles := Function.update t.openFiles i file }

/-- `process_fds[p] = process`. -/
def setProcess (t : FdTables) (p : Fin 16) (process : ProcessFds) : FdTables :=
  { t with processFds := Function.update t.processFds p process }

/-- `process_fds[p].fd[fd] = ofd`. -/
def setFd (t : FdTables) (p fd : Fin 16) (ofd : Option (Fin 64)) : FdTables :=
  t.setProcess p
    { t.processFds p with fd := Function.update (t.processFds p).fd fd ofd }

/-- `process_fds[p].cloexec &= (uint16_t)~(1U << fd)`. -/
def clearCloexec (t : FdTables) (p fd : Fin 16) : FdTables :=
  t.setProcess p
    { t.processFds p with
      cloexec := (t.processFds p).cloexec &&& ~~~(1#16 <<< fd.val) }

/-- `process_fds[p].cloexec |= (uint16_t)(1U << fd)`. -/
def markCloexec (t : FdTables) (p fd : Fin 16) : FdTables :=
  t.setProcess p
    { t.processFds p with cloexec := (t.processFds p).cloexec ||| (1#16 <<< fd.val) }

end FdTables

/-- A descriptor argument: `fd < 0 || fd >= MINIFS_MAX_FD` fails. -/
def fdIndex (fd : Int) : Option (Fin 16) :=
  if h : 0 ≤ fd ∧ fd < 16 then some ⟨fd.toNat, by omega⟩ else none

def findProcess (t : FdTables) (pid : Int) : Option (Fin 16) :=
  (List.finRange 16).find? fun i => (t.processFds i).used && (t.processFds i).pid == pid

/-- `alloc_ofd`: the lowest unused entry, with one reference. -/
def allocOfd (t : FdTables) (type : OfdType) (flags : BitVec 32) (inode : Nat) :
    FdTables × Option (Fin 64) :=
  match (List.finRange 64).find? fun i => !(t.openFiles i).used with
  | none => (t, none)
  | some i => (t.setFile i ⟨true, 1, type, flags, inode, 0⟩, some i)

/-- `put_ofd`: drop one reference, and the entry with the last one. -/
def putOfd (t : FdTables) : Option (Fin 64) → FdTables
  | none => t
  | some i =>
    if (t.openFiles i).used then
      t.setFile i { t.openFiles i with
        refs := (t.openFiles i).refs - 1
        used := (t.openFiles i).refs - 1 != 0 }
    else t

/-- `open_files[ofd].refs++` for a slot that holds something. -/
def addRef (t : FdTables) : Option (Fin 64) → FdTables
  | none => t
  | some i => t.setFile i { t.openFiles i with refs := (t.openFiles i).refs + 1 }

/-- `install_fd`: the lowest free descriptor of a process. -/
def installFd (t : FdTables) (p : Fin 16) (ofd : Fin 64) : FdTables × Option (Fin 16) :=
  match (List.finRange 16).find? fun fd => ((t.processFds p).fd fd).isNone with
  | none => (t, none)
  | some fd => ((t.setFd p fd (some ofd)).clearCloexec p fd, some fd)

/-- `get_open_file`, by the index of the entry. -/
def getOpenFile (t : FdTables) (pid fd : Int) : Option (Fin 64) :=
  match findProcess t pid with
  | none => none
  | some p =>
    match fdIndex fd with
    | none => none
    | some fd =>
      match (t.processFds p).fd fd with
      | none => none
      | some i => if (t.openFiles i).used then some i else none

/-- `minifs_process_init`: three console entries on descriptors 0, 1 and 2. -/
def minifsProcessInit (t : FdTables) (pid : Int) : FdTables × Bool :=
  match findProcess t pid with
  | some _ => (t, true)
  | none =>
    match (List.finRange 16).find? fun i => !(t.processFds i).used with
    | none => (t, false)
    | some p =>
      let t := t.setProcess p ⟨true, pid, fun _ => none, 0⟩
      match allocOfd t .consoleIn 0 0 with
      | (t, input) =>
        match allocOfd t .consoleOut 1 0 with
        | (t, output) =>
          match allocOfd t .consoleOut 1 0 with
          | (t, error) =>
            if input.isNone ∨ output.isNone ∨ error.isNone then
              let t := putOfd (putOfd (putOfd t input) output) error
              (t.setProcess p { t.processFds p with used := false }, false)
            else
              (((t.setFd p 0 input).setFd p 1 output).setFd p 2 error, true)

/-- One round of the loop of `minifs_process_fork`. -/
def forkSlot (parent child : Fin 16) (t : FdTables) (fd : Fin 16) : FdTables :=
  let t := putOfd t ((t.processFds child).fd fd)
  let t := t.setFd child fd ((t.processFds parent).fd fd)
  addRef t ((t.processFds child).fd fd)

def minifsProcessFork (t : FdTables) (parentPid childPid : Int) : FdTables × Bool :=
  match findProcess t parentPid with
  | none => (t, false)
  | some parent =>
    match minifsProcessInit t childPid with
    | (t, false) => (t, false)
    | (t, true) =>
      match findProcess t childPid with
      | none => (t, false)
      | some child =>
        let t := t.setProcess child
          { t.processFds child with cloexec := (t.processFds parent).cloexec }
        ((List.finRange 16).foldl (forkSlot parent child) t, true)

/-- One round of the loop of `minifs_close_all`. -/
def closeSlot (p : Fin 16) (t : FdTables) (fd : Fin 16) : FdTables :=
  let t := putOfd t ((t.processFds p).fd fd)
  t.setFd p fd none

def minifsCloseAll (t : FdTables) (pid : Int) : FdTables :=
  match findProcess t pid with
  | none => t
  | some p =>
    let t := (List.finRange 16).foldl (closeSlot p) t
    t.setProcess p { t.processFds p with cloexec := 0, used := false }

def minifsSetCloexec (t : FdTables) (pid fd : Int) (on : Bool) : FdTables × Bool :=
  match findProcess t pid with
  | none => (t, false)
  | some p =>
    match fdIndex fd with
    | none => (t, false)
    | some fd =>
      if ((t.processFds p).fd fd).isNone then (t, false)
      else if on then (t.markCloexec p fd, true)
      else (t.clearCloexec p fd, true)

/-- One round of the loop of `minifs_close_exec_fds`. -/
def closeExecSlot (p : Fin 16) (t : FdTables) (fd : Fin 16) : FdTables :=
  if (t.processFds p).cloexec &&& (1#16 <<< fd.val) ≠ 0 then
    let t := putOfd t ((t.processFds p).fd fd)
    (t.setFd p fd none).clearCloexec p fd
  else t

def minifsCloseExecFds (t : FdTables) (pid : Int) : FdTables :=
  match findProcess t pid with
  | none => t
  | some p => (List.finRange 16).foldl (closeExecSlot p) t

def minifsClose (t : FdTables) (pid fd : Int) : FdTables × Bool :=
  match findProcess t pid with
  | none => (t, false)
  | some p =>
    match fdIndex fd with
    | none => (t, false)
    | some fd =>
      if ((t.processFds p).fd fd).isNone then (t, false)
      else
        let t := putOfd t ((t.processFds p).fd fd)
        ((t.setFd p fd none).clearCloexec p fd, true)

def minifsDup2 (t : FdTables) (pid oldfd newfd : Int) : FdTables × Option (Fin 16) :=
  match findProcess t pid with
  | none => (t, none)
  | some p =>
    match fdIndex oldfd, fdIndex newfd with
    | some old, some new =>
      if ((t.processFds p).fd old).isNone then (t, none)
      else if old = new then (t, some new)
      else
        let t := putOfd t ((t.processFds p).fd new)
        let t := t.setFd p new ((t.processFds p).fd old)
        let t := addRef t ((t.processFds p).fd new)
        (t.clearCloexec p new, some new)
    | _, _ => (t, none)

end MiniOs.Fs
