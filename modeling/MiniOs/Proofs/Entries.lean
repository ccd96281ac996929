import MiniOs.Proofs.Calls
import MiniOs.Proofs.Frame

/-!
# Who has an entry in the process table of the file system

`process_fds` has an entry for every process that has descriptors. `holder` reads
off whose entry a place is. Three functions change that: `minifs_process_init`
takes a free place, `minifs_process_fork` does so through it, and
`minifs_close_all` gives the place up. Everything else works on the entries that
are there.
-/

namespace MiniOs.Fs

open MiniOs.Lib

/-- The pid an entry belongs to. -/
def ProcessFds.holder (process : ProcessFds) : Option Int :=
  if process.used then some process.pid else none

/-- The pids of all entries. -/
def FdTables.holder (t : FdTables) (p : Fin 16) : Option Int := (t.processFds p).holder

section Parts

variable (t : FdTables) (p fd : Fin 16)

theorem holder_setProcess (process : ProcessFds) :
    (t.setProcess p process).holder = Function.update t.holder p process.holder := by
  funext q
  rcases eq_or_ne q p with rfl | hq
  · simp [FdTables.holder, FdTables.setProcess]
  · simp [FdTables.holder, FdTables.setProcess, hq]

theorem holder_setProcess_same {process : ProcessFds}
    (h : process.holder = (t.processFds p).holder) : (t.setProcess p process).holder = t.holder := by
  rw [holder_setProcess, h]
  exact Function.update_eq_self ..

@[simp] theorem holder_setFd (ofd : Option (Fin 64)) : (t.setFd p fd ofd).holder = t.holder :=
  holder_setProcess_same t p rfl

@[simp] theorem holder_clearCloexec : (t.clearCloexec p fd).holder = t.holder :=
  holder_setProcess_same t p rfl

@[simp] theorem holder_markCloexec : (t.markCloexec p fd).holder = t.holder :=
  holder_setProcess_same t p rfl

@[simp] theorem holder_putOfd (ofd : Option (Fin 64)) : (putOfd t ofd).holder = t.holder := by
  cases ofd with
  | none => rfl
  | some i =>
    rw [putOfd]
    split <;> rfl

@[simp] theorem holder_addRef (ofd : Option (Fin 64)) : (addRef t ofd).holder = t.holder := by
  cases ofd <;> rfl

@[simp] theorem holder_allocOfd (type : OfdType) (flags : BitVec 32) (inode : Nat) :
    (allocOfd t type flags inode).1.holder = t.holder := by
  rw [allocOfd]
  split <;> rfl

@[simp] theorem holder_installFd (ofd : Fin 64) : (installFd t p ofd).1.holder = t.holder := by
  rw [installFd]
  split
  · rfl
  · simp

theorem holder_foldl {f : FdTables → Fin 16 → FdTables} (h : ∀ t fd, (f t fd).holder = t.holder)
    (l : List (Fin 16)) : (l.foldl f t).holder = t.holder := by
  induction l generalizing t with
  | nil => rfl
  | cons fd rest ih => exact (ih (f t fd)).trans (h t fd)

end Parts

section Find

variable {t : FdTables} {pid : Int} {p : Fin 16}

theorem holder_eq_some :
    t.holder p = some pid ↔ (t.processFds p).used = true ∧ (t.processFds p).pid = pid := by
  simp [FdTables.holder, ProcessFds.holder]

theorem holder_eq_none : t.holder p = none ↔ (t.processFds p).used = false := by
  simp [FdTables.holder, ProcessFds.holder]

theorem findProcess_holder (h : findProcess t pid = some p) : t.holder p = some pid := by
  have hp := (find?_finRange_eq_some.mp h).1
  rw [holder_eq_some]
  simpa using hp

theorem findProcess_eq_none : findProcess t pid = none ↔ ∀ p, t.holder p ≠ some pid := by
  rw [findProcess, find?_finRange_eq_none]
  refine forall_congr' fun p => ?_
  rw [Ne, holder_eq_some]
  simp

theorem findProcess_ne_none : findProcess t pid ≠ none ↔ ∃ p, t.holder p = some pid := by
  rw [Ne, findProcess_eq_none]
  simp

end Find

/-! ## The functions that take and give up entries -/

/-- A process that had no entry takes a free one. -/
structure Enters (t t' : FdTables) (pid : Int) (p : Fin 16) : Prop where
  new : ∀ q, t.holder q ≠ some pid
  free : t.holder p = none
  holder : t'.holder = Function.update t.holder p (some pid)

theorem minifsProcessInit_cases (t : FdTables) (pid : Int) :
    ((minifsProcessInit t pid).2 = true ∧ (minifsProcessInit t pid).1 = t ∧
      ∃ p, t.holder p = some pid) ∨
    ((minifsProcessInit t pid).2 = false ∧ (minifsProcessInit t pid).1.holder = t.holder ∧
      ∀ p, t.holder p ≠ some pid) ∨
    ((minifsProcessInit t pid).2 = true ∧ ∃ p, Enters t (minifsProcessInit t pid).1 pid p) := by
  rw [minifsProcessInit]
  split
  · next p hp => exact Or.inl ⟨rfl, rfl, p, findProcess_holder hp⟩
  next hnone =>
    have hnew := findProcess_eq_none.mp hnone
    right
    split
    · exact Or.inl ⟨rfl, rfl, hnew⟩
    next p hp =>
      have hfree : t.holder p = none := holder_eq_none.mpr
        (by simpa using (find?_finRange_eq_some.mp hp).1)
      dsimp only
      split
      · -- the consoles could not all be had, and the place is given back
        refine Or.inl ⟨rfl, ?_, hnew⟩
        dsimp only
        rw [holder_setProcess]
        simp only [holder_putOfd, holder_allocOfd, holder_setProcess]
        rw [Function.update_idem]
        exact (congrArg (Function.update t.holder p) hfree.symm).trans (Function.update_eq_self ..)
      · refine Or.inr ⟨rfl, p, hnew, hfree, ?_⟩
        simp only [holder_setFd, holder_allocOfd, holder_setProcess]
        rfl

theorem forkSlot_holder (parent child : Fin 16) (t : FdTables) (fd : Fin 16) :
    (forkSlot parent child t fd).holder = t.holder := by
  simp [forkSlot]

/-- A fork by somebody else fails and changes no entry, or makes one for the child. -/
theorem minifsProcessFork_cases (t : FdTables) (parentPid childPid : Int) :
    ((minifsProcessFork t parentPid childPid).2 = false ∧
      (minifsProcessFork t parentPid childPid).1.holder = t.holder) ∨
    ((minifsProcessFork t parentPid childPid).2 = true ∧ ((∃ p, t.holder p = some childPid) ∧
          (minifsProcessFork t parentPid childPid).1.holder = t.holder ∨
        ∃ p, Enters t (minifsProcessFork t parentPid childPid).1 childPid p)) := by
  have hinit := minifsProcessInit_cases t childPid
  rw [minifsProcessFork]
  split
  · exact Or.inl ⟨rfl, rfl⟩
  next parent hparent =>
    split
    · next t1 heq =>
      rw [heq] at hinit
      rcases hinit with ⟨h, -⟩ | ⟨-, hholder, -⟩ | ⟨h, -⟩
      · cases h
      · exact Or.inl ⟨rfl, hholder⟩
      · cases h
    · next t1 heq =>
      rw [heq] at hinit
      -- after a `minifs_process_init` that worked, the child is found
      have hfound : findProcess t1 childPid ≠ none := by
        rw [findProcess_ne_none]
        rcases hinit with ⟨-, ht, hp⟩ | ⟨h, -⟩ | ⟨-, p, hp⟩
        · obtain rfl : t1 = t := ht
          exact hp
        · cases h
        · exact ⟨p, by rw [show t1.holder = _ from hp.holder, Function.update_self]⟩
      split
      · next hnone => exact absurd hnone hfound
      next child hchild =>
        have hholder : ((List.finRange 16).foldl (forkSlot parent child) (t1.setProcess child
              { t1.processFds child with cloexec := (t1.processFds parent).cloexec })).holder =
            t1.holder := by
          rw [holder_foldl _ (forkSlot_holder parent child)]
          exact holder_setProcess_same t1 child rfl
        refine Or.inr ⟨rfl, ?_⟩
        rcases hinit with ⟨-, ht, hp⟩ | ⟨h, -⟩ | ⟨-, p, hp⟩
        · obtain rfl : t1 = t := ht
          exact Or.inl ⟨hp, hholder⟩
        · cases h
        · exact Or.inr ⟨p, hp.new, hp.free, hholder.trans hp.holder⟩

theorem minifsCloseAll_cases (t : FdTables) (pid : Int) :
    ((∀ p, t.holder p ≠ some pid) ∧ minifsCloseAll t pid = t) ∨
    ∃ p, t.holder p = some pid ∧
      (minifsCloseAll t pid).holder = Function.update t.holder p none := by
  rw [minifsCloseAll]
  split
  · next hnone => exact Or.inl ⟨findProcess_eq_none.mp hnone, rfl⟩
  next p hp =>
    refine Or.inr ⟨p, findProcess_holder hp, ?_⟩
    have hslot : ∀ t fd, (closeSlot p t fd).holder = t.holder := by
      intro t fd
      simp [closeSlot]
    dsimp only
    rw [holder_setProcess, holder_foldl t hslot]
    rfl

/-! ## The other calls -/

/-- A call that neither takes nor gives up an entry. -/
def Call.KeepsEntries : Call → Prop
  | .processInit _ => False
  | .processFork _ _ => False
  | .closeAll _ => False
  | _ => True

theorem SameSlots.holder {t t' : FdTables} (h : SameSlots t t') : t'.holder = t.holder := by
  funext p
  rw [FdTables.holder, h.1]
  rfl

theorem holder_of_tables {s s' : FsSt} (h : s'.toFdTables = s.toFdTables) :
    s'.holder = s.holder := congrArg FdTables.holder h

theorem sameSlots_of_tables {s s' : FsSt} (h : s'.toFdTables = s.toFdTables) :
    SameSlots s.toFdTables s'.toFdTables := h ▸ .refl _

/-- A write moves an offset, whatever the disk does. -/
theorem fileWrite_sameSlots (s : FsSt) (i : Fin 64) (buffer : Region) (length : Nat) :
    SameSlots s.toFdTables (fileWrite s i buffer length).1.toFdTables := by
  unfold fileWrite
  generalize hmoved : (if wantsAppend (s.openFiles i).flags = true then _ else _) = moved
  have hsame : SameSlots s.toFdTables moved.1.toFdTables := by
    rw [← hmoved]
    have hread := readInode_tables s (s.openFiles i).inode
    split
    · split
      · next s1 heq =>
        rw [heq] at hread
        exact sameSlots_of_tables hread
      · next s1 inode heq =>
        rw [heq] at hread
        exact (sameSlots_of_tables hread).trans (sameSlots_setOffset s1 i _)
    · exact .refl _
  obtain ⟨s1, offset⟩ := moved
  cases offset with
  | none => exact hsame
  | some offset =>
    dsimp only
    have hwrite := writeAt_tables s1 (s1.openFiles i).inode offset buffer (min length 0xffffffff)
    split
    · next s2 heq =>
      rw [heq] at hwrite
      exact hsame.trans (sameSlots_of_tables hwrite)
    · next s2 n heq =>
      rw [heq] at hwrite
      exact (hsame.trans (sameSlots_of_tables hwrite)).trans (sameSlots_setOffset s2 i _)

theorem minifsWrite_sameSlots (s : FsSt) (pid fd : Int) (buffer : Option Region) (length : Nat) :
    SameSlots s.toFdTables (minifsWrite s pid fd buffer length).1.toFdTables := by
  have hwrite := fileWrite_sameSlots s
  unfold minifsWrite
  split
  · next i buffer hopen =>
    split
    · exact .refl _
    · split
      · exact .refl _
      · have hfile := hwrite i buffer length
        split
        · next s1 heq => rwa [heq] at hfile
        · next s1 n heq => rwa [heq] at hfile
  · exact .refl _

theorem openInstall_holder (t : FdTables) (p : Fin 16) (number size : Nat) (flags : BitVec 32) :
    (openInstall t p number size flags).1.holder = t.holder := by
  rw [openInstall]
  split
  · next t1 heq => rw [← show _ = t1 from congrArg Prod.fst heq, holder_allocOfd]
  next t1 ofd heq =>
    have halloc : t1.holder = t.holder := by
      rw [← show _ = t1 from congrArg Prod.fst heq, holder_allocOfd]
    have happend : (if wantsAppend flags = true then
        t1.setFile ofd { t1.openFiles ofd with offset := size } else t1).holder = t.holder := by
      split <;> exact halloc
    dsimp only
    split
    · next t2 heq2 =>
      rw [holder_putOfd, ← show _ = t2 from congrArg Prod.fst heq2, holder_installFd, happend]
    · next t2 fd heq2 =>
      rw [← show _ = t2 from congrArg Prod.fst heq2, holder_installFd, happend]

theorem minifsOpen_holder (s : FsSt) (pid : Int) (cwd : Nat) (path : Option CStr)
    (flags : BitVec 32) : (minifsOpen s pid cwd path flags).1.holder = s.holder := by
  have htarget := openTarget_tables s cwd (pathBytes path) flags
  rw [minifsOpen]
  split
  · rfl
  split
  · rfl
  split
  · next s1 heq =>
    rw [heq] at htarget
    exact holder_of_tables htarget
  next s1 number heq =>
    rw [heq] at htarget
    have htruncate := openTruncate_tables s1 number flags
    split
    · next s2 heq2 =>
      rw [heq2] at htruncate
      exact holder_of_tables (htruncate.trans htarget)
    · next s2 inode heq2 =>
      rw [heq2] at htruncate
      exact (openInstall_holder ..).trans (holder_of_tables (htruncate.trans htarget))

theorem step_holder {call : Call} (h : call.KeepsEntries) (s : FsSt) :
    (step s call).holder = s.holder := by
  cases call with
  | processInit pid => exact h.elim
  | processFork parentPid childPid => exact h.elim
  | closeAll pid => exact h.elim
  | setCloexec pid fd on =>
    show (minifsSetCloexec s.toFdTables pid fd on).1.holder = _
    rw [minifsSetCloexec]
    repeat' split
    all_goals simp
  | closeExecFds pid =>
    show (minifsCloseExecFds s.toFdTables pid).holder = _
    rw [minifsCloseExecFds]
    split
    · rfl
    · refine holder_foldl _ (fun t fd => ?_) _
      rw [closeExecSlot]
      split <;> simp
  | «open» pid cwd path flags => exact minifsOpen_holder s pid cwd path flags
  | close pid fd =>
    show (minifsClose s.toFdTables pid fd).1.holder = _
    rw [minifsClose]
    repeat' split
    all_goals simp
  | pread inode offset length => exact holder_of_tables (minifsPread_tables ..)
  | read pid fd length => exact (minifsRead_quiet s pid fd length).2.holder
  | write pid fd buffer length => exact (minifsWrite_sameSlots s pid fd buffer length).holder
  | lseek pid fd offset whence => exact (minifsLseek_quiet s pid fd offset whence).2.holder
  | dup2 pid oldfd newfd =>
    show (minifsDup2 s.toFdTables pid oldfd newfd).1.holder = _
    rw [minifsDup2]
    repeat' split
    all_goals simp
  | getdents cwd path capacity => exact holder_of_tables (minifsGetdents_tables ..)
  | mkdir cwd path => exact holder_of_tables (minifsMkdir_tables ..)
  | unlink cwd path => exact holder_of_tables (minifsUnlink_tables ..)
  | chdir cwd path => exact holder_of_tables (minifsChdir_tables ..)

end MiniOs.Fs
