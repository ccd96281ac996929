import MiniOs.Kernel.Trap
import MiniOs.Proofs.Entries

/-!
# System calls on files

Most of `syscall_dispatch` is about files. Such a call changes the file system
and may move the caller to another directory; who exists and who has an entry in
`process_fds` stays as it was. The seven calls left over are those that concern
processes.
-/

namespace MiniOs.Kernel

open MiniOs.Lib MiniOs.Fs

/-- The state after a call on files. -/
structure OnFiles (k k' : System) : Prop where
  tasks : ∀ i, k'.tasks i = { k.tasks i with cwdInode := (k'.tasks i).cwdInode }
  count : k'.taskCount = k.taskCount
  nextPid : k'.nextPid = k.nextPid
  holder : k'.fs.holder = k.fs.holder

section OnFiles

variable (k : System) (current : Fin 16) (mem : UserMemory)

theorem OnFiles.refl : OnFiles k k := ⟨fun _ => rfl, rfl, rfl, rfl⟩

variable {k}

theorem onFiles_of_fs {s : FsSt} (h : s.holder = k.fs.holder) : OnFiles k { k with fs := s } :=
  ⟨fun _ => rfl, rfl, rfl, h⟩

theorem onFiles_call {call : Call} (h : call.KeepsEntries) : OnFiles k (k.call call) :=
  onFiles_of_fs (step_holder h k.fs)

variable (k)

theorem sysReadLoop_holder (pid fd : Int) (userBuffer length fuel : Nat) (s : FsSt) (done : Nat) :
    (sysReadLoop mem pid fd userBuffer length fuel s done).1.holder = s.holder := by
  induction fuel generalizing s done with
  | zero => rfl
  | succ fuel ih =>
    have hread := (minifsRead_quiet s pid fd (min (length - done) 512)).2.holder
    rw [sysReadLoop]
    split
    · rfl
    dsimp only
    split
    · next s1 heq => rwa [heq] at hread
    next s1 bytes heq =>
      rw [heq] at hread
      split
      · exact hread
      · split
        · exact hread
        · split
          · exact hread
          · exact (ih _ _).trans hread

theorem sysWriteLoop_holder (pid fd : Int) (userBuffer length fuel : Nat) (s : FsSt) (done : Nat) :
    (sysWriteLoop mem pid fd userBuffer length fuel s done).1.holder = s.holder := by
  induction fuel generalizing s done with
  | zero => rfl
  | succ fuel ih =>
    rw [sysWriteLoop]
    split
    · rfl
    dsimp only
    split
    · rfl
    next bytes hcopy =>
      have hwrite := (minifsWrite_sameSlots s pid fd (some fun i => bytes.getD i 0)
        (min (length - done) 512)).holder
      split
      · exact hwrite
      · split
        · exact hwrite
        · exact (ih _ _).trans hwrite

theorem sysRead_onFiles (fd userBuffer length : Nat) :
    OnFiles k (sysRead k current mem fd userBuffer length).1 := by
  rw [sysRead]
  split
  · exact .refl k
  · split
    · exact .refl k
    · exact onFiles_of_fs (sysReadLoop_holder ..)

theorem sysWrite_onFiles (fd userBuffer length : Nat) :
    OnFiles k (sysWrite k current mem fd userBuffer length).1 := by
  rw [sysWrite]
  split
  · exact .refl k
  · split
    · exact .refl k
    · exact onFiles_of_fs (sysWriteLoop_holder ..)

theorem sysOpen_onFiles (userPath flags : Nat) :
    OnFiles k (sysOpen k current mem userPath flags).1 := by
  rw [sysOpen]
  split
  · exact .refl k
  · exact onFiles_of_fs (minifsOpen_holder ..)

theorem sysMkdir_onFiles (userPath : Nat) : OnFiles k (sysMkdir k current mem userPath).1 := by
  rw [sysMkdir]
  split
  · exact .refl k
  · exact onFiles_of_fs (holder_of_tables (minifsMkdir_tables ..))

theorem sysUnlink_onFiles (userPath : Nat) : OnFiles k (sysUnlink k current mem userPath).1 := by
  rw [sysUnlink]
  split
  · exact .refl k
  · exact onFiles_of_fs (holder_of_tables (minifsUnlink_tables ..))

theorem sysGetdents_onFiles (userPath userEntries capacity : Nat) :
    OnFiles k (sysGetdents k current mem userPath userEntries capacity).1 := by
  rw [sysGetdents]
  split
  · exact .refl k
  next path hpath =>
    have hdents := holder_of_tables
      (minifsGetdents_tables k.fs (currentCwd k current) path (min capacity 128))
    split
    · next s heq =>
      rw [heq] at hdents
      exact onFiles_of_fs hdents
    · next s entries heq =>
      rw [heq] at hdents
      dsimp only
      split <;> exact onFiles_of_fs hdents

theorem sysGetcwd_onFiles (userBuffer length : Nat) :
    OnFiles k (sysGetcwd k current mem userBuffer length).1 := by
  have hcwd := holder_of_tables (minifsGetcwd_tables k.fs (currentCwd k current) 256)
  rw [sysGetcwd]
  split
  · exact .refl k
  split
  · next s heq =>
    rw [heq] at hcwd
    exact onFiles_of_fs hcwd
  · next s path heq =>
    rw [heq] at hcwd
    dsimp only
    split <;> exact onFiles_of_fs hcwd

/-- The one call that changes something of the caller: where it is. -/
theorem sysChdir_onFiles (userPath : Nat) : OnFiles k (sysChdir k current mem userPath).1 := by
  rw [sysChdir]
  split
  · exact .refl k
  next path hpath =>
    have hchdir := holder_of_tables (minifsChdir_tables k.fs (currentCwd k current) (some path))
    split
    · next s heq =>
      rw [heq] at hchdir
      exact onFiles_of_fs hchdir
    · next s cwd heq =>
      rw [heq] at hchdir
      refine ⟨fun i => ?_, rfl, rfl, hchdir⟩
      simp only [taskSetCurrentCwd, System.setTask]
      rcases eq_or_ne i current with rfl | hi
      · simp
      · simp [hi]

theorem sysPs_onFiles (userEntries capacity : Nat) :
    OnFiles k (sysPs k mem userEntries capacity).1 := by
  simp only [sysPs]
  split <;> exact .refl k

end OnFiles

namespace Machine

/-- The calls that concern processes. -/
def processCalls : List Sysno := [.exit, .wait, .waitpid, .fork, .execve, .yield, .kill]

/-- Every other call, one without a number included, is a call on files. -/
theorem syscallDispatch_onFiles {m : Machine} (mem : UserMemory)
    (hcall : ∀ c ∈ Sysno.ofNumber (m.frame 17), c ∉ processCalls) :
    ∃ k result, OnFiles m.toSystem k ∧ m.syscallDispatch mem = (m.onSystem (k, result), 0) := by
  have hfile : ∀ {outcome : System × Int}, OnFiles m.toSystem outcome.1 →
      ∃ k result, OnFiles m.toSystem k ∧
        (m.onSystem outcome, (0 : Nat)) = (m.onSystem (k, result), 0) :=
    fun {outcome} h => ⟨outcome.1, outcome.2, h, rfl⟩
  unfold syscallDispatch
  dsimp only
  cases hnumber : Sysno.ofNumber (m.frame 17) with
  | none => exact ⟨m.toSystem, -1, .refl _, rfl⟩
  | some number =>
    have hnot : number ∉ processCalls := hcall number hnumber
    cases number with
    | read => exact hfile (sysRead_onFiles ..)
    | write => exact hfile (sysWrite_onFiles ..)
    | «open» => exact hfile (sysOpen_onFiles ..)
    | close => exact hfile (onFiles_call trivial)
    | lseek => exact hfile (onFiles_call trivial)
    | dup2 => exact hfile (onFiles_call trivial)
    | getdents => exact hfile (sysGetdents_onFiles ..)
    | mkdir => exact hfile (sysMkdir_onFiles ..)
    | unlink => exact hfile (sysUnlink_onFiles ..)
    | chdir => exact hfile (sysChdir_onFiles ..)
    | getcwd => exact hfile (sysGetcwd_onFiles ..)
    | ps => exact hfile (sysPs_onFiles ..)
    | setCloexec => exact hfile (onFiles_call trivial)
    | _ => exact absurd (by decide) hnot

end Machine

end MiniOs.Kernel
