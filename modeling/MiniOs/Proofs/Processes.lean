import MiniOs.Kernel.Syscall
import MiniOs.Proofs.Namespace

/-!
# What a turn does to the file system and to working directories

A request reaches the file system as calls of the interface of `minifs.h`. Most
requests make calls that cannot add or remove a name; `open`, `mkdir` and
`unlink` make exactly one call that can, with the caller's working directory in
it. `serve_fs` says which, so what was proved about calls carries over to turns
of processes.

The task table is simpler than it looks from here: a working directory comes
from the caller of `fork` or `task_create`, or from a `chdir` of one's own.
-/

namespace MiniOs.Kernel

open MiniOs.Lib MiniOs.Fs MiniOs.Spec

/-- A call that cannot add or remove a name. -/
def Nameless : Call → Prop
  | .open _ _ _ _ => False
  | .mkdir _ _ => False
  | .unlink _ _ => False
  | _ => True

/-- A task that is neither unused nor a zombie. -/
def Live (task : Task) : Prop := task.state ≠ .unused ∧ task.state ≠ .zombie

instance (task : Task) : Decidable (Live task) := inferInstanceAs (Decidable (_ ∧ _))

theorem Runnable.live {task : Task} (h : Runnable task) : Live task := by
  rcases h with h | h <;> simp [Live, h]

/-- The file system after calls of one kind, and reads of the loader. -/
def Reaches (kind : Call → Prop) (s s' : FsSt) : Prop :=
  ∃ sector calls, (∀ call ∈ calls, kind call) ∧ s' = runCalls (s.withBuffer sector) calls

/-- After calls that cannot change a name. -/
def Nameless.Reaches (s s' : FsSt) : Prop := Kernel.Reaches Nameless s s'

section Reaches

variable {s s' : FsSt} {kind : Call → Prop}

theorem Reaches.refl (s : FsSt) : Reaches kind s s :=
  ⟨s.blockBuffer, [], by simp, rfl⟩

theorem Reaches.one {call : Call} (h : kind call) : Reaches kind s (step s call) :=
  ⟨s.blockBuffer, [call], by simpa using h, rfl⟩

theorem Reaches.cons {call : Call} {s1 : FsSt} (hstep : step s call = s1) (h : kind call)
    (hrest : ∃ calls, (∀ call ∈ calls, kind call) ∧ s' = runCalls s1 calls) :
    ∃ calls, (∀ call ∈ calls, kind call) ∧ s' = runCalls s calls := by
  obtain ⟨calls, hcalls, heq⟩ := hrest
  subst hstep
  exact ⟨call :: calls, List.forall_mem_cons.mpr ⟨h, hcalls⟩, heq⟩

theorem Reaches.store (h : Reaches Call.StoresNothing s s') : s'.toStore = s.toStore := by
  obtain ⟨sector, calls, hcalls, rfl⟩ := h
  show _ = (s.withBuffer sector).toStore
  generalize s.withBuffer sector = t
  induction calls generalizing t with
  | nil => rfl
  | cons call rest ih =>
    obtain ⟨hfirst, hrest⟩ := List.forall_mem_cons.mp hcalls
    exact (ih hrest (step t call)).trans (step_store hfirst)

theorem Reaches.nameless (h : Reaches Call.StoresNothing s s') : Nameless.Reaches s s' := by
  obtain ⟨sector, calls, hcalls, heq⟩ := h
  refine ⟨sector, calls, fun call hcall => ?_, heq⟩
  have hnothing := hcalls call hcall
  cases call with
  | «open» => exact hnothing
  | mkdir => exact hnothing
  | unlink => exact hnothing
  | _ => trivial

end Reaches

/-! ## The loops -/

section Loops

variable (mem : UserMemory) (pid fd : Int) (userBuffer length : Nat)

theorem sysWriteLoop_reaches (fuel : Nat) (s : FsSt) (done : Nat) :
    ∃ calls, (∀ call ∈ calls, Nameless call) ∧
      (sysWriteLoop mem pid fd userBuffer length fuel s done).1 = runCalls s calls := by
  have hwrite : ∀ {s s1 : FsSt} {buffer : Option Region} {chunk : Nat} {written : Int},
      minifsWrite s pid fd buffer chunk = (s1, written) →
        step s (.write pid fd buffer chunk) = s1 := fun heq => congrArg Prod.fst heq
  fun_induction sysWriteLoop mem pid fd userBuffer length fuel s done with
  | case4 _ _ _ _ _ _ _ _ _ heq => exact Reaches.cons (hwrite heq) trivial ⟨[], by simp, rfl⟩
  | case5 _ _ _ _ _ _ _ _ _ heq => exact Reaches.cons (hwrite heq) trivial ⟨[], by simp, rfl⟩
  | case6 _ _ _ _ _ _ _ _ _ heq _ _ ih => exact Reaches.cons (hwrite heq) trivial ih
  | _ => exact ⟨[], by simp, rfl⟩

theorem sysReadLoop_reaches (fuel : Nat) (s : FsSt) (done : Nat) :
    ∃ calls, (∀ call ∈ calls, Call.StoresNothing call) ∧
      (sysReadLoop mem pid fd userBuffer length fuel s done).1 = runCalls s calls := by
  have hread : ∀ {s s1 : FsSt} {chunk : Nat} {bytes : Option (List UInt8)},
      minifsRead s pid fd chunk = (s1, bytes) → step s (.read pid fd chunk) = s1 :=
    fun heq => congrArg Prod.fst heq
  fun_induction sysReadLoop mem pid fd userBuffer length fuel s done with
  | case1 => exact ⟨[], by simp, rfl⟩
  | case2 => exact ⟨[], by simp, rfl⟩
  | case7 _ _ _ _ _ _ _ heq _ _ _ ih => exact Reaches.cons (hread heq) trivial ih
  | _ => exact Reaches.cons (hread (by assumption)) trivial ⟨[], by simp, rfl⟩

end Loops

/-! ## The file system after a request -/

section Serve

variable (k : System) (current : Fin 16) (mem : UserMemory)

/-- The one call of a request that can change a name. -/
def nameCall : Request → Option Call
  | .open userPath flags =>
    (copyPath mem userPath).map fun path =>
      .open (currentPid k current) (currentCwd k current) (some path) (BitVec.ofNat 32 flags)
  | .mkdir userPath =>
    (copyPath mem userPath).map fun path => .mkdir (currentCwd k current) (some path)
  | .unlink userPath =>
    (copyPath mem userPath).map fun path => .unlink (currentCwd k current) (some path)
  | _ => none

theorem endTask_fs (i : Fin 16) (code : Int) :
    (endTask k i code).fs = step k.fs (.closeAll (k.tasks i).pid) := by
  have hwake : ∀ k : System, (wakeParent k i).fs = k.fs := by
    intro k
    rw [wakeParent]
    split
    · rfl
    · split <;> rfl
  simp only [endTask, adoptChildren, hwake]
  simp [System.call, System.setTask]

theorem taskKill_fs (pid code : Int) :
    Reaches Call.StoresNothing k.fs (taskKill k current pid code).1.fs := by
  fun_cases taskKill k current pid code with
  | case3 target =>
    show Reaches Call.StoresNothing k.fs (endTask k target code).fs
    rw [endTask_fs]
    exact .one trivial
  | _ => exact .refl _

theorem taskFork_fs : Reaches Call.StoresNothing k.fs (taskFork k current).1.fs := by
  have hfork : ∀ {pid childPid t ok}, minifsProcessFork k.fs.toFdTables pid childPid = (t, ok) →
      Reaches Call.StoresNothing k.fs (k.fs.onTables t) := fun {pid childPid _ _} heq =>
    congrArg (fun r => k.fs.onTables r.1) heq ▸ @Reaches.one k.fs _ (.processFork pid childPid) trivial
  fun_cases taskFork k current with
  | case3 _ _ _ _ _ _ _ heq => exact hfork heq
  | case4 _ _ _ _ _ _ _ heq => exact hfork heq
  | _ => exact .refl _

theorem taskCreate_fs (name : List UInt8) :
    Reaches Call.StoresNothing k.fs (taskCreate k current name).1.fs := by
  have hinit : ∀ {pid t ok}, minifsProcessInit k.fs.toFdTables pid = (t, ok) →
      Reaches Call.StoresNothing k.fs (k.fs.onTables t) := fun {pid _ _} heq =>
    congrArg (fun r => k.fs.onTables r.1) heq ▸ @Reaches.one k.fs _ (.processInit pid) trivial
  fun_cases taskCreate k current name with
  | case3 _ _ _ _ _ _ _ heq => exact hinit heq
  | case4 _ _ _ _ _ _ _ heq => exact hinit heq
  | _ => exact .refl _

theorem taskWaitpid_fs (pid : Int) (nohang : Bool) :
    Reaches Call.StoresNothing k.fs (taskWaitpid k current pid nohang).1.fs := by
  fun_cases taskWaitpid k current pid nohang with
  | case1 => exact @Reaches.one k.fs _ (.closeAll _) trivial
  | _ => exact .refl _

/-- What a request does to the file system: one call that can change a name, with the
caller's working directory, or the rounds of a write, or nothing that is stored. -/
theorem serve_cases (request : Request) :
    (∃ call, nameCall k current mem request = some call ∧
      (serve k current mem request).fs = step k.fs call) ∨
    (∃ fd userBuffer length, request = .write fd userBuffer length) ∨
    nameCall k current mem request = none ∧
      Reaches Call.StoresNothing k.fs (serve k current mem request).fs := by
  cases request with
  | read fd userBuffer length =>
    refine Or.inr (Or.inr ⟨rfl, ?_⟩)
    simp only [serve, sysRead]
    split
    · exact .refl _
    · split
      · exact .refl _
      · obtain ⟨calls, hcalls, heq⟩ := sysReadLoop_reaches mem (currentPid k current) (toInt fd)
          userBuffer length length k.fs 0
        exact ⟨k.fs.blockBuffer, calls, hcalls, heq⟩
  | write fd userBuffer length => exact Or.inr (Or.inl ⟨fd, userBuffer, length, rfl⟩)
  | exit code =>
    refine Or.inr (Or.inr ⟨rfl, ?_⟩)
    simp only [serve, taskExit]
    split
    · exact .refl _
    · rw [endTask_fs]
      exact .one trivial
  | waitpid pid userStatus options =>
    refine Or.inr (Or.inr ⟨rfl, ?_⟩)
    simp only [serve, sysWaitpid]
    split <;> exact taskWaitpid_fs k current _ _
  | fork cloned =>
    refine Or.inr (Or.inr ⟨rfl, ?_⟩)
    simp only [serve, sysFork]
    split
    · exact .refl _
    · exact taskFork_fs k current
  | execve userPath loaded sector =>
    refine Or.inr (Or.inr ⟨rfl, ?_⟩)
    simp only [serve, sysExecve]
    split
    · exact .refl _
    · split
      · exact ⟨sector, [.closeExecFds _], by simp [Call.StoresNothing], rfl⟩
      · exact ⟨sector, [], by simp, rfl⟩
  | «open» userPath flags =>
    simp only [serve, sysOpen, nameCall]
    cases copyPath mem userPath with
    | none => exact Or.inr (Or.inr ⟨rfl, .refl _⟩)
    | some path => exact Or.inl ⟨_, rfl, rfl⟩
  | close fd => exact Or.inr (Or.inr ⟨rfl, @Reaches.one k.fs Call.StoresNothing (.close _ _) trivial⟩)
  | lseek fd offset whence =>
    exact Or.inr (Or.inr ⟨rfl, @Reaches.one k.fs Call.StoresNothing (.lseek _ _ _ _) trivial⟩)
  | dup2 oldfd newfd =>
    exact Or.inr (Or.inr ⟨rfl, @Reaches.one k.fs Call.StoresNothing (.dup2 _ _ _) trivial⟩)
  | getdents userPath userEntries capacity =>
    refine Or.inr (Or.inr ⟨rfl, ?_⟩)
    simp only [serve, sysGetdents]
    split
    · exact .refl _
    next path hpath =>
      have hstep : ∀ s, (minifsGetdents k.fs (currentCwd k current) path
          (min capacity 128)).1 = s → Reaches Call.StoresNothing k.fs s := fun s hs =>
        hs ▸ @Reaches.one k.fs Call.StoresNothing (.getdents _ path _) trivial
      split
      · next s heq => exact hstep s (congrArg Prod.fst heq)
      · next s entries heq =>
        split <;> exact hstep s (congrArg Prod.fst heq)
  | mkdir userPath =>
    simp only [serve, sysMkdir, nameCall]
    cases copyPath mem userPath with
    | none => exact Or.inr (Or.inr ⟨rfl, .refl _⟩)
    | some path => exact Or.inl ⟨_, rfl, rfl⟩
  | unlink userPath =>
    simp only [serve, sysUnlink, nameCall]
    cases copyPath mem userPath with
    | none => exact Or.inr (Or.inr ⟨rfl, .refl _⟩)
    | some path => exact Or.inl ⟨_, rfl, rfl⟩
  | chdir userPath =>
    refine Or.inr (Or.inr ⟨rfl, ?_⟩)
    simp only [serve, sysChdir]
    split
    · exact .refl _
    · next path hpath =>
      have hstep : ∀ s, (minifsChdir k.fs (currentCwd k current) (some path)).1 = s →
          Reaches Call.StoresNothing k.fs s := fun s hs =>
        hs ▸ @Reaches.one k.fs Call.StoresNothing (.chdir _ (some path)) trivial
      split
      · next s heq => exact hstep s (congrArg Prod.fst heq)
      · next s cwd heq => exact hstep s (congrArg Prod.fst heq)
  | kill pid signal =>
    refine Or.inr (Or.inr ⟨rfl, ?_⟩)
    simp only [serve, sysKill]
    generalize (if signal = 0 then (15 : Int) else toInt signal) = number
    split
    · exact .refl _
    · exact taskKill_fs k current _ _
  | setCloexec fd enabled =>
    exact Or.inr (Or.inr ⟨rfl, @Reaches.one k.fs Call.StoresNothing (.setCloexec _ _ _) trivial⟩)
  | create name => exact Or.inr (Or.inr ⟨rfl, taskCreate_fs k current name⟩)
  | attach => exact Or.inr (Or.inr ⟨rfl, .refl _⟩)

/-- At most one call that can change a name, and otherwise none. -/
theorem serve_fs (request : Request) :
    (∃ call, nameCall k current mem request = some call ∧
      (serve k current mem request).fs = step k.fs call) ∨
    nameCall k current mem request = none ∧
      Nameless.Reaches k.fs (serve k current mem request).fs := by
  rcases serve_cases k current mem request with
    hcall | ⟨fd, userBuffer, length, rfl⟩ | ⟨hnone, hreach⟩
  · exact Or.inl hcall
  · refine Or.inr ⟨rfl, ?_⟩
    simp only [serve, sysWrite]
    split
    · exact Reaches.refl _
    · split
      · exact Reaches.refl _
      · obtain ⟨calls, hcalls, heq⟩ := sysWriteLoop_reaches mem (currentPid k current) (toInt fd)
          userBuffer length length k.fs 0
        exact ⟨k.fs.blockBuffer, calls, hcalls, heq⟩
  · exact Or.inr ⟨hnone, hreach.nameless⟩

end Serve

/-! ## Working directories -/

/-- Nobody moved, and nobody came to life. -/
def SameCwds (k k' : System) : Prop :=
  ∀ i, (k'.tasks i).cwdInode = (k.tasks i).cwdInode ∧ (Live (k'.tasks i) → Live (k.tasks i))

section Cwds

variable {k k₁ k₂ : System}

theorem SameCwds.of_tasks (h : k₁.tasks = k.tasks) : SameCwds k k₁ :=
  fun i => ⟨by rw [h], fun hl => h ▸ hl⟩

theorem SameCwds.trans (h1 : SameCwds k k₁) (h2 : SameCwds k₁ k₂) : SameCwds k k₂ :=
  fun i => ⟨(h2 i).1.trans (h1 i).1, fun hl => (h1 i).2 ((h2 i).2 hl)⟩

theorem tasks_setTask (k : System) (slot i : Fin 16) (task : Task) :
    (k.setTask slot task).tasks i = if i = slot then task else k.tasks i := by
  by_cases hi : i = slot
  · rw [if_pos hi, hi]
    exact Function.update_self ..
  · rw [if_neg hi]
    exact Function.update_of_ne hi ..

theorem SameCwds.setTask {slot : Fin 16} {task : Task}
    (hcwd : task.cwdInode = (k.tasks slot).cwdInode) (hlive : Live task → Live (k.tasks slot)) :
    SameCwds k (k.setTask slot task) := by
  intro i
  rw [tasks_setTask]
  split
  · next hi =>
    subst hi
    exact ⟨hcwd, hlive⟩
  · exact ⟨rfl, id⟩

theorem sameCwds_endTask (k : System) (slot : Fin 16) (code : Int) :
    SameCwds k (endTask k slot code) := by
  have hwake : ∀ k, SameCwds k (wakeParent k slot) := by
    intro k
    rw [wakeParent]
    split
    · exact .of_tasks rfl
    · next parent hparent =>
      split
      · next hblocked => exact .setTask rfl fun _ => by simp [Live, hblocked.1]
      · exact .of_tasks rfl
  have hadopt : ∀ k pid, SameCwds k (adoptChildren k pid) := by
    intro k pid i
    simp only [adoptChildren]
    split
    · exact ⟨rfl, id⟩
    · exact ⟨rfl, id⟩
  have hzombie : SameCwds k
      (k.setTask slot { k.tasks slot with exitCode := code, state := .zombie }) :=
    .setTask rfl fun hl => absurd rfl hl.2
  have hclose : ∀ k call, SameCwds k (k.call call) := fun k call => .of_tasks rfl
  exact hzombie.trans ((hclose _ _).trans ((hwake _).trans (hadopt _ _)))

theorem sameCwds_taskWaitpid {current : Fin 16} (h : Runnable (k.tasks current)) (pid : Int)
    (nohang : Bool) : SameCwds k (taskWaitpid k current pid nohang).1 := by
  fun_cases taskWaitpid k current pid nohang with
  | case1 child =>
    exact @SameCwds.setTask (k.call (.closeAll (k.tasks child).pid)) child { k.tasks child with
        hasUserSpace := false, state := .unused, pid := -1, ppid := -1, name := [] }
      rfl fun hl => absurd rfl hl.1
  | case3 => exact .setTask rfl fun _ => h.live
  | _ => exact .of_tasks rfl

/-- Where the working directory of a live task comes from. -/
def CwdFrom (k k' : System) (current : Fin 16) : Prop :=
  ∀ i, Live (k'.tasks i) → (Live (k.tasks i) ∧ (k'.tasks i).cwdInode = (k.tasks i).cwdInode) ∨
      (k'.tasks i).cwdInode = (k.tasks current).cwdInode

theorem SameCwds.cwdFrom (h : SameCwds k k₁) (current : Fin 16) : CwdFrom k k₁ current :=
  fun i hl => Or.inl ⟨(h i).2 hl, (h i).1⟩

theorem cwdFrom_setTask {slot current : Fin 16} {task : Task}
    (h : Live task → task.cwdInode = (k.tasks current).cwdInode) :
    CwdFrom k (k.setTask slot task) current := by
  intro i
  rw [tasks_setTask]
  split
  · exact fun hl => Or.inr (h hl)
  · exact fun hl => Or.inl ⟨hl, rfl⟩

theorem cwdFrom_taskFork (k : System) (current : Fin 16) :
    CwdFrom k (taskFork k current).1 current := by
  rw [taskFork]
  split
  · exact (SameCwds.of_tasks rfl).cwdFrom current
  split
  · exact (SameCwds.of_tasks rfl).cwdFrom current
  next slot hslot =>
    dsimp only
    split
    · exact cwdFrom_setTask fun _ => rfl
    · intro i
      simp only [tasks_setTask]
      split
      · exact fun hl => absurd rfl hl.1
      · exact fun hl => Or.inl ⟨hl, rfl⟩

theorem cwdFrom_taskCreate (k : System) (current : Fin 16) (name : List UInt8) :
    CwdFrom k (taskCreate k current name).1 current := by
  rw [taskCreate]
  split
  · exact (SameCwds.of_tasks rfl).cwdFrom current
  split
  · exact (SameCwds.of_tasks rfl).cwdFrom current
  next slot hslot =>
    dsimp only
    split
    · exact cwdFrom_setTask fun _ => rfl
    · intro i
      simp only [tasks_setTask]
      split
      · exact fun hl => absurd rfl hl.1
      · exact fun hl => Or.inl ⟨hl, rfl⟩

/-- A request moves nobody but the caller, and the caller only by `chdir`. -/
theorem serve_cwd {current : Fin 16} (h : Runnable (k.tasks current)) (mem : UserMemory)
    (request : Request) :
    CwdFrom k (serve k current mem request) current ∨
    ∃ userPath path cwd, request = .chdir userPath ∧ copyPath mem userPath = some path ∧
      (minifsChdir k.fs (currentCwd k current) (some path)).2 = some cwd ∧
      (serve k current mem request).tasks =
        Function.update k.tasks current { k.tasks current with cwdInode := cwd } := by
  have hsame : ∀ k', k'.tasks = k.tasks → CwdFrom k k' current :=
    fun k' hk => (SameCwds.of_tasks hk).cwdFrom current
  cases request with
  | read fd userBuffer length =>
    refine Or.inl (hsame _ ?_)
    simp only [serve, sysRead]
    split
    · rfl
    · split <;> rfl
  | write fd userBuffer length =>
    refine Or.inl (hsame _ ?_)
    simp only [serve, sysWrite]
    split
    · rfl
    · split <;> rfl
  | exit code =>
    refine Or.inl ?_
    simp only [serve, taskExit]
    split
    · exact hsame _ rfl
    · exact (sameCwds_endTask k current _).cwdFrom current
  | waitpid pid userStatus options =>
    refine Or.inl ?_
    simp only [serve, sysWaitpid]
    split <;> exact (sameCwds_taskWaitpid h _ _).cwdFrom current
  | fork cloned =>
    refine Or.inl ?_
    simp only [serve, sysFork]
    split
    · exact hsame _ rfl
    · exact cwdFrom_taskFork k current
  | execve userPath loaded sector =>
    refine Or.inl ?_
    simp only [serve, sysExecve]
    split
    · exact hsame _ rfl
    · split
      · exact cwdFrom_setTask fun _ => rfl
      · exact hsame _ rfl
  | «open» userPath flags =>
    refine Or.inl (hsame _ ?_)
    simp only [serve, sysOpen]
    split <;> rfl
  | close fd => exact Or.inl (hsame _ rfl)
  | lseek fd offset whence => exact Or.inl (hsame _ rfl)
  | dup2 oldfd newfd => exact Or.inl (hsame _ rfl)
  | getdents userPath userEntries capacity =>
    refine Or.inl (hsame _ ?_)
    simp only [serve, sysGetdents]
    split
    · rfl
    · split
      · rfl
      · split <;> rfl
  | mkdir userPath =>
    refine Or.inl (hsame _ ?_)
    simp only [serve, sysMkdir]
    split <;> rfl
  | unlink userPath =>
    refine Or.inl (hsame _ ?_)
    simp only [serve, sysUnlink]
    split <;> rfl
  | chdir userPath =>
    simp only [serve, sysChdir]
    cases hpath : copyPath mem userPath with
    | none => exact Or.inl (hsame _ rfl)
    | some path =>
      dsimp only
      split
      · exact Or.inl (hsame _ rfl)
      · next s cwd heq => exact Or.inr ⟨userPath, path, cwd, rfl, hpath, by rw [heq], rfl⟩
  | kill pid signal =>
    refine Or.inl ?_
    simp only [serve, sysKill]
    generalize (if signal = 0 then (15 : Int) else toInt signal) = number
    split
    · exact hsame _ rfl
    · rw [taskKill]
      split
      · exact hsame _ rfl
      · split
        · exact hsame _ rfl
        · exact (sameCwds_endTask k _ _).cwdFrom current
  | setCloexec fd enabled => exact Or.inl (hsame _ rfl)
  | create name => exact Or.inl (cwdFrom_taskCreate k current name)
  | attach => exact Or.inl (cwdFrom_setTask fun _ => rfl)

end Cwds

/-! ## The beginning -/

theorem resetTask_foldl_unused {k : System} (l : List (Fin 16)) (i : Fin 16)
    (hi : i ∈ l ∨ (k.tasks i).state = .unused) :
    ((l.foldl resetTask k).tasks i).state = .unused := by
  induction l generalizing k with
  | nil => exact hi.resolve_left List.not_mem_nil
  | cons j rest ih =>
    have hstate : ((resetTask k j).tasks i).state =
        if i = j then .unused else (k.tasks i).state := by
      rw [resetTask, tasks_setTask]
      split
      · rfl
      · split <;> rfl
    refine ih ?_
    rw [hstate]
    by_cases hij : i = j
    · rw [if_pos hij]
      exact Or.inr rfl
    · rw [if_neg hij]
      rcases hi with hmem | hunused
      · exact Or.inl ((List.mem_cons.mp hmem).resolve_left hij)
      · exact Or.inr hunused

/-- After `task_init` there is the idle task, and no other. -/
theorem taskInit_tasks (k : System) :
    ((taskInit k).tasks 0).state = .running ∧ ((taskInit k).tasks 0).pid = 0 ∧
      ((taskInit k).tasks 0).ppid = -1 ∧ ∀ i, i ≠ 0 → ((taskInit k).tasks i).state = .unused := by
  have hunused := fun i => @resetTask_foldl_unused k (List.finRange 16) i
    (Or.inl (List.mem_finRange i))
  rw [taskInit]
  generalize (List.finRange 16).foldl resetTask k = k₁ at hunused
  simp only [System.call, tasks_setTask]
  refine ⟨rfl, rfl, rfl, fun i hi => ?_⟩
  rw [if_neg hi]
  exact hunused i

end MiniOs.Kernel
