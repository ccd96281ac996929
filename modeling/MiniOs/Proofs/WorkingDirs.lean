import MiniOs.Proofs.Agreement
import MiniOs.Proofs.Descriptors
import MiniOs.Proofs.Processes

/-!
# Working directories

A working directory is an inode number kept in the task table. Nothing in the
file system knows about it: `minifs_unlink` refuses a file that is open, but a
directory is never open, so the directory somebody stands in can go, and its
number can be given to the next file.

`Strands` is that one turn. As long as no turn strands a task, every working
directory is a directory in the tree, and so is everything a relative path can
create (`turn_grounded`); a turn that strands a task does leave it outside
(`Strands.astray`).
-/

namespace MiniOs.Kernel

open MiniOs.Lib MiniOs.Fs MiniOs.Spec MiniOs.Tools Function

/-! ## The machine at the start -/

/-- The kernel once `kernel_main` has mounted the disk and set up the task
table, from whatever the memory held before. -/
def started (img : Image) (slot : Disk) (k₀ : System) : System :=
  taskInit { k₀ with fs := img.mount slot k₀.fs }

theorem findProcess_zero (pid : Int) : findProcess FdTables.zero pid = none := by
  rw [findProcess, List.find?_eq_none]
  intro i _
  simp [FdTables.zero]

variable {k : System} {current : Fin 16} {mem : UserMemory} {t : Turn}

/-- The loop of `task_init` leaves a fresh file system alone. -/
theorem resetTask_foldl_fs (hz : k.fs.toFdTables = FdTables.zero) (l : List (Fin 16)) :
    (l.foldl resetTask k).fs = k.fs := by
  induction l generalizing k with
  | nil => rfl
  | cons j rest ih =>
    have hfs : (resetTask k j).fs = k.fs := by
      rw [resetTask]
      split
      · show k.fs.onTables (minifsCloseAll k.fs.toFdTables (k.tasks j).pid) = k.fs
        rw [minifsCloseAll, hz, findProcess_zero, ← hz]
        rfl
      · rfl
    exact (ih (by rw [hfs]; exact hz)).trans hfs

/-- After `task_init` the idle task stands in the root, and there is no other. -/
theorem taskInit_eq (hz : k.fs.toFdTables = FdTables.zero) :
    ∃ tasks : Fin 16 → Task, (∀ i, (tasks i).state = .unused) ∧ taskInit k =
        { tasks := update tasks 0
            { tasks 0 with state := .running, pid := 0, ppid := -1, cwdInode := 0, name := idleName }
          taskCount := 1, nextPid := 1, fs := step k.fs (.processInit 0) } := by
  have hfs := resetTask_foldl_fs hz (List.finRange 16)
  have hunused := @resetTask_foldl_unused k (List.finRange 16)
  generalize hk1 : (List.finRange 16).foldl resetTask k = k1 at hfs hunused
  refine ⟨k1.tasks, fun i => hunused i (Or.inl (List.mem_finRange i)), ?_⟩
  rw [taskInit, hk1, ← hfs]
  rfl

section Started

variable (img : Image) (slot : Disk) (k₀ : System)

theorem started_fs : (started img slot k₀).fs = step (img.mount slot k₀.fs) (.processInit 0) := by
  obtain ⟨tasks, -, heq⟩ := @taskInit_eq { k₀ with fs := img.mount slot k₀.fs }
    (img.mount_tables slot k₀.fs)
  rw [started, heq]

theorem started_live {i : Fin 16} (h : Live ((started img slot k₀).tasks i)) :
    ((started img slot k₀).tasks i).cwdInode = 0 := by
  obtain ⟨tasks, hunused, heq⟩ := @taskInit_eq { k₀ with fs := img.mount slot k₀.fs }
    (img.mount_tables slot k₀.fs)
  rw [started, heq] at h ⊢
  dsimp only at h ⊢
  by_cases hi : i = 0
  · rw [hi, update_self]
  · rw [update_of_ne hi] at h
    exact absurd (hunused i) h.1

end Started

/-! ## Turns -/

/-- The file system is sound, its names are a tree, and every working directory
is a directory in it. -/
structure Grounded (k : System) : Prop where
  sound : k.fs.Sound
  tree : k.fs.volume.Tree
  cwd : ∀ i, Live (k.tasks i) → k.fs.volume.ibit (k.tasks i).cwdInode = true ∧
      (k.fs.volume.node (k.tasks i).cwdInode).IsDir

theorem started_grounded (img : Image) (slot : Disk) (k₀ : System) :
    Grounded (started img slot k₀) := by
  have hstore : (started img slot k₀).fs.toStore = (img.mount slot k₀.fs).toStore := by
    rw [started_fs]
    rfl
  have ht : (started img slot k₀).fs.volume.Tree := by
    rw [hstore]
    exact img.mount_tree slot k₀.fs
  refine ⟨?_, ht, fun i hi => ?_⟩
  · rw [started_fs]
    exact (step_sealed (img.mount_sound slot k₀.fs) _).sound
  · rw [started_live img slot k₀ hi]
    exact ⟨ht.rootUsed, ht.rootDir⟩

/-- A turn that removes the working directory of task `i`: the unlink passes
every check it makes. -/
def Strands (k : System) (t : Turn) (i : Fin 16) : Prop :=
  Live (k.tasks i) ∧ Runnable (k.tasks t.current) ∧
    ∃ call, nameCall k t.current t.mem t.request = some call ∧
      Removes k.fs call (k.tasks i).cwdInode

/-- Calls that change no name keep the tree and all that is in it. -/
theorem runCalls_nameless {s : FsSt} (hs : s.Sound) (ht : s.volume.Tree) {calls : List Call}
    (h : ∀ call ∈ calls, Nameless call) :
    (runCalls s calls).Sound ∧ s.volume.Persists (runCalls s calls).volume fun _ => False := by
  induction calls generalizing s with
  | nil => exact ⟨hs, ht.refl⟩
  | cons call rest ih =>
    have hcall := h call List.mem_cons_self
    have hrooted : call.Rooted s.volume := by
      cases call <;> trivial
    have hgone : ∀ n, ¬ Removes s call n := by
      rintro n ⟨cwd, path, parent, name, rfl, -⟩
      exact hcall
    have hfirst := step_persists hs ht hrooted
    obtain ⟨hsound, hrest⟩ := ih (step_sealed hs call).sound hfirst.tree fun c hc =>
      h c (List.mem_cons_of_mem call hc)
    exact ⟨hsound, (hfirst.trans hrest).mono fun n hn => hn.elim (hgone n) id⟩

theorem Nameless.Reaches.persists {s s' : FsSt} (h : Nameless.Reaches s s') (hs : s.Sound)
    (ht : s.volume.Tree) : s'.Sound ∧ s.volume.Persists s'.volume fun _ => False := by
  obtain ⟨sector, calls, hcalls, rfl⟩ := h
  exact @runCalls_nameless (s.withBuffer sector) hs ht calls hcalls

/-- The call a request makes about names starts in the caller's working directory. -/
theorem nameCall_cases {request : Request} {call : Call}
    (h : nameCall k current mem request = some call) :
    ∃ path, (∃ userPath flags, request = .open userPath flags ∧ call =
        .open (currentPid k current) (currentCwd k current) path (BitVec.ofNat 32 flags)) ∨
      (∃ userPath, request = .mkdir userPath ∧ call = .mkdir (currentCwd k current) path) ∨
      ∃ userPath, request = .unlink userPath ∧ call = .unlink (currentCwd k current) path := by
  cases request with
  | «open» userPath flags =>
    obtain ⟨path, -, rfl⟩ := Option.map_eq_some_iff.mp h
    exact ⟨_, Or.inl ⟨_, _, rfl, rfl⟩⟩
  | mkdir userPath =>
    obtain ⟨path, -, rfl⟩ := Option.map_eq_some_iff.mp h
    exact ⟨_, Or.inr (Or.inl ⟨_, rfl, rfl⟩)⟩
  | unlink userPath =>
    obtain ⟨path, -, rfl⟩ := Option.map_eq_some_iff.mp h
    exact ⟨_, Or.inr (Or.inr ⟨_, rfl, rfl⟩)⟩
  | _ => cases h

theorem nameCall_rooted {request : Request} {call : Call}
    (hcwd : k.fs.volume.ibit (k.tasks current).cwdInode = true)
    (hcall : nameCall k current mem request = some call) : call.Rooted k.fs.volume := by
  obtain ⟨path, ⟨_, _, -, rfl⟩ | ⟨_, -, rfl⟩ | ⟨_, -, rfl⟩⟩ := nameCall_cases hcall
  all_goals exact Or.inr hcwd

/-- Where everybody stands after a request: on what was a directory before. -/
theorem serve_cwd_dir (h : Grounded k) (hrun : Runnable (k.tasks current)) (mem : UserMemory)
    (request : Request) {i : Fin 16} (hi : Live ((serve k current mem request).tasks i)) :
    let n := ((serve k current mem request).tasks i).cwdInode
    k.fs.volume.ibit n = true ∧ (k.fs.volume.node n).IsDir ∧
      (nameCall k current mem request ≠ none → ∃ j, Live (k.tasks j) ∧ (k.tasks j).cwdInode = n) := by
  intro n
  have hcurrent := h.cwd current hrun.live
  rcases serve_cwd hrun mem request with hfrom | ⟨userPath, path, cwd, rfl, -, hchdir, htasks⟩
  · rcases hfrom i hi with ⟨hlive, heq⟩ | heq
    · rw [show n = (k.tasks i).cwdInode from heq]
      exact ⟨(h.cwd i hlive).1, (h.cwd i hlive).2, fun _ => ⟨i, hlive, rfl⟩⟩
    · rw [show n = (k.tasks current).cwdInode from heq]
      exact ⟨hcurrent.1, hcurrent.2, fun _ => ⟨current, hrun.live, rfl⟩⟩
  · have hn : n = if i = current then cwd else (k.tasks i).cwdInode := by
      show ((serve k current mem (.chdir userPath)).tasks i).cwdInode = _
      rw [htasks]
      by_cases hic : i = current
      · rw [if_pos hic, hic, update_self]
      · rw [if_neg hic, update_of_ne hic]
    obtain ⟨b, hb⟩ := minifsChdir_eq k.fs (currentCwd k current) (some path)
    rw [hb] at hchdir
    obtain ⟨hresolve, hdir⟩ := Option.filter_eq_some_iff.mp hchdir
    have hused := h.tree.resolve_used (Or.inr hcurrent.1) hresolve
    by_cases hic : i = current
    · rw [hn, if_pos hic]
      exact ⟨hused, (of_decide_eq_true hdir).2, fun hne => absurd rfl hne⟩
    · have hlive : Live (k.tasks i) := by
        rw [htasks, update_of_ne hic] at hi
        exact hi
      rw [hn, if_neg hic]
      exact ⟨(h.cwd i hlive).1, (h.cwd i hlive).2, fun _ => ⟨i, hlive, rfl⟩⟩

/-- A turn that strands nobody keeps everybody on the ground. -/
theorem turn_grounded (h : Grounded k) (hkeep : ∀ i, ¬ Strands k t i) :
    Grounded (turn k t) := by
  rw [turn]
  split
  · next hrun =>
    have hcurrent := h.cwd t.current hrun.live
    rcases serve_fs k t.current t.mem t.request with ⟨call, hcall, hfs⟩ | ⟨hcall, hreach⟩
    · have hpers := step_persists h.sound h.tree (nameCall_rooted hcurrent.1 hcall)
      rw [← hfs] at hpers
      refine ⟨?_, hpers.tree, fun i hi => ?_⟩
      · rw [hfs]
        exact (step_sealed h.sound call).sound
      obtain ⟨hused, hdir, hwho⟩ := serve_cwd_dir h hrun t.mem t.request hi
      obtain ⟨j, hlive, hj⟩ := hwho (by rw [hcall]; exact Option.some_ne_none _)
      have hstay : ¬ Removes k.fs call
          ((serve k t.current t.mem t.request).tasks i).cwdInode := fun hgone =>
        hkeep j ⟨hlive, hrun, call, hcall, hj ▸ hgone⟩
      refine ⟨hpers.used hused hstay, ?_⟩
      rw [Node.IsDir, hpers.mode hused hstay]
      exact hdir
    · obtain ⟨hsound, hpers⟩ := hreach.persists h.sound h.tree
      refine ⟨hsound, hpers.tree, fun i hi => ?_⟩
      obtain ⟨hused, hdir, -⟩ := serve_cwd_dir h hrun t.mem t.request hi
      refine ⟨hpers.used hused id, ?_⟩
      rw [Node.IsDir, hpers.mode hused id]
      exact hdir
  · exact h

/-- Only an unlink removes anything. -/
theorem nameCall_unlink {request : Request} {call : Call} {n : Nat}
    (hcall : nameCall k current mem request = some call) (hgone : Removes k.fs call n) :
    ∃ userPath, request = .unlink userPath := by
  obtain ⟨cwd, path, parent, name, rfl, -⟩ := hgone
  obtain ⟨path, ⟨_, _, -, hne⟩ | ⟨_, -, hne⟩ | ⟨userPath, hreq, -⟩⟩ := nameCall_cases hcall
  · cases hne
  · cases hne
  · exact ⟨userPath, hreq⟩

theorem not_strands (h : ∀ userPath, t.request ≠ .unlink userPath) (i : Fin 16) :
    ¬ Strands k t i := by
  rintro ⟨-, -, call, hcall, hgone⟩
  obtain ⟨userPath, heq⟩ := nameCall_unlink hcall hgone
  exact h userPath heq

/-- A turn that strands a task takes its directory away, and does nothing to the task. -/
theorem Strands.removes (h : Grounded k) {i : Fin 16} (hstrand : Strands k t i) :
    (turn k t).tasks = k.tasks ∧ ∃ parent j,
      Becomes k.fs (turn k t).fs (k.fs.volume.prune (k.tasks i).cwdInode parent j) True := by
  obtain ⟨-, hrun, call, hcall, hgone⟩ := hstrand
  have hrooted := nameCall_rooted (h.cwd t.current hrun.live).1 hcall
  have htasks : (serve k t.current t.mem t.request).tasks = k.tasks := by
    obtain ⟨userPath, hreq⟩ := nameCall_unlink hcall hgone
    rw [hreq]
    simp only [serve, sysUnlink]
    split <;> rfl
  obtain ⟨cwd, path, parent, name, rfl, hu⟩ := hgone
  have hfs : (serve k t.current t.mem t.request).fs = (minifsUnlink k.fs cwd path).1 := by
    rcases serve_fs k t.current t.mem t.request with ⟨call, hcall', hfs⟩ | ⟨hcall', -⟩
    · rw [hcall] at hcall'
      cases hcall'
      exact hfs
    · rw [hcall] at hcall'
      cases hcall'
  rw [turn, if_pos hrun, htasks, hfs]
  rcases minifsUnlink_tree h.sound h.tree hrooted with
    ⟨-, hno⟩ | ⟨s', parent', name', n, j, e, hu', heq, -, hb⟩
  · exact absurd hu (hno parent name _)
  · obtain rfl := hu.unique hu'
    rw [heq]
    exact ⟨rfl, parent', j, hb⟩

/-- The task is then in an inode that is free. -/
theorem Strands.astray (h : Grounded k) {i : Fin 16} (hstrand : Strands k t i) :
    Live ((turn k t).tasks i) ∧
      (turn k t).fs.volume.ibit ((turn k t).tasks i).cwdInode = false := by
  obtain ⟨htasks, parent, j, hb⟩ := hstrand.removes h
  rw [htasks, hb.volume]
  exact ⟨hstrand.1, update_self ..⟩

/-- Working directories stay valid as long as nobody unlinks one: in every run of
turns none of which strands a task, every live task stands in an allocated
directory the root reaches, and every inode in use is reachable. -/
theorem runTurns_grounded (img : Image) (slot : Disk) (k₀ : System) (turns : List Turn)
    (hkeep : Meets turn (fun k t => ∀ i, ¬ Strands k t i) (started img slot k₀) turns) :
    let k := runTurns (started img slot k₀) turns
    (∀ i, Live (k.tasks i) → k.fs.volume.ibit (k.tasks i).cwdInode = true ∧
        (k.fs.volume.node (k.tasks i).cwdInode).IsDir ∧
        k.fs.volume.Reachable (k.tasks i).cwdInode) ∧
    ∀ n, k.fs.volume.ibit n = true → k.fs.volume.Reachable n := by
  have h : Grounded (runTurns (started img slot k₀) turns) :=
    @run_meets _ _ turn _ Grounded (fun k t h hkeep => turn_grounded h hkeep) _ turns
      (started_grounded img slot k₀) hkeep
  intro k
  refine ⟨fun i hi => ?_, h.tree.reach⟩
  obtain ⟨hused, hdir⟩ := h.cwd i hi
  exact ⟨hused, hdir, h.tree.reach _ hused⟩

/-! ## Without `chdir` -/

/-- Everybody stands in the root. -/
def AtRoot (k : System) : Prop := ∀ i, Live (k.tasks i) → (k.tasks i).cwdInode = 0

theorem turn_atRoot (h : AtRoot k) (hstay : ∀ userPath, t.request ≠ .chdir userPath) :
    AtRoot (turn k t) := by
  intro i hi
  rw [turn] at hi ⊢
  split at hi
  · next hrun =>
    rw [if_pos hrun]
    rcases serve_cwd hrun t.mem t.request with hfrom | ⟨userPath, -, -, hchdir, -⟩
    · rcases hfrom i hi with ⟨hlive, heq⟩ | heq
      · exact heq.trans (h i hlive)
      · exact heq.trans (h t.current hrun.live)
    · exact absurd hchdir (hstay userPath)
  · next hrun =>
    rw [if_neg hrun]
    exact h i hi

/-- The root cannot be unlinked. -/
theorem AtRoot.not_strands (h : AtRoot k) (t : Turn) (i : Fin 16) :
    ¬ Strands k t i := by
  rintro ⟨hlive, -, call, -, cwd, path, parent, name, -, hu⟩
  have hpos := hu.pos
  rw [h i hlive] at hpos
  omega

theorem AtRoot.meets (h : AtRoot k) {turns : List Turn}
    (hstay : ∀ t ∈ turns, ∀ userPath, t.request ≠ .chdir userPath) :
    Meets turn (fun k t => ∀ i, ¬ Strands k t i) k turns := by
  induction turns generalizing k with
  | nil => trivial
  | cons t rest ih =>
    exact ⟨fun i => h.not_strands t i, ih (turn_atRoot h (hstay t List.mem_cons_self))
      fun t' ht' => hstay t' (List.mem_cons_of_mem t ht')⟩

/-! ## Runs of one process -/

/-- A machine before the kernel runs. -/
def powerOn : System where
  tasks _ := ⟨.unused, 0, 0, 0, 0, 0, false, []⟩
  taskCount := 0
  nextPid := 0
  fs := boot

/-- A user page with the paths `/d`, `x`, `.` and `/a` at the addresses 1, 4, 6 and 8. -/
def pathPage : UserMemory where
  read address := [0, slash, 100, 0, 120, 0, dot, 0, slash, 97, 0][address]?
  writable _ := true

theorem copyPath_pathPage : copyPath pathPage 1 = some ⟨[slash, 100], by decide⟩ := rfl

/-- The shell is created, and then makes a request at a time. -/
def shellTurns (requests : List Request) : List Turn :=
  ⟨0, pathPage, .create shellName⟩ :: requests.map fun request => ⟨1, pathPage, request⟩

theorem taskCreate_ok {slot : Fin 16} (current : Fin 16) (name : List UInt8)
    (hcount : k.taskCount < 16) (hslot : freeSlot k = some slot)
    (hinit : (minifsProcessInit k.fs.toFdTables k.nextPid).2 = true) :
    ((taskCreate k current name).1.tasks slot).state = .ready ∧
      ((taskCreate k current name).1.tasks slot).pid = k.nextPid ∧
      ((taskCreate k current name).1.tasks slot).cwdInode = (k.tasks current).cwdInode ∧
      (taskCreate k current name).1.fs = step k.fs (.processInit k.nextPid) := by
  rw [taskCreate, if_neg (by omega), hslot]
  dsimp only
  split
  · next t heq =>
    refine ⟨?_, ?_, ?_, ?_⟩
    · simp only [tasks_setTask, if_pos]
    · simp only [tasks_setTask, if_pos]
    · simp only [tasks_setTask, if_pos]
    · rw [← show _ = t from congrArg Prod.fst heq]
      rfl
  · next t heq =>
    rw [show (minifsProcessInit k.fs.toFdTables k.nextPid).2 = false from
      congrArg Prod.snd heq] at hinit
    cases hinit

/-- The descriptor tables of the idle task and the shell. -/
def shellTables : FdTables := (minifsProcessInit (minifsProcessInit FdTables.zero 0).1 1).1

theorem keeps_shellTables : Keeps FdTables.zero shellTables :=
  (keeps_minifsProcessInit FdTables.zero 0).trans (keeps_minifsProcessInit _ 1)

/-- The state once the shell is there: it is runnable, it stands in the root,
and nothing is open but consoles. -/
theorem shell_created (img : Image) (slot : Disk) :
    let k := turn (started img slot powerOn) ⟨0, pathPage, .create shellName⟩
    (k.tasks 1).state = .ready ∧ (k.tasks 1).pid = 1 ∧ (k.tasks 1).cwdInode = 0 ∧
      k.fs.toStore = (img.mount slot boot).toStore ∧ k.fs.toFdTables = shellTables := by
  obtain ⟨tasks, hunused, heq⟩ := @taskInit_eq { powerOn with fs := img.mount slot boot }
    (img.mount_tables slot boot)
  obtain ⟨k, hk⟩ : ∃ k, k = started img slot powerOn := ⟨_, rfl⟩
  have hk' := hk.trans heq
  have hfs : k.fs = step (img.mount slot boot) (.processInit 0) := by rw [hk']
  have hidle : (k.tasks 0).state = .running ∧ (k.tasks 0).cwdInode = 0 := by
    rw [hk']
    dsimp only
    rw [update_self]
    exact ⟨rfl, rfl⟩
  have hslot : freeSlot k = some 1 := by
    have hone : (k.tasks 1).state = .unused := by
      rw [hk']
      dsimp only
      rw [update_of_ne (by decide)]
      exact hunused 1
    rw [freeSlot, show List.finRange 16 = 0 :: 1 :: (List.finRange 16).drop 2 by decide,
      List.find?_cons_of_neg (by simp), List.find?_cons_of_pos (by simp [hone])]
  have hstore : ∀ (s : FsSt) pid, (step s (.processInit pid)).toStore = s.toStore :=
    fun _ _ => rfl
  have htables : k.fs.toFdTables = (minifsProcessInit FdTables.zero 0).1 := by
    rw [hfs, ← img.mount_tables slot boot]
    rfl
  have hpid : k.nextPid = 1 := by rw [hk']
  have hcount : k.taskCount = 1 := by rw [hk']
  have hinit : (minifsProcessInit k.fs.toFdTables k.nextPid).2 = true := by
    rw [htables, hpid]
    decide
  obtain ⟨hready, hpid', hcwd, hfs'⟩ := taskCreate_ok 0 shellName (by omega) hslot hinit
  have hturn : turn k ⟨0, pathPage, .create shellName⟩ = (taskCreate k 0 shellName).1 :=
    if_pos (Or.inr hidle.1)
  rw [← hk, hturn]
  refine ⟨hready, hpid'.trans hpid, hcwd.trans hidle.2, ?_, ?_⟩
  · rw [hfs', hstore, hfs, hstore]
  · rw [hfs', hpid, shellTables, ← htables]
    rfl

/-- A staging directory with an empty directory `d`. -/
def stagedDir : StagedTree where
  root := .cons ⟨[100], true⟩ (.dir .nil) .nil
  legal := ⟨by unfold HostName.Legal; decide, List.not_mem_nil, trivial, trivial⟩

theorem stagedDir_fits : stagedDir.Fits where
  storable := ⟨⟨rfl, by decide⟩, trivial, trivial⟩
  inodes := by decide
  blocks := by decide

/-- In its image `d` is inode 1, and nothing is in it. -/
theorem stagedDir_image : ∃ img : Image, img.tree = stagedDir ∧ ∀ slot s₀,
    (img.mount slot s₀).volume.lookup 0 [100] = some 1 ∧
      ((img.mount slot s₀).volume.node 1).IsDir ∧ (img.mount slot s₀).volume.count 1 = 0 := by
  obtain ⟨img, htree, -, hinodes, -⟩ := importTree_fits stagedDir_fits
  refine ⟨img, htree, fun slot s₀ => ?_⟩
  have ht := img.mount_tree slot s₀
  rw [img.mount_volume] at ht ⊢
  have hroot := img.holds
  rw [htree] at hroot
  obtain ⟨n, hlookup, -, hused, hmode, hsize, -⟩ :=
    @HoldsNode.names _ 0 stagedDir.root.sort [100] (.dir .nil) ht hroot (by decide) rfl
  obtain ⟨i, e, hnames, heq, -, -⟩ := Volume.lookup_names ht.rootUsed hlookup
  have hpos : 1 ≤ n := heq ▸ ht.pos hnames
  have hlt : n < 1 + 1 := of_decide_eq_true ((hinodes n).symm.trans hused)
  obtain rfl : n = 1 := by omega
  refine ⟨hlookup, ?_, ?_⟩
  · rw [Node.IsDir, hmode]
    decide
  · rw [Volume.count, hsize]
    rfl

section StagedDir

variable {img : Image} {slot : Disk} {s₀ s : FsSt}
  (hlookup : (img.mount slot s₀).volume.lookup 0 [100] = some 1)
  (hcount : (img.mount slot s₀).volume.count 1 = 0)
  (hstore : s.toStore = (img.mount slot s₀).toStore)
include hlookup hstore

theorem stagedDir_resolve (cwd : Nat) : s.volume.resolve cwd [slash, 100] = some 1 := by
  rw [← hstore] at hlookup
  show s.volume.walk 0 [[100]] = some 1
  rw [Volume.walk, if_neg (by decide), if_neg (by decide), if_neg (by decide), hlookup]
  rfl

include hcount

/-- While nothing is open, it can be unlinked from anywhere. -/
theorem stagedDir_removes (hkeeps : Keeps FdTables.zero s.toFdTables) (cwd : Nat) :
    Removes s (.unlink cwd (some ⟨[slash, 100], by decide⟩)) 1 := by
  have hvacant : (img.mount slot s₀).volume.vacant 1 = true := by
    rw [Volume.vacant, hcount]
    rfl
  rw [← hstore] at hlookup hvacant
  refine ⟨cwd, _, 0, [100], rfl, ?_⟩
  exact ⟨rfl, hlookup, by decide, by decide, not_inodeIsOpen hkeeps 1, fun _ => hvacant⟩

end StagedDir

/-- The shell removes `/d` from the root, makes it again and changes to it. -/
theorem runTurns_grounded_mkdir :
    ∃ (img : Image) (turns : List Turn) (k₀ k : System), img.tree = stagedDir ∧
      turns = shellTurns [.unlink 1, .mkdir 1, .chdir 1] ∧
      k₀ = started img bareSlot powerOn ∧ k = runTurns k₀ turns ∧
      Removes (turn k₀ ⟨0, pathPage, .create shellName⟩).fs
        (.unlink 0 (some ⟨[slash, 100], by decide⟩)) 1 ∧
      Meets turn (fun k t => ∀ i, ¬ Strands k t i) k₀ turns ∧
      (∀ i, Live (k.tasks i) → k.fs.volume.ibit (k.tasks i).cwdInode = true ∧
        (k.fs.volume.node (k.tasks i).cwdInode).IsDir ∧
        k.fs.volume.Reachable (k.tasks i).cwdInode) ∧
      ∀ n, k.fs.volume.ibit n = true → k.fs.volume.Reachable n := by
  obtain ⟨img, htree, himage⟩ := stagedDir_image
  obtain ⟨hlookup, -, hcount⟩ := himage bareSlot boot
  obtain ⟨-, -, -, hstore, htables⟩ := shell_created img bareSlot
  have hroot : AtRoot (started img bareSlot powerOn) :=
    fun i hi => started_live img _ powerOn hi
  have hkeep : Meets turn (fun k t => ∀ i, ¬ Strands k t i)
      (started img bareSlot powerOn)
      (shellTurns [.unlink 1, .mkdir 1] ++ [⟨1, pathPage, .chdir 1⟩]) := by
    refine meets_append.mpr ⟨hroot.meets ?_, not_strands (by simp), trivial⟩
    simp [shellTurns]
  exact ⟨img, _, _, _, htree, rfl, rfl, rfl,
    stagedDir_removes hlookup hcount hstore (htables ▸ keeps_shellTables) 0, hkeep,
    runTurns_grounded img bareSlot powerOn _ hkeep⟩

theorem turn_chdir {userPath n : Nat} {path : CStr} (hrun : Runnable (k.tasks current))
    (hcopy : copyPath mem userPath = some path)
    (hresolve : k.fs.volume.resolve (k.tasks current).cwdInode path.bytes = some n) (hlt : n < 256)
    (hdir : (k.fs.volume.node n).IsDir) :
    ∃ b, turn k ⟨current, mem, .chdir userPath⟩ =
      taskSetCurrentCwd { k with fs := k.fs.withBuffer b } current n := by
  obtain ⟨b, hb⟩ := minifsChdir_eq k.fs (currentCwd k current) (some path)
  have hfilter : (k.fs.volume.resolve (currentCwd k current) (pathBytes (some path))).filter
      (fun n => n < 256 ∧ (k.fs.volume.node n).IsDir) = some n :=
    Option.filter_eq_some_iff.mpr ⟨hresolve, decide_eq_true ⟨hlt, hdir⟩⟩
  refine ⟨b, ?_⟩
  rw [turn, if_pos hrun]
  simp only [serve, sysChdir, hcopy]
  rw [hb, hfilter]

theorem shell_stranded {img : Image} {slot : Disk}
    (hlookup : (img.mount slot boot).volume.lookup 0 [100] = some 1)
    (hdir : ((img.mount slot boot).volume.node 1).IsDir)
    (hcount : (img.mount slot boot).volume.count 1 = 0)
    (hk : k = runTurns (started img slot powerOn) (shellTurns [.chdir 1, .unlink 1])) :
    (k.tasks 1).state = .ready ∧ (k.tasks 1).pid = 1 ∧ (k.tasks 1).cwdInode = 1 ∧
      k.fs.Sound ∧ k.fs.toFdTables = shellTables ∧
      ∃ parent j, k.fs.volume = (img.mount slot boot).volume.prune 1 parent j := by
  obtain ⟨hready, hpid, -, hstore, htables⟩ := shell_created img slot
  obtain ⟨k₁, hk₁⟩ : ∃ k₁, k₁ = turn (started img slot powerOn)
    ⟨0, pathPage, .create shellName⟩ := ⟨_, rfl⟩
  rw [← hk₁] at hready hpid hstore htables
  obtain ⟨b, hchdir⟩ := turn_chdir (Or.inl hready) copyPath_pathPage
    (stagedDir_resolve hlookup hstore _) (by decide) (by rw [hstore]; exact hdir)
  obtain ⟨k₂, hk₂⟩ : ∃ k₂, k₂ = turn k₁ ⟨1, pathPage, .chdir 1⟩ := ⟨_, rfl⟩
  have hg : Grounded k₂ := by
    rw [hk₂, hk₁]
    exact turn_grounded (turn_grounded (started_grounded img _ powerOn)
      (not_strands (by simp))) (not_strands (by simp))
  rw [← hk₂] at hchdir
  have htask : k₂.tasks 1 = { k₁.tasks 1 with cwdInode := 1 } := by
    rw [hchdir, taskSetCurrentCwd, tasks_setTask, if_pos rfl]
  have hfs : k₂.fs = k₁.fs.withBuffer b := by
    rw [hchdir]
    rfl
  have hrun : Runnable (k₂.tasks 1) := by
    rw [htask]
    exact Or.inl hready
  have hstrand : Strands k₂ ⟨1, pathPage, .unlink 1⟩ 1 := by
    refine ⟨hrun.live, hrun, .unlink (currentCwd k₂ 1) (some ⟨[slash, 100], by decide⟩), ?_, ?_⟩
    · rw [nameCall, copyPath_pathPage]
      rfl
    · rw [htask]
      refine stagedDir_removes hlookup hcount ?_ ?_ _
      · rw [hfs]
        exact hstore
      · rw [hfs]
        exact htables ▸ keeps_shellTables
  obtain ⟨htasks, parent, j, hb⟩ := hstrand.removes hg
  obtain rfl : k = turn k₂ ⟨1, pathPage, .unlink 1⟩ := by
    simp only [hk, hk₂, hk₁, runTurns, shellTurns, List.map_cons, List.map_nil, run_cons, run_nil]
  have hvol := hb.volume
  rw [htask, hfs, show (k₁.fs.withBuffer b).volume = _ from congrArg Store.volume hstore] at hvol
  rw [htasks, htask, hb.tables, hfs]
  exact ⟨hready, hpid, rfl, hb.sound, htables, parent, j, hvol⟩

/-- It stands in an inode that is free then. -/
theorem runTurns_astray :
    ∃ img : Image, img.tree = stagedDir ∧ ∃ turns, turns = shellTurns [.chdir 1, .unlink 1] ∧
        ∃ k, k = runTurns (started img bareSlot powerOn) turns ∧
          ∃ i, Live (k.tasks i) ∧ k.fs.volume.ibit (k.tasks i).cwdInode = false := by
  obtain ⟨img, htree, himage⟩ := stagedDir_image
  obtain ⟨hlookup, hdir, hcount⟩ := himage bareSlot boot
  obtain ⟨hready, -, hcwd, -, -, parent, j, hvol⟩ := shell_stranded hlookup hdir hcount rfl
  refine ⟨img, htree, _, rfl, _, rfl, 1, Runnable.live (Or.inl hready), ?_⟩
  rw [hvol, hcwd]
  rfl

end MiniOs.Kernel
