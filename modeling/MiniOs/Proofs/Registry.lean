import MiniOs.Lib.Walk
import MiniOs.Proofs.Deeds

/-!
# Every process has its entry

The kernel keeps two tables of processes: `tasks`, and `process_fds` in the file
system, which knows processes by pid only. A task that has not ended has one entry
there, and a task that ended has none. The pid is what ties the two together, so
this rests on the tree of processes, where pids are fresh when they are handed
out.

The other half of the file is about `task_dump_tree`. It follows parents the
other way, from a pid to whoever names it, and looks every pid up again; that it
comes to an end, and to everybody once, is the shape of the tree.
-/

namespace MiniOs.Spec.Sched

open MiniOs.Kernel Function

/-- The entries of a table are those of the tasks that have not ended. -/
structure Registered (holder : Fin 16 → Option Int) (s : Sched) : Prop where
  distinct : ∀ {p q pid}, holder p = some pid → holder q = some pid → p = q
  entry : ∀ i, (s.slots i).Live → ∃ p, holder p = some (s.slots i).pid
  task : ∀ {p pid}, holder p = some pid → ∃ i, (s.slots i).Live ∧ (s.slots i).pid = pid

namespace Registered

variable {holder : Fin 16 → Option Int} {s s' : Sched} {i : Fin 16} (h : Registered holder s)
include h

/-- Only who lives under which pid matters. -/
theorem of_live (hlive : ∀ j, (s'.slots j).Live ↔ (s.slots j).Live)
    (hpid : ∀ j, (s.slots j).Live → (s'.slots j).pid = (s.slots j).pid) :
    Registered holder s' where
  distinct := h.distinct
  entry j hj := by
    rw [hlive] at hj
    rw [hpid j hj]
    exact h.entry j hj
  task hp := by
    obtain ⟨j, hj, hjpid⟩ := h.task hp
    exact ⟨j, (hlive j).mpr hj, by rw [hpid j hj, hjpid]⟩

theorem of_alike (ha : Alike s s') : Registered holder s' :=
  h.of_live ha.live fun j _ => ha.pid j

theorem reap (hzombie : (s.slots i).state = .zombie) :
    Registered holder (s.reap i) := by
  refine h.of_live (fun j => ?_) fun j hj => ?_ <;> rw [slots_reap] <;> split
  · next hj => simp [Slot.Live, hj, hzombie]
  · rfl
  · next hji => exact absurd (hji ▸ hzombie) hj.2
  · rfl

/-- A pid that was not handed out has no entry. -/
theorem fresh (hwf : s.Wf) (p : Fin 16) : holder p ≠ some s.nextPid := by
  intro hp
  obtain ⟨j, hlive, hpid⟩ := h.task hp
  have hlt := (hwf.fresh j hlive.used).2
  omega

/-- Somebody takes a free slot, and an entry with it. -/
theorem enter {p : Fin 16} {pid : Int}
    (hother : ∀ j, j ≠ i → (s'.slots j).state = (s.slots j).state ∧
      (s'.slots j).pid = (s.slots j).pid)
    (hfree : (s.slots i).state = .unused) (hlive : (s'.slots i).Live)
    (hpid : (s'.slots i).pid = pid) (hnew : ∀ q, holder q ≠ some pid) (hp : holder p = none) :
    Registered (update holder p (some pid)) s' := by
  have hne : ∀ j, (s.slots j).Live → j ≠ i := by
    rintro j hj rfl
    exact hj.1 hfree
  have hsame : ∀ j, j ≠ i → ((s'.slots j).Live ↔ (s.slots j).Live) := by
    intro j hj
    rw [Slot.Live, Slot.Live, (hother j hj).1]
  -- an entry is the new one or an old one with another pid
  have hcases : ∀ q pid', update holder p (some pid) q = some pid' →
      (q = p ∧ pid' = pid) ∨ (q ≠ p ∧ pid' ≠ pid ∧ holder q = some pid') := by
    intro q pid' hq
    by_cases hqp : q = p
    · subst hqp
      rw [update_self] at hq
      exact Or.inl ⟨rfl, (Option.some.inj hq).symm⟩
    · rw [update_of_ne hqp] at hq
      exact Or.inr ⟨hqp, fun heq => hnew q (heq ▸ hq), hq⟩
  refine ⟨?_, ?_, ?_⟩
  · intro q r pid' hq hr
    rcases hcases q pid' hq with ⟨rfl, rfl⟩ | ⟨-, hne', hq⟩ <;>
      rcases hcases r _ hr with ⟨rfl, heq⟩ | ⟨-, hne'', hr⟩
    · rfl
    · exact absurd rfl hne''
    · exact absurd heq hne'
    · exact h.distinct hq hr
  · intro j hj
    by_cases hji : j = i
    · subst hji
      exact ⟨p, by rw [update_self, hpid]⟩
    · obtain ⟨q, hq⟩ := h.entry j ((hsame j hji).mp hj)
      have hqp : q ≠ p := by
        rintro rfl
        rw [hp] at hq
        cases hq
      exact ⟨q, by rw [update_of_ne hqp, (hother j hji).2, hq]⟩
  · intro q pid' hq
    rcases hcases q pid' hq with ⟨rfl, rfl⟩ | ⟨-, -, hq⟩
    · exact ⟨i, hlive, hpid⟩
    · obtain ⟨j, hj, hpid'⟩ := h.task hq
      have hji := hne j hj
      exact ⟨j, (hsame j hji).mpr hj, by rw [(hother j hji).2, hpid']⟩

/-- Somebody ends, and gives the entry up. -/
theorem leave (hwf : s.Wf) {p : Fin 16}
    (hlive : (s.slots i).Live) (hp : holder p = some (s.slots i).pid)
    (hother : ∀ j, j ≠ i → ((s'.slots j).Live ↔ (s.slots j).Live))
    (hpid : ∀ j, (s'.slots j).pid = (s.slots j).pid) (hgone : ¬ (s'.slots i).Live) :
    Registered (update holder p none) s' := by
  have hcases : ∀ q pid, update holder p none q = some pid →
      q ≠ p ∧ holder q = some pid := by
    intro q pid hq
    by_cases hqp : q = p
    · rw [hqp, update_self] at hq
      cases hq
    · rw [update_of_ne hqp] at hq
      exact ⟨hqp, hq⟩
  have hne : ∀ j, (s'.slots j).Live → j ≠ i := by
    rintro j hj rfl
    exact hgone hj
  refine ⟨fun hq hr => h.distinct (hcases _ _ hq).2 (hcases _ _ hr).2, ?_, ?_⟩
  · intro j hj
    have hji := hne j hj
    have hj' := (hother j hji).mp hj
    obtain ⟨q, hq⟩ := h.entry j hj'
    have hqp : q ≠ p := by
      rintro rfl
      rw [hq, Option.some.injEq] at hp
      exact hji (hwf.inj j i hj'.used hlive.used hp)
    exact ⟨q, by rw [update_of_ne hqp, hpid, hq]⟩
  · intro q pid hq
    obtain ⟨hqp, hq⟩ := hcases q pid hq
    obtain ⟨j, hj, hjpid⟩ := h.task hq
    have hji : j ≠ i := by
      rintro rfl
      rw [← hjpid] at hq
      exact hqp (h.distinct hq hp)
    exact ⟨j, (hother j hji).mpr hj, by rw [hpid, hjpid]⟩

end Registered

end MiniOs.Spec.Sched

namespace MiniOs.Kernel

open MiniOs.Lib MiniOs.Fs MiniOs.Spec Function

/-! ## The system functions -/

/-- A slot was taken: where the descriptors could be set up it has a task, and
where not it is unused as before. -/
def Spawned (k k' : System) : Prop :=
  ∃ slot task, freeSlot k = some slot ∧ k'.tasks = update k.tasks slot task ∧
    (task.state = .unused ∧ k'.fs.holder = k.fs.holder ∨
      task.state = .ready ∧ task.pid = k.nextPid ∧ ((∃ p, k.fs.holder p = some k.nextPid) ∨
          ∃ p, Enters k.fs.toFdTables k'.fs.toFdTables k.nextPid p))

theorem taskCreate_spawned (k : System) (current : Fin 16) (name : List UInt8) :
    (taskCreate k current name).1 = k ∨ Spawned k (taskCreate k current name).1 := by
  have hinit := minifsProcessInit_cases k.fs.toFdTables k.nextPid
  rw [taskCreate]
  split
  · exact Or.inl rfl
  split
  · exact Or.inl rfl
  next slot hslot =>
    refine Or.inr ?_
    dsimp only
    split
    · next t heq =>
      change minifsProcessInit k.fs.toFdTables k.nextPid = _ at heq
      rw [heq] at hinit
      refine ⟨slot, _, hslot, rfl, Or.inr ⟨rfl, rfl, ?_⟩⟩
      rcases hinit with ⟨-, -, hp⟩ | ⟨h, -⟩ | ⟨-, hp⟩
      · exact Or.inl hp
      · cases h
      · exact Or.inr hp
    · next t heq =>
      change minifsProcessInit k.fs.toFdTables k.nextPid = _ at heq
      rw [heq] at hinit
      refine ⟨slot, _, hslot, update_idem .., Or.inl ⟨rfl, ?_⟩⟩
      rcases hinit with ⟨h, -⟩ | ⟨-, howner, -⟩ | ⟨h, -⟩
      · cases h
      · exact howner
      · cases h

theorem taskFork_spawned (k : System) (current : Fin 16)
    (hused : (k.tasks current).state ≠ .unused) :
    (taskFork k current).1 = k ∨ Spawned k (taskFork k current).1 := by
  rw [taskFork]
  split
  · exact Or.inl rfl
  split
  · exact Or.inl rfl
  next slot hslot =>
    refine Or.inr ?_
    have hfork := minifsProcessFork_cases k.fs.toFdTables (k.tasks current).pid k.nextPid
    have hne : current ≠ slot := by
      rintro rfl
      exact hused (Machine.freeSlot_unused hslot).2
    dsimp only
    rw [show (System.setTask k slot _).fs = k.fs from rfl, tasks_setTask, if_neg hne]
    split
    · next t heq =>
      rw [heq] at hfork
      refine ⟨slot, _, hslot, rfl, Or.inr ⟨rfl, rfl, ?_⟩⟩
      rcases hfork with ⟨h, -⟩ | ⟨-, ⟨hp, -⟩ | hp⟩
      · cases h
      · exact Or.inl hp
      · exact Or.inr hp
    · next t heq =>
      rw [heq] at hfork
      refine ⟨slot, _, hslot, update_idem .., Or.inl ⟨rfl, ?_⟩⟩
      rcases hfork with ⟨-, howner⟩ | ⟨h, -⟩
      · exact howner
      · cases h

namespace Machine

variable {m m' : Machine}

/-- The two tables of a machine agree. -/
def Agrees (m : Machine) : Prop := Sched.Registered m.fs.holder m.sched

theorem alike_of_system (h : m'.toSystem = m.toSystem) : Sched.Alike m.sched m'.sched := by
  have htask : ∀ i, m'.tasks i = m.tasks i := fun i => by rw [h]
  refine ⟨congrArg System.nextPid h, congrArg System.taskCount h, ?_, ?_, ?_, ?_⟩ <;> intro i <;>
    simp only [sched, slotOf, htask]

theorem Agrees.of_alike (h : m.Agrees) (hholder : m'.fs.holder = m.fs.holder)
    (ha : Sched.Alike m.sched m'.sched) : m'.Agrees := by
  rw [Agrees, hholder]
  exact Sched.Registered.of_alike h ha

theorem Agrees.of_system (h : m.Agrees) (hsystem : m'.toSystem = m.toSystem) : m'.Agrees :=
  h.of_alike (by rw [hsystem]) (alike_of_system hsystem)

theorem Agrees.spawned (h : m.Agrees) (hwf : m.sched.Wf)
    (hspawned : Spawned m.toSystem m'.toSystem) : m'.Agrees := by
  obtain ⟨slot, task, hslot, htasks, hcases⟩ := hspawned
  have hfree : (m.sched.slots slot).state = .unused := (freeSlot_unused hslot).2
  have hother : ∀ j, j ≠ slot → m'.tasks j = m.tasks j := by
    intro j hj
    rw [htasks, update_of_ne hj]
  have hnew : m'.tasks slot = task := by rw [htasks, update_self]
  have hslots : ∀ j, j ≠ slot → (m'.sched.slots j).state = (m.sched.slots j).state ∧
      (m'.sched.slots j).pid = (m.sched.slots j).pid := by
    intro j hj
    simp only [sched, slotOf, hother j hj, and_self]
  rcases hcases with ⟨hstate, hholder⟩ | ⟨hstate, hpid, hp | ⟨p, hp⟩⟩
  · -- nobody came to life
    rw [Agrees, hholder]
    refine Sched.Registered.of_live h (fun j => ?_) fun j hj => (hslots j ?_).2
    · rcases eq_or_ne j slot with rfl | hj
      · have hstate' : (m'.sched.slots j).state = .unused := by rw [← hstate, ← hnew]; rfl
        simp [Slot.Live, hfree, hstate']
      · rw [Slot.Live, Slot.Live, (hslots j hj).1]
    · rintro rfl
      exact hj.1 hfree
  · obtain ⟨p, hp⟩ := hp
    exact absurd hp (h.fresh hwf p)
  · rw [Agrees, show m'.fs.holder = _ from hp.holder]
    refine Sched.Registered.enter h hslots hfree ?_ ?_ hp.new hp.free
    · simp [Slot.Live, sched, slotOf, hnew, hstate]
    · simp only [sched, slotOf, hnew, hpid]

theorem endTask_fs (m : Machine) (i : Fin 16) (code : Int) :
    (m.endTask i code).fs = Fs.step m.fs (.closeAll (m.tasks i).pid) := by
  have hwake : ∀ m : Machine, (m.wakeParent i).fs = m.fs := by
    intro m
    rw [wakeParent]
    split
    · rfl
    · split <;> rfl
  simp only [endTask, adoptChildren, hwake]
  simp [System.call, setTask]

theorem Agrees.endTask (h : m.Agrees) (hwf : m.sched.Wf) {i : Fin 16}
    (hlive : (m.sched.slots i).Live) (code : Int) : (m.endTask i code).Agrees := by
  have hended := Sched.finish_ended hlive.used code
  rw [← sched_endTask] at hended
  have hfs : (m.endTask i code).fs.holder =
      (minifsCloseAll m.fs.toFdTables (m.tasks i).pid).holder := by
    rw [endTask_fs]
    rfl
  rw [Agrees, hfs]
  rcases minifsCloseAll_cases m.fs.toFdTables (m.tasks i).pid with ⟨hnone, -⟩ | ⟨p, hp, hholder⟩
  · obtain ⟨p, hp⟩ := h.entry i hlive
    exact absurd hp (hnone p)
  · rw [hholder]
    refine Sched.Registered.leave h hwf hlive hp (fun j hj => hended.live hj) hended.pid ?_
    exact fun hgone => hgone.2 hended.zombie

theorem Agrees.zombie (h : m.Agrees) (hwf : m.sched.Wf) {i : Fin 16}
    (hzombie : m.state i = .zombie) (p : Fin 16) : m.fs.holder p ≠ some (m.tasks i).pid := by
  intro hp
  obtain ⟨j, hj, hpid⟩ := h.task hp
  have hused : (m.sched.slots i).Used := by
    show m.state i ≠ .unused
    rw [hzombie]
    decide
  obtain rfl := hwf.inj j i hj.used hused hpid
  exact hj.2 hzombie

theorem taskWaitpid_fs (m : Machine) (pid : Int) (nohang : Bool) :
    (m.taskWaitpid pid nohang).1.fs =
      match m.zombieChild pid with
      | some child => Fs.step m.fs (.closeAll (m.tasks child).pid)
      | none => m.fs := by
  simp only [taskWaitpid, Kernel.taskWaitpid]
  rw [show (List.finRange 16).find? (fun i => waitsFor m.toSystem m.current pid i &&
    ((m.tasks i).state == .zombie)) = m.zombieChild pid from rfl]
  cases m.zombieChild pid with
  | some child => rfl
  | none =>
    dsimp only
    split
    · split <;> rfl
    · rfl

theorem Agrees.taskWaitpid (h : m.Agrees) (hwf : m.sched.Wf) (hrun : m.sched.Running) (pid : Int)
    (nohang : Bool) : (m.taskWaitpid pid nohang).1.Agrees := by
  have hfs := taskWaitpid_fs m pid nohang
  rcases taskWaitpid_cases m pid nohang with ⟨child, m', hchild, heq, hsched, -⟩ |
    ⟨m', hnone, hchild, -, heq, hsched, -⟩ | ⟨hnone, -, result, -, heq⟩
  · rw [heq, hchild] at hfs
    have hzombie := (zombieChild_eq_some hchild).2.1
    have hsame : m'.fs.holder = m.fs.holder := by
      rw [show m'.fs = _ from hfs]
      show (minifsCloseAll m.fs.toFdTables (m.tasks child).pid).holder = _
      rcases minifsCloseAll_cases m.fs.toFdTables (m.tasks child).pid with ⟨-, hclose⟩ | ⟨p, hp, -⟩
      · rw [hclose]
      · exact absurd hp (h.zombie hwf hzombie p)
    rw [heq, Agrees, hsame, hsched]
    exact Sched.Registered.reap h hzombie
  · rw [heq, hnone] at hfs
    rw [heq, Agrees, show m'.fs = _ from hfs, hsched]
    refine Sched.Registered.of_alike h ((Sched.Change.wait hrun pid hchild ?_).alike trivial)
    exact fun i hi => zombieChild_eq_none hnone hi
  · rw [heq]
    exact h

theorem taskCreate_system (m : Machine) (entry : Word) (name : List UInt8) :
    (m.taskCreate entry name).1.toSystem = m.toSystem ∨
      (m.taskCreate entry name).1.toSystem = (Kernel.taskCreate m.toSystem m.current name).1 := by
  rw [taskCreate]
  split
  · exact Or.inl rfl
  · split
    · exact Or.inl rfl
    · exact Or.inr rfl

theorem sysFork_system (m : Machine) :
    m.sysFork.1.toSystem = m.toSystem ∨
      m.sysFork.1.toSystem = (taskFork m.toSystem m.current).1 := by
  have hfork : ∀ (m : Machine) (childEpc : Word) (space : AddressSpace),
      (m.taskForkFromTrap childEpc space).1.toSystem = m.toSystem ∨
        (m.taskForkFromTrap childEpc space).1.toSystem = (taskFork m.toSystem m.current).1 := by
    intro m childEpc space
    rw [taskForkFromTrap]
    split
    · exact Or.inl rfl
    · split
      · exact Or.inl rfl
      · exact Or.inr rfl
  rw [sysFork]
  split
  · exact Or.inl rfl
  · split
    · exact Or.inl rfl
    · next memory child hclone =>
      have hcases := hfork { m with memory := memory } (m.csr.sepc + 4) child
      dsimp only
      split <;> exact hcases

/-- A program that is loaded, or not, only changes buffers of the file system. -/
theorem prepareProgram_holder {s s' : FsSt} {memory memory' : Memory} {cwd : Nat} {path : CStr}
    {argv envp : List CStr} {program : Option LoadedProgram}
    (h : prepareProgram s memory cwd path argv envp = (s', memory', program)) :
    s'.holder = s.holder := by
  have htables := prepareProgram_tables s memory cwd path argv envp
  rw [h] at htables
  exact holder_of_tables htables

theorem userExecve_holder (m : Machine) (path : CStr) (argv envp : List CStr) :
    (m.userExecve path argv envp).1.fs.holder = m.fs.holder := by
  rw [userExecve]
  split
  · next s memory heq => exact prepareProgram_holder heq
  · next s memory program heq =>
    split <;> exact prepareProgram_holder heq

theorem deed_agrees (hdeed : Deed m m') (hwf : m.sched.Wf) (h : m.Agrees) : m'.Agrees := by
  cases hdeed with
  | create hrun entry name =>
    rcases taskCreate_system m entry name with heq | heq
    · exact h.of_system heq
    · rcases taskCreate_spawned m.toSystem m.current name with hsame | hspawned
      · exact h.of_system (heq.trans hsame)
      · rw [← heq] at hspawned
        exact h.spawned hwf hspawned
  | fork hrun =>
    rcases sysFork_system m with heq | heq
    · exact h.of_system heq
    · rcases taskFork_spawned m.toSystem m.current hrun.live.used with hsame | hspawned
      · exact h.of_system (heq.trans hsame)
      · rw [← heq] at hspawned
        exact h.spawned hwf hspawned
  | finish hrun hlive hpid code => exact h.endTask hwf hlive code
  | wait hrun pid nohang => exact h.taskWaitpid hwf hrun pid nohang
  | execve hrun path argv envp =>
    exact h.of_alike (userExecve_holder m path argv envp) (userExecve_alike m path argv envp)
  | load hrun hload => exact h.of_alike (prepareProgram_holder hload) (.refl _)
  | enter hrun hspace hload =>
    exact h.of_alike (prepareProgram_holder hload) (enterUser_alike _ _)

/-! ## The beginning -/

theorem resetTask_foldl_tables {k : System} (h : k.fs.toFdTables = FdTables.zero)
    (l : List (Fin 16)) : (l.foldl resetTask k).fs.toFdTables = FdTables.zero := by
  induction l generalizing k with
  | nil => exact h
  | cons i rest ih =>
    refine ih ?_
    rw [resetTask]
    split
    · show minifsCloseAll k.fs.toFdTables (k.tasks i).pid = _
      have hnone : findProcess FdTables.zero (k.tasks i).pid = none :=
        findProcess_eq_none.mpr fun p => by simp [FdTables.holder, ProcessFds.holder, FdTables.zero]
      rw [h, minifsCloseAll, hnone]
    · exact h

theorem taskInit_fs (k : System) : (Kernel.taskInit k).fs =
    ((List.finRange 16).foldl resetTask k).fs.onTables
      (minifsProcessInit ((List.finRange 16).foldl resetTask k).fs.toFdTables 0).1 := by
  rw [Kernel.taskInit]
  generalize (List.finRange 16).foldl resetTask k = k1
  rfl

theorem taskInit_agrees (h : m.fs.toFdTables = FdTables.zero) : m.taskInit.Agrees := by
  obtain ⟨hrun, hpid, -, hunused⟩ := taskInit_tasks m.toSystem
  have hlive : ∀ i, (m.taskInit.sched.slots i).Live → i = 0 := by
    intro i hi
    by_contra hi0
    exact hi.1 (hunused i hi0)
  have hidle : (m.taskInit.sched.slots 0).Live := Sched.live_of_state hrun (by decide) (by decide)
  have hholder : m.taskInit.fs.holder = (minifsProcessInit FdTables.zero 0).1.holder := by
    rw [show m.taskInit.fs = (Kernel.taskInit m.toSystem).fs from rfl, taskInit_fs,
      resetTask_foldl_tables h]
    rfl
  have hzero : ∀ p, (minifsProcessInit FdTables.zero 0).1.holder p =
      if p = 0 then some 0 else none := by decide
  refine ⟨fun {p q pid} hp hq => ?_, fun i hi => ⟨0, ?_⟩, fun {p pid} hp => ⟨0, hidle, ?_⟩⟩
  · rw [hholder, hzero] at hp hq
    split at hp
    · next hp0 =>
      split at hq
      · next hq0 => rw [hp0, hq0]
      · cases hq
    · cases hp
  · obtain rfl := hlive i hi
    rw [hholder, hzero, if_pos rfl]
    exact congrArg some hpid.symm
  · rw [hholder, hzero] at hp
    split at hp
    · rw [← Option.some.inj hp]
      exact hpid
    · cases hp

/-! ## The tree on the console -/

/-- The children of a task, by slot. What is left of a task in an unused slot has
none. -/
def children (m : Machine) (i : Fin 16) : List (Fin 16) :=
  if m.state i = .unused then [] else childrenOf m.toSystem (m.tasks i).pid

/-- How many tasks are younger than a task. -/
def younger (m : Machine) (i : Fin 16) : Nat :=
  (Finset.univ.filter fun j => m.state j ≠ .unused ∧ (m.tasks i).pid < (m.tasks j).pid).card

/-- The line about a task at some depth. -/
def treeLine (m : Machine) (node : Nat × Fin 16) : TreeLine :=
  ⟨node.1, (m.tasks node.2).name, (m.tasks node.2).pid, (m.tasks node.2).state⟩

section Dump

variable {i j : Fin 16}

theorem mem_children :
    j ∈ m.children i ↔
      m.state i ≠ .unused ∧ m.state j ≠ .unused ∧ (m.tasks j).ppid = (m.tasks i).pid := by
  rw [children]
  split
  · next hi => simp [hi]
  · next hi =>
    rw [state] at hi ⊢
    simp [hi, childrenOf, state]

theorem children_nodup (m : Machine) (i : Fin 16) : (m.children i).Nodup := by
  rw [children]
  split
  · exact List.nodup_nil
  · exact (List.nodup_finRange 16).filter _

theorem younger_lt_sixteen (m : Machine) (i : Fin 16) : m.younger i < 16 := by
  refine (Finset.card_lt_card (t := Finset.univ) ?_).trans_eq (by simp)
  exact Finset.filter_ssubset.mpr ⟨i, Finset.mem_univ i, by simp⟩

variable (hwf : m.sched.Wf)

include hwf

theorem findPid_pid (hi : m.state i ≠ .unused) :
    findPid m.toSystem (m.tasks i).pid = some i := by
  rw [findPid, find?_finRange_eq_some]
  refine ⟨by simpa [state] using hi, fun j hj => ?_⟩
  simp only [decide_eq_false_iff_not]
  rintro ⟨hused, hpid⟩
  exact hj.ne (hwf.inj j i hused hi hpid)

/-- A child is younger than its parent. -/
theorem pid_lt_of_child (h : j ∈ m.children i) :
    (m.tasks i).pid < (m.tasks j).pid := by
  obtain ⟨hi, hused, hppid⟩ := mem_children.mp h
  have hj : j ≠ 0 := by
    rintro rfl
    have hidle : (m.tasks 0).ppid = -1 := hwf.idle_ppid
    have hpos := (hwf.fresh i hi).1
    change 0 ≤ (m.tasks i).pid at hpos
    omega
  obtain ⟨parent, hlive, hparent, hlt⟩ := hwf.parent j hj hused
  obtain rfl := hwf.inj parent i hlive.used hi (hparent.trans hppid)
  exact hlt

theorem younger_lt_of_child (h : j ∈ m.children i) :
    m.younger j < m.younger i := by
  have hlt := pid_lt_of_child hwf h
  have hused := (mem_children.mp h).2.1
  refine Finset.card_lt_card (Finset.ssubset_iff_of_subset ?_ |>.mpr ⟨j, ?_, ?_⟩)
  · intro l hl
    simp only [Finset.mem_filter_univ] at hl ⊢
    exact ⟨hl.1, hlt.trans hl.2⟩
  · simpa using ⟨hused, hlt⟩
  · simp

theorem parent_unique {l : Fin 16} (hi : l ∈ m.children i) (hj : l ∈ m.children j) : i = j := by
  obtain ⟨hiused, -, hippid⟩ := mem_children.mp hi
  obtain ⟨hjused, -, hjppid⟩ := mem_children.mp hj
  exact hwf.inj i j hiused hjused (hippid.symm.trans hjppid)

/-- The lines of `dump_tree_node` are those of a walk over the slots. -/
theorem dumpTreeNode_eq (fuel depth : Nat) (hi : m.state i ≠ .unused) :
    dumpTreeNode m.toSystem fuel (m.tasks i).pid depth =
      (walk m.children fuel depth i).map (List.map m.treeLine) := by
  induction fuel generalizing depth i with
  | zero => rfl
  | succ fuel ih =>
    have hrows : (childrenOf m.toSystem (m.tasks i).pid).mapM (fun j =>
        dumpTreeNode m.toSystem fuel (m.tasks j).pid (depth + 1)) =
        ((m.children i).mapM (walk m.children fuel (depth + 1))).map
          (List.map (List.map m.treeLine)) := by
      rw [children, if_neg hi]
      refine mapM_map_of_mem fun j hj => ih (depth + 1) ?_
      exact (of_decide_eq_true (List.mem_filter.mp hj).2).1
    rw [dumpTreeNode, findPid_pid hwf hi, walk]
    dsimp only
    rw [hrows, Option.map_map, Option.map_map]
    congr 1
    funext rows
    simp [treeLine, List.map_flatten]

/-- Everybody descends from the idle task. -/
theorem below_idle (hi : m.state i ≠ .unused) : Below m.children 0 i := by
  induction hn : (m.tasks i).pid.toNat using Nat.strong_induction_on generalizing i with
  | _ n ih =>
    by_cases h0 : i = 0
    · subst h0
      exact .refl
    · obtain ⟨j, hlive, hppid, hlt⟩ := hwf.parent i h0 hi
      have hpos := (hwf.fresh j hlive.used).1
      change 0 ≤ (m.tasks j).pid at hpos
      change (m.tasks j).pid < (m.tasks i).pid at hlt
      exact (ih _ (by omega) hlive.used rfl).tail (mem_children.mpr ⟨hlive.used, hi, hppid.symm⟩)

/-- `task_dump_tree` comes to an end, and has one line for everybody. -/
theorem taskDumpTree_perm {fuel : Nat} (hfuel : 16 ≤ fuel) :
    ∃ lines, taskDumpTree m.toSystem fuel = some lines ∧
      (lines.map TreeLine.pid).Perm (((List.finRange 16).filter fun i =>
        m.state i ≠ .unused).map fun i => (m.tasks i).pid) := by
  have hidle : m.state 0 ≠ .unused := hwf.idle_live.used
  have hrank : ∀ i, ∀ j ∈ m.children i, m.younger j < m.younger i := fun i j h =>
    younger_lt_of_child hwf h
  have hroot : m.younger 0 < fuel := (younger_lt_sixteen m 0).trans_le hfuel
  obtain ⟨nodes, hnodes⟩ := Option.isSome_iff_exists.mp (walk_isSome hrank 0 hroot)
  have hvisited : visited m.children fuel 0 0 = nodes.map Prod.snd := by
    rw [visited, hnodes, Option.getD_some]
  have hdump := dumpTreeNode_eq hwf fuel 0 hidle
  rw [show (m.tasks 0).pid = 0 from hwf.idle_pid, hnodes] at hdump
  refine ⟨nodes.map m.treeLine, hdump, ?_⟩
  have hpids : (nodes.map m.treeLine).map TreeLine.pid =
      (visited m.children fuel 0 0).map fun i => (m.tasks i).pid := by
    rw [hvisited, List.map_map, List.map_map]
    rfl
  rw [hpids]
  refine List.Perm.map _ ((List.perm_ext_iff_of_nodup ?_ ?_).mpr fun i => ?_)
  · exact visited_nodup hrank (children_nodup m) (fun i j l => parent_unique hwf) 0 hroot
  · exact (List.nodup_finRange 16).filter _
  · rw [mem_visited hrank 0 hroot, List.mem_filter]
    simp only [List.mem_finRange, true_and, decide_eq_true_eq]
    refine ⟨fun h => ?_, below_idle hwf⟩
    rcases Relation.ReflTransGen.cases_tail h with rfl | ⟨j, -, hj⟩
    · exact hidle
    · exact (mem_children.mp hj).2.1

end Dump

/-- The machine after `minifs_init` and `task_init`. -/
def started (m₀ : Machine) : Machine := { m₀ with fs := (minifsInit m₀.fs).1 }.taskInit

/-- What holds of the processes of a machine. `tree_dump` is about `task_dump_tree`:
its recursion is at most 16 deep, and it has one line for everybody. -/
structure TreeWellFormed (m : Machine) : Prop where
  pids_distinct : ∀ i j, m.state i ≠ .unused → m.state j ≠ .unused →
    (m.tasks i).pid = (m.tasks j).pid → i = j
  parent_older : ∀ i, i ≠ 0 → m.state i ≠ .unused →
    ∃ j, m.state j ≠ .unused ∧ m.state j ≠ .zombie ∧ (m.tasks j).pid = (m.tasks i).ppid ∧
      (m.tasks j).pid < (m.tasks i).pid
  live_entry : ∀ i, m.state i ≠ .unused → m.state i ≠ .zombie →
    ∃! p, (m.fs.processFds p).used = true ∧ (m.fs.processFds p).pid = (m.tasks i).pid
  zombie_entry : ∀ i, m.state i = .zombie →
    ∀ p, (m.fs.processFds p).used = true → (m.fs.processFds p).pid ≠ (m.tasks i).pid
  tree_dump : ∀ fuel, 16 ≤ fuel → ∃ lines, taskDumpTree m.toSystem fuel = some lines ∧
    (lines.map TreeLine.pid).Perm
      (((List.finRange 16).filter fun i => m.state i ≠ .unused).map fun i => (m.tasks i).pid)

/-- In every state of every run the tree of processes is well formed. Pids are
numbers here: a run has to stay below `2 ^ 31 - 1` of them. The idle task blocks in
no wait (`enabled`). -/
theorem process_tree_well_formed (m₀ : Machine) (events : List Event) :
    (m₀.started.runEvents events).TreeWellFormed := by
  have hstart : m₀.started.sched.Wf := taskInit_wf _
  have hwf := runEvents_wf hstart events
  have hagrees : (m₀.started.runEvents events).Agrees :=
    runEvents_inv (fun hquiet h => Agrees.of_alike h hquiet.holder hquiet.alike)
      (fun hdeed hwf h => deed_agrees hdeed hwf h) hstart
      (taskInit_agrees (minifsInit_tables m₀.fs)) events
  generalize m₀.started.runEvents events = m at hwf hagrees
  refine ⟨hwf.inj, fun i h0 hi => ?_, fun i hused hlive => ?_, fun i hi p hp hpid => ?_,
    fun fuel hfuel => taskDumpTree_perm hwf hfuel⟩
  · obtain ⟨j, hlive, hpid, hlt⟩ := hwf.parent i h0 hi
    exact ⟨j, hlive.1, hlive.2, hpid, hlt⟩
  · obtain ⟨p, hp⟩ := hagrees.entry i ⟨hused, hlive⟩
    refine ⟨p, holder_eq_some.mp hp, fun q hq => ?_⟩
    exact hagrees.distinct (holder_eq_some.mpr hq) hp
  · exact hagrees.zombie hwf hi p (holder_eq_some.mpr ⟨hp, hpid⟩)

end Machine

end MiniOs.Kernel
