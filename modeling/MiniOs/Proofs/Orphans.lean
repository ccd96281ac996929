import MiniOs.Proofs.Contexts
import MiniOs.Proofs.Registry
import MiniOs.Proofs.Waiting

/-!
# Who reaps whom

A task that has ended keeps its slot until its parent waits for it. When a task ends its
children go to the idle task, and the idle task is in the loop of `kernel_main`, which
waits for the shell and for nobody else. So a zombie that comes to the idle task stays,
and so does an orphan from the moment it ends. There are 16 slots.

No other change takes a zombie away from its parent. The invariant is therefore kept by
everything but the two kinds of ends that `Abandons` names: the end of an orphan, and the
end of a task with a child that has ended and is not reaped yet.
-/

namespace MiniOs.Spec.Sched

open MiniOs.Kernel

variable {s s' : Sched} {shell : Int} {i : Fin 16}

/-- Every task that ended has a parent that has not, other than the idle task, or is the one
the idle task waits for. -/
def Reapable (s : Sched) (shell : Int) : Prop :=
  ∀ i, (s.slots i).state = .zombie →
    (∃ j, (s.slots j).Live ∧ (s.slots j).pid ≠ 0 ∧ (s.slots j).pid = (s.slots i).ppid) ∨
      (s.slots i).pid = shell

/-- The end of a task would leave somebody to the idle task: the task itself, which has no
other parent, or a child that has ended. -/
def Abandons (s : Sched) (shell : Int) (i : Fin 16) : Prop :=
  (s.slots i).ppid = 0 ∧ (s.slots i).pid ≠ shell ∨
    ∃ j, (s.slots j).state = .zombie ∧ (s.slots j).ppid = (s.slots i).pid ∧ (s.slots j).pid ≠ shell

instance (s : Sched) (shell : Int) (i : Fin 16) : Decidable (s.Abandons shell i) :=
  inferInstanceAs (Decidable (_ ∨ _))

theorem Reapable.of_alike (h : s.Reapable shell) (ha : Alike s s') : s'.Reapable shell := by
  intro i hi
  simp only [ha.pid, ha.ppid, ha.live]
  exact h i ((ha.zombie i).mp hi)

/-- One slot gets another task, which has not ended, or none; and it was not a parent. -/
theorem Reapable.of_update {x : Slot} (h : s.Reapable shell)
    (hslots : s'.slots = Function.update s.slots i x) (hlive : ¬ (s.slots i).Live)
    (hx : x.state ≠ .zombie) : s'.Reapable shell := by
  have hother : ∀ j, j ≠ i → s'.slots j = s.slots j := fun j hj => by
    rw [hslots, Function.update_of_ne hj]
  intro j hj
  have hji : j ≠ i := by
    rintro rfl
    rw [hslots, Function.update_self] at hj
    exact hx hj
  rw [hother j hji] at hj ⊢
  refine (h j hj).imp_left fun ⟨k, hk, hpid⟩ => ⟨k, ?_⟩
  have hki : k ≠ i := by
    rintro rfl
    exact hlive hk
  rw [hother k hki]
  exact ⟨hk, hpid⟩

/-- The end of a task that leaves nobody behind. -/
theorem Reapable.ended (h : s.Reapable shell) (hwf : s.Wf) {code : Int} (he : Ended s i code s')
    (hi : (s.slots i).Used) (hpid : (s.slots i).pid ≠ 0) (hno : ¬ s.Abandons shell i) :
    s'.Reapable shell := by
  obtain ⟨horphan, hchild⟩ := not_or.mp hno
  have hi0 : i ≠ 0 := by
    rintro rfl
    exact hpid hwf.idle_pid
  -- a parent other than the task that ends is a parent afterwards
  have hparent : ∀ j k, (s.slots k).Live → (s.slots k).pid ≠ 0 →
      (s.slots k).pid = (s.slots j).ppid → (s.slots j).ppid ≠ (s.slots i).pid →
      ∃ k, (s'.slots k).Live ∧ (s'.slots k).pid ≠ 0 ∧ (s'.slots k).pid = (s'.slots j).ppid := by
    intro j k hk hk0 hppid hne
    have hki : k ≠ i := by
      rintro rfl
      exact hne hppid.symm
    refine ⟨k, (he.live hki).mpr hk, ?_, ?_⟩
    · rw [he.pid]
      exact hk0
    · rw [he.pid, he.ppid, if_neg fun hall => hne hall.2.2]
      exact hppid
  intro j hj
  rw [he.pid j]
  by_cases hji : j = i
  · subst hji
    by_cases hshell : (s.slots j).pid = shell
    · exact Or.inr hshell
    · left
      obtain ⟨k, hk, hppid, hlt⟩ := hwf.parent j hi0 hi
      refine hparent j k hk (fun hk0 => horphan ⟨?_, hshell⟩) hppid fun heq => ?_
      · rw [← hppid, hk0]
      · omega
  · have hold : (s.slots j).state = .zombie := by
      rcases he.other j hji with ⟨-, hstate, -⟩ | ⟨-, hready, -⟩
      · rw [← hstate]
        exact hj
      · rw [hready] at hj
        cases hj
    rcases h j hold with ⟨k, hk, hk0, hppid⟩ | hshell
    · by_cases hshell : (s.slots j).pid = shell
      · exact Or.inr hshell
      · exact Or.inl (hparent j k hk hk0 hppid fun heq => hchild ⟨j, hold, heq, hshell⟩)
    · exact Or.inr hshell

theorem Change.reapable {a : Act} (hc : Change s a s') (hwf : s.Wf) (h : s.Reapable shell)
    (hno : ∀ i, a = .finish i → ¬ s.Abandons shell i) : s'.Reapable shell := by
  cases hc with
  | spawn hrun context ok hslot hfree =>
    refine h.of_update rfl (fun hlive => hlive.1 hfree) ?_
    cases ok <;> simp
  | exit hrun code hpid =>
    exact h.ended hwf (finish_ended hrun.live.used code) hrun.live.used hpid (hno _ rfl)
  | kill hrun code hi hlive hpid =>
    exact h.ended hwf (kill_ended hlive.used code) hlive.used hpid (hno _ rfl)
  | reap hrun target hchild hzombie =>
    exact h.of_update rfl (fun hlive => hlive.2 hzombie) TaskState.noConfusion
  | wait hrun target hchild hnone =>
    exact h.of_alike ((Change.wait hrun target hchild hnone).alike trivial)
  | block hrun address hpid => exact h.of_alike ((Change.block hrun address hpid).alike trivial)
  | wake hrun address hi hblocked hchannel =>
    exact h.of_alike ((Change.wake hrun address hi hblocked hchannel).alike trivial)
  | save context => exact h.of_alike (alike_save s context)
  | setPolicy policy => exact h.of_alike ((Change.setPolicy policy).alike trivial)

theorem Changes.reapable {acts : List Act} (hc : Changes s acts s') (hfew : Machine.Few acts)
    (hwf : s.Wf) (h : s.Reapable shell) (hno : ∀ i, .finish i ∈ acts → ¬ s.Abandons shell i) :
    s'.Reapable shell := by
  rcases hfew with ⟨front, hone, hacts⟩ | hwakes
  · -- what is not the first change is a `save`
    have hfront : ∀ {s1 : Sched}, Changes s front s1 → (∀ a ∈ front, a ∈ acts) →
        s1.Reapable shell := by
      intro s1 hchanges hmem
      cases hchanges with
      | nil => exact h
      | cons hchange hrest =>
        obtain rfl := List.eq_nil_of_length_eq_zero (Nat.le_zero.mp (Nat.le_of_succ_le_succ hone))
        cases hrest
        exact hchange.reapable hwf h fun i hi => hno i (hmem _ (hi ▸ List.mem_cons_self))
    rcases hacts with rfl | rfl
    · exact hfront hc fun _ => id
    · obtain ⟨s1, hchanges, hsave⟩ := hc.split
      obtain ⟨context, rfl⟩ := hsave.saved
      exact (hfront hchanges fun _ => List.mem_append_left _).of_alike (alike_save s1 context)
  · refine h.of_alike (hc.alike fun a ha => ?_)
    obtain ⟨i, rfl⟩ := hwakes a ha
    trivial

end MiniOs.Spec.Sched

namespace MiniOs.Kernel.Machine

open MiniOs.Lib MiniOs.Fs MiniOs.Spec

/-- Every zombie can be reaped: its parent is a task that has not ended and is not the idle
task, or it is the shell, for which the idle task waits. -/
def Reapable (m : Machine) (shellPid : Int) : Prop :=
  ∀ i, m.state i = .zombie →
    (∃ j, (m.state j ≠ .unused ∧ m.state j ≠ .zombie) ∧ (m.tasks j).pid ≠ 0 ∧
      (m.tasks j).pid = (m.tasks i).ppid) ∨
    (m.tasks i).pid = shellPid

instance (m : Machine) (shellPid : Int) : Decidable (m.Reapable shellPid) :=
  inferInstanceAs (Decidable (∀ _, _))

/-- The event ends a task whose parent is the idle task, other than the shell, or a task that
has a zombie for a child. -/
def Abandons (m : Machine) (shellPid : Int) (e : Event) : Prop :=
  ∃ i, m.Does e (.finish i) ∧ ((m.tasks i).ppid = 0 ∧ (m.tasks i).pid ≠ shellPid ∨
      ∃ j, m.state j = .zombie ∧ (m.tasks j).ppid = (m.tasks i).pid ∧ (m.tasks j).pid ≠ shellPid)

variable {m : Machine} {shellPid : Int}

theorem step_reapable {e : Event} (hwf : m.sched.Wf) (h : m.sched.Reapable shellPid)
    (hno : ¬ m.Abandons shellPid e) :
    (m.step e).sched.Reapable shellPid := by
  rcases m.step_moves e with heq | ⟨acts, s, hmoved⟩
  · rwa [heq]
  · have hreap : s.Reapable shellPid := hmoved.changes.reapable hmoved.few hwf h
      fun i hi habandons => hno ⟨i, hmoved.does _ hi, habandons⟩
    rcases hmoved.result with ⟨hsched, -⟩ | ⟨-, hsched⟩
    · rwa [hsched]
    · rw [hsched]
      exact hreap.of_alike (Sched.alike_giveWay s)

theorem taskInit_reapable (m : Machine) (shellPid : Int) : m.taskInit.sched.Reapable shellPid := by
  obtain ⟨hrun, -, -, hunused⟩ := taskInit_tasks m.toSystem
  intro i hi
  have hzombie : ((Kernel.taskInit m.toSystem).tasks i).state = .zombie := hi
  by_cases h0 : i = 0
  · rw [h0, hrun] at hzombie
    cases hzombie
  · rw [hunused i h0] at hzombie
    cases hzombie

/-- From `start_shell` on, every zombie can be reaped in every state of a run, as long as no
`exit` and no `kill` ends an orphan or a task with a zombie for a child. -/
theorem zombies_reapable (m₀ : Machine) (entry : Word) {m : Machine} {shellPid : Int}
    (hstart : m₀.started.taskCreate entry shellName = (m, shellPid)) (events : List Event)
    (hkeep : Meets step (fun m e => ¬ m.Abandons shellPid e) m events) :
    (m.runEvents events).Reapable shellPid := by
  have hinit : m₀.started.sched.Wf ∧ m₀.started.sched.Reapable shellPid :=
    ⟨taskInit_wf _, taskInit_reapable _ shellPid⟩
  have hcreated : m.sched.Wf ∧ m.sched.Reapable shellPid := by
    have hm : m = (m₀.started.taskCreate entry shellName).1 := by rw [hstart]
    have hrun : m₀.started.sched.Running :=
      (taskInit_tasks { m₀ with fs := (minifsInit m₀.fs).1 }.toSystem).1
    rcases taskCreate_cases m₀.started entry shellName with heq | ⟨slot, ok, hslot, hsched, -⟩
    · rw [hm, heq]
      exact hinit
    · have hfree := freeSlot_unused hslot
      have hspawn := Sched.Change.spawn hrun (m₀.started.entryContext slot entry) ok hfree.1 hfree.2
      rw [hm, hsched]
      exact ⟨hspawn.wf hinit.1, hspawn.reapable hinit.1 hinit.2 nofun⟩
  exact (@run_meets _ _ step _ (fun m => m.sched.Wf ∧ m.sched.Reapable shellPid)
    (fun m e h hno => ⟨m.step_wf e h.1, step_reapable h.1 h.2 hno⟩) m events hcreated hkeep).2

/-! ## A shell and its children -/

/-- The machine when `kernel_main` has the disk with `/bin/shell`, before `minifs_init`. -/
def beforeMount : Machine := { withShell with fs := { Tools.boot with disk := shellDisk } }

/-- After `start_shell`. -/
def afterStart : Machine := (beforeMount.started.taskCreate 0x80200000 shellName).1

/-- The shell runs and forks, and waits for its child. -/
def firstChild : List Event :=
  [.trap timerTrap, .userTaskEntry, .trap (userCall 220 0), .trap (userCall 260 2)]

theorem afterStart_eq : beforeMount.started.taskCreate 0x80200000 shellName = (afterStart, 1) := by
  have hpid : (beforeMount.started.taskCreate 0x80200000 shellName).2 = 1 := by decide +kernel
  rw [afterStart, ← hpid]

theorem not_abandons_of_call {t : Trap}
    (h : t.IsEcall → (m.trapped t).call ≠ some .kill ∧ (m.trapped t).call ≠ some .exit) :
    ¬ m.Abandons shellPid (.trap t) := by
  rintro ⟨i, hsave | ⟨hecall, hkill, -⟩ | ⟨hecall, hexit, -⟩, -⟩
  · cases hsave
  · exact (h hecall).1 hkill
  · exact (h hecall).2 hexit

theorem not_abandons_current {e : Event} (hself : ∀ i, m.Does e (.finish i) → i = m.current)
    (h : ¬ m.sched.Abandons shellPid m.current) : ¬ m.Abandons shellPid e := by
  rintro ⟨i, hdoes, habandons⟩
  obtain rfl := hself i hdoes
  exact h habandons

/-- The child exits and is the shell's to reap. -/
theorem zombies_reapable_child :
    (afterStart.runEvents (firstChild ++ [.trap (userCall 93 7)])).state 2 = .zombie ∧
      Meets step (fun m e => ¬ m.Abandons 1 e) afterStart (firstChild ++ [.trap (userCall 93 7)]) ∧
      (afterStart.runEvents (firstChild ++ [.trap (userCall 93 7)])).Reapable 1 := by
  have hmeets : Meets step (fun m e => ¬ m.Abandons 1 e) afterStart
      (firstChild ++ [.trap (userCall 93 7)]) := by
    refine meets_append.mpr ⟨⟨?_, ?_, ?_, ?_, trivial⟩, ?_, trivial⟩
    · exact not_abandons_of_call fun hecall => absurd hecall (by decide)
    · exact not_abandons_current (fun i hi => hi) (by decide +kernel)
    · exact not_abandons_of_call fun _ => by decide
    · exact not_abandons_of_call fun _ => by decide
    · refine not_abandons_current (fun i hi => ?_) (by decide +kernel)
      rcases hi with hsave | ⟨-, hkill, -⟩ | ⟨-, -, hi⟩
      · cases hsave
      · cases hkill
      · exact Sched.Act.finish.inj hi
  exact ⟨by decide +kernel, hmeets, zombies_reapable _ _ afterStart_eq _ hmeets⟩

/-- The child forks and exits, and then the grandchild exits: nobody waits for it any more. -/
theorem orphan_stays_zombie :
    beforeMount.started.taskCreate 0x80200000 shellName = (afterStart, 1) ∧
      (afterStart.runEvents (firstChild ++
        [.trap (userCall 220 0), .trap (userCall 93 0), .trap (userCall 93 0)])).state 3 = .zombie ∧
      ¬ (afterStart.runEvents (firstChild ++
        [.trap (userCall 220 0), .trap (userCall 93 0), .trap (userCall 93 0)])).Reapable 1 := by
  refine ⟨afterStart_eq, ?_, ?_⟩ <;> decide +kernel

end MiniOs.Kernel.Machine
