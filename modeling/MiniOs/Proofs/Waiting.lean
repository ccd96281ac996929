import MiniOs.Proofs.Running

/-!
# Nobody waits in vain

A task that sleeps in `waitpid` is woken by the end of a child it waits for. For
that to work the task must see at once what is there when it goes to sleep, and
`task_exit` and `task_kill` must agree with `task_waitpid` about who is a child
and which of them count. They do agree on every target but 0: `task_waitpid`
takes it for any child, and the other two for a pid nobody has. The idle task is
the other exception, since children of others come to it without a word.

So the invariant has two halves: no child that counts has ended, and one that
counts has not. The end of a task is the only change that could break it, and
the parent that would be left asleep is the one that is woken.
-/

namespace MiniOs.Spec.Sched

open MiniOs.Kernel Function

variable {s s' : Sched} {i j : Fin 16}

/-- The task sleeps in `waitpid`. -/
def Sleeps (s : Sched) (i : Fin 16) : Prop :=
  (s.slots i).state = .blocked ∧ (s.slots i).channel = some (.task i)

/-- None of the children a wait is about has ended, and there is one. -/
def Expects (s : Sched) (i : Fin 16) (target : Int) : Prop :=
  (∀ j, s.Child i target j → (s.slots j).state ≠ .zombie) ∧
    ∃ j, s.Child i target j ∧ (s.slots j).Live

/-- What everybody sleeps for is still to come. -/
def NoneLost (s : Sched) : Prop :=
  ∀ i, s.Sleeps i → i ≠ 0 ∧ (s.slots i).target ≠ 0 ∧ s.Expects i (s.slots i).target

theorem Alike.child (h : Alike s s') {target : Int} :
    s'.Child i target j ↔ s.Child i target j := by
  simp only [Child, h.used, h.pid, h.ppid]

theorem Alike.expects (h : Alike s s') {target : Int} : s'.Expects i target ↔ s.Expects i target := by
  simp only [Expects, h.child, h.live, ne_eq, h.zombie]

/-- A change that neither creates nor ends a task, by who sleeps after it. -/
theorem NoneLost.of_alike (ha : Alike s s')
    (h : ∀ i, s'.Sleeps i →
      i ≠ 0 ∧ (s'.slots i).target ≠ 0 ∧ s.Expects i (s'.slots i).target) : s'.NoneLost :=
  fun i hi => ⟨(h i hi).1, (h i hi).2.1, ha.expects.mpr (h i hi).2.2⟩

/-- The same, where who sleeps slept before. -/
theorem NoneLost.of_slept (h : s.NoneLost) (ha : Alike s s')
    (hslept : ∀ i, s'.Sleeps i → s.Sleeps i ∧ (s'.slots i).target = (s.slots i).target) :
    s'.NoneLost := by
  refine NoneLost.of_alike ha fun i hi => ?_
  obtain ⟨hsleeps, htarget⟩ := hslept i hi
  rw [htarget]
  exact h i hsleeps

/-- One task is told something else, and does not sleep after it. -/
theorem slept_of_update {x : Slot} (hslots : s'.slots = update s.slots i x)
    (hx : x.state = .blocked → x.channel ≠ some (.task i)) (j : Fin 16) (hj : s'.Sleeps j) :
    s.Sleeps j ∧ (s'.slots j).target = (s.slots j).target := by
  have hji : j ≠ i := by
    rintro rfl
    rw [Sleeps, hslots, update_self] at hj
    exact hx hj.1 hj.2
  rw [Sleeps, hslots, update_of_ne hji] at hj
  rw [hslots, update_of_ne hji]
  exact ⟨hj, rfl⟩

theorem NoneLost.giveWay (h : s.NoneLost) : s.giveWay.NoneLost := by
  refine h.of_slept (alike_giveWay s) fun i hi => ?_
  rcases giveWay_cases s with ⟨n, -, -, heq⟩ | ⟨-, -, heq⟩
  · rw [heq] at hi ⊢
    obtain ⟨hslept, htarget⟩ := slept_of_update rfl (fun h => TaskState.noConfusion h) i hi
    rw [htarget]
    by_cases hrun : s.Running
    · rw [demote_of_running hrun] at hslept ⊢
      exact slept_of_update rfl (fun h => TaskState.noConfusion h) i hslept
    · rw [demote_of_not_running hrun] at hslept ⊢
      exact ⟨hslept, rfl⟩
  · rw [heq] at hi ⊢
    exact ⟨hi, rfl⟩

theorem Sleeps.used (h : s.Sleeps i) : (s.slots i).Used := by simp [Slot.Used, h.1]

/-- A task that sleeps and the task that is running are two, with two pids. -/
theorem Sleeps.pid_ne (h : s.Sleeps i) (hwf : s.Wf) (hrun : s.Running) :
    (s.slots i).pid ≠ (s.slots s.current).pid := by
  intro hpid
  obtain rfl := hwf.inj i _ h.used hrun.live.used hpid
  have hstate := h.1
  rw [show (s.slots s.current).state = .running from hrun] at hstate
  cases hstate

/-- The running task gets or loses a child: the children of sleepers are others. -/
theorem NoneLost.of_stranger {x : Slot} (h : s.NoneLost) (hwf : s.Wf) (hrun : s.Running)
    (hslots : s'.slots = update s.slots j x) (hx : x.state ≠ .blocked)
    (hj : (s.slots j).Used → (s.slots j).ppid = (s.slots s.current).pid)
    (hxp : x.Used → x.ppid = (s.slots s.current).pid) : s'.NoneLost := by
  have hself : s'.slots j = x := by rw [hslots, update_self]
  have hother : ∀ k, k ≠ j → s'.slots k = s.slots k := fun k hk => by
    rw [hslots, update_of_ne hk]
  intro i hi
  have hij : i ≠ j := by
    rintro rfl
    rw [Sleeps, hself] at hi
    exact hx hi.1
  rw [Sleeps, hother i hij] at hi
  obtain ⟨h0, htarget, hnone, k, hk, hlive⟩ := h i hi
  have hpid := Sleeps.pid_ne hi hwf hrun
  -- no child of the sleeper is in the slot, before or after
  have hchild : ∀ k target, s'.Child i target k ↔ s.Child i target k := by
    intro k target
    by_cases hkj : k = j
    · subst hkj
      constructor
      · rintro ⟨-, hused, hppid, -⟩
        rw [hself] at hused hppid
        rw [hxp hused, hother i hij] at hppid
        exact absurd hppid.symm hpid
      · rintro ⟨-, hused, hppid, -⟩
        rw [hj hused] at hppid
        exact absurd hppid.symm hpid
    · rw [Child, Child, hother k hkj, hother i hij]
  rw [Expects, hother i hij]
  refine ⟨h0, htarget, fun k hk => ?_, k, (hchild _ _).mpr hk, ?_⟩
  · rw [hchild] at hk
    have hkj : k ≠ j := by
      rintro rfl
      exact hpid (hk.2.2.1.symm.trans (hj hk.2.1))
    rw [hother k hkj]
    exact hnone k hk
  · have hkj : k ≠ j := by
      rintro rfl
      exact hpid (hk.2.2.1.symm.trans (hj hk.2.1))
    rw [hother k hkj]
    exact hlive

/-- A task ends: whoever slept for it is awake, and whoever sleeps does not miss it. -/
theorem NoneLost.ended (h : s.NoneLost) (hwf : s.Wf) {code : Int} (he : Ended s i code s')
    (hi : (s.slots i).Used) : s'.NoneLost := by
  intro p hp
  have hpi : p ≠ i := by
    rintro rfl
    have hstate := hp.1
    rw [he.zombie] at hstate
    cases hstate
  rcases he.other p hpi with ⟨hnot, hstate, hchannel, -⟩ | ⟨-, hready, -⟩
  · have hsleeps : s.Sleeps p := ⟨hstate.symm.trans hp.1, hchannel.symm.trans hp.2⟩
    obtain ⟨h0, htarget, hnone, k, hk, hlive⟩ := h p hsleeps
    have hpid : (s.slots p).pid ≠ (s.slots i).pid :=
      fun heq => hpi (hwf.inj p i hsleeps.used hi heq)
    have hchild : ∀ j, s'.Child p (s.slots p).target j ↔ s.Child p (s.slots p).target j := by
      intro j
      rw [Child, Child, he.used hi, he.pid, he.pid, he.ppid]
      refine and_congr_right fun hj0 => and_congr_right fun hused => and_congr_left fun _ => ?_
      split
      · next hadopted =>
        -- an orphan goes to the idle task, and was not a child of the sleeper
        constructor
        · intro hzero
          exact absurd (hwf.eq_zero hsleeps.used hzero.symm) h0
        · intro hppid
          exact absurd (hppid.symm.trans hadopted.2.2) hpid
      · rfl
    -- had the task been one the sleeper waits for, the sleeper would be awake
    have hother : ∀ j, s.Child p (s.slots p).target j → j ≠ i := by
      rintro j hj rfl
      refine hnot ⟨?_, hsleeps.1, ?_⟩
      · rw [hj.2.2.1]
        refine MiniOs.Lib.find?_finRange_eq_some.mpr
          ⟨decide_eq_true ⟨hsleeps.used, rfl⟩, fun k hk => decide_eq_false ?_⟩
        rintro ⟨hused, hsame⟩
        exact hk.ne (hwf.inj k p hused hsleeps.used hsame)
      · rcases lt_trichotomy (s.slots p).target 0 with hlt | heq | hgt
        · exact Or.inl hlt
        · exact absurd heq htarget
        · exact Or.inr (hj.2.2.2 hgt).symm
    rw [he.target]
    refine ⟨h0, htarget, fun j hj => ?_, k, (hchild k).mpr hk, (he.live (hother k hk)).mpr hlive⟩
    rw [hchild] at hj
    rcases he.other j (hother j hj) with ⟨-, hstate, -⟩ | ⟨-, hready, -⟩
    · rw [hstate]
      exact hnone j hj
    · rw [hready]
      decide
  · have hstate := hp.1
    rw [hready] at hstate
    cases hstate

/-- Every change keeps it, unless the idle task waits or somebody waits for 0. -/
theorem Change.noneLost {a : Act} (hc : Change s a s') (hwf : s.Wf) (h : s.NoneLost)
    (hwait : ∀ target, a = .wait target → s.current ≠ 0 ∧ target ≠ 0) : s'.NoneLost := by
  cases hc with
  | @spawn slot hrun context ok hslot hfree =>
    have hunused : ¬ (s.slots slot).Used := not_not.mpr hfree
    refine h.of_stranger hwf hrun rfl ?_ (fun hused => absurd hused hunused) fun _ => rfl
    cases ok <;> simp
  | exit hrun code hpid => exact h.ended hwf (finish_ended hrun.live.used code) hrun.live.used
  | kill hrun code hi hlive hpid => exact h.ended hwf (kill_ended hlive.used code) hlive.used
  | reap hrun target hchild hzombie =>
    exact h.of_stranger hwf hrun rfl TaskState.noConfusion (fun _ => hchild.2.2.1)
      fun hused => absurd rfl hused
  | wait hrun target hchild hnone =>
    have ha : Alike s (s.wait target) :=
      alike_of_update rfl rfl rfl rfl rfl hrun.live (by simp)
    refine NoneLost.of_alike ha fun i hi => ?_
    by_cases hic : i = s.current
    · obtain ⟨h0, htarget⟩ := hwait target rfl
      obtain ⟨j, hj⟩ := hchild
      have hself : ((s.wait target).slots i).target = target := by
        rw [hic, Sched.wait, slots_set_self]
      rw [hself, hic]
      exact ⟨h0, htarget, hnone, j, hj, hj.2.1, hnone j hj⟩
    · have hother : (s.wait target).slots i = s.slots i := slots_set_ne _ hic
      rw [Sleeps, hother] at hi
      rw [hother]
      exact h i hi
  | block hrun address hpid =>
    refine h.of_slept (alike_of_update rfl rfl rfl rfl rfl hrun.live (by simp)) ?_
    exact slept_of_update rfl fun _ heq => by cases heq
  | wake hrun address hi hblocked hchannel =>
    refine h.of_slept (alike_of_update rfl rfl rfl rfl rfl
      (live_of_state hblocked (by decide) (by decide)) (by simp)) ?_
    exact slept_of_update rfl fun hstate => TaskState.noConfusion hstate
  | save context =>
    refine h.of_slept (alike_save s context) fun i hi => ?_
    rw [Sleeps, slots_save] at hi
    rw [slots_save]
    split at hi
    · next hic =>
      rw [if_pos hic, hic] at *
      exact ⟨hi, rfl⟩
    · next hic =>
      rw [if_neg hic]
      exact ⟨hi, rfl⟩
  | setPolicy policy => exact fun i hi => h i hi

theorem Changes.noneLost {acts : List Act} (hc : Changes s acts s') (hwf : s.Wf) (h : s.NoneLost)
    (hwait : ∀ target, .wait target ∈ acts → s.current ≠ 0 ∧ target ≠ 0) : s'.NoneLost := by
  induction hc with
  | nil s => exact h
  | cons hc hrest ih =>
    refine ih (hc.wf hwf)
      (hc.noneLost hwf h fun target heq => hwait target (heq ▸ List.mem_cons_self)) ?_
    intro target ht
    rw [hc.current]
    exact hwait target (List.mem_cons_of_mem _ ht)

end MiniOs.Spec.Sched

namespace MiniOs.Kernel.Machine

open MiniOs.Lib MiniOs.Fs MiniOs.Spec Function

/-! ## The machine -/

/-- The event is a `wait` that blocks, of the idle task or for pid 0. -/
def WaitsInVain (m : Machine) (e : Event) : Prop :=
  ∃ t target, e = .trap t ∧ t.IsEcall ∧ (m.trapped t).BlocksOn target ∧ (m.current = 0 ∨ target = 0)

section Events

variable {m : Machine}

theorem taskInit_noneLost (m : Machine) : m.taskInit.sched.NoneLost := by
  obtain ⟨hrun, -, -, hunused⟩ := taskInit_tasks m.toSystem
  intro i hi
  have hblocked : ((Kernel.taskInit m.toSystem).tasks i).state = .blocked := hi.1
  by_cases h0 : i = 0
  · rw [h0, hrun] at hblocked
    cases hblocked
  · rw [hunused i h0] at hblocked
    cases hblocked

theorem step_noneLost {e : Event} (hwf : m.sched.Wf) (h : m.sched.NoneLost)
    (hno : ¬ m.WaitsInVain e) : (m.step e).sched.NoneLost := by
  rcases m.step_moves e with heq | ⟨acts, s, hmoved⟩
  · rwa [heq]
  have hlost : s.NoneLost := by
    refine hmoved.changes.noneLost hwf h fun target ht => not_or.mp fun hvain => hno ?_
    obtain ⟨t, rfl, hecall, hblocks⟩ := does_wait (hmoved.does _ ht)
    exact ⟨t, target, rfl, hecall, hblocks, hvain⟩
  rcases hmoved.result with ⟨hsched, -⟩ | ⟨-, hsched⟩
  · rwa [hsched]
  · rw [hsched]
    exact hlost.giveWay

end Events

/-- After any run in which nobody waits for 0 and the idle task does not wait, who
sleeps in `waitpid` has a child to wake it, and none that has ended. -/
theorem runEvents_none_lost (m : Machine) (events : List Event)
    (hvain : Meets step (fun m e => ¬ m.WaitsInVain e) m.taskInit events) :
    let m₁ := m.taskInit.runEvents events
    ∀ i, m₁.state i = .blocked → (m₁.threads i).waitChannel = some (.task i) →
      (∀ j, waitsFor m₁.toSystem i (m₁.tasks i).waitTarget j = true → m₁.state j ≠ .zombie) ∧
        ∃ j, waitsFor m₁.toSystem i (m₁.tasks i).waitTarget j = true ∧
          m₁.state j ≠ .unused ∧ m₁.state j ≠ .zombie := by
  intro m₁ i hblocked hchannel
  have hinv : m₁.sched.Wf ∧ m₁.sched.NoneLost :=
    @run_meets _ _ step _ (fun m => m.sched.Wf ∧ m.sched.NoneLost)
      (fun m e h hno => ⟨m.step_wf e h.1, step_noneLost h.1 h.2 hno⟩) m.taskInit events
      ⟨m.taskInit_wf, m.taskInit_noneLost⟩ hvain
  obtain ⟨-, -, hnone, j, hj, hlive⟩ := hinv.2 i ⟨hblocked, hchannel⟩
  have hchild : ∀ j, waitsFor m₁.toSystem i (m₁.tasks i).waitTarget j = true ↔
      m₁.sched.Child i (m₁.sched.slots i).target j := fun j => waitsFor_iff
  exact ⟨fun j hj => hnone j ((hchild j).mp hj), j, (hchild j).mpr hj, hlive⟩

/-! ## A machine with a shell -/

/-- A number in `n` bytes. -/
def leBytes (n v : Nat) : List UInt8 := (List.range n).map (Region.wordByte v)

/-- An executable of one page: the header of the file and one program header. -/
def shellElf : List UInt8 :=
  [0x7f, 69, 76, 70, 2, 1, 1, 0, 0, 0, 0, 0, 0, 0, 0, 0] ++ leBytes 2 2 ++ leBytes 2 243 ++
    leBytes 4 1 ++ leBytes 8 0x10000 ++ leBytes 8 64 ++ leBytes 8 0 ++ leBytes 4 0 ++
    leBytes 2 64 ++ leBytes 2 56 ++ leBytes 2 1 ++ leBytes 6 0 ++
    leBytes 4 1 ++ leBytes 4 5 ++ leBytes 8 0 ++ leBytes 8 0x10000 ++ leBytes 8 0x10000 ++
    leBytes 8 0 ++ leBytes 8 4 ++ leBytes 8 0x1000

/-- An inode with one block. -/
def oneBlock (mode size parent block : Nat) : Inode :=
  ⟨mode, size, parent, 1, update (fun _ => 0) 0 block, 0, 0⟩

/-- A disk that has `/bin/shell` and nothing else. -/
def shellDisk : Disk := fun sector =>
  if sector = 0 then Region.zero.putWords 0 12 fun k => Tools.Builder.superWords.getD k 0
  else if sector = 1 then fun i => [7].getD i 0
  else if sector = 2 then fun i => [255, 255, 255, 255, 255, 1].getD i 0
  else if sector = 6 then
    Inode.encode (Inode.encode (Inode.encode Region.zero 0 (oneBlock 2 64 0 38)) 64
      (oneBlock 2 64 0 39)) 128 (oneBlock 0x101 120 1 40)
  else if sector = 38 then Dirent.put Region.zero 0 1 2 (ascii "bin")
  else if sector = 39 then Dirent.put Region.zero 0 2 0x101 (ascii "shell")
  else if sector = 40 then fun i => shellElf.getD i 0
  else Region.zero

/-- The machine after `mem_init`, `vm_init` and `minifs_init`. -/
def withShell : Machine :=
  { powerOn with
    memory := (vmInit powerOn.memory).1
    fs := (minifsInit { Tools.boot with disk := shellDisk }).1 }

/-- `start_shell`, the first tick, and `user_task_entry`. -/
def startShell : List Event := [.create 0x80200000 shellName, .trap timerTrap, .userTaskEntry]

/-- A system call of a user process. -/
def userCall (number arg0 : Word) : Trap :=
  ⟨8, update (update (fun _ => 0) 10 arg0) 17 number, 0x10000, 0,
    ⟨fun _ => none, fun _ => false⟩⟩

theorem not_waitsInVain {m : Machine} {e : Event}
    (h : ∀ t, e = .trap t → t.IsEcall → (m.trapped t).waitArgs ≠ none →
      m.current ≠ 0 ∧ ∀ nohang, (m.trapped t).waitArgs ≠ some (0, nohang)) :
    ¬ m.WaitsInVain e := by
  rintro ⟨t, target, rfl, hecall, hblocks, hvain⟩
  obtain ⟨h0, htarget⟩ := h t rfl hecall (by rw [hblocks.1]; exact Option.some_ne_none _)
  rcases hvain with hcurrent | rfl
  · exact h0 hcurrent
  · exact htarget false hblocks.1

/-- The shell forks and waits for anybody; the child is there to wake it. -/
theorem runEvents_none_lost_fork :
    let m := withShell.taskInit.runEvents
      (startShell ++ [.trap (userCall 220 0)] ++ [.trap (userCall 260 (-1))])
    m.state 1 = .blocked ∧ ∃ j, waitsFor m.toSystem 1 (m.tasks 1).waitTarget j = true ∧
        m.state j ≠ .unused ∧ m.state j ≠ .zombie := by
  have hblocked : (withShell.taskInit.runEvents (startShell ++ [.trap (userCall 220 0)] ++
      [.trap (userCall 260 (-1))])).state 1 = .blocked := by decide +kernel
  have hcurrent : (run step withShell.taskInit
      (startShell ++ [.trap (userCall 220 0)])).current ≠ 0 := by decide +kernel
  have hmeets : Meets step (fun m e => ¬ m.WaitsInVain e) withShell.taskInit
      (startShell ++ [.trap (userCall 220 0)] ++ [.trap (userCall 260 (-1))]) := by
    refine meets_append.mpr ⟨meets_of_mem (fun e he m => not_waitsInVain ?_) _,
      not_waitsInVain ?_, trivial⟩
    · rintro t rfl hecall hargs
      simp only [startShell, List.cons_append, List.nil_append, List.mem_cons, Event.trap.injEq,
        reduceCtorEq, List.not_mem_nil, or_false, false_or] at he
      rcases he with rfl | rfl
      · exact absurd hecall (by decide)
      · exact absurd rfl hargs
    · rintro t ht - -
      cases ht
      refine ⟨hcurrent, fun nohang heq => ?_⟩
      have hpid : toInt ((userCall 260 (-1)).frame 10).toNat = 0 :=
        congrArg Prod.fst (Option.some.inj heq)
      exact absurd hpid (by decide)
  exact ⟨hblocked, (runEvents_none_lost withShell _ hmeets 1 hblocked (by decide +kernel)).2⟩

/-- The shell forks and waits for 0, which `task_waitpid` takes for any child; the
child exits, and the shell sleeps on. -/
theorem runEvents_wakeup_lost :
    let m := withShell.taskInit.runEvents
      (startShell ++ [.trap (userCall 220 0), .trap (userCall 260 0), .trap (userCall 93 0)])
    m.state 1 = .blocked ∧ (m.threads 1).waitChannel = some (.task 1) ∧
      waitsFor m.toSystem 1 (m.tasks 1).waitTarget 2 = true ∧ m.state 2 = .zombie := by
  decide +kernel

end MiniOs.Kernel.Machine
