import MiniOs.Proofs.FileCalls
import MiniOs.Proofs.Sched

/-!
# What a system call and an event do to the task table

The inversion of `syscall_dispatch` and of `step`. A system call makes at most
one change to the table, and `Does` says which call and which arguments are
behind it. An event makes a few changes, and then the processor may go to
somebody else: that is `giveWay`, and nothing else moves `current`.

Invariants of the table are proved for changes and for `giveWay`, and hold of
every run by `step_moves`.
-/

namespace MiniOs.Kernel

open MiniOs.Lib MiniOs.Fs MiniOs.Spec

namespace Machine

/-- The system call a frame asks for. -/
def call (m : Machine) : Option Sysno := Sysno.ofNumber (m.frame 17)

/-- The arguments of a `wait` or a `waitpid`: who is waited for, and whether the
caller does not want to block. -/
def waitArgs (m : Machine) : Option (Int × Bool) :=
  match m.call with
  | some .wait => some (-1, false)
  | some .waitpid => some (toInt (m.frame 10).toNat, (m.frame 12).toNat % 2 = 1)
  | _ => none

/-- The call is a wait that blocks: there is a child to wait for, and none of them
has ended. -/
def BlocksOn (m : Machine) (target : Int) : Prop :=
  m.waitArgs = some (target, false) ∧ m.zombieChild target = none ∧
    ∃ i, m.sched.Child m.current target i

/-- The call behind a change. -/
def DoesCall (m : Machine) : Sched.Act → Prop
  | .spawn _ => m.call = some .fork
  | .finish i =>
    m.call = some .kill ∧ i ≠ m.current ∧
      findPid m.toSystem (toInt (m.frame 10).toNat) = some i ∧ (m.tasks i).name ≠ shellName
  | .reap i => ∃ target nohang, m.waitArgs = some (target, nohang) ∧
      m.zombieChild target = some i
  | .wait target => m.BlocksOn target
  | _ => False

/-- What a system call leaves, and what `syscall_dispatch` answers. -/
inductive Served (m : Machine) : Machine → Nat → Prop where
  | answered {m₁ : Machine} {acts : List Sched.Act} (result : Int) (hsteady : Steady m m₁)
      (hacts : Sched.Changes m.sched acts m₁.sched) (hone : acts.length ≤ 1)
      (hdoes : ∀ a ∈ acts, m.DoesCall a) : Served m (m₁.answer result) 0
  | exited {m₁ : Machine} (code : Int) (hcall : m.call = some .exit)
      (hpid : (m.tasks m.current).pid ≠ 0) (hsteady : Steady m m₁)
      (hsched : m₁.sched = m.sched.finish m.current code) : Served m m₁ 0
  | stopped (hcall : m.call = some .exit) (hpid : (m.tasks m.current).pid = 0) :
      Served m { m with halted := true } 0
  | replaced {m₁ : Machine} (context : TrapContext) (hcall : m.call = some .execve)
      (hcurrent : m₁.current = m.current) (hhalted : m₁.halted = m.halted)
      (hsched : m₁.sched = m.sched.save context) : Served m m₁ 1
  | yielded (hcall : m.call = some .yield) : Served m m 2

section Served

variable {m m₁ : Machine}

theorem Served.quiet (result : Int) (hsteady : Steady m m₁) (hsched : m₁.sched = m.sched) :
    Served m (m₁.answer result) 0 := by
  refine @Served.answered m m₁ [] result hsteady ?_ (Nat.zero_le 1) (by simp)
  rw [hsched]
  exact .nil _

theorem Served.one (a : Sched.Act) (result : Int) (hsteady : Steady m m₁) (hdoes : m.DoesCall a)
    (h : Sched.Change m.sched a m₁.sched) : Served m (m₁.answer result) 0 :=
  .answered result hsteady (.cons h (.nil _)) (le_refl 1) (by simpa using hdoes)

/-- A call on the file system and the caller's own entry: nothing of it shows in
the table. -/
theorem Served.onSystem {outcome : System × Int}
    (htasks : ∀ i thread, slotOf (outcome.1.tasks i) thread = slotOf (m.tasks i) thread)
    (hcount : outcome.1.taskCount = m.taskCount) (hpid : outcome.1.nextPid = m.nextPid) :
    Served m (m.onSystem outcome) 0 := by
  have hsched : sched { m with toSystem := outcome.1 } = m.sched := by
    simp only [sched, hcount, hpid, Sched.mk.injEq, and_true]
    funext i
    exact htasks i _
  exact Served.quiet outcome.2 ⟨rfl, rfl, rfl, rfl⟩ hsched

/-- `sys_fork`: nothing shows in the table, or a child with a copy of the frame does. -/
theorem sysFork_cases (m : Machine) :
    (m.sysFork.1.sched = m.sched ∧ Steady m m.sysFork.1) ∨
    ∃ slot child ok, freeSlot m.toSystem = some slot ∧
      (userSpaceClone m.memory (m.threads m.current).addressSpace).2 = some child ∧
      m.sysFork.1.sched = m.sched.spawn slot (m.forkContext (m.csr.sepc + 4) child) ok ∧
      Steady m m.sysFork.1 := by
  rw [sysFork]
  split
  · exact Or.inl ⟨rfl, .refl m⟩
  split
  · next memory hclone => exact Or.inl ⟨rfl, ⟨rfl, rfl, rfl, rfl⟩⟩
  next memory child hclone =>
    rcases taskForkFromTrap_cases { m with memory := memory } (m.csr.sepc + 4) child with
      heq | ⟨slot, ok, hslot, hsched, hsteady⟩
    · rw [heq]
      exact Or.inl ⟨rfl, ⟨rfl, rfl, rfl, rfl⟩⟩
    · refine Or.inr ⟨slot, child, ok, hslot, by rw [hclone], ?_⟩
      dsimp only
      split <;> exact ⟨hsched, hsteady.current, hsteady.csr, hsteady.halted, hsteady.frame⟩

theorem served_fork (hrun : m.sched.Running) (hcall : m.call = some .fork) :
    Served m (m.sysFork.1.answer m.sysFork.2) 0 := by
  rcases sysFork_cases m with ⟨hsched, hsteady⟩ | ⟨slot, child, ok, hslot, -, hsched, hsteady⟩
  · exact .quiet _ hsteady hsched
  · have hfree := freeSlot_unused hslot
    refine .one (.spawn slot) _ hsteady hcall ?_
    rw [hsched]
    exact .spawn hrun _ ok hfree.1 hfree.2

theorem served_waitpid (hrun : m.sched.Running) {mem : UserMemory} {pid userStatus options : Nat}
    (hargs : m.waitArgs = some (toInt pid, decide (options % 2 = 1))) :
    Served m ((m.sysWaitpid mem pid userStatus options).1.answer
      (m.sysWaitpid mem pid userStatus options).2.1) 0 := by
  have hsame : ∀ m' result status, m.taskWaitpid (toInt pid) (options % 2 = 1) =
      (m', result, status) → (m.sysWaitpid mem pid userStatus options).1 = m' := by
    intro m' result status heq
    simp only [sysWaitpid, heq]
    split <;> rfl
  rcases taskWaitpid_cases m (toInt pid) (options % 2 = 1) with
    ⟨child, m', hfind, heq, hsched, hsteady⟩ | ⟨m', hnone, hchild, hhang, heq, hsched, hsteady⟩ |
    ⟨hnone, hhang, result, hresult, heq⟩
  · rw [hsame _ _ _ heq]
    obtain ⟨hc, hzombie, -⟩ := zombieChild_eq_some hfind
    refine .one (.reap child) _ hsteady ⟨_, _, hargs, hfind⟩ ?_
    rw [hsched]
    exact .reap hrun _ hc hzombie
  · rw [hsame _ _ _ heq]
    rw [hhang] at hargs
    refine .one (.wait (toInt pid)) _ hsteady ⟨hargs, hnone, hchild⟩ ?_
    rw [hsched]
    exact .wait hrun _ hchild fun i hi => zombieChild_eq_none hnone hi
  · rw [hsame _ _ _ heq]
    exact .quiet _ (.refl m) rfl

theorem served_kill (hrun : m.sched.Running) (hcall : m.call = some .kill) :
    Served m ((m.sysKill (m.frame 10).toNat (m.frame 11).toNat).1.answer
      (m.sysKill (m.frame 10).toNat (m.frame 11).toNat).2) 0 := by
  simp only [sysKill]
  generalize (if (m.frame 11).toNat = 0 then (15 : Int) else toInt (m.frame 11).toNat) = signal
  split
  · exact .quiet _ (.refl m) rfl
  · rcases taskKill_cases m (toInt (m.frame 10).toNat) (128 + signal) with
      heq | ⟨target, hfind, hpid, hne, hzombie, hname, hsched, hsteady⟩
    · rw [heq]
      exact .quiet _ (.refl m) rfl
    · refine .one (.finish target) _ hsteady ⟨hcall, hne, hfind, hname⟩ ?_
      rw [hsched]
      exact .kill hrun _ hne ⟨(findPid_used hfind).1, hzombie⟩ hpid

theorem served_exit (hrun : m.sched.Running) (hcall : m.call = some .exit) (code : Nat) :
    Served m (m.sysExit code) 0 := by
  have hused : (m.sched.slots m.current).Used := by
    show m.state m.current ≠ .unused
    rw [show m.state m.current = .running from hrun]
    decide
  simp only [sysExit, taskExit]
  split
  · next hpid =>
    rw [if_pos (by rw [show m.state m.current = .running from hrun]; decide)]
    exact .stopped hcall hpid
  next hpid =>
    have hsteady := steady_endTask m m.current (toInt code)
    have hsched := @sched_endTask m m.current (toInt code)
    have hzombie : (m.endTask m.current (toInt code)).state
        (m.endTask m.current (toInt code)).current = .zombie := by
      rw [hsteady.current]
      show ((m.endTask m.current (toInt code)).sched.slots m.current).state = .zombie
      rw [hsched]
      exact (Sched.finish_ended hused _).zombie
    rw [if_neg (not_not.mpr hzombie)]
    exact .exited _ hcall hpid hsteady hsched

/-- The context of the running task, when its address space is replaced. -/
theorem sched_enterSpace (m : Machine) (space : AddressSpace) :
    (m.enterSpace space).sched =
      m.sched.save { (m.threads m.current).trapCtx with satp := space.satp } :=
  @sched_setThread m m.current _

theorem userExecve_cases (m : Machine) (path : CStr) (argv envp : List CStr) :
    (∃ m', m.userExecve path argv envp = (m', false) ∧ m'.sched = m.sched ∧ Steady m m') ∨
    ∃ m' context, m.userExecve path argv envp = (m', true) ∧
      m'.sched = m.sched.save context ∧ m'.current = m.current ∧ m'.halted = m.halted := by
  rw [userExecve]
  split
  · exact Or.inl ⟨_, rfl, rfl, ⟨rfl, rfl, rfl, rfl⟩⟩
  · next s memory program hprepare =>
    split
    · exact Or.inl ⟨_, rfl, rfl, ⟨rfl, rfl, rfl, rfl⟩⟩
    · exact Or.inr ⟨_, _, rfl, sched_enterSpace { m with fs := s, memory := memory }
        program.space, rfl, rfl⟩

theorem served_execve (hcall : m.call = some .execve) {mem : UserMemory}
    {userPath userArgv userEnvp : Nat} :
    (∃ m', m.sysExecve mem userPath userArgv userEnvp = (m', false) ∧ Served m (m'.answer (-1)) 0) ∨
    ∃ m', m.sysExecve mem userPath userArgv userEnvp = (m', true) ∧ Served m m' 1 := by
  have hsame : ∃ m', (m, false) = (m', false) ∧ Served m (m'.answer (-1)) 0 :=
    ⟨m, rfl, .quiet _ (.refl m) rfl⟩
  rw [sysExecve]
  split
  · exact Or.inl hsame
  next path hpath =>
    split
    · exact Or.inl hsame
    next argv total hargv =>
      split
      · exact Or.inl hsame
      next envp total' henvp =>
        rcases userExecve_cases m path (if argv = [] then [path] else argv) envp with
          ⟨m', heq, hsched, hsteady⟩ | ⟨m', context, heq, hsched, hcurrent, hhalted⟩
        · rw [heq]
          exact Or.inl ⟨m', rfl, .quiet _ hsteady hsched⟩
        · rw [heq]
          refine Or.inr ⟨_, rfl, .replaced context hcall hcurrent hhalted ?_⟩
          rw [← hsched]
          exact @sched_setTask_same m' m'.current
            { m'.tasks m'.current with name := copyName path.bytes } rfl

/-- Every system call of a running task, by what it does to the table. -/
theorem served (hrun : m.sched.Running) (mem : UserMemory) :
    Served m (m.syscallDispatch mem).1 (m.syscallDispatch mem).2 := by
  by_cases hfile : ∀ c ∈ m.call, c ∉ processCalls
  · obtain ⟨k, result, hfiles, heq⟩ := syscallDispatch_onFiles mem hfile
    rw [heq]
    refine .onSystem (fun i thread => ?_) hfiles.count hfiles.nextPid
    rw [hfiles.tasks i]
    rfl
  · push Not at hfile
    obtain ⟨number, hcall, hprocess⟩ := hfile
    have hnumber : m.call = some number := hcall
    have hdispatch : Sysno.ofNumber (m.frame 17) = some number := hcall
    unfold syscallDispatch
    dsimp only
    rw [hdispatch]
    cases number with
    | exit => exact served_exit hrun hnumber _
    | wait =>
      refine @served_waitpid m hrun mem (2 ^ 64 - 1) 0 0 ?_
      simp only [waitArgs, hnumber]
      rfl
    | waitpid =>
      refine served_waitpid hrun ?_
      simp only [waitArgs, hnumber]
    | fork => exact served_fork hrun hnumber
    | execve =>
      rcases @served_execve m hnumber mem (m.frame 10).toNat (m.frame 11).toNat
        (m.frame 12).toNat with ⟨m', heq, hserved⟩ | ⟨m', heq, hserved⟩
      · rw [heq]
        exact hserved
      · rw [heq]
        exact hserved
    | yield => exact .yielded hnumber
    | kill => exact served_kill hrun hnumber
    | _ => exact absurd hprocess (by decide)

end Served

/-! ## Events -/

/-- The change an event makes. -/
def Does (m : Machine) : Event → Sched.Act → Prop
  | .trap t, a => a = .save ∨ t.IsEcall ∧ (m.trapped t).DoesCall a ∨
      t.IsEcall ∧ (m.trapped t).call = some .exit ∧ a = .finish m.current
  | .create _ _, .spawn _ => True
  | .userTaskEntry, .save => True
  | .userTaskEntry, .finish i => i = m.current
  | .exit _, .finish i => i = m.current
  | .reap pid, .reap i => m.zombieChild pid = some i
  | .block _, .block => True
  | .wakeOne _, .wake _ => True
  | .wakeAll _, .wake _ => True
  | .setScheduler _, .setPolicy => True
  | _, _ => False

/-- At most one change, and possibly a `save` after it; or any number of tasks are
woken. -/
def Few (acts : List Sched.Act) : Prop :=
  (∃ front : List Sched.Act, front.length ≤ 1 ∧ (acts = front ∨ acts = front ++ [.save])) ∨
    ∀ a ∈ acts, ∃ i, a = .wake i

theorem few_of_le_one {acts : List Sched.Act} (h : acts.length ≤ 1) : Few acts :=
  Or.inl ⟨acts, h, Or.inl rfl⟩

/-- The table after an event: a few changes, and possibly a choice. -/
structure Moved (m : Machine) (e : Event) (acts : List Sched.Act) (s : Sched) : Prop where
  changes : Sched.Changes m.sched acts s
  few : Few acts
  does : ∀ a ∈ acts, m.Does e a
  result : ((m.step e).sched = s ∧ (∀ t, e = .trap t → t.IsTimer ∨ t.IsEcall → s.Settled)) ∨
    (∃ t, e = .trap t) ∧ (m.step e).sched = s.giveWay

section Events

variable {m : Machine}

theorem afterDispatch_sched (m : Machine) (epc : Word) (replaced : Nat) :
    ((m.afterDispatch epc replaced).sched = m.sched ∧ (m.halted = true ∨ m.sched.Settled)) ∨
    ∃ context, (m.afterDispatch epc replaced).sched = (m.sched.save context).giveWay := by
  rw [afterDispatch]
  split
  · next hhalted => exact Or.inl ⟨rfl, Or.inl hhalted⟩
  split
  · generalize hm1 : (if m.state m.current = .blocked ∧ replaced = 2 then m.setEpc (epc + 4)
      else m) = m₁
    have hsched : m₁.sched = m.sched := by
      rw [← hm1]
      split <;> rfl
    have hcount : m₁.taskCount = m.sched.count := congrArg Sched.count hsched
    have hafter : ∀ m2 : Machine, ((if m₁.taskReschedule.2 = false ∧ replaced = 0 then
        m2.setEpc (epc + 4) else m2).prepareTrapReturn).sched = m2.sched := by
      intro m2
      split <;> rfl
    rw [hafter, sched_taskReschedule, hsched, hcount]
    split
    · next hle => exact Or.inl ⟨rfl, Or.inr (Or.inr (Or.inl hle))⟩
    · exact Or.inr ⟨_, rfl⟩
  · next hgo =>
    refine Or.inl ⟨?_, Or.inr (Or.inl (not_or.mp hgo))⟩
    split <;> rfl

theorem keeps_settled (h : m.keeps = true) :
    (m.state m.current ≠ .zombie ∧ m.state m.current ≠ .blocked) ∨ (m.tasks m.current).pid = 0 := by
  have hrun : m.state m.current = .running →
      m.state m.current ≠ .zombie ∧ m.state m.current ≠ .blocked := fun h => by simp [h]
  simp only [keeps, spendTick] at h
  split at h
  · next hfcfs => exact Or.inl (hrun hfcfs.2.2)
  · split at h
    · next hrr => exact Or.inl (hrun hrr.2.1)
    · simp only [decide_eq_true_eq] at h
      exact Or.inr h.1

theorem settled_save {s : Sched} (context : TrapContext) (h : s.Settled) :
    (s.save context).Settled := by
  simpa [Sched.Settled, Sched.save, Sched.set] using h

theorem schedTick_moves (m : Machine) (t : Trap) :
    ((m.trapped t).schedTick.1.sched = m.sched ∧ m.sched.Settled) ∨
    (∃ context, (m.trapped t).schedTick.1.sched = m.sched.save context ∧
      (m.sched.save context).Settled) ∨
    ∃ context, (m.trapped t).schedTick.1.sched = (m.sched.save context).giveWay := by
  rw [sched_schedTick]
  split
  · next hle => exact Or.inl ⟨rfl, Or.inr (Or.inl hle)⟩
  right
  split
  · next hkeeps =>
    refine Or.inl ⟨_, rfl, settled_save _ ?_⟩
    rcases keeps_settled hkeeps with h | h
    · exact Or.inl h
    · exact Or.inr (Or.inr h)
  · exact Or.inr ⟨_, rfl⟩

theorem save_changes (s : Sched) (context : TrapContext) :
    Sched.Changes s [.save] (s.save context) := .cons (.save context) (.nil _)

variable {t : Trap} {e : Event}

/-- What is left of a trap after the system call made its changes. -/
theorem moved_of_dispatch {m₁ : Machine} {replaced : Nat} {acts : List Sched.Act}
    (hstep : m.step (.trap t) = m₁.afterDispatch t.epc replaced)
    (hchanges : Sched.Changes m.sched acts m₁.sched) (hone : acts.length ≤ 1)
    (hdoes : ∀ a ∈ acts, m.Does (.trap t) a) (hhalted : m₁.halted = true → m₁.sched.Settled) :
    ∃ acts s, Moved m (.trap t) acts s := by
  rcases afterDispatch_sched m₁ t.epc replaced with ⟨hsched, hsettled⟩ | ⟨context, hsched⟩
  · refine ⟨acts, m₁.sched, hchanges, few_of_le_one hone, hdoes,
      Or.inl ⟨by rw [hstep, hsched], fun _ _ _ => ?_⟩⟩
    exact hsettled.elim hhalted id
  · refine ⟨acts ++ [.save], m₁.sched.save context, hchanges.append (save_changes _ _),
      Or.inl ⟨acts, hone, Or.inr rfl⟩, ?_, Or.inr ⟨⟨t, rfl⟩, by rw [hstep, hsched]⟩⟩
    intro a ha
    rcases List.mem_append.mp ha with ha | ha
    · exact hdoes a ha
    · exact Or.inl (List.mem_singleton.mp ha)

theorem dispatch_changes (hon : m.halted = false) (henabled : m.enabled (.trap t) = true)
    (hecall : t.IsEcall) :
    ∃ acts, Sched.Changes m.sched acts ((m.trapped t).syscallDispatch t.mem).1.sched ∧
      acts.length ≤ 1 ∧ (∀ a ∈ acts, m.Does (.trap t) a) ∧
      (((m.trapped t).syscallDispatch t.mem).1.halted = true →
        ((m.trapped t).syscallDispatch t.mem).1.sched.Settled) := by
  have hoff : ∀ m' : Machine, m'.halted = m.halted → m'.halted = true → m'.sched.Settled := by
    intro m' heq htrue
    rw [heq, hon] at htrue
    cases htrue
  simp only [enabled] at henabled
  split at henabled
  · next hrun =>
    have hserved := @served (m.trapped t) hrun t.mem
    generalize (m.trapped t).syscallDispatch t.mem = outcome at hserved ⊢
    obtain ⟨m', replaced⟩ := outcome
    cases hserved with
    | answered result hsteady hacts hone hdoes =>
      exact ⟨_, hacts, hone, fun a ha => Or.inr (Or.inl ⟨hecall, hdoes a ha⟩),
        hoff _ hsteady.halted⟩
    | exited code hcall hpid hsteady hsched =>
      have hchange : Sched.Change m.sched (.finish m.current) m'.sched := by
        rw [hsched]
        exact @Sched.Change.exit m.sched hrun code hpid
      refine ⟨_, .cons hchange (.nil _), le_refl 1, fun a ha => ?_, hoff _ hsteady.halted⟩
      exact Or.inr (Or.inr ⟨hecall, hcall, List.mem_singleton.mp ha⟩)
    | stopped hcall hpid =>
      refine ⟨[], .nil _, Nat.zero_le 1, by simp, fun _ => Or.inl ?_⟩
      show m.state m.current ≠ .zombie ∧ m.state m.current ≠ .blocked
      rw [hrun]
      decide
    | replaced context hcall hcurrent hhalted hsched =>
      refine ⟨[.save], ?_, le_refl 1, fun a ha => Or.inl (List.mem_singleton.mp ha), hoff _ hhalted⟩
      rw [hsched]
      exact save_changes _ _
    | yielded hcall => exact ⟨[], .nil _, Nat.zero_le 1, by simp, hoff _ rfl⟩
  · next hblocked =>
    -- the task is at the end of `task_block`
    have hyield : (m.trapped t).syscallDispatch t.mem = (m.trapped t, 2) := by
      have h124 : t.frame 17 = 124 := of_decide_eq_true henabled hecall
      have hcall : Sysno.ofNumber ((m.trapped t).frame 17) = some .yield := by
        show Sysno.ofNumber (t.frame 17) = _
        rw [h124]
        decide
      simp only [syscallDispatch, hcall]
    rw [hyield]
    exact ⟨[], .nil _, Nat.zero_le 1, by simp, hoff _ rfl⟩
  · exact absurd hecall (of_decide_eq_true henabled)
  · cases henabled

theorem trap_moved (hon : m.halted = false) (henabled : m.enabled (.trap t) = true) :
    ∃ acts s, Moved m (.trap t) acts s := by
  have hstep : m.step (.trap t) = m.trapHandler t := by
    rw [step, if_neg (by simp [hon, henabled])]
    rfl
  simp only [trapHandler] at hstep
  split at hstep
  · next hmsb =>
    have hnot : ¬ t.IsEcall := by
      rintro (h | h) <;> rw [h] at hmsb <;> exact absurd hmsb (by decide)
    split at hstep
    · rcases schedTick_moves m t with ⟨hsched, hsettled⟩ | ⟨context, hsched, hsettled⟩ |
        ⟨context, hsched⟩
      · exact ⟨[], m.sched, .nil _, few_of_le_one (Nat.zero_le 1), by simp,
          Or.inl ⟨by rw [hstep]; exact hsched, fun _ _ _ => hsettled⟩⟩
      · exact ⟨[.save], _, save_changes _ context, few_of_le_one (le_refl 1),
          fun a ha => Or.inl (List.mem_singleton.mp ha),
          Or.inl ⟨by rw [hstep]; exact hsched, fun _ _ _ => hsettled⟩⟩
      · exact ⟨[.save], _, save_changes _ context, few_of_le_one (le_refl 1),
          fun a ha => Or.inl (List.mem_singleton.mp ha), Or.inr ⟨⟨t, rfl⟩, by rw [hstep]; exact hsched⟩⟩
    · next htimer =>
      refine ⟨[], m.sched, .nil _, few_of_le_one (Nat.zero_le 1), by simp,
        Or.inl ⟨by rw [hstep]; rfl, fun t' ht' h => ?_⟩⟩
      cases ht'
      exact h.elim (fun h => absurd h.2 htimer) fun h => absurd h hnot
  · next hmsb =>
    split at hstep
    · next hecall =>
      obtain ⟨acts, hchanges, hone, hdoes, hsettled⟩ := dispatch_changes hon henabled hecall
      exact moved_of_dispatch hstep hchanges hone hdoes hsettled
    · next hecall =>
      refine ⟨[], m.sched, .nil _, few_of_le_one (Nat.zero_le 1), by simp,
        Or.inl ⟨by rw [hstep]; rfl, fun t' ht' h => ?_⟩⟩
      cases ht'
      exact h.elim (fun h => absurd h.1 hmsb) fun h => absurd h hecall

/-- An event that is not a trap, by the one change it makes. -/
theorem moved_of_change (a : Sched.Act) (htrap : ∀ t, e ≠ .trap t)
    (h : Sched.Change m.sched a (m.step e).sched) (hdoes : m.Does e a) :
    ∃ acts s, Moved m e acts s :=
  ⟨[a], _, .cons h (.nil _), few_of_le_one (le_refl 1), by simpa using hdoes,
    Or.inl ⟨rfl, fun t ht => absurd ht (htrap t)⟩⟩

/-- An event that is not a trap and does not show. -/
theorem moved_of_same (htrap : ∀ t, e ≠ .trap t) (h : (m.step e).sched = m.sched) :
    ∃ acts s, Moved m e acts s :=
  ⟨[], m.sched, .nil _, few_of_le_one (Nat.zero_le 1), by simp,
    Or.inl ⟨h, fun t ht => absurd ht (htrap t)⟩⟩

theorem sched_enterUser (m : Machine) (program : LoadedProgram) :
    ∃ context, (m.enterUser program).sched = m.sched.save context := by
  refine ⟨((m.enterUser program).threads m.current).trapCtx, ?_⟩
  simp only [sched, Sched.save, Sched.set, enterUser, enterSpace, setThread, taskAttach,
    System.setTask, Sched.mk.injEq, and_true]
  funext j
  by_cases hj : j = m.current
  · subst hj
    simp [slotOf]
  · simp [hj]

theorem perform_exit (hrun : m.sched.Running) {code : Int} {m₁ : Machine}
    (hstep : m.step e = m₁.taskExit code) (hsched : m₁.sched = m.sched)
    (hcurrent : m₁.current = m.current) (htrap : ∀ t, e ≠ .trap t)
    (hdoes : m.Does e (.finish m.current)) :
    ∃ acts s, Moved m e acts s := by
  rw [taskExit] at hstep
  split at hstep
  · exact moved_of_same htrap (by rw [hstep, hsched])
  next hpid =>
    refine moved_of_change (.finish m.current) htrap ?_ hdoes
    rw [hstep, sched_endTask, hsched, hcurrent]
    refine .exit hrun code ?_
    have hslot : (m.sched.slots m.current).pid = (m₁.tasks m₁.current).pid := by
      rw [← hsched, ← hcurrent]
      rfl
    exact fun h => hpid (hslot.symm.trans h)

theorem enabled_running (h : m.enabled e = true) (hne : ∀ t, e ≠ .trap t) :
    m.sched.Running := by
  show m.state m.current = .running
  cases e with
  | trap t => exact absurd rfl (hne t)
  | userTaskEntry => exact (of_decide_eq_true h).1
  | _ => exact of_decide_eq_true h

/-- Every event: nothing happens, or the table moves. -/
theorem step_moves (m : Machine) (e : Event) :
    m.step e = m ∨ ∃ acts s, Moved m e acts s := by
  by_cases hno : m.halted = true ∨ m.enabled e = false
  · exact Or.inl (if_pos hno)
  right
  have hstep : m.step e = m.perform e := if_neg hno
  rw [not_or, Bool.not_eq_true, Bool.not_eq_false] at hno
  by_cases htrap : ∃ t, e = .trap t
  · obtain ⟨t, rfl⟩ := htrap
    exact trap_moved hno.1 hno.2
  have hne : ∀ t, e ≠ .trap t := fun t ht => htrap ⟨t, ht⟩
  have hrun := enabled_running hno.2 hne
  cases e with
  | trap t => exact absurd rfl (hne t)
  | create entry name =>
    rcases taskCreate_cases m entry name with heq | ⟨slot, ok, hslot, hsched, -⟩
    · exact moved_of_same hne (by rw [hstep, perform, heq])
    · have hfree := freeSlot_unused hslot
      refine moved_of_change (.spawn slot) hne ?_ trivial
      rw [hstep, perform, hsched]
      exact .spawn hrun _ ok hfree.1 hfree.2
  | userTaskEntry =>
    rw [perform, userTaskEntry] at hstep
    split at hstep
    · exact perform_exit hrun hstep rfl rfl hne rfl
    · next s memory program hprepare =>
      obtain ⟨context, hcontext⟩ :=
        sched_enterUser { m with fs := s, memory := memory } program
      refine moved_of_change .save hne ?_ trivial
      rw [hstep, hcontext]
      exact .save context
  | exit code => exact perform_exit hrun hstep rfl rfl hne rfl
  | reap pid =>
    rcases taskWaitpid_cases m pid true with ⟨child, m', hfind, heq, hsched, -⟩ |
      ⟨m', -, -, hhang, -⟩ | ⟨-, -, result, -, heq⟩
    · obtain ⟨hchild, hzombie, -⟩ := zombieChild_eq_some hfind
      refine moved_of_change (.reap child) hne ?_ hfind
      rw [hstep, perform, heq, hsched]
      exact .reap hrun pid hchild hzombie
    · cases hhang
    · exact moved_of_same hne (by rw [hstep, perform, heq])
  | block address =>
    rcases sched_taskBlock hrun address with heq | hchange
    · exact moved_of_same hne (by rw [hstep, perform, heq])
    · refine moved_of_change .block hne ?_ trivial
      rw [hstep]
      exact hchange
  | wakeOne address =>
    rw [perform, taskWakeOne] at hstep
    split at hstep
    · exact moved_of_same hne (by rw [hstep])
    · next i hi =>
      refine moved_of_change (.wake i) hne ?_ trivial
      rw [hstep]
      exact (waitsOn_change hrun (find?_finRange_eq_some.mp hi).1).1
  | wakeAll address =>
    obtain ⟨acts, hacts, hchanges⟩ := taskWakeAll_changes m hrun address
    refine ⟨acts, _, hchanges, Or.inr hacts, fun a ha => ?_,
      Or.inl ⟨by rw [hstep]; rfl, fun t ht => absurd ht (hne t)⟩⟩
    obtain ⟨i, rfl⟩ := hacts a ha
    trivial
  | setScheduler policy =>
    refine moved_of_change .setPolicy hne ?_ trivial
    rw [hstep]
    exact .setPolicy policy
  | setQuantum ticks =>
    exact moved_of_same hne (by rw [hstep]; exact sched_taskSetQuantum m ticks)

/-- On the table every run of the kernel is a run of the abstract scheduler: changes, each
after its checks, and choices of the next task. The idle task blocks in no wait (`enabled`). -/
theorem runEvents_refines_sched (m : Machine) (events : List Event) :
    Relation.ReflTransGen (fun s t : Sched => (∃ a, s.Change a t) ∨ t = s.giveWay) m.sched
      (m.runEvents events).sched := by
  refine @run_inv _ _ step (fun m' => Relation.ReflTransGen _ m.sched m'.sched)
    (fun m' e hm => ?_) m .refl events
  rcases m'.step_moves e with heq | ⟨acts, s, hmoved⟩
  · rw [heq]
    exact hm
  have hs := hm.trans hmoved.changes.steps
  rcases hmoved.result with ⟨heq, -⟩ | ⟨-, heq⟩
  · rw [heq]
    exact hs
  · rw [heq]
    exact hs.tail (Or.inr rfl)

end Events

end Machine

end MiniOs.Kernel
