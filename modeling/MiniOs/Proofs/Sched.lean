import MiniOs.Kernel.Trap
import MiniOs.Lib.Scan
import MiniOs.Spec.Sched

/-!
# The machine acts on its task table

Every function of `task.c` does to the table of a machine what the operation of
`Spec/Sched.lean` does that it stands for, and everything else a trap or kernel
code does leaves the table alone. `Served` is the inversion of a system call:
what it can do to the table, and what was checked before.
-/

namespace MiniOs.Kernel

open MiniOs.Lib MiniOs.Fs MiniOs.Spec Function

/-- The slot two halves of a task make. -/
def slotOf (task : Task) (thread : Thread) : Slot :=
  { state := task.state, pid := task.pid, ppid := task.ppid, exitCode := task.exitCode
    target := task.waitTarget, channel := thread.waitChannel, order := thread.readyOrder
    context := thread.trapCtx }

namespace Machine

/-- The table of a machine. -/
def sched (m : Machine) : Sched :=
  { slots := fun i => slotOf (m.tasks i) (m.threads i)
    current := m.current
    count := m.taskCount
    nextPid := m.nextPid
    clock := m.orderCounter
    policy := m.policy }

section Tables

variable {m : Machine}

theorem sched_setTask (i : Fin 16) (task : Task) :
    (m.setTask i task).sched = m.sched.set i (slotOf task (m.threads i)) := by
  simp only [sched, Sched.set, setTask, Sched.mk.injEq, and_true]
  funext j
  by_cases hj : j = i
  · subst hj
    simp
  · simp [hj]

theorem sched_setThread (i : Fin 16) (thread : Thread) :
    (m.setThread i thread).sched = m.sched.set i (slotOf (m.tasks i) thread) := by
  simp only [sched, Sched.set, setThread, Sched.mk.injEq, and_true]
  funext j
  by_cases hj : j = i
  · subst hj
    simp
  · simp [hj]

/-- A change of a thread that the table does not show. -/
theorem sched_setThread_same {i : Fin 16} {thread : Thread}
    (h : slotOf (m.tasks i) thread = slotOf (m.tasks i) (m.threads i)) :
    (m.setThread i thread).sched = m.sched := by
  rw [sched_setThread, h]
  simp only [Sched.set, sched, update_eq_self]

theorem sched_setTask_same {i : Fin 16} {task : Task}
    (h : slotOf task (m.threads i) = slotOf (m.tasks i) (m.threads i)) :
    (m.setTask i task).sched = m.sched := by
  rw [sched_setTask, h]
  simp only [Sched.set, sched, update_eq_self]

theorem sched_makeReady (i : Fin 16) : (m.makeReady i).sched = m.sched.ready i := by
  simp only [makeReady, Sched.ready, sched, Sched.set, setTask, setThread, Sched.mk.injEq, and_true]
  funext j
  by_cases hj : j = i
  · subst hj
    simp [slotOf]
  · simp [hj]

theorem sched_wake (i : Fin 16) : (m.wake i).sched = m.sched.wake i := by
  simp only [wake, makeReady, Sched.wake, sched, Sched.set, setTask, setThread, Sched.mk.injEq,
    and_true]
  funext j
  by_cases hj : j = i
  · subst hj
    simp [slotOf]
  · simp [hj]

/-! ## Switching -/

theorem selectNext_eq : m.selectNext = m.sched.next := rfl

theorem sched_saveTrapContext :
    (m.saveTrapContext m.current).sched =
      m.sched.save ⟨m.frame, m.csr.sepc, m.csr.sstatus, m.csr.satp⟩ := by
  rw [saveTrapContext, sched_setThread]
  rfl

theorem sched_resume (i : Fin 16) : (m.resume i).sched = m.sched.resume i := by
  simp only [resume, restoreTrapContext, Sched.resume, sched, Sched.set, setTask, setThread,
    Sched.mk.injEq, and_true]
  funext j
  by_cases hj : j = i
  · subst hj
    simp [slotOf]
  · simp [hj]

/-- The machine before the choice. -/
def demoted (m : Machine) : Machine :=
  if m.state m.current = .running then m.makeReady m.current else m

theorem sched_demoted : m.demoted.sched = m.sched.demote := by
  have hstate : (m.sched.slots m.sched.current).state = m.state m.current := rfl
  simp only [demoted, Sched.demote, hstate]
  split
  · exact sched_makeReady m.current
  · rfl

theorem giveWay_eq : m.giveWay =
    match m.sched.demote.next with
    | none =>
      if m.demoted.state m.current = .ready then
        ((m.demoted.setTask m.current
          { m.demoted.tasks m.current with state := .running }).setThread m.current
            { m.demoted.threads m.current with
              ticksLeft := (m.demoted.threads m.current).timeSlice }, false)
      else (m.demoted, false)
    | some i => (m.demoted.resume i, i ≠ m.current) := by
  rw [← sched_demoted, ← selectNext_eq]
  rfl

theorem sched_giveWay : m.giveWay.1.sched = m.sched.giveWay := by
  have hstate : m.demoted.state m.current = (m.sched.demote.slots m.sched.current).state := by
    rw [← sched_demoted]
    rfl
  rw [giveWay_eq, Sched.giveWay]
  cases m.sched.demote.next with
  | none =>
    dsimp only
    rw [hstate]
    split
    · rw [sched_setThread, sched_setTask, ← sched_demoted]
      simp only [Sched.set, update_idem]
      congr 2
      simp [setTask, slotOf, sched]
    · exact sched_demoted
  | some i =>
    rw [sched_resume, sched_demoted]

theorem sched_spendTick : m.spendTick.1.sched = m.sched := by
  have htick : ∀ ticks, (m.setThread m.current
      { m.threads m.current with runtimeTicks := ticks }).sched = m.sched :=
    fun ticks => sched_setThread_same rfl
  simp only [spendTick]
  split
  · exact htick _
  · split
    · rw [← htick ((m.threads m.current).runtimeTicks + 1)]
      exact sched_setThread_same rfl
    · exact htick _

/-- What is written down of the running task. -/
def context (m : Machine) : TrapContext := ⟨m.frame, m.csr.sepc, m.csr.sstatus, m.csr.satp⟩

/-- A timer tick that leaves the processor where it is. -/
def keeps (m : Machine) : Bool := (m.saveTrapContext m.current).spendTick.2

theorem sched_taskReschedule : m.taskReschedule.1.sched =
    if m.taskCount ≤ 1 then m.sched else (m.sched.save m.context).giveWay := by
  simp only [taskReschedule, switchFromTrap]
  split
  · rfl
  · rw [if_pos trivial, sched_giveWay, sched_saveTrapContext]
    rfl

theorem sched_schedTick : m.schedTick.1.sched =
    if m.taskCount ≤ 1 then m.sched
    else if m.keeps then m.sched.save m.context else (m.sched.save m.context).giveWay := by
  have hspend := @sched_spendTick (m.saveTrapContext m.current)
  rw [sched_saveTrapContext] at hspend
  simp only [schedTick, switchFromTrap]
  split
  · rfl
  rw [if_neg (by decide)]
  split
  · next m' heq =>
    rw [heq] at hspend
    rw [if_pos (show m.keeps = true by rw [keeps, heq])]
    exact hspend
  · next m' heq =>
    rw [heq] at hspend
    rw [if_neg (show ¬ m.keeps = true by simp [keeps, heq]), sched_giveWay]
    exact congrArg Sched.giveWay hspend

end Tables

/-! ## Beginnings and ends -/

/-- What a function that does not switch leaves as it was. -/
structure Steady (m m' : Machine) : Prop where
  current : m'.current = m.current
  csr : m'.csr = m.csr
  halted : m'.halted = m.halted
  frame : m'.frame = m.frame

theorem Steady.refl (m : Machine) : Steady m m := ⟨rfl, rfl, rfl, rfl⟩

theorem Steady.trans {m m1 m2 : Machine} (h1 : Steady m m1) (h2 : Steady m1 m2) : Steady m m2 :=
  ⟨h2.current.trans h1.current, h2.csr.trans h1.csr, h2.halted.trans h1.halted,
    h2.frame.trans h1.frame⟩

theorem steady_setThread (m : Machine) (i : Fin 16) (thread : Thread) :
    Steady m (m.setThread i thread) := ⟨rfl, rfl, rfl, rfl⟩

section Tasks

variable {m : Machine}

variable {k : System} {target : Int} {i : Fin 16}

theorem sched_newThread {slot : Fin 16} {task : Task} {context : TrapContext} {space : AddressSpace}
    {ok : Bool} {pid : Int} (htasks : k.tasks = update m.tasks slot task)
    (htask : task.state = (if ok then .ready else .unused) ∧ task.pid = m.nextPid ∧
      task.ppid = (m.tasks m.current).pid ∧ task.exitCode = 0 ∧ task.waitTarget = -1)
    (hcount : k.taskCount = if ok then m.taskCount + 1 else m.taskCount)
    (hpid : k.nextPid = m.nextPid + 1) :
    sched { m.setThread slot (m.newThread slot pid context space) with
        toSystem := k
        orderCounter := m.orderCounter + 1 } = m.sched.spawn slot context ok := by
  obtain ⟨h1, h2, h3, h4, h5⟩ := htask
  simp only [sched, Sched.spawn, Sched.set, setThread, hcount, hpid, htasks, Sched.mk.injEq,
    and_true]
  funext j
  by_cases hj : j = slot
  · subst hj
    simp [slotOf, newThread, h1, h2, h3, h4, h5]
  · simp [hj]

theorem taskCreate_cases (m : Machine) (entry : Word) (name : List UInt8) :
    m.taskCreate entry name = (m, -1) ∨
    ∃ slot ok, freeSlot m.toSystem = some slot ∧
      (m.taskCreate entry name).1.sched =
        m.sched.spawn slot (m.entryContext slot entry) ok ∧
      Steady m (m.taskCreate entry name).1 := by
  rw [taskCreate]
  split
  · exact Or.inl rfl
  next hroom =>
    split
    · exact Or.inl rfl
    next slot hslot =>
      right
      simp only [Kernel.taskCreate, if_neg (not_or.mp hroom).2, hslot]
      split
      · exact ⟨slot, true, rfl, sched_newThread rfl ⟨rfl, rfl, rfl, rfl, rfl⟩ rfl rfl,
          ⟨rfl, rfl, rfl, rfl⟩⟩
      · refine ⟨slot, false, rfl, sched_newThread (update_idem ..) ?_ ?_ rfl,
          ⟨rfl, rfl, rfl, rfl⟩⟩
        · simp [System.setTask]
        · simp [System.setTask]

theorem taskForkFromTrap_cases (m : Machine) (childEpc : Word) (space : AddressSpace) :
    m.taskForkFromTrap childEpc space = (m, -1) ∨
    ∃ slot ok, freeSlot m.toSystem = some slot ∧
      (m.taskForkFromTrap childEpc space).1.sched =
        m.sched.spawn slot (m.forkContext childEpc space) ok ∧
      Steady m (m.taskForkFromTrap childEpc space).1 := by
  rw [taskForkFromTrap]
  split
  · exact Or.inl rfl
  next hroom =>
    split
    · exact Or.inl rfl
    next slot hslot =>
      right
      simp only [Kernel.taskFork, if_neg hroom, hslot]
      split
      · exact ⟨slot, true, rfl, sched_newThread rfl ⟨rfl, rfl, rfl, rfl, rfl⟩ rfl rfl,
          ⟨rfl, rfl, rfl, rfl⟩⟩
      · refine ⟨slot, false, rfl, sched_newThread (update_idem ..) ?_ ?_ rfl,
          ⟨rfl, rfl, rfl, rfl⟩⟩
        · simp [System.setTask]
        · simp [System.setTask]

theorem sched_wakeParent (i : Fin 16) : (m.wakeParent i).sched = m.sched.wakeParent i := by
  have hfind : m.sched.find (m.sched.slots i).ppid = findPid m.toSystem (m.tasks i).ppid := rfl
  rw [wakeParent, Sched.wakeParent, hfind]
  cases findPid m.toSystem (m.tasks i).ppid with
  | none => rfl
  | some parent =>
    have hcond : (m.state parent = .blocked ∧ ((m.tasks parent).waitTarget < 0 ∨
        (m.tasks parent).waitTarget = (m.tasks i).pid)) =
        ((m.sched.slots parent).state = .blocked ∧ ((m.sched.slots parent).target < 0 ∨
          (m.sched.slots parent).target = (m.sched.slots i).pid)) := rfl
    simp only [← hcond]
    split
    · exact sched_wake parent
    · rfl

theorem steady_wakeParent (m : Machine) (i : Fin 16) : Steady m (m.wakeParent i) := by
  rw [wakeParent]
  split
  · exact .refl m
  · split
    · exact ⟨rfl, rfl, rfl, rfl⟩
    · exact .refl m

/-- Who a task is does not change when its parent is woken. -/
theorem wakeParent_pid (m : Machine) (i j : Fin 16) :
    ((m.wakeParent i).tasks j).pid = (m.tasks j).pid := by
  rw [wakeParent]
  split
  · rfl
  split
  · next parent hparent hblocked =>
    show (update m.tasks parent _ j).pid = _
    by_cases hj : j = parent
    · subst hj
      simp [setThread]
    · simp [hj]
  · rfl

theorem sched_adoptChildren (pid : Int) :
    sched { m with toSystem := adoptChildren m.toSystem pid } = m.sched.adopt pid := by
  simp only [sched, Sched.adopt, adoptChildren, Sched.mk.injEq, and_true]
  funext j
  have hcond : (j ≠ 0 ∧ (m.tasks j).state ≠ .unused ∧ (m.tasks j).ppid = pid) =
      (j ≠ 0 ∧ (slotOf (m.tasks j) (m.threads j)).state ≠ .unused ∧
        (slotOf (m.tasks j) (m.threads j)).ppid = pid) := rfl
  simp only [← hcond]
  split <;> rfl

theorem sched_endTask (i : Fin 16) (code : Int) : (m.endTask i code).sched = m.sched.finish i code := by
  have hzombie : sched { m.setTask i { m.tasks i with exitCode := code, state := .zombie } with
      toSystem := (m.setTask i
        { m.tasks i with exitCode := code, state := .zombie }).toSystem.call
          (.closeAll (m.tasks i).pid) } =
      m.sched.set i { m.sched.slots i with exitCode := code, state := .zombie } := by
    rw [← show slotOf { m.tasks i with exitCode := code, state := .zombie } (m.threads i) =
      { m.sched.slots i with exitCode := code, state := .zombie } from rfl, ← sched_setTask]
    rfl
  have hpid : ((m.setTask i { m.tasks i with exitCode := code, state := .zombie }).tasks i).pid =
      (m.tasks i).pid := by simp [setTask]
  simp only [endTask, sched_adoptChildren, sched_wakeParent, Sched.finish, hpid]
  rw [hzombie, wakeParent_pid]
  congr 1

theorem steady_endTask (m : Machine) (i : Fin 16) (code : Int) : Steady m (m.endTask i code) := by
  have hwake := fun m1 : Machine => steady_wakeParent m1 i
  exact ⟨(hwake _).current, (hwake _).csr, (hwake _).halted, (hwake _).frame⟩

theorem taskKill_cases (m : Machine) (pid code : Int) :
    m.taskKill pid code = (m, -1) ∨
    ∃ target, findPid m.toSystem pid = some target ∧ (m.tasks target).pid ≠ 0 ∧
      target ≠ m.current ∧ m.state target ≠ .zombie ∧ (m.tasks target).name ≠ shellName ∧
      (m.taskKill pid code).1.sched = m.sched.kill target code ∧
      Steady m (m.taskKill pid code).1 := by
  rw [taskKill]
  split
  · exact Or.inl rfl
  next target hfind =>
    split
    · exact Or.inl rfl
    · next hno =>
      simp only [not_or] at hno
      refine Or.inr ⟨target, hfind, hno.1, hno.2.1, hno.2.2.1, hno.2.2.2, ?_, ?_⟩
      · dsimp only
        rw [sched_endTask, sched_setThread]
        rfl
      · exact (steady_setThread m target _).trans (steady_endTask _ target code)

/-- A child, by the test of `task_waitpid`. -/
theorem waitsFor_iff {parent : Fin 16} :
    waitsFor m.toSystem parent target i = true ↔ m.sched.Child parent target i := by
  simp only [waitsFor, decide_eq_true_eq]
  rfl

theorem zombieChild_eq_some {child : Fin 16} (h : m.zombieChild target = some child) :
    m.sched.Child m.current target child ∧ m.state child = .zombie ∧
      ∀ i, i < child → m.sched.Child m.current target i → m.state i ≠ .zombie := by
  obtain ⟨hchild, hfirst⟩ := find?_finRange_eq_some.mp h
  simp only [Bool.and_eq_true, waitsFor_iff, beq_iff_eq] at hchild
  refine ⟨hchild.1, hchild.2, fun i hi hc hz => ?_⟩
  have hno := hfirst i hi
  rw [waitsFor_iff.mpr hc, Bool.true_and, beq_eq_false_iff_ne] at hno
  exact hno hz

theorem zombieChild_eq_none (h : m.zombieChild target = none)
    (hi : m.sched.Child m.current target i) : m.state i ≠ .zombie := by
  have hno := find?_finRange_eq_none.mp h i
  rw [waitsFor_iff.mpr hi, Bool.true_and, beq_eq_false_iff_ne] at hno
  exact hno

/-- Giving the pages of a child back does not show in the table. -/
theorem release_slot (m : Machine) (child i : Fin 16) :
    slotOf (m.tasks i) ((m.release child).threads i) = slotOf (m.tasks i) (m.threads i) := by
  rw [release]
  by_cases hi : i = child
  · subst hi
    split <;> simp [setThread, slotOf]
  · split <;> simp [setThread, hi]

theorem steady_release (m : Machine) (child : Fin 16) : Steady m (m.release child) := by
  rw [release]
  split <;> exact ⟨rfl, rfl, rfl, rfl⟩

theorem sched_reaped {child : Fin 16} (htasks : k.tasks = update m.tasks child
      { m.tasks child with
        hasUserSpace := false, state := .unused, pid := -1, ppid := -1, name := [] })
    (hcount : k.taskCount = m.taskCount - 1) (hpid : k.nextPid = m.nextPid) :
    sched { m.release child with toSystem := k } = m.sched.reap child := by
  have hpolicy : (m.release child).policy = m.policy := by rw [release]; split <;> rfl
  have hclock : (m.release child).orderCounter = m.orderCounter := by
    rw [release]; split <;> rfl
  simp only [sched, Sched.reap, Sched.set, hcount, hpid, htasks, hpolicy, hclock,
    (steady_release m child).current, Sched.mk.injEq, and_true]
  funext j
  by_cases hj : j = child
  · subst hj
    have hslot := release_slot m j j
    simp only [slotOf, Slot.mk.injEq] at hslot
    simp [slotOf, hslot]
  · simpa [hj] using release_slot m child j

/-- How `task_waitpid` ends: it reaps, it blocks, or it changes nothing. -/
theorem taskWaitpid_cases (m : Machine) (target : Int) (nohang : Bool) :
    (∃ child m', m.zombieChild target = some child ∧
      m.taskWaitpid target nohang =
        (m', (m.tasks child).pid, some (m.tasks child).exitCode) ∧
      m'.sched = m.sched.reap child ∧ Steady m m') ∨
    (∃ m', m.zombieChild target = none ∧ (∃ i, m.sched.Child m.current target i) ∧
      nohang = false ∧ m.taskWaitpid target nohang = (m', -2, none) ∧
      m'.sched = m.sched.wait target ∧ Steady m m') ∨
    m.zombieChild target = none ∧
      ((∃ i, m.sched.Child m.current target i) → nohang = true) ∧
      ∃ result, result ≤ 0 ∧ m.taskWaitpid target nohang = (m, result, none) := by
  have hfind : ((List.finRange 16).find? fun i =>
      waitsFor m.toSystem m.current target i && ((m.tasks i).state == .zombie)) =
        m.zombieChild target := rfl
  simp only [taskWaitpid, Kernel.taskWaitpid, hfind]
  cases hz : m.zombieChild target with
  | some child =>
    refine Or.inl ⟨child, _, rfl, rfl, sched_reaped rfl rfl rfl, ?_⟩
    obtain ⟨h1, h2, h3, h4⟩ := steady_release m child
    exact ⟨h1, h2, h3, h4⟩
  | none =>
    right
    by_cases hany : (List.finRange 16).any (waitsFor m.toSystem m.current target) = true
    · have hchild : ∃ i, m.sched.Child m.current target i := by
        obtain ⟨i, -, hi⟩ := List.any_eq_true.mp hany
        exact ⟨i, waitsFor_iff.mp hi⟩
      rw [if_pos hany]
      cases nohang with
      | true => exact Or.inr ⟨rfl, fun _ => rfl, 0, le_refl 0, rfl⟩
      | false =>
        simp only [Bool.false_eq_true, if_false, if_true]
        refine Or.inl ⟨_, trivial, hchild, trivial, rfl, ?_, ⟨rfl, rfl, rfl, rfl⟩⟩
        simp only [sched, Sched.wait, Sched.set, setThread, System.setTask, Sched.mk.injEq,
          and_true]
        funext j
        by_cases hj : j = m.current
        · subst hj
          simp [slotOf]
        · simp [hj]
    · have hnone : ¬ ∃ i, m.sched.Child m.current target i := by
        rintro ⟨i, hi⟩
        exact hany (List.any_eq_true.mpr ⟨i, List.mem_finRange i, waitsFor_iff.mpr hi⟩)
      rw [if_neg hany]
      exact Or.inr ⟨rfl, fun h => absurd h hnone, -1, by decide, rfl⟩

theorem freeSlot_unused {slot : Fin 16} (h : freeSlot k = some slot) :
    slot ≠ 0 ∧ (k.tasks slot).state = .unused := by
  simpa using (find?_finRange_eq_some.mp h).1

theorem findPid_used {pid : Int} (h : findPid k pid = some i) :
    (k.tasks i).state ≠ .unused ∧ (k.tasks i).pid = pid := by
  simpa using (find?_finRange_eq_some.mp h).1

/-- Kernel code that waits for a semaphore, or posts it. -/
theorem sched_taskBlock (hrun : m.sched.Running) (address : Nat) :
    (m.taskBlock (.object address)).sched = m.sched ∨
      Sched.Change m.sched .block (m.taskBlock (.object address)).sched := by
  rw [taskBlock]
  split
  · exact Or.inl rfl
  next hpid =>
    right
    have heq : ((m.setThread m.current
        { m.threads m.current with waitChannel := some (.object address) }).setTask m.current
          { m.tasks m.current with state := .blocked }).sched =
        m.sched.block (.object address) := by
      rw [sched_setTask, sched_setThread]
      simp only [Sched.set, Sched.block, update_idem]
      congr 2
      simp [setThread, slotOf, sched]
    rw [heq]
    exact .block hrun address hpid

theorem waitsOn_change {channel : Nat} (hrun : m.sched.Running)
    (h : m.waitsOn (.object channel) i = true) :
    Sched.Change m.sched (.wake i) (m.wake i).sched ∧ (m.wake i).sched.Running := by
  simp only [waitsOn, decide_eq_true_eq] at h
  have hne : m.current ≠ i := by
    rintro rfl
    have hstate := h.2.1
    rw [show m.state m.current = .running from hrun] at hstate
    cases hstate
  rw [sched_wake]
  refine ⟨.wake hrun channel h.1 h.2.1 h.2.2, ?_⟩
  show ((m.sched.wake i).slots m.current).state = .running
  rw [Sched.slots_wake, if_neg hne]
  exact hrun

theorem taskWakeAll_changes (m : Machine) (hrun : m.sched.Running) (address : Nat) :
    ∃ acts, (∀ a ∈ acts, ∃ i, a = .wake i) ∧
      Sched.Changes m.sched acts (m.taskWakeAll (.object address)).sched := by
  rw [taskWakeAll]
  generalize List.finRange 16 = slots
  induction slots generalizing m with
  | nil => exact ⟨[], by simp, .nil _⟩
  | cons i rest ih =>
    rw [List.foldl_cons]
    split
    · next hwaits =>
      obtain ⟨hchange, hstill⟩ := waitsOn_change hrun hwaits
      obtain ⟨acts, hacts, hrest⟩ := ih (m.wake i) hstill
      refine ⟨.wake i :: acts, fun a ha => ?_, .cons hchange hrest⟩
      rcases List.mem_cons.mp ha with rfl | ha
      · exact ⟨i, rfl⟩
      · exact hacts a ha
    · exact ih m hrun

theorem sched_taskSetQuantum (m : Machine) (ticks : Nat) :
    (m.taskSetQuantum ticks).sched = m.sched := by
  simp only [taskSetQuantum, sched, Sched.mk.injEq, and_true]
  funext i
  split <;> rfl

end Tasks

end Machine

end MiniOs.Kernel
