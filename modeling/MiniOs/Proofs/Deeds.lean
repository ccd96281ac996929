import Mathlib.Logic.Relation
import MiniOs.Proofs.Loader
import MiniOs.Proofs.ProcessTree

/-!
# What an event is made of

For the process table of the file system and for memory, an event is one deed at
most: somebody is created, ends or is reaped, or a program is loaded. What comes
before and after it, from the trap to the choice of the next task, is `Quiet`: it
neither takes nor gives up an entry, and it touches no page.

`step_deeds` says this once. What quiet steps and deeds keep holds of every run.
-/

namespace MiniOs.Kernel.Machine

open MiniOs.Lib MiniOs.Fs MiniOs.Spec Function

/-- The same entries, the same memory, and the same address spaces in it. -/
structure Calm (m m' : Machine) : Prop where
  holder : m'.fs.holder = m.fs.holder
  memory : m'.memory = m.memory
  space : ∀ i, (m'.threads i).addressSpace = (m.threads i).addressSpace
  hasSpace : ∀ i, (m'.tasks i).hasUserSpace = (m.tasks i).hasUserSpace

/-- And the same tasks. -/
structure Quiet (m m' : Machine) : Prop extends Calm m m' where
  alike : Sched.Alike m.sched m'.sched

section Calm

variable {m m₁ m₂ : Machine}

theorem Calm.refl (m : Machine) : Calm m m := ⟨rfl, rfl, fun _ => rfl, fun _ => rfl⟩

theorem Calm.trans (h1 : Calm m m₁) (h2 : Calm m₁ m₂) : Calm m m₂ :=
  ⟨h2.holder.trans h1.holder, h2.memory.trans h1.memory,
    fun i => (h2.space i).trans (h1.space i), fun i => (h2.hasSpace i).trans (h1.hasSpace i)⟩

variable (h : Calm m m₁)
include h

theorem Calm.setThread {i : Fin 16} {thread : Thread}
    (hthread : thread.addressSpace = (m₁.threads i).addressSpace) :
    Calm m (m₁.setThread i thread) := by
  refine h.trans ⟨rfl, rfl, fun j => ?_, fun _ => rfl⟩
  show (update m₁.threads i thread j).addressSpace = _
  rcases eq_or_ne j i with rfl | hj
  · rw [update_self, hthread]
  · rw [update_of_ne hj]

theorem Calm.setTask {i : Fin 16} {task : Task}
    (htask : task.hasUserSpace = (m₁.tasks i).hasUserSpace) : Calm m (m₁.setTask i task) := by
  refine h.trans ⟨rfl, rfl, fun _ => rfl, fun j => ?_⟩
  show (update m₁.tasks i task j).hasUserSpace = _
  rcases eq_or_ne j i with rfl | hj
  · rw [update_self, htask]
  · rw [update_of_ne hj]

theorem Calm.makeReady (i : Fin 16) : Calm m (m₁.makeReady i) := by
  have hset : Calm m ((m₁.setTask i { m₁.tasks i with state := .ready }).setThread i
      { m₁.threads i with readyOrder := m₁.orderCounter + 1 }) :=
    (h.setTask (by rfl)).setThread (by rfl)
  exact ⟨hset.holder, hset.memory, hset.space, hset.hasSpace⟩

theorem Calm.wake (i : Fin 16) : Calm m (m₁.wake i) :=
  (h.setThread (by rfl)).makeReady i

theorem Calm.resume (i : Fin 16) : Calm m (m₁.resume i) := by
  have hset : Calm m ((m₁.setTask i { m₁.tasks i with state := .running }).setThread i
      { m₁.threads i with
        ticksLeft := (m₁.threads i).timeSlice
        contextSwitches := (m₁.threads i).contextSwitches + 1 }) :=
    (h.setTask (by rfl)).setThread (by rfl)
  exact ⟨hset.holder, hset.memory, hset.space, hset.hasSpace⟩

theorem Calm.giveWay : Calm m m₁.giveWay.1 := by
  have hdemoted : Calm m m₁.demoted := by
    rw [demoted]
    split
    · exact h.makeReady _
    · exact h
  rw [giveWay_eq]
  split
  · split
    · exact (hdemoted.setTask (by rfl)).setThread (by rfl)
    · exact hdemoted
  · exact hdemoted.resume _

theorem Calm.spendTick : Calm m m₁.spendTick.1 := by
  have htick := h.setThread (show Thread.addressSpace { m₁.threads m₁.current with
      runtimeTicks := (m₁.threads m₁.current).runtimeTicks + 1 } = _ from rfl)
  simp only [Machine.spendTick]
  split
  · exact htick
  · split
    · exact htick.setThread rfl
    · exact htick

theorem Calm.switchFromTrap (force : Bool) :
    Calm m (m₁.switchFromTrap force).1 := by
  have hsave : Calm m (m₁.saveTrapContext m₁.current) := h.setThread rfl
  rw [Machine.switchFromTrap]
  split
  · exact h
  dsimp only
  split
  · exact hsave.giveWay
  · have hspend := hsave.spendTick
    split
    · next m₂ heq => rwa [heq] at hspend
    · next m₂ heq =>
      rw [heq] at hspend
      exact hspend.giveWay

end Calm

/-! ## Quiet steps -/

section Quiet

variable {m m₁ m₂ : Machine}

theorem Quiet.refl (m : Machine) : Quiet m m := ⟨.refl m, .refl m.sched⟩

theorem Quiet.trans (h1 : Quiet m m₁) (h2 : Quiet m₁ m₂) : Quiet m m₂ :=
  ⟨h1.toCalm.trans h2.toCalm, h1.alike.trans h2.alike⟩

/-- Registers are not part of it. -/
theorem quiet_of_eq (hsystem : m₁.toSystem = m.toSystem) (hthreads : m₁.threads = m.threads)
    (hmemory : m₁.memory = m.memory) : Quiet m m₁ := by
  refine ⟨⟨by rw [hsystem], hmemory, fun _ => by rw [hthreads], fun _ => by rw [hsystem]⟩, ?_⟩
  have hslot : ∀ i, m₁.sched.slots i = m.sched.slots i := fun i => by
    simp only [sched, hsystem, hthreads]
  exact ⟨congrArg System.nextPid hsystem, congrArg System.taskCount hsystem,
    fun i => by rw [hslot], fun i => by rw [hslot], fun i => by rw [hslot],
    fun i => by rw [hslot]⟩

theorem quiet_switchFromTrap (m : Machine) (force : Bool) :
    Quiet m (m.switchFromTrap force).1 := by
  refine ⟨(Calm.refl m).switchFromTrap force, ?_⟩
  have hsave := fun context => Sched.alike_save m.sched context
  have haway := fun context => (hsave context).trans (Sched.alike_giveWay _)
  cases force with
  | true =>
    rw [show m.switchFromTrap true = m.taskReschedule from rfl, sched_taskReschedule]
    split
    · exact .refl _
    · exact haway _
  | false =>
    rw [show m.switchFromTrap false = m.schedTick from rfl, sched_schedTick]
    split
    · exact .refl _
    · split
      · exact hsave _
      · exact haway _

theorem quiet_afterDispatch (m : Machine) (epc : Word) (replaced : Nat) :
    Quiet m (m.afterDispatch epc replaced) := by
  have hepc : ∀ (m : Machine) (b : Prop) [Decidable b],
      Quiet m (if b then m.setEpc (epc + 4) else m).prepareTrapReturn := by
    intro m b _
    split <;> exact quiet_of_eq (by rfl) (by rfl) (by rfl)
  rw [afterDispatch]
  split
  · exact .refl m
  · split
    · have hfirst : Quiet m (if m.state m.current = .blocked ∧ replaced = 2 then
          m.setEpc (epc + 4) else m) := by
        split <;> exact quiet_of_eq (by rfl) (by rfl) (by rfl)
      exact hfirst.trans ((quiet_switchFromTrap _ true).trans (hepc _ _))
    · exact hepc _ _

theorem quiet_onSystem {k : System} (h : OnFiles m.toSystem k) (result : Int) :
    Quiet m (m.onSystem (k, result)) := by
  have hslot : ∀ i, (m.onSystem (k, result)).sched.slots i = m.sched.slots i := by
    intro i
    show slotOf (k.tasks i) (m.threads i) = slotOf (m.tasks i) (m.threads i)
    rw [h.tasks i]
    rfl
  refine ⟨⟨h.holder, rfl, fun _ => rfl, fun i => ?_⟩, h.nextPid, h.count, fun i => by rw [hslot],
    fun i => by rw [hslot], fun i => by rw [hslot], fun i => by rw [hslot]⟩
  show (k.tasks i).hasUserSpace = _
  rw [h.tasks i]

theorem quiet_taskBlock (hrun : m.sched.Running) (address : Nat) :
    Quiet m (m.taskBlock (.object address)) := by
  constructor
  · rw [taskBlock]
    split
    · exact .refl m
    · exact ((Calm.refl m).setThread (by rfl)).setTask (by rfl)
  · rcases sched_taskBlock hrun address with heq | hchange
    · rw [heq]
      exact .refl _
    · exact hchange.alike trivial

theorem quiet_taskWakeOne (hrun : m.sched.Running) (address : Nat) :
    Quiet m (m.taskWakeOne (.object address)) := by
  rw [taskWakeOne]
  split
  · exact .refl m
  · next i hi =>
    exact ⟨(Calm.refl m).wake i,
      (waitsOn_change hrun (find?_finRange_eq_some.mp hi).1).1.alike trivial⟩

theorem quiet_taskWakeAll (hrun : m.sched.Running) (address : Nat) :
    Quiet m (m.taskWakeAll (.object address)) := by
  constructor
  · rw [taskWakeAll]
    generalize List.finRange 16 = slots
    have hcalm : ∀ m₁, Calm m m₁ → Calm m (slots.foldl
        (fun m i => if m.waitsOn (.object address) i then m.wake i else m) m₁) := by
      induction slots with
      | nil => exact fun m₁ h => h
      | cons i rest ih =>
        intro m₁ h
        refine ih _ ?_
        dsimp only
        split
        · exact h.wake i
        · exact h
    exact hcalm m (.refl m)
  · obtain ⟨acts, hacts, hchanges⟩ := taskWakeAll_changes m hrun address
    refine hchanges.alike fun a ha => ?_
    obtain ⟨i, rfl⟩ := hacts a ha
    trivial

theorem quiet_taskSetQuantum (m : Machine) (ticks : Nat) : Quiet m (m.taskSetQuantum ticks) := by
  refine ⟨⟨rfl, rfl, fun i => ?_, fun _ => rfl⟩, ?_⟩
  · simp only [taskSetQuantum]
    split <;> rfl
  · rw [sched_taskSetQuantum]
    exact .refl _

end Quiet

/-! ## Deeds -/

/-- What is done to processes. -/
inductive Deed (m : Machine) : Machine → Prop where
  | create (hrun : m.sched.Running) (entry : Word) (name : List UInt8) :
      Deed m (m.taskCreate entry name).1
  | fork (hrun : m.sched.Running) : Deed m m.sysFork.1
  | finish {i : Fin 16} (hrun : m.sched.Running) (hlive : (m.sched.slots i).Live)
      (hpid : (m.tasks i).pid ≠ 0) (code : Int) : Deed m (m.endTask i code)
  | wait (hrun : m.sched.Running) (pid : Int) (nohang : Bool) :
      Deed m (m.taskWaitpid pid nohang).1
  | execve (hrun : m.sched.Running) (path : CStr) (argv envp : List CStr) :
      Deed m (m.userExecve path argv envp).1
  | load (hrun : m.sched.Running) {path : CStr} {argv envp : List CStr} {s : FsSt}
      {memory : Memory} (h : prepareProgram m.fs m.memory (m.tasks m.current).cwdInode path argv
        envp = (s, memory, none)) : Deed m { m with fs := s, memory := memory }
  | enter (hrun : m.sched.Running) (hspace : (m.tasks m.current).hasUserSpace = false)
      {path : CStr} {argv envp : List CStr} {s : FsSt} {memory : Memory} {program : LoadedProgram}
      (h : prepareProgram m.fs m.memory (m.tasks m.current).cwdInode path argv envp =
        (s, memory, some program)) : Deed m ({ m with fs := s, memory := memory }.enterUser program)

/-- A program that is loaded shows in the table as the context of the task. -/
theorem userExecve_alike (m : Machine) (path : CStr) (argv envp : List CStr) :
    Sched.Alike m.sched (m.userExecve path argv envp).1.sched := by
  rcases userExecve_cases m path argv envp with ⟨m', heq, hsched, -⟩ | ⟨m', context, heq, hsched, -⟩
  · rw [heq, hsched]
    exact .refl _
  · rw [heq, hsched]
    exact Sched.alike_save _ context

theorem enterUser_alike (m : Machine) (program : LoadedProgram) :
    Sched.Alike m.sched (m.enterUser program).sched := by
  obtain ⟨context, hcontext⟩ := sched_enterUser m program
  rw [hcontext]
  exact Sched.alike_save _ context

/-- The tree of processes is well formed after every deed. -/
theorem Deed.wf {m m' : Machine} (h : Deed m m') (hwf : m.sched.Wf) : m'.sched.Wf := by
  cases h with
  | create hrun entry name =>
    rcases taskCreate_cases m entry name with heq | ⟨slot, ok, hslot, hsched, -⟩
    · rwa [heq]
    · rw [hsched]
      exact hwf.spawn hrun _ ok (freeSlot_unused hslot).1 (freeSlot_unused hslot).2
  | fork hrun =>
    rcases sysFork_cases m with ⟨hsched, -⟩ | ⟨slot, child, ok, hslot, -, hsched, -⟩
    · rwa [hsched]
    · rw [hsched]
      exact hwf.spawn hrun _ ok (freeSlot_unused hslot).1 (freeSlot_unused hslot).2
  | finish hrun hlive hpid code =>
    rw [sched_endTask]
    exact hwf.ended (Sched.finish_ended hlive.used code) hlive.used hpid
  | wait hrun pid nohang =>
    rcases taskWaitpid_cases m pid nohang with ⟨child, m', hchild, heq, hsched, -⟩ |
      ⟨m', hnone, hchild, -, heq, hsched, -⟩ | ⟨-, -, result, -, heq⟩
    · rw [heq, hsched]
      obtain ⟨hc, hzombie, -⟩ := zombieChild_eq_some hchild
      exact hwf.reap hc.1 hzombie
    · rw [heq, hsched]
      exact (Sched.Change.wait hrun pid hchild fun i hi => zombieChild_eq_none hnone hi).wf hwf
    · rwa [heq]
  | execve hrun path argv envp => exact hwf.of_alike (userExecve_alike m path argv envp)
  | load hrun h => exact hwf
  | enter hrun hspace h => exact hwf.of_alike (enterUser_alike _ _)

/-- Quiet steps and deeds one after the other. -/
def Deeds : Machine → Machine → Prop := Relation.ReflTransGen fun m m' => Quiet m m' ∨ Deed m m'

section Deeds

variable {m m₁ m₂ : Machine}

theorem Quiet.deeds (h : Quiet m m₁) : Deeds m m₁ := .single (.inl h)

theorem Deed.deeds (h : Deed m m₁) : Deeds m m₁ := .single (.inr h)

theorem Deeds.trans (h1 : Deeds m m₁) (h2 : Deeds m₁ m₂) : Deeds m m₂ :=
  Relation.ReflTransGen.trans h1 h2

/-- What quiet steps and deeds keep while the tree of processes is well formed. -/
theorem Deeds.inv {P : Machine → Prop} (hquiet : ∀ {m m'}, Quiet m m' → P m → P m')
    (hdeed : ∀ {m m'}, Deed m m' → m.sched.Wf → P m → P m') (h : Deeds m m₁) (hwf : m.sched.Wf)
    (hm : P m) : m₁.sched.Wf ∧ P m₁ := by
  induction h with
  | refl => exact ⟨hwf, hm⟩
  | tail _ hlast ih =>
    rcases hlast with hlast | hlast
    · exact ⟨ih.1.of_alike hlast.alike, hquiet hlast ih.2⟩
    · exact ⟨hlast.wf ih.1, hdeed hlast ih.1 ih.2⟩

theorem taskExit_deeds (hrun : m.sched.Running) (code : Int) : Deeds m (m.taskExit code) := by
  rw [taskExit]
  split
  · exact (Quiet.refl m).deeds
  · next hpid => exact (Deed.finish hrun hrun.live hpid code).deeds

theorem taskKill_deeds (hrun : m.sched.Running) (pid code : Int) :
    Deeds m (m.taskKill pid code).1 := by
  rw [taskKill]
  split
  · exact (Quiet.refl m).deeds
  next target hfind =>
    split
    · exact (Quiet.refl m).deeds
    next hok =>
      simp only [not_or] at hok
      obtain ⟨hpid, hother, hzombie, -⟩ := hok
      -- the wait channel of the target goes first
      have hclear : Quiet m (m.setThread target { m.threads target with waitChannel := none }) := by
        have hused := (findPid_used hfind).1
        refine ⟨(Calm.refl m).setThread rfl, ?_⟩
        rw [sched_setThread]
        refine ⟨rfl, rfl, ?_, ?_, ?_, ?_⟩ <;> intro j <;> rw [Sched.slots_set] <;> split
        all_goals first
          | rfl
          | next hj => rw [hj]; rfl
      refine hclear.deeds.trans (@Deed.finish (m.setThread target _) target ?_ ?_ hpid code).deeds
      · show ((m.setThread target _).sched.slots m.current).state = .running
        rw [sched_setThread, Sched.slots_set_ne _ (Ne.symm hother)]
        exact hrun
      · rw [hclear.alike.live]
        exact ⟨(findPid_used hfind).1, hzombie⟩

theorem sysExecve_deeds (hrun : m.sched.Running) (mem : UserMemory)
    (userPath userArgv userEnvp : Nat) :
    Deeds m (m.sysExecve mem userPath userArgv userEnvp).1 := by
  rw [sysExecve]
  split
  · exact (Quiet.refl m).deeds
  next path hpath =>
    split
    · exact (Quiet.refl m).deeds
    next argv total hargv =>
      split
      · exact (Quiet.refl m).deeds
      next envp total' henvp =>
        have hexec := (Deed.execve hrun path (if argv = [] then [path] else argv) envp).deeds
        split
        · next m₁ heq => rwa [heq] at hexec
        next m₁ heq =>
          rw [heq] at hexec
          refine hexec.trans (Quiet.deeds ?_)
          refine ⟨⟨?_, rfl, fun _ => rfl, fun i => ?_⟩, ?_⟩
          · exact @step_holder (.closeExecFds (currentPid m₁.toSystem m₁.current))
              trivial m₁.fs
          · simp only [taskSetCurrentName, System.setTask, System.call]
            rcases eq_or_ne i m₁.current with rfl | hi
            · simp
            · simp [hi]
          · have hsched : sched { m₁ with
                toSystem := taskSetCurrentName (m₁.toSystem.call (.closeExecFds
                  (currentPid m₁.toSystem m₁.current))) m₁.current path.bytes } =
                m₁.sched :=
              @sched_setTask_same m₁ m₁.current
                { m₁.tasks m₁.current with name := copyName path.bytes } rfl
            exact hsched ▸ .refl _

theorem syscallDispatch_deeds (hrun : m.sched.Running) (mem : UserMemory) :
    Deeds m (m.syscallDispatch mem).1 := by
  have hanswer : ∀ {m₁ : Machine} (result : Int), Deeds m m₁ → Deeds m (m₁.answer result) :=
    fun result h => h.trans (quiet_of_eq (by rfl) (by rfl) (by rfl)).deeds
  have hwait : ∀ pid userStatus options, Deeds m (m.sysWaitpid mem pid userStatus options).1 := by
    intro pid userStatus options
    have hdeed := (Deed.wait hrun (toInt pid) (options % 2 = 1)).deeds
    simp only [sysWaitpid]
    split <;> exact hdeed
  by_cases hfile : ∀ c ∈ m.call, c ∉ processCalls
  · obtain ⟨k, result, hfiles, heq⟩ := syscallDispatch_onFiles mem hfile
    rw [heq]
    exact (quiet_onSystem hfiles result).deeds
  push Not at hfile
  obtain ⟨number, hcall, hprocess⟩ := hfile
  have hdispatch : Sysno.ofNumber (m.frame 17) = some number := hcall
  unfold syscallDispatch
  rw [hdispatch]
  cases number with
  | exit =>
    have hexit := taskExit_deeds hrun (toInt (m.frame 10).toNat)
    simp only [sysExit]
    split
    · exact hexit.trans (quiet_of_eq (by rfl) (by rfl) (by rfl)).deeds
    · exact hexit
  | wait => exact hanswer _ (hwait _ _ _)
  | waitpid => exact hanswer _ (hwait _ _ _)
  | fork => exact hanswer _ (Deed.fork hrun).deeds
  | execve =>
    have hexec := sysExecve_deeds hrun mem (m.frame 10).toNat (m.frame 11).toNat (m.frame 12).toNat
    dsimp only
    split
    · next m₁ heq => rwa [heq] at hexec
    · next m₁ heq =>
      rw [heq] at hexec
      exact hanswer _ hexec
  | yield => exact (Quiet.refl m).deeds
  | kill =>
    refine hanswer _ ?_
    simp only [sysKill]
    generalize (if (m.frame 11).toNat = 0 then (15 : Int)
      else toInt (m.frame 11).toNat) = signal
    split
    · exact (Quiet.refl m).deeds
    · exact taskKill_deeds hrun _ _
  | _ => exact absurd hprocess (by decide)

theorem trap_deeds (t : Trap) (henabled : m.enabled (.trap t) = true) :
    Deeds m (m.trapHandler t) := by
  have htrapped : Quiet m (m.trapped t) := quiet_of_eq (by rfl) (by rfl) (by rfl)
  have hreturn : ∀ m₁ : Machine, Quiet m₁ m₁.prepareTrapReturn := fun m₁ =>
    quiet_of_eq (by rfl) (by rfl) (by rfl)
  refine htrapped.deeds.trans ?_
  simp only [trapHandler]
  split
  · split
    · exact ((quiet_switchFromTrap _ false).trans (hreturn _)).deeds
    · exact (hreturn _).deeds
  split
  · next hecall =>
    refine Deeds.trans ?_ (quiet_afterDispatch _ t.epc _).deeds
    simp only [enabled] at henabled
    split at henabled
    · next hrun => exact @syscallDispatch_deeds (m.trapped t) hrun t.mem
    · -- the end of `task_block`
      have h124 : t.frame 17 = 124 := of_decide_eq_true henabled hecall
      have hyield : Sysno.ofNumber ((m.trapped t).frame 17) = some .yield := by
        show Sysno.ofNumber (t.frame 17) = _
        rw [h124]
        decide
      simp only [syscallDispatch, hyield]
      exact (Quiet.refl _).deeds
    · exact absurd hecall (of_decide_eq_true henabled)
    · cases henabled
  · exact (quiet_of_eq (by rfl) (by rfl) (by rfl)).deeds

theorem userTaskEntry_deeds (hrun : m.sched.Running)
    (hspace : (m.tasks m.current).hasUserSpace = false) : Deeds m m.userTaskEntry := by
  rw [userTaskEntry]
  split
  · next s memory heq =>
    exact (Deed.load hrun heq).deeds.trans
      (@taskExit_deeds { m with fs := s, memory := memory } hrun 127)
  · next s memory program heq => exact (Deed.enter hrun hspace heq).deeds

theorem step_deeds (m : Machine) (e : Event) : Deeds m (m.step e) := by
  rw [step]
  split
  · exact (Quiet.refl m).deeds
  next hgo =>
    rw [not_or, Bool.not_eq_false] at hgo
    have hrun := @enabled_running m e hgo.2
    cases e with
    | trap t => exact trap_deeds t hgo.2
    | create entry name => exact (Deed.create (hrun (by simp)) entry name).deeds
    | userTaskEntry => exact userTaskEntry_deeds (hrun (by simp)) (of_decide_eq_true hgo.2).2
    | exit code => exact taskExit_deeds (hrun (by simp)) code
    | reap pid => exact (Deed.wait (hrun (by simp)) pid true).deeds
    | block address => exact (quiet_taskBlock (hrun (by simp)) address).deeds
    | wakeOne address => exact (quiet_taskWakeOne (hrun (by simp)) address).deeds
    | wakeAll address => exact (quiet_taskWakeAll (hrun (by simp)) address).deeds
    | setScheduler policy => exact (quiet_of_eq (by rfl) (by rfl) (by rfl)).deeds
    | setQuantum ticks => exact (quiet_taskSetQuantum m ticks).deeds

theorem runEvents_inv {P : Machine → Prop} (hquiet : ∀ {m m'}, Quiet m m' → P m → P m')
    (hdeed : ∀ {m m'}, Deed m m' → m.sched.Wf → P m → P m') (hwf : m.sched.Wf) (hm : P m)
    (events : List Event) : P (m.runEvents events) :=
  (@run_inv _ _ step (fun m => m.sched.Wf ∧ P m)
    (fun m e h => (step_deeds m e).inv hquiet hdeed h.1 h.2) m ⟨hwf, hm⟩ events).2

end Deeds

end MiniOs.Kernel.Machine
