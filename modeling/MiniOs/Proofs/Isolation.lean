import MiniOs.Proofs.Fairness
import MiniOs.Proofs.TrapEntry
import MiniOs.Proofs.Waitpid

/-!
# Every task has its own registers

A run is recorded: next to the machine stands, for every task, the context it was
last seen with, which is the one it was created with until it runs, and from then on
the frame and the control registers of the moment it lost the processor. The record
is never looked at by the kernel. What a task is resumed with is nevertheless always
what the record says, since nobody but `switch_from_trap` writes to the entry of a
task that does not have the processor.

The registers themselves are loaded by `trap_entry`, from the frame.
-/

namespace MiniOs.Spec.Sched

open MiniOs.Kernel

/-- A slot of a table in which a task appeared. -/
theorem spawn_new {s s' : Sched} {i slot : Fin 16} {context : TrapContext} {ok : Bool}
    (hs : s' = s.spawn slot context ok) (hno : ¬ (s.slots i).Used) (hused : (s'.slots i).Used) :
    i = slot ∧ (s'.slots i).context = context := by
  subst hs
  by_cases hi : i = slot
  · subst hi
    exact ⟨rfl, congrArg Slot.context (slots_set_self i _)⟩
  · have hother : (s.spawn slot context ok).slots i = s.slots i := slots_set_ne _ hi
    rw [hother] at hused
    exact absurd hused hno

end MiniOs.Spec.Sched

namespace MiniOs.Kernel

open MiniOs.Lib MiniOs.Spec

namespace Machine

variable {m : Machine} {e : Event} {i n : Fin 16} {context : TrapContext}

/-- The slot and the context `task_create` or `task_fork_from_trap` gives a new task. -/
def created (m : Machine) : Event → Option (Fin 16 × TrapContext)
  | .create entry _ => (freeSlot m.toSystem).map fun slot => (slot, m.entryContext slot entry)
  | .trap t =>
    if t.IsEcall ∧ Sysno.ofNumber (t.frame 17) = some .fork then
      match freeSlot m.toSystem,
          (userSpaceClone m.memory (m.threads m.current).addressSpace).2 with
      | some slot, some child => some (slot, (m.trapped t).forkContext (t.epc + 4) child)
      | _, _ => none
    else none
  | _ => none

/-- The frame and the control registers when the processor is taken from the running
task, which may be the next one again. -/
def leftAt (m : Machine) (e : Event) : Option (Fin 16 × TrapContext) :=
  match e with
  | .trap t =>
    if (m.selected e).isSome then (m.atSwitch t).map fun m₁ => (m.current, m₁.context) else none
  | _ => none

theorem leftAt_current (h : m.leftAt e = some (i, context)) :
    i = m.current := by
  cases e with
  | trap t =>
    rw [leftAt] at h
    split at h
    · obtain ⟨m1, -, heq⟩ := Option.map_eq_some_iff.mp h
      cases heq
      rfl
    · cases h
  | _ => cases h

theorem created_unused (h : m.created e = some (i, context)) :
    ¬ (m.sched.slots i).Used := by
  have hfree : freeSlot m.toSystem = some i := by
    cases e with
    | create entry name =>
      obtain ⟨slot, hslot, heq⟩ := Option.map_eq_some_iff.mp h
      cases heq
      exact hslot
    | trap t =>
      rw [created] at h
      split at h
      · split at h
        · next slot child hslot hchild =>
          cases h
          exact hslot
        · cases h
      · cases h
    | _ => cases h
  exact not_not.mpr (freeSlot_unused hfree).2

/-- A task that appears has the context it was created with. -/
theorem step_created (hon : m.halted = false) (henabled : m.enabled e = true)
    (hdoes : m.Does e (.spawn i)) (hno : ¬ (m.sched.slots i).Used)
    (hused : ((m.step e).sched.slots i).Used) :
    m.created e = some (i, ((m.step e).sched.slots i).context) := by
  cases e with
  | create entry name =>
    have hstep : m.step (.create entry name) = (m.taskCreate entry name).1 := by
      rw [step, if_neg (by simp [hon, henabled])]
      rfl
    rw [hstep] at hused ⊢
    rcases taskCreate_cases m entry name with heq | ⟨slot, ok, hslot, hsched, -⟩
    · rw [heq] at hused
      exact absurd hused hno
    · obtain ⟨rfl, hcontext⟩ := Sched.spawn_new hsched hno hused
      rw [hcontext, created, hslot]
      rfl
  | trap t =>
    have hfork : t.IsEcall ∧ Sysno.ofNumber (t.frame 17) = some .fork := by
      rcases hdoes with h | ⟨hecall, hcall⟩ | ⟨-, -, h⟩
      · cases h
      · exact ⟨hecall, hcall⟩
      · cases h
    obtain ⟨hecall, hcall⟩ := hfork
    have hnumber : t.frame 17 = 220 := Sysno.ofNumber_eq_some hcall
    have hrun : m.sched.Running := ecall_running henabled hecall (by rw [hnumber]; decide)
    have hdispatch : (m.trapped t).syscallDispatch t.mem =
        ((m.trapped t).sysFork.1.answer (m.trapped t).sysFork.2, 0) := by
      have hcall' : Sysno.ofNumber ((m.trapped t).frame 17) = some .fork := hcall
      simp only [syscallDispatch, hcall']
    rcases sysFork_cases (m.trapped t) with ⟨hsched, hsteady⟩ |
      ⟨slot, child, ok, hslot, hchild, hsched, hsteady⟩
    · have hrunning : (m.trapped t).sysFork.1.sched.Running := by rwa [hsched]
      rw [step_answered hon henabled hecall hdispatch hsteady hrunning] at hused
      refine absurd ?_ hno
      have hsame : (m.trapped t).sysFork.1.sched = m.sched := hsched
      exact hsame ▸ hused
    · have hfree := freeSlot_unused hslot
      have hrunning : (m.trapped t).sysFork.1.sched.Running := by
        rw [hsched]
        exact (Sched.Change.spawn (s := m.sched) hrun _ ok hfree.1 hfree.2).running hrun
          (by simp) (by simp) (by simp)
      rw [step_answered hon henabled hecall hdispatch hsteady hrunning] at hused ⊢
      obtain ⟨rfl, hcontext⟩ := Sched.spawn_new hsched hno hused
      have hslot' : freeSlot m.toSystem = some i := hslot
      have hchild' : (userSpaceClone m.memory (m.threads m.current).addressSpace).2 =
          some child := hchild
      rw [created, if_pos ⟨hecall, hcall⟩, hslot', hchild']
      exact congrArg (fun context => some (i, context)) hcontext.symm
  | _ => cases hdoes

/-- Where `select_next` finds somebody: the table, and what was written down. -/
theorem selected_switch (h : m.selected e = some n) :
    ∃ t m1, e = .trap t ∧ m.halted = false ∧ m.enabled (.trap t) = true ∧
      m.atSwitch t = some m1 ∧ m.leftAt e = some (m.current, m1.context) ∧
      (m.step e).sched = (m1.sched.save m1.context).giveWay ∧
      (m1.sched.save m1.context).demote.next = some n := by
  obtain ⟨d, hd, hn⟩ := Option.bind_eq_some_iff.mp h
  cases e with
  | trap t =>
    rw [choice] at hd
    split at hd
    · cases hd
    next hno =>
      rw [not_or, Bool.not_eq_true, Bool.not_eq_false] at hno
      obtain ⟨m1, hat, hchoice⟩ := Option.bind_eq_some_iff.mp hd
      obtain ⟨hdemote, hgive⟩ := atChoice_some hchoice
      refine ⟨t, m1, rfl, hno.1, hno.2, hat, ?_, ?_, ?_⟩
      · simp [leftAt, h, hat]
      · rw [step_atSwitch hno.1 hno.2 hat, hgive]
      · rw [← hdemote]
        exact hn
  | _ => cases hd

/-- A system call gets to `switch_from_trap` with a task that cannot go on. -/
theorem atSwitch_stopped {t : Trap} {m1 : Machine} (htimer : ¬ t.IsTimer)
    (hat : m.atSwitch t = some m1) :
    m1.state m1.current = .zombie ∨ m1.state m1.current = .blocked := by
  rw [atSwitch, if_neg htimer] at hat
  split at hat
  · dsimp only at hat
    split at hat
    · next hstopped =>
      cases hat
      split <;> exact hstopped.2
    · cases hat
  · cases hat

/-- The task that is selected goes on with what its entry holds. -/
theorem selected_context (h : m.selected e = some n) :
    (m.step e).current = n ∧ (m.step e).context = ((m.step e).sched.slots n).context := by
  obtain ⟨t, m1, rfl, hon, henabled, hat, -, hsched, hnext⟩ := selected_switch h
  have hgive : (m.step (.trap t)).sched = (m1.sched.save m1.context).demote.resume n := by
    rw [hsched, Sched.giveWay, hnext]
  have hcurrent : (m.step (.trap t)).current = n := congrArg Sched.current hgive
  have hsame : m1.current = m.current := atSwitch_current hon henabled hat
  refine ⟨hcurrent, ?_⟩
  rw [hsched, Sched.context_giveWay, Sched.slots_save]
  split
  · next hn =>
    have hn' : n = m.current := hn.trans hsame
    -- only a tick gives the processor back to the task that had it
    by_cases htimer : t.IsTimer
    · rw [atSwitch, if_pos htimer] at hat
      cases hat
      have hstep : m.step (.trap t) = (m.trapped t).schedTick.1.prepareTrapReturn := by
        rw [step, if_neg (by simp [hon, henabled])]
        show m.trapHandler t = _
        rw [trapHandler]
        dsimp only
        rw [if_pos htimer.1, if_pos htimer.2]
      rw [hstep] at hcurrent ⊢
      rcases switchFromTrap_context (m.trapped t) false with ⟨-, -, hcontext⟩ | ⟨-, hne, -⟩
      · exact hcontext
      · exact absurd (hcurrent.trans hn') hne
    · have hready := Sched.next_ready hnext
      have hstate : ((m1.sched.save m1.context).slots n).state = m1.state m1.current := by
        rw [Sched.state_save, hn]
        rfl
      have hnot : ¬ (m1.sched.save m1.context).Running := by
        intro hrun
        rw [Sched.Running, Sched.state_save] at hrun
        rcases atSwitch_stopped htimer hat with h | h
        · exact absurd (h.symm.trans hrun) (by decide)
        · exact absurd (h.symm.trans hrun) (by decide)
      rw [Sched.demote_of_not_running hnot, Sched.Ready, hstate] at hready
      rcases atSwitch_stopped htimer hat with h | h
      · exact absurd (h.symm.trans hready) (by decide)
      · exact absurd (h.symm.trans hready) (by decide)
  · next hn =>
    have hne : (m.step (.trap t)).current ≠ m.current := by
      rw [hcurrent, ← hsame]
      exact hn
    obtain ⟨t', m2, ht', -, -, hat', -, hcontext, -⟩ := step_resumed hne
    cases ht'
    rw [hat] at hat'
    cases hat'
    rw [hcontext, hcurrent]
    rfl

end Machine

/-! ## Recording a run -/

/-- A machine, and for every task the context it was last seen with. -/
structure Recorded where
  machine : Machine
  stored : Fin 16 → TrapContext

namespace Recorded

variable {r : Recorded} {e : Event} {i n : Fin 16} {context : TrapContext}

/-- The record with a new entry. -/
def note (stored : Fin 16 → TrapContext) : Option (Fin 16 × TrapContext) → Fin 16 → TrapContext
  | some (slot, context) => Function.update stored slot context
  | none => stored

theorem note_self {stored : Fin 16 → TrapContext} :
    note stored (some (i, context)) i = context := Function.update_self ..

theorem note_of_ne {stored : Fin 16 → TrapContext} {entry : Option (Fin 16 × TrapContext)}
    (h : ∀ context, entry ≠ some (i, context)) : note stored entry i = stored i := by
  cases entry with
  | none => rfl
  | some new =>
    refine Function.update_of_ne ?_ ..
    rintro rfl
    exact h _ rfl

/-- One event: a task is created, or the processor is taken from a task, or neither. -/
def step (r : Recorded) (e : Event) : Recorded :=
  if r.machine.halted = true ∨ r.machine.enabled e = false then r
  else
    { machine := r.machine.step e
      stored := note (note r.stored (r.machine.created e)) (r.machine.leftAt e) }

def start (m : Machine) : Recorded := ⟨m.taskInit, fun i => (m.taskInit.threads i).trapCtx⟩

theorem step_machine (r : Recorded) (e : Event) : (r.step e).machine = r.machine.step e := by
  rw [step]
  split
  · next hno => rw [Machine.step, if_pos hno]
  · rfl

theorem run_machine (r : Recorded) (events : List Event) :
    (run step r events).machine = r.machine.runEvents events := by
  induction events generalizing r with
  | nil => rfl
  | cons e rest ih =>
    refine (ih (r.step e)).trans ?_
    rw [step_machine]
    rfl

theorem stored_of_left (hon : r.machine.halted = false)
    (henabled : r.machine.enabled e = true) (h : r.machine.leftAt e = some (i, context)) :
    (r.step e).stored i = context := by
  rw [step, if_neg (by simp [hon, henabled]), h]
  exact note_self

theorem stored_of_created (hon : r.machine.halted = false)
    (henabled : r.machine.enabled e = true) (hi : i ≠ r.machine.current)
    (h : r.machine.created e = some (i, context)) : (r.step e).stored i = context := by
  rw [step, if_neg (by simp [hon, henabled]), h]
  exact (note_of_ne fun _ hleft => hi (Machine.leftAt_current hleft)).trans note_self

theorem stored_of_kept (hi : i ≠ r.machine.current) (hused : (r.machine.sched.slots i).Used) :
    (r.step e).stored i = r.stored i := by
  rw [step]
  split
  · rfl
  · exact (note_of_ne fun _ hleft => hi (Machine.leftAt_current hleft)).trans
      (note_of_ne fun _ hcreated => Machine.created_unused hcreated hused)

/-- The record is right about everybody who does not have the processor. -/
def Exact (r : Recorded) : Prop :=
  ∀ i, (r.machine.sched.slots i).Used → i ≠ r.machine.current →
    (r.machine.sched.slots i).context = r.stored i

/-- After an event it is right about everybody the processor was taken from, too. -/
theorem Exact.stored (h : r.Exact) (hon : r.machine.halted = false)
    (henabled : r.machine.enabled e = true) (hused : ((r.machine.step e).sched.slots i).Used)
    (hi : i ≠ r.machine.current ∨ r.machine.selected e ≠ none) :
    ((r.machine.step e).sched.slots i).context = (r.step e).stored i := by
  by_cases hcurrent : i = r.machine.current
  · obtain ⟨n, hn⟩ := Option.ne_none_iff_exists'.mp (hi.resolve_left (not_not.mpr hcurrent))
    obtain ⟨t, m1, rfl, -, -, hat, hleft, hsched, -⟩ := Machine.selected_switch hn
    have hsame : i = m1.sched.current :=
      hcurrent.trans (Machine.atSwitch_current hon henabled hat).symm
    rw [hcurrent, stored_of_left hon henabled hleft, hsched, Sched.context_giveWay,
      Sched.slots_save, if_pos (hcurrent ▸ hsame)]
  · rcases Machine.step_kept hcurrent hused with ⟨-, hused', hcontext, -⟩ | ⟨hdoes, hno, -⟩
    · rw [hcontext, h i hused' hcurrent, stored_of_kept hcurrent hused']
    · have hcreated := Machine.step_created hon henabled hdoes hno hused
      rw [stored_of_created hon henabled hcurrent hcreated]

theorem Exact.step (h : r.Exact) (e : Event) : (r.step e).Exact := by
  by_cases hno : r.machine.halted = true ∨ r.machine.enabled e = false
  · rw [Recorded.step, if_pos hno]
    exact h
  rw [not_or, Bool.not_eq_true, Bool.not_eq_false] at hno
  intro i hused hi
  rw [step_machine] at hused hi ⊢
  refine h.stored hno.1 hno.2 hused ?_
  by_contra hneither
  rw [not_or, not_not, not_not] at hneither
  rw [Machine.selected_none hneither.2] at hi
  exact hi hneither.1

theorem start_exact (m : Machine) : (start m).Exact := fun _ _ _ => rfl

/-- After any run: the task that `switch_from_trap` selects goes on with the control
registers and the registers of the record. And `trap_entry` gives every register back
as it was if the handler leaves the frame alone. The idle task blocks in no wait
(`Machine.enabled`). -/
theorem contexts_isolated (m₀ : Machine) (events : List Event) (h : Hart)
    (trapHandler : Hart → Hart) :
    let m := m₀.taskInit.runEvents events
    let r := run step (start m₀) events
    (∀ t n, m.selected (.trap t) = some n → (∀ i, i ≠ 0 → h.regs i = t.frame i) →
      Handles trapHandler t.frame (m.step (.trap t)).frame → (m.step (.trap t)).current = n ∧
        (m.step (.trap t)).csr.sepc = ((r.step (.trap t)).stored n).epc ∧
        (m.step (.trap t)).csr.sstatus = ((r.step (.trap t)).stored n).status ∧
        (m.step (.trap t)).csr.satp = ((r.step (.trap t)).stored n).satp ∧
        ∀ i, i ≠ 0 → (trapEntry trapHandler h).regs i = ((r.step (.trap t)).stored n).regs i) ∧
    ((∀ i, i ≠ 0 → (trapHandler (TrapEntry.atCall h)).frame i = (TrapEntry.atCall h).frame i) →
      ∀ i, i ≠ 0 → (trapEntry trapHandler h).regs i = h.regs i) := by
  intro m r
  have hmachine : r.machine = m := run_machine _ events
  have hexact : r.Exact := run_inv (fun _ e h => h.step e) (start_exact m₀) events
  constructor
  · intro t n hselected hregs hhandler
    obtain ⟨hcurrent, hcontext⟩ := Machine.selected_context hselected
    obtain ⟨t', m₁, ht', hon, henabled, -, -, hsched, hnext⟩ := Machine.selected_switch hselected
    cases ht'
    have hused : ((m.step (.trap t)).sched.slots n).Used := by
      rw [hsched, (Sched.alike_giveWay _).used, ← (Sched.alike_demote _).used]
      exact (Sched.live_of_state (Sched.next_ready hnext) (by decide) (by decide)).used
    have hstored : (m.step (.trap t)).context = (r.step (.trap t)).stored n := by
      rw [← hmachine] at hselected hon henabled hused hcontext ⊢
      rw [hcontext]
      exact hexact.stored hon henabled hused (Or.inr (by simp [hselected]))
    rw [← hstored]
    refine ⟨hcurrent, rfl, rfl, rfl, fun i hi => ?_⟩
    exact trapEntry_regs hhandler hregs hi
  · intro hframe i hi
    rw [trapEntry, TrapEntry.restore_regs _ hi, hframe i hi, TrapEntry.atCall_frame h hi]

/-- A handler that puts given words into the frame. -/
def writeFrame (frame : Fin 32 → Word) (h : Hart) : Hart :=
  { h with mem := Ram.storeRow h.mem (h.regs 2) frame (List.finRange 32) }

theorem handles_writeFrame (frame frame' : Fin 32 → Word) :
    Handles (writeFrame frame') frame frame' := by
  intro h _ i _
  rw [Hart.frame, writeFrame, Ram.load_storeRow, if_pos (List.mem_finRange i)]

/-- A timer interrupt at address 40, with its number in every register. -/
def numbered : Trap :=
  { Machine.timerTrap with frame := fun i => BitVec.ofNat 64 i.val, epc := 40 }

/-- A new task is given the processor and loses it again. -/
def preempted : List Event :=
  [.setQuantum 1, .create 1 [], .trap Machine.timerTrap, .trap numbered]

/-- The next tick gives it back, with all that was in the registers. -/
theorem contexts_isolated_preempted :
    ∃ m : Machine, m = Machine.powerOn.taskInit.runEvents preempted ∧ m.current = 0 ∧
      m.selected (.trap Machine.timerTrap) = some 1 ∧
      (m.step (.trap Machine.timerTrap)).csr.sepc = 40 ∧ ∀ i, i ≠ 0 →
        (trapEntry (writeFrame (m.step (.trap Machine.timerTrap)).frame)
          ⟨fun _ => 0, fun _ => 0, 0, 0⟩).regs i = BitVec.ofNat 64 i.val := by
  have hselected : (Machine.powerOn.taskInit.runEvents preempted).selected
      (.trap Machine.timerTrap) = some 1 := by decide +kernel
  have hstored : (((run step (start Machine.powerOn) preempted).step
      (.trap Machine.timerTrap)).stored 1).epc = 40 ∧
        ∀ i, (((run step (start Machine.powerOn) preempted).step
          (.trap Machine.timerTrap)).stored 1).regs i = BitVec.ofNat 64 i.val := by
    decide +kernel
  refine ⟨_, rfl, by decide +kernel, hselected, ?_⟩
  obtain ⟨hresumed, -⟩ := contexts_isolated Machine.powerOn preempted
    ⟨fun _ => 0, fun _ => 0, 0, 0⟩ (writeFrame ((Machine.powerOn.taskInit.runEvents
      preempted).step (.trap Machine.timerTrap)).frame)
  obtain ⟨-, hepc, -, -, hregs⟩ :=
    hresumed Machine.timerTrap 1 hselected (fun _ _ => rfl) (handles_writeFrame _ _)
  exact ⟨hepc.trans hstored.1, fun i hi => (hregs i hi).trans (hstored.2 i)⟩

end Recorded

end MiniOs.Kernel
