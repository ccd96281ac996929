import MiniOs.Proofs.ProcessTree
import MiniOs.Proofs.WorkingDirs

/-!
# Who has the processor

Nothing but a change of hands makes a task running, so between two of them there
is at most one, and it is `current`. The task that has the processor may end or
block; what it cannot do is to be left that way by a trap, because the idle task
is always there to take over. That it is always there is the invariant, and one
system call breaks it: a `wait` of the idle task itself that blocks. `task_exit`,
`task_kill` and `task_block` look at the pid of the idle task, `task_waitpid`
does not.
-/

namespace MiniOs.Spec.Sched

open MiniOs.Kernel

variable {s s' : Sched} {i : Fin 16}

/-- Between traps: only `current` may be running, it is not in the queue, and the
idle task is in it or has the processor. -/
structure Proper (s : Sched) : Prop where
  wf : s.Wf
  only : ∀ i, (s.slots i).state = .running → i = s.current
  standing : (s.slots s.current).Used ∧ ¬ s.Ready s.current
  idle : s.Ready 0 ∨ (s.slots 0).state = .running

/-- A change of one task that does not give it the processor. -/
theorem Proper.update {x : Slot} (h : s.Proper) (hwf : s'.Wf) (hcurrent : s'.current = s.current)
    (hslots : s'.slots = Function.update s.slots i x) (hi : i ≠ 0) (hx : x.state ≠ .running)
    (hown : i = s.current → x.state = .blocked) : s'.Proper := by
  have hself : s'.slots i = x := by rw [hslots, Function.update_self]
  have hother : ∀ j, j ≠ i → s'.slots j = s.slots j := fun j hj => by
    rw [hslots, Function.update_of_ne hj]
  refine ⟨hwf, fun j hj => ?_, ?_, ?_⟩
  · rw [hcurrent]
    by_cases hji : j = i
    · rw [hji, hself] at hj
      exact absurd hj hx
    · rw [hother j hji] at hj
      exact h.only j hj
  · rw [Ready, hcurrent]
    by_cases hci : s.current = i
    · rw [hci, hself, Slot.Used, hown hci.symm]
      exact ⟨by decide, by decide⟩
    · rw [hother _ hci]
      exact h.standing
  · rw [Ready, hother 0 hi.symm]
    exact h.idle

theorem Proper.ended (h : s.Proper) {code : Int} (he : Ended s i code s') (hrun : s.Running)
    (hi : (s.slots i).Used) (hpid : (s.slots i).pid ≠ 0) : s'.Proper := by
  have hi0 : i ≠ 0 := by
    rintro rfl
    exact hpid h.wf.idle_pid
  refine ⟨h.wf.ended he hi hpid, fun j hj => ?_, ?_, ?_⟩
  · rw [he.current]
    by_cases hji : j = i
    · rw [hji, he.zombie] at hj
      cases hj
    · rcases he.other j hji with ⟨-, hstate, -⟩ | ⟨-, hready, -⟩
      · exact h.only j (hstate.symm.trans hj)
      · rw [hready] at hj
        cases hj
  · rw [he.current]
    refine ⟨(he.used hi _).mpr hrun.live.used, ?_⟩
    by_cases hci : s.current = i
    · rw [Ready, hci, he.zombie]
      decide
    · -- the parent that is woken was blocked
      rcases he.other _ hci with ⟨-, hstate, -⟩ | ⟨hawaits, -⟩
      · rw [Ready, hstate]
        exact h.standing.2
      · have hblocked := hawaits.2.1
        rw [show (s.slots s.current).state = .running from hrun] at hblocked
        cases hblocked
  · rcases he.other 0 hi0.symm with ⟨-, hstate, -⟩ | ⟨-, hready, -⟩
    · rw [Ready, hstate]
      exact h.idle
    · exact Or.inl hready

/-- Every change keeps the processor where it is, unless the idle task waits. -/
theorem Change.proper {a : Act} (hc : Change s a s') (h : s.Proper)
    (hwait : ∀ target, a = .wait target → s.current ≠ 0) : s'.Proper := by
  have hwf := hc.wf h.wf
  have hnot : ∀ {j : Fin 16}, s.Running → (s.slots j).state ≠ .running → j ≠ s.current := by
    rintro j hrun hj rfl
    exact hj hrun
  cases hc with
  | spawn hrun context ok hslot hfree =>
    refine h.update hwf rfl rfl hslot ?_ fun heq => ?_
    · cases ok <;> simp
    · exact absurd heq (hnot hrun (by simp [hfree]))
  | exit hrun code hpid => exact h.ended (finish_ended hrun.live.used code) hrun hrun.live.used hpid
  | kill hrun code hi hlive hpid => exact h.ended (kill_ended hlive.used code) hrun hlive.used hpid
  | reap hrun target hchild hzombie =>
    exact h.update hwf rfl rfl hchild.1 TaskState.noConfusion fun heq =>
      absurd heq (hnot hrun (by simp [hzombie]))
  | wait hrun target hchild hnone =>
    exact h.update hwf rfl rfl (hwait target rfl) TaskState.noConfusion fun _ => rfl
  | block hrun address hpid =>
    refine h.update hwf rfl rfl (fun h0 => hpid ?_) TaskState.noConfusion fun _ => rfl
    rw [h0, h.wf.idle_pid]
  | wake hrun address hi hblocked hchannel =>
    exact h.update hwf rfl rfl hi TaskState.noConfusion fun heq =>
      absurd heq (hnot hrun (by simp [hblocked]))
  | save context =>
    have hstate : ∀ j, ((s.save context).slots j).state = (s.slots j).state := by
      intro j
      rw [slots_save]
      split
      · next hj => rw [hj]
      · rfl
    refine ⟨hwf, fun j hj => h.only j (hstate j ▸ hj), ?_, ?_⟩
    · rw [Slot.Used, Ready, hstate]
      exact h.standing
    · rw [Ready, hstate]
      exact h.idle
  | setPolicy policy => exact ⟨hwf, h.only, h.standing, h.idle⟩

theorem Changes.proper {acts : List Act} (hc : Changes s acts s') (h : s.Proper)
    (hwait : ∀ target, .wait target ∈ acts → s.current ≠ 0) : s'.Proper := by
  induction hc with
  | nil s => exact h
  | cons hc hrest ih =>
    refine ih (hc.proper h fun target heq => hwait target (heq ▸ List.mem_cons_self)) ?_
    intro target ht
    rw [hc.current]
    exact hwait target (List.mem_cons_of_mem _ ht)

/-! ## The processor changes hands -/

theorem Proper.demote_ready (h : s.Proper) : s.demote.Ready 0 := by
  by_cases hrun : s.Running
  · rw [demote_of_running hrun, Ready, slots_ready]
    split
    · rfl
    · next h0 => exact h.idle.resolve_right fun hidle => h0 (h.only 0 hidle)
  · rw [demote_of_not_running hrun]
    refine h.idle.resolve_right fun hidle => hrun ?_
    rwa [Running, ← h.only 0 hidle]

theorem Proper.demote_not_running (h : s.Proper) (j : Fin 16) :
    (s.demote.slots j).state ≠ .running := by
  by_cases hrun : s.Running
  · rw [demote_of_running hrun, slots_ready]
    split
    · exact TaskState.noConfusion
    · next hj => exact fun hstate => hj (h.only j hstate)
  · rw [demote_of_not_running hrun]
    intro hstate
    refine hrun ?_
    rwa [Running, ← h.only j hstate]

/-- There is always somebody to go on with. -/
theorem Proper.next_isSome (h : s.Proper) : s.demote.next.isSome := by
  rw [Option.isSome_iff_ne_none]
  intro hnone
  exact next_none hnone 0 h.demote_ready

theorem Proper.giveWay (h : s.Proper) : s.giveWay.Proper ∧ s.giveWay.Running := by
  have hwf := h.wf.of_alike (alike_giveWay s)
  obtain ⟨n, hn, hready, heq⟩ : ∃ n, s.demote.next = some n ∧ s.demote.Ready n ∧
      s.giveWay = s.demote.resume n := by
    rcases giveWay_cases s with hcase | ⟨hnone, hrun, -⟩
    · exact hcase
    · have hidle := h.demote_ready
      rw [demote_of_not_running hrun] at hidle
      exact absurd hidle (hnone 0)
  rw [heq] at hwf ⊢
  have hself : (s.demote.resume n).slots n = { s.demote.slots n with state := .running } := by
    rw [slots_resume, if_pos rfl]
  have hother : ∀ j, j ≠ n → (s.demote.resume n).slots j = s.demote.slots j := fun j hj => by
    rw [slots_resume, if_neg hj]
  have hrunning : ((s.demote.resume n).slots n).state = .running := by rw [hself]
  refine ⟨⟨hwf, fun j hj => ?_, ?_, ?_⟩, hrunning⟩
  · by_contra hjn
    rw [hother j hjn] at hj
    exact h.demote_not_running j hj
  · refine ⟨live_of_state hrunning (by decide) (by decide) |>.used, ?_⟩
    show ((s.demote.resume n).slots n).state ≠ .ready
    rw [hrunning]
    decide
  · by_cases h0 : (0 : Fin 16) = n
    · subst h0
      exact Or.inr hrunning
    · rw [Ready, hother 0 h0]
      exact Or.inl h.demote_ready

/-- Where the processor may stay, its task is running. -/
theorem Proper.running_of_settled (h : s.Proper) (hs : s.Settled) : s.Running := by
  obtain ⟨hused, hready⟩ := h.standing
  have hidle : s.current = 0 → s.Running := by
    intro h0
    rw [h0] at hready
    have hrun := h.idle.resolve_left hready
    rwa [Running, h0]
  rcases hs with ⟨hzombie, hblocked⟩ | hcount | hpid
  · rw [Running]
    rw [Slot.Used] at hused
    rw [Ready] at hready
    cases hstate : (s.slots s.current).state with
    | running => rfl
    | unused => exact absurd hstate hused
    | ready => exact absurd hstate hready
    | blocked => exact absurd hstate hblocked
    | zombie => exact absurd hstate hzombie
  · -- the idle task is alone
    rw [h.wf.count] at hcount
    have hcard : s.tasks.card ≤ 1 := by omega
    exact hidle (Finset.card_le_one.mp hcard _ (mem_tasks.mpr hused) _
      (mem_tasks.mpr h.wf.idle_live.used))
  · exact hidle (h.wf.eq_zero hused hpid)

end MiniOs.Spec.Sched

namespace MiniOs.Kernel.Machine

open MiniOs.Lib MiniOs.Spec

/-! ## The machine -/

/-- The event is a `wait` of the idle task that blocks. -/
def IdleWaits (m : Machine) (e : Event) : Prop :=
  m.current = 0 ∧ ∃ t target, e = .trap t ∧ t.IsEcall ∧ (m.trapped t).BlocksOn target

/-- The machine on which `trap_handler` calls `switch_from_trap`, where it does. -/
def atSwitch (m : Machine) (t : Trap) : Option Machine :=
  if t.IsTimer then some (m.trapped t)
  else if t.IsEcall then
    match (m.trapped t).syscallDispatch t.mem with
    | (m, contextReplaced) =>
      if m.halted = false ∧ (m.state m.current = .zombie ∨ m.state m.current = .blocked) then
        some (if m.state m.current = .blocked ∧ contextReplaced = 2 then m.setEpc (t.epc + 4)
          else m)
      else none
  else none

section Events

variable {m : Machine}

variable {e : Event} {t : Trap}

theorem does_wait {target : Int} (h : m.Does e (.wait target)) :
    ∃ t, e = .trap t ∧ t.IsEcall ∧ (m.trapped t).BlocksOn target := by
  cases e with
  | trap t =>
    rcases h with h | ⟨hecall, hblocks⟩ | ⟨-, -, h⟩
    · cases h
    · exact ⟨t, rfl, hecall, hblocks⟩
    · cases h
  | _ => cases h

theorem taskInit_proper (m : Machine) : m.taskInit.sched.Proper := by
  obtain ⟨hrun, -, -, hunused⟩ := taskInit_tasks m.toSystem
  refine ⟨m.taskInit_wf, fun i hi => ?_, ?_, Or.inr hrun⟩
  · by_contra h0
    rw [show (m.taskInit.sched.slots i).state = .unused from hunused i h0] at hi
    cases hi
  · have hlive : (m.taskInit.sched.slots 0).Live :=
      Sched.live_of_state hrun (by decide) (by decide)
    refine ⟨hlive.used, ?_⟩
    show ((Kernel.taskInit m.toSystem).tasks 0).state ≠ .ready
    rw [hrun]
    decide

theorem Moved.proper {acts : List Sched.Act} {s : Sched} (hm : Moved m e acts s)
    (h : m.sched.Proper) (hno : ¬ m.IdleWaits e) : s.Proper := by
  refine hm.changes.proper h fun target ht h0 => hno ?_
  obtain ⟨t, rfl, hecall, hblocks⟩ := does_wait (hm.does _ ht)
  exact ⟨h0, t, target, rfl, hecall, hblocks⟩

theorem step_proper (h : m.sched.Proper) (hno : ¬ m.IdleWaits e) :
    (m.step e).sched.Proper := by
  rcases m.step_moves e with heq | ⟨acts, s, hmoved⟩
  · rwa [heq]
  · have hproper := hmoved.proper h hno
    rcases hmoved.result with ⟨hsched, -⟩ | ⟨-, hsched⟩
    · rwa [hsched]
    · rw [hsched]
      exact hproper.giveWay.1

theorem runEvents_proper {events : List Event} (h : m.sched.Proper)
    (hno : Meets step (fun m e => ¬ m.IdleWaits e) m events) : (m.runEvents events).sched.Proper :=
  @run_meets _ _ step _ (fun m => m.sched.Proper) (fun _ _ h hno => step_proper h hno) m events h
    hno

/-- A trap that happens returns to a running task. -/
theorem trap_running (h : m.sched.Proper) (hno : ¬ m.IdleWaits (.trap t)) (hon : m.halted = false)
    (henabled : m.enabled (.trap t) = true) (htrap : t.IsTimer ∨ t.IsEcall) :
    (m.step (.trap t)).sched.Running := by
  obtain ⟨acts, s, hmoved⟩ := trap_moved hon henabled
  have hproper := hmoved.proper h hno
  rcases hmoved.result with ⟨hsched, hsettled⟩ | ⟨-, hsched⟩
  · rw [hsched]
    exact hproper.running_of_settled (hsettled t rfl htrap)
  · rw [hsched]
    exact hproper.giveWay.2

theorem atSwitch_changes {m1 : Machine} (hon : m.halted = false)
    (henabled : m.enabled (.trap t) = true) (hat : m.atSwitch t = some m1) :
    ∃ acts, Sched.Changes m.sched acts m1.sched ∧ acts.length ≤ 1 ∧
      ∀ a ∈ acts, m.Does (.trap t) a := by
  rw [atSwitch] at hat
  split at hat
  · cases hat
    exact ⟨[], .nil _, Nat.zero_le 1, by simp⟩
  split at hat
  · next hecall =>
    obtain ⟨acts, hchanges, hone, hdoes, -⟩ := dispatch_changes hon henabled hecall
    dsimp only at hat
    split at hat
    · cases hat
      refine ⟨acts, ?_, hone, hdoes⟩
      split <;> exact hchanges
    · cases hat
  · cases hat

theorem atSwitch_next {m1 : Machine} (h : m.sched.Proper) (hno : ¬ m.IdleWaits (.trap t))
    (hon : m.halted = false) (henabled : m.enabled (.trap t) = true) (hat : m.atSwitch t = some m1)
    (hstate : m1.state m1.current = .zombie ∨ m1.state m1.current = .blocked) :
    m1.selectNext.isSome := by
  have hproper : m1.sched.Proper := by
    obtain ⟨acts, hchanges, -, hdoes⟩ := atSwitch_changes hon henabled hat
    refine hchanges.proper h fun target ht h0 => hno ?_
    obtain ⟨t', heq, hecall, hblocks⟩ := does_wait (hdoes _ ht)
    exact ⟨h0, t', target, heq, hecall, hblocks⟩
  have hrun : ¬ m1.sched.Running := by
    intro hrun
    rw [show m1.state m1.current = .running from hrun] at hstate
    rcases hstate with h | h <;> cases h
  rw [selectNext_eq, ← Sched.demote_of_not_running hrun]
  exact hproper.next_isSome

end Events

/-- After any run in which the idle task never waits, a timer tick or a system call
returns to the one task that is running, the idle task is there to take over, the
count is right, and a task that ended or blocked was not alone. -/
theorem runEvents_trap_returns (m : Machine) (events : List Event) (t : Trap)
    (hidle : Meets step (fun m e => ¬ m.IdleWaits e) m.taskInit (events ++ [.trap t]))
    (hon : (m.taskInit.runEvents events).halted = false)
    (henabled : (m.taskInit.runEvents events).enabled (.trap t) = true)
    (htrap : t.IsTimer ∨ t.IsEcall) :
    let m₁ := m.taskInit.runEvents events
    let m₂ := m₁.step (.trap t)
    (∀ i, m₂.state i = .running ↔ i = m₂.current) ∧ (m₂.state 0 = .ready ∨ m₂.state 0 = .running) ∧
      m₂.taskCount = (Finset.univ.filter fun i => m₂.state i ≠ .unused).card ∧
      ∀ m', m₁.atSwitch t = some m' →
        m'.state m'.current = .zombie ∨ m'.state m'.current = .blocked →
        m'.selectNext.isSome := by
  intro m₁ m₂
  have hbefore : m₁.sched.Proper := runEvents_proper m.taskInit_proper hidle.append_left
  have hno : ¬ m₁.IdleWaits (.trap t) := hidle.last
  have hafter : m₂.sched.Proper := step_proper hbefore hno
  have hrun : m₂.sched.Running := trap_running hbefore hno hon henabled htrap
  refine ⟨fun i => ⟨hafter.only i, ?_⟩, hafter.idle, hafter.wf.count, fun m' hat hstate => ?_⟩
  · rintro rfl
    exact hrun
  · exact atSwitch_next hbefore hno hon henabled hat hstate

/-! ## Runs -/

/-- An image of 1 MiB with the task stacks in it. -/
def smallLayout : Layout where
  kernelEnd := 0x80300000
  taskStacks := 0x80280000
  start_le := by decide
  end_le := by decide
  stacks_in := by decide

/-- A machine before the kernel runs. -/
def powerOn : Machine where
  toSystem := Kernel.powerOn
  threads _ := ⟨⟨fun _ => 0, 0, 0, 0⟩, none, none, 0, 0, 0, 0, 0, 0, .zero⟩
  current := 0
  orderCounter := 0
  policy := .rr
  quantum := 5
  memory :=
    { memInit smallLayout with
      ram := Region.zero, kernelL2 := 0, kernelL1Dram := 0, kernelL1Mmio := 0 }
  layout := smallLayout
  csr := ⟨0, 0, 0, 0⟩
  frame _ := 0
  halted := false

/-- A timer interrupt, and a system call of kernel code at `epc`. -/
def timerTrap : Trap :=
  ⟨0x8000000000000005, fun _ => 0, 0, 0, ⟨fun _ => none, fun _ => false⟩⟩
def kernelCall (number arg0 epc : Word) : Trap :=
  ⟨9, Function.update (Function.update (fun _ => 0) 10 arg0) 17 number, epc, 0,
    ⟨fun _ => none, fun _ => false⟩⟩

theorem runEvents_trap_returns_timer :
    (powerOn.taskInit.runEvents [.create 1 []]).enabled (.trap timerTrap) = true ∧
    ∀ i, ((powerOn.taskInit.runEvents [.create 1 []]).step (.trap timerTrap)).state i = .running ↔
      i = ((powerOn.taskInit.runEvents [.create 1 []]).step (.trap timerTrap)).current := by
  refine ⟨by decide +kernel,
    (runEvents_trap_returns powerOn [.create 1 []] timerTrap (meets_of_mem ?_ _) ?_ ?_ ?_).1⟩
  · rintro e he m ⟨-, t, target, rfl, hecall, -⟩
    simp only [List.cons_append, List.nil_append, List.mem_cons, Event.trap.injEq, reduceCtorEq,
      List.not_mem_nil, or_false, false_or] at he
    subst he
    exact absurd hecall (by decide)
  · decide +kernel
  · decide +kernel
  · decide

/-- The idle task creates a task and waits for it: nobody looks at its pid, and it
blocks. -/
theorem runEvents_idle_blocked :
    (powerOn.taskInit.runEvents [.create 1 []]).halted = false ∧
      (powerOn.taskInit.runEvents [.create 1 []]).enabled (.trap (kernelCall 95 0 4)) = true ∧
      (kernelCall 95 0 4).IsEcall ∧
      ((powerOn.taskInit.runEvents [.create 1 []]).step (.trap (kernelCall 95 0 4))).state 0 =
        .blocked := by
  decide +kernel

end MiniOs.Kernel.Machine
