import MiniOs.Proofs.Contexts
import MiniOs.Proofs.Waiting

/-!
# Which child `waitpid` returns

A wait that blocks is not continued when the child ends: `trap_handler` saves the
frame with the pc still at the `ecall`, and the task executes the call again. But
the frame has the answer in it by then, and the answer is in the register of the
first argument. A `waitpid` for a child becomes one for -2, which is any child.

To say what was asked, a run is observed: next to the machine stands, for every
task that is to execute such a call again, the pid it was about. The invariant
follows a call from the first `ecall` to the second. The caller sleeps until its
child ends, since nothing else wakes it; from then on the child is a zombie that
nobody else can reap; and the registers are those the first call left. What the
second call returns is then right, unless another child ended in a lower slot.
-/

namespace MiniOs.Spec.Sched

open MiniOs.Kernel Function

variable {s s' : Sched} {i j : Fin 16} {p : Int}

/-- The task can have the processor, or has it. -/
def Awake (s : Sched) (i : Fin 16) : Prop := s.Ready i ∨ (s.slots i).state = .running

/-- A task waits for its child `p`: it sleeps and the child has not ended, or it
has been woken and the child is there to be reaped. -/
def Pending (s : Sched) (i : Fin 16) (p : Int) : Prop :=
  (s.Sleeps i ∧ (s.slots i).target = p ∧ ∃ j, s.Child i p j ∧ (s.slots j).Live) ∨
    s.Awake i ∧ ∃ j, s.Child i p j ∧ (s.slots j).state = .zombie

theorem Awake.live (h : s.Awake i) : (s.slots i).Live := by
  rcases h with h | h
  · exact live_of_state h (by decide) (by decide)
  · exact live_of_state h (by decide) (by decide)

theorem Awake.not_blocked (h : s.Awake i) : (s.slots i).state ≠ .blocked := by
  rcases h with h | h
  · rw [show (s.slots i).state = .ready from h]
    decide
  · rw [h]
    decide

theorem Pending.live (h : s.Pending i p) : (s.slots i).Live := by
  rcases h with ⟨hsleeps, -⟩ | ⟨hawake, -⟩
  · exact live_of_state hsleeps.1 (by decide) (by decide)
  · exact hawake.live

/-- A change that neither creates nor ends a task and does not concern the one that
waits. -/
theorem Pending.of_alike (h : s.Pending i p) (ha : Alike s s')
    (hsleeps : s.Sleeps i → s'.Sleeps i ∧ (s'.slots i).target = (s.slots i).target)
    (hawake : s.Awake i → s'.Awake i) : s'.Pending i p := by
  rcases h with ⟨hs, htarget, j, hj, hlive⟩ | ⟨hs, j, hj, hzombie⟩
  · obtain ⟨hs', htarget'⟩ := hsleeps hs
    exact Or.inl ⟨hs', htarget'.trans htarget, j, ha.child.mpr hj, (ha.live j).mpr hlive⟩
  · exact Or.inr ⟨hawake hs, j, ha.child.mpr hj, (ha.zombie j).mpr hzombie⟩

theorem Pending.of_same (h : s.Pending i p) (ha : Alike s s') (hi : s'.slots i = s.slots i) :
    s'.Pending i p := by
  refine h.of_alike ha (fun hs => ?_) (fun hs => ?_)
  · rw [Sleeps, hi]
    exact ⟨hs, rfl⟩
  · rw [Awake, Ready, hi]
    exact hs

/-- A task that is no child of the one that waits, nor itself, changes. -/
theorem Pending.of_other {x : Slot} (h : s.Pending i p)
    (hslots : s'.slots = update s.slots j x) (hij : i ≠ j)
    (hchild : ¬ s.Child i p j) : s'.Pending i p := by
  have hother : ∀ k, k ≠ j → s'.slots k = s.slots k := fun k hk => by
    rw [hslots, update_of_ne hk]
  have hkeep : ∀ k, s.Child i p k → s'.Child i p k ∧ s'.slots k = s.slots k := by
    intro k hk
    have hkj : k ≠ j := by
      rintro rfl
      exact hchild hk
    rw [Child, hother k hkj, hother i hij]
    exact ⟨hk, rfl⟩
  rcases h with ⟨hs, htarget, k, hk, hlive⟩ | ⟨hs, k, hk, hzombie⟩
  · obtain ⟨hk', hsame⟩ := hkeep k hk
    rw [Pending, Sleeps, hother i hij]
    exact Or.inl ⟨hs, htarget, k, hk', by rwa [hsame]⟩
  · obtain ⟨hk', hsame⟩ := hkeep k hk
    rw [Pending, Awake, Ready, hother i hij]
    exact Or.inr ⟨hs, k, hk', by rwa [hsame]⟩

/-- A task ends: if it is the child, the one that waits is woken. -/
theorem Pending.ended (h : s.Pending i p) (hwf : s.Wf) (hp : 0 < p) {code : Int}
    (he : Ended s j code s') (hj : (s.slots j).Live) (hij : i ≠ j) : s'.Pending i p := by
  have hpid : (s.slots i).pid ≠ (s.slots j).pid :=
    fun heq => hij (hwf.inj i j h.live.used hj.used heq)
  have hchild : ∀ k, s.Child i p k → s'.Child i p k := by
    rintro k ⟨h0, hused, hppid, hk⟩
    refine ⟨h0, (he.used hj.used k).mpr hused, ?_, fun hp => (he.pid k).trans (hk hp)⟩
    rw [he.ppid, he.pid, if_neg]
    · exact hppid
    · rintro ⟨-, -, hjp⟩
      exact hpid (hppid.symm.trans hjp)
  rcases h with ⟨hs, htarget, k, hk, hlive⟩ | ⟨hs, k, hk, hzombie⟩
  · by_cases hkj : k = j
    · subst hkj
      -- the child ends, and its parent is the one that is woken
      have hawaits : s.Awaits k i := by
        refine ⟨?_, hs.1, Or.inr (htarget.trans (hk.2.2.2 hp).symm)⟩
        rw [hk.2.2.1]
        refine MiniOs.Lib.find?_finRange_eq_some.mpr
          ⟨decide_eq_true ⟨hs.used, rfl⟩, fun l hl => decide_eq_false ?_⟩
        rintro ⟨hused, hsame⟩
        exact hl.ne (hwf.inj l i hused hs.used hsame)
      rcases he.other i hij with ⟨hnot, -⟩ | ⟨-, hready, -⟩
      · exact absurd hawaits hnot
      · exact Or.inr ⟨Or.inl hready, k, hchild k hk, he.zombie⟩
    · rcases he.other i hij with ⟨-, hstate, hchannel, -⟩ | ⟨hawaits, -⟩
      · refine Or.inl ⟨⟨hstate.trans hs.1, hchannel.trans hs.2⟩, (he.target i).trans htarget, k,
          hchild k hk, (he.live hkj).mpr hlive⟩
      · -- it waits for one child only, and that is not the one that ends
        refine absurd (hwf.inj k j hlive.used hj.used ?_) hkj
        rw [hk.2.2.2 hp, ← htarget]
        rcases hawaits.2.2 with hlt | heq
        · rw [htarget] at hlt
          exact absurd hp (not_lt.mpr hlt.le)
        · exact heq
  · have hkj : k ≠ j := by
      rintro rfl
      exact hj.2 hzombie
    refine Or.inr ⟨?_, k, hchild k hk, ?_⟩
    · rcases he.other i hij with ⟨-, hstate, -⟩ | ⟨hawaits, -⟩
      · rw [Awake, Ready, hstate]
        exact hs
      · exact absurd hawaits.2.1 hs.not_blocked
    · rcases he.other k hkj with ⟨-, hstate, -⟩ | ⟨hawaits, -⟩
      · exact hstate.trans hzombie
      · have hblocked := hawaits.2.1
        rw [hzombie] at hblocked
        cases hblocked

/-- What others do leaves a wait pending, unless they end who waits. -/
theorem Change.pending {a : Act} (hc : Change s a s') (h : s.Pending i p) (hwf : s.Wf)
    (hp : 0 < p) (hi : i ≠ s.current) (hend : a ≠ .finish i) : s'.Pending i p := by
  cases hc with
  | @spawn slot hrun context ok hslot hfree =>
    have hne : i ≠ slot := by
      rintro rfl
      exact h.live.1 hfree
    exact h.of_other (x := _) rfl hne fun hchild => hchild.2.1 hfree
  | exit hrun code hpid => exact h.ended hwf hp (finish_ended hrun.live.used code) hrun.live hi
  | kill hrun code hne hlive hpid =>
    refine h.ended hwf hp (kill_ended hlive.used code) hlive ?_
    rintro rfl
    exact hend rfl
  | @reap k hrun target hchild hzombie =>
    have hne : i ≠ k := by
      rintro rfl
      exact h.live.2 hzombie
    refine h.of_other (x := _) rfl hne fun hk => hi ?_
    exact hwf.inj i _ h.live.used hrun.live.used (hk.2.2.1.symm.trans hchild.2.2.1)
  | wait hrun target hchild hnone =>
    exact h.of_same (alike_of_update rfl rfl rfl rfl rfl hrun.live (by simp)) (slots_set_ne _ hi)
  | block hrun address hpid =>
    exact h.of_same (alike_of_update rfl rfl rfl rfl rfl hrun.live (by simp)) (slots_set_ne _ hi)
  | @wake k hrun address h0 hblocked hchannel =>
    have hne : i ≠ k := by
      rintro rfl
      rcases h with ⟨hs, -⟩ | ⟨hs, -⟩
      · have hself := hs.2
        rw [hchannel] at hself
        cases hself
      · exact hs.not_blocked hblocked
    exact h.of_same (alike_of_update rfl rfl rfl rfl rfl
      (live_of_state hblocked (by decide) (by decide)) (by simp)) (slots_set_ne _ hne)
  | save context => exact h.of_same (alike_save s context) (slots_set_ne _ hi)
  | setPolicy policy => exact h

theorem Changes.pending {acts : List Act} (hc : Changes s acts s') (h : s.Pending i p)
    (hwf : s.Wf) (hp : 0 < p) (hi : i ≠ s.current) (hend : .finish i ∉ acts) :
    s'.Pending i p := by
  induction hc with
  | nil s => exact h
  | cons hc hrest ih =>
    refine ih (hc.pending h hwf hp hi ?_) (hc.wf hwf) ?_
      fun hmem => hend (List.mem_cons_of_mem _ hmem)
    · rintro rfl
      exact hend List.mem_cons_self
    · rw [hc.current]
      exact hi

theorem state_save (context : TrapContext) :
    ((s.save context).slots i).state = (s.slots i).state := by
  rw [slots_save]
  split
  · next hi => rw [hi]
  · rfl

theorem Pending.save (h : s.Pending i p) (context : TrapContext) :
    (s.save context).Pending i p := by
  have hsame : ((s.save context).slots i).channel = (s.slots i).channel ∧
      ((s.save context).slots i).target = (s.slots i).target := by
    rw [slots_save]
    split
    · next hi =>
      rw [hi]
      exact ⟨rfl, rfl⟩
    · exact ⟨rfl, rfl⟩
  refine h.of_alike (alike_save s context) (fun hs => ?_) (fun hs => ?_)
  · rw [Sleeps, state_save, hsame.1]
    exact ⟨hs, hsame.2⟩
  · rw [Awake, Ready, state_save]
    exact hs

theorem giveWay_blocked (h : (s.slots i).state = .blocked) : s.giveWay.slots i = s.slots i := by
  have hdemote : s.demote.slots i = s.slots i := by
    by_cases hrun : s.Running
    · rw [demote_of_running hrun, slots_ready, if_neg]
      rintro rfl
      rw [show (s.slots s.current).state = .running from hrun] at h
      cases h
    · rw [demote_of_not_running hrun]
  rcases giveWay_cases s with ⟨n, -, hready, heq⟩ | ⟨-, -, heq⟩
  · rw [heq, slots_resume, if_neg, hdemote]
    rintro rfl
    rw [Ready, hdemote, h] at hready
    cases hready
  · rw [heq]

theorem Awake.giveWay (h : s.Awake i) : s.giveWay.Awake i := by
  have hdemote : s.demote.Awake i := by
    by_cases hrun : s.Running
    · rw [demote_of_running hrun, Awake, Ready, slots_ready]
      split
      · exact Or.inl rfl
      · exact h
    · rwa [demote_of_not_running hrun]
  rcases giveWay_cases s with ⟨n, -, -, heq⟩ | ⟨-, -, heq⟩
  · rw [heq, Awake, Ready, slots_resume]
    split
    · exact Or.inr rfl
    · exact hdemote
  · rwa [heq]

theorem Pending.giveWay (h : s.Pending i p) : s.giveWay.Pending i p := by
  refine h.of_alike (alike_giveWay s) (fun hs => ?_) Awake.giveWay
  rw [Sleeps, giveWay_blocked hs.1]
  exact ⟨hs, rfl⟩

/-- A task that waits for a child that has not ended. -/
theorem pending_wait (hrun : s.Running) (hchild : ∃ j, s.Child s.current p j)
    (hnone : ∀ j, s.Child s.current p j → (s.slots j).state ≠ .zombie) :
    (s.wait p).Pending s.current p := by
  have ha : Alike s (s.wait p) := alike_of_update rfl rfl rfl rfl rfl hrun.live (by simp)
  obtain ⟨j, hj⟩ := hchild
  refine Or.inl ⟨?_, ?_, j, ha.child.mpr hj, (ha.live j).mpr ⟨hj.2.1, hnone j hj⟩⟩
  · rw [Sleeps, Sched.wait, slots_set_self]
    exact ⟨rfl, rfl⟩
  · rw [Sched.wait, slots_set_self]

theorem Change.finished (hc : Change s (.finish i) s') : (s'.slots i).state = .zombie := by
  cases hc with
  | exit hrun code hpid => exact (finish_ended hrun.live.used code).zombie
  | kill hrun code hne hlive hpid => exact (kill_ended hlive.used code).zombie

/-- Who is ended by an event has ended after it. -/
theorem Changes.finished {acts : List Act} (hc : Changes s acts s') (hfew : Machine.Few acts)
    (hmem : .finish i ∈ acts) : (s'.slots i).state = .zombie := by
  rcases hfew with ⟨front, hone, hacts⟩ | hwakes
  · have hfront : front = [.finish i] := by
      have hin : .finish i ∈ front := by
        rcases hacts with rfl | rfl
        · exact hmem
        · simpa using hmem
      obtain ⟨a, rfl⟩ := List.length_eq_one_iff.mp (le_antisymm hone (List.length_pos_of_mem hin))
      rw [List.mem_singleton.mp hin]
    have hended : ∀ {s1 : Sched}, Changes s front s1 → (s1.slots i).state = .zombie := by
      intro s1 hchanges
      rw [hfront] at hchanges
      cases hchanges with
      | cons hchange hnil =>
        cases hnil
        exact hchange.finished
    rcases hacts with rfl | rfl
    · exact hended hc
    · obtain ⟨s1, hchanges, hsave⟩ := hc.split
      obtain ⟨context, rfl⟩ := hsave.saved
      exact ((alike_save s1 context).zombie i).mpr (hended hchanges)
  · obtain ⟨k, hk⟩ := hwakes _ hmem
    cases hk

end MiniOs.Spec.Sched

namespace MiniOs.Kernel

open MiniOs.Lib MiniOs.Spec Function

/-! ## Observing a run -/

/-- A machine, and for every task that is to execute a blocked `waitpid` again the
pid it asked for. -/
structure Observed where
  machine : Machine
  pending : Fin 16 → Option Int

namespace Observed

def start (m : Machine) : Observed := ⟨m.taskInit, fun _ => none⟩

/-- The child a system call of the running task asks for. -/
def asked (o : Observed) (t : Trap) : Option Int :=
  match o.pending o.machine.current with
  | some p => some p
  | none =>
    if Sysno.ofNumber (t.frame 17) = some .waitpid ∧ 0 < toInt (t.frame 10).toNat then
      some (toInt (t.frame 10).toNat)
    else none

/-- The calls to be executed again: the running task has one if it blocked and lost
the processor. -/
def again (o : Observed) : Event → Fin 16 → Option Int
  | .trap t =>
    let m := o.machine
    if m.halted = false ∧ m.enabled (.trap t) = true ∧ t.IsEcall then
      update o.pending m.current (if (m.step (.trap t)).state m.current = .blocked ∧
            (m.step (.trap t)).current ≠ m.current then o.asked t
          else none)
    else o.pending
  | _ => o.pending

/-- One event. A task that ended executes nothing any more. -/
def step (o : Observed) (e : Event) : Observed where
  machine := o.machine.step e
  pending i :=
    if (o.machine.step e).state i = .unused ∨ (o.machine.step e).state i = .zombie then none
    else o.again e i

/-- A task that is to execute its call again does so: until then there are only
interrupts, and the registers and the pc are those it was resumed with. -/
def Lawful (o : Observed) (e : Event) : Prop :=
  ∀ p, o.pending o.machine.current = some p →
    ∃ t, e = .trap t ∧ t.frame = o.machine.frame ∧ t.epc = o.machine.csr.sepc ∧
      (t.IsEcall ∨ t.cause.msb = true)

/-- A call is executed again while some child of the caller has ended in a lower slot
than the one it was about. -/
def Overtaken (o : Observed) (e : Event) : Prop :=
  ∃ t p i j, e = .trap t ∧ t.IsEcall ∧ o.pending o.machine.current = some p ∧ i < j ∧
    waitsFor o.machine.toSystem o.machine.current (-1) i = true ∧ o.machine.state i = .zombie ∧
    waitsFor o.machine.toSystem o.machine.current p j = true ∧ o.machine.state j = .zombie

end Observed

namespace Machine

variable {m : Machine} {i : Fin 16} {p : Int} {t : Trap}

/-! ## What the kernel does with the call -/

/-- Where a task is: in the processor, or in its entry. -/
def contextOf (m : Machine) (i : Fin 16) : TrapContext :=
  if m.current = i then m.context else (m.sched.slots i).context

theorem dispatch_waitpid {mem : UserMemory} (h : m.frame 17 = 260) {m' : Machine}
    {answer : Int × Option Int} (hcall : m.sysWaitpid mem (m.frame 10).toNat (m.frame 11).toNat
      (m.frame 12).toNat = (m', answer)) :
    m.syscallDispatch mem = (m'.answer answer.1, 0) := by
  have hnumber : Sysno.ofNumber (m.frame 17) = some .waitpid := by
    rw [h]
    decide
  simp only [syscallDispatch, hnumber, hcall]

/-- `sys_waitpid`: a child is reaped, or the task sleeps, or nothing happens. -/
theorem sysWaitpid_cases (m : Machine) (mem : UserMemory) (pid userStatus options : Nat) :
    ∃ m' answer, m.sysWaitpid mem pid userStatus options = (m', answer) ∧
    ((∃ child, m.zombieChild (toInt pid) = some child ∧ m'.sched = m.sched.reap child ∧
      Steady m m' ∧ (0 < answer.1 → answer = ((m.tasks child).pid,
        if userStatus = 0 then none else some (m.tasks child).exitCode))) ∨
    (m.zombieChild (toInt pid) = none ∧ (∃ j, m.sched.Child m.current (toInt pid) j) ∧
      m'.sched = m.sched.wait (toInt pid) ∧ Steady m m' ∧ answer.1 = -2) ∨
    m.zombieChild (toInt pid) = none ∧ m' = m ∧ answer.1 ≤ 0) := by
  rw [sysWaitpid]
  rcases taskWaitpid_cases m (toInt pid) (options % 2 = 1) with
    ⟨child, m', hfind, heq, hsched, hsteady⟩ | ⟨m', hnone, hchild, -, heq, hsched, hsteady⟩ |
    ⟨hnone, -, result, hresult, heq⟩
  · rw [heq]
    dsimp only
    split
    · exact ⟨_, _, rfl, Or.inl ⟨child, hfind, hsched, hsteady,
        fun h => absurd (show (0 : Int) < -1 from h) (by decide)⟩⟩
    · exact ⟨_, _, rfl, Or.inl ⟨child, hfind, hsched, hsteady, fun _ => rfl⟩⟩
  · rw [heq]
    exact ⟨_, _, rfl, Or.inr (Or.inl ⟨hnone, hchild, hsched, hsteady, rfl⟩)⟩
  · rw [heq]
    have hno : ¬ (result > 0 ∧ userStatus ≠ 0 ∧ copyToUser mem userStatus 4 = false) :=
      fun h => absurd h.1 (not_lt.mpr hresult)
    dsimp only
    rw [if_neg hno]
    exact ⟨_, _, rfl, Or.inr (Or.inr ⟨hnone, rfl, hresult⟩)⟩

/-- A task that makes a call is running, unless it is in `task_block`. -/
theorem ecall_running (henabled : m.enabled (.trap t) = true) (hecall : t.IsEcall)
    (hcall : t.frame 17 ≠ 124) : m.sched.Running := by
  simp only [enabled] at henabled
  split at henabled
  · next hrun => exact hrun
  · exact absurd (of_decide_eq_true henabled hecall) hcall
  · exact absurd hecall (of_decide_eq_true henabled)
  · cases henabled

/-! ## What becomes of a pending call -/

/-- Another task's events leave a pending call and its registers alone. -/
theorem step_pending {e : Event} (hwf : m.sched.Wf) (hp : 0 < p) (h : m.sched.Pending i p)
    (hi : i ≠ m.current) (hlive : ((m.step e).sched.slots i).Live) :
    (m.step e).sched.Pending i p ∧ (m.step e).contextOf i = m.contextOf i := by
  constructor
  · rcases m.step_moves e with heq | ⟨acts, s, hmoved⟩
    · rwa [heq]
    · have hpending : s.Pending i p := by
        refine hmoved.changes.pending h hwf hp hi fun hmem => ?_
        have hzombie := hmoved.changes.finished hmoved.few hmem
        rcases hmoved.result with ⟨hsched, -⟩ | ⟨-, hsched⟩
        · exact hlive.2 (by rw [hsched, hzombie])
        · exact hlive.2 (by rw [hsched, (Sched.alike_giveWay s).zombie, hzombie])
      rcases hmoved.result with ⟨hsched, -⟩ | ⟨-, hsched⟩
      · rwa [hsched]
      · rw [hsched]
        exact hpending.giveWay
  · rcases step_kept hi hlive.used with ⟨-, -, hstored, hresumed⟩ | ⟨-, hno, -⟩
    · rw [contextOf, contextOf, if_neg hi.symm]
      split
      · next hcurrent => exact hresumed hcurrent
      · exact hstored
    · exact absurd h.live.used hno

/-- So do interrupts of the task itself. -/
theorem interrupt_pending (hon : m.halted = false) (henabled : m.enabled (.trap t) = true)
    (hmsb : t.cause.msb = true) (h : m.sched.Pending m.current p) :
    (m.step (.trap t)).sched.Pending m.current p ∧
      ((m.step (.trap t)).contextOf m.current).regs = t.frame := by
  have hstep : m.step (.trap t) =
      (if t.cause &&& 0x7fffffffffffffff = 5 then (m.trapped t).schedTick.1
        else m.trapped t).prepareTrapReturn := by
    rw [step, if_neg (by simp [hon, henabled])]
    exact if_pos hmsb
  by_cases htimer : t.cause &&& 0x7fffffffffffffff = 5
  · rw [if_pos htimer] at hstep
    constructor
    · have hsched : (m.step (.trap t)).sched = (m.trapped t).schedTick.1.sched := by
        rw [hstep]
        rfl
      rw [hsched]
      rcases schedTick_moves m t with ⟨heq, -⟩ | ⟨context, heq, -⟩ | ⟨context, heq⟩
      · rwa [heq]
      · rw [heq]
        exact h.save context
      · rw [heq]
        exact (h.save context).giveWay
    · rw [contextOf]
      split
      · next hcurrent =>
        rw [hstep] at hcurrent ⊢
        rcases switchFromTrap_context (m.trapped t) false with ⟨-, -, hcontext⟩ | ⟨-, hne, -⟩
        · exact congrArg TrapContext.regs hcontext
        · exact absurd hcurrent hne
      · next hcurrent =>
        obtain ⟨m1, hat, hsched, -⟩ := trap_switch hon henabled hcurrent
        rw [atSwitch, if_pos (show t.IsTimer from ⟨hmsb, htimer⟩)] at hat
        cases hat
        rw [hsched, Sched.context_giveWay, Sched.slots_save]
        rw [if_pos (show m.current = (m.trapped t).sched.current from rfl)]
        rfl
  · rw [if_neg htimer] at hstep
    rw [hstep]
    refine ⟨h, ?_⟩
    rw [contextOf, if_pos (show (m.trapped t).prepareTrapReturn.current = m.current from rfl)]
    rfl

/-- A `waitpid` that blocks and loses the processor is pending from then on, and has
-2 where its argument was. -/
theorem waitpid_sleeps (hon : m.halted = false) (henabled : m.enabled (.trap t) = true)
    (hecall : t.IsEcall) (hcall : t.frame 17 = 260)
    (hblocked : (m.step (.trap t)).state m.current = .blocked)
    (hne : (m.step (.trap t)).current ≠ m.current) :
    (m.step (.trap t)).sched.Pending m.current (toInt (t.frame 10).toNat) ∧
      ((m.step (.trap t)).contextOf m.current).regs =
        update t.frame 10 (BitVec.ofInt 64 (-2)) := by
  have hrun : m.sched.Running := ecall_running henabled hecall (by rw [hcall]; decide)
  obtain ⟨m1, hat, hsched, -⟩ := trap_switch hon henabled hne
  have hnot : ¬ t.IsTimer := by
    rintro ⟨hmsb, -⟩
    rcases hecall with h | h <;> rw [h] at hmsb <;> exact absurd hmsb (by decide)
  obtain ⟨m', answer, hwait, hcases⟩ := sysWaitpid_cases (m.trapped t) t.mem (t.frame 10).toNat
    (t.frame 11).toNat (t.frame 12).toNat
  rw [atSwitch, if_neg hnot, if_pos hecall, dispatch_waitpid (m := m.trapped t) hcall hwait] at hat
  dsimp only at hat
  split at hat
  · rw [if_neg (by simp)] at hat
    cases hat
    -- who could go on could still go on after the choice of the next task
    have hasleep : ¬ m'.sched.Awake m.current := by
      intro hs
      have hafter : (m.step (.trap t)).sched.Awake m.current := by
        rw [hsched]
        refine Sched.Awake.giveWay ?_
        rw [Sched.Awake, Sched.Ready, Sched.state_save]
        exact hs
      exact hafter.not_blocked hblocked
    rcases hcases with ⟨child, hfind, heq, -⟩ | ⟨hnone, hchild, heq, hsteady, hresult⟩ | ⟨-, heq, -⟩
    · refine absurd (Or.inr ?_) hasleep
      obtain ⟨hc, hzombie, -⟩ := zombieChild_eq_some hfind
      rw [heq]
      exact (Sched.Change.reap (s := m.sched) hrun _ hc hzombie).running hrun
        (by simp) (by simp) (by simp)
    · constructor
      · rw [hsched]
        refine (Sched.Pending.save ?_ _).giveWay
        show m'.sched.Pending m.current _
        rw [heq]
        exact Sched.pending_wait (s := m.sched) hrun hchild fun j hj => zombieChild_eq_none hnone hj
      · have hcurrent : m.current = (m'.answer answer.1).sched.current := hsteady.current.symm
        rw [contextOf, if_neg hne, hsched, Sched.context_giveWay, Sched.slots_save,
          if_pos hcurrent, hresult]
        show update m'.frame 10 _ = _
        rw [hsteady.frame]
        rfl
    · refine absurd (Or.inr ?_) hasleep
      rw [heq]
      exact hrun
  · cases hat

/-- A `waitpid` that finds a child does not block, and its answer is in the frame. -/
theorem waitpid_reaps (hon : m.halted = false) (henabled : m.enabled (.trap t) = true)
    (hecall : t.IsEcall) (hcall : t.frame 17 = 260) {child : Fin 16}
    (hfind : m.zombieChild (toInt (t.frame 10).toNat) = some child) :
    (m.step (.trap t)).current = m.current ∧ (m.step (.trap t)).state m.current = .running ∧
      (m.step (.trap t)).frame 10 =
        BitVec.ofInt 64 ((m.trapped t).sysWaitpid t.mem (t.frame 10).toNat (t.frame 11).toNat
          (t.frame 12).toNat).2.1 := by
  have hrun : m.sched.Running := ecall_running henabled hecall (by rw [hcall]; decide)
  obtain ⟨m', answer, hwait, hcases⟩ := sysWaitpid_cases (m.trapped t) t.mem (t.frame 10).toNat
    (t.frame 11).toNat (t.frame 12).toNat
  have hdispatch := dispatch_waitpid (m := m.trapped t) hcall hwait
  have hfind' : (m.trapped t).zombieChild (toInt (t.frame 10).toNat) = some child := hfind
  rw [hfind'] at hcases
  rcases hcases with ⟨child', hsame, hsched, hsteady, -⟩ | ⟨hnone, -⟩ | ⟨hnone, -⟩
  · cases hsame
    obtain ⟨hc, hzombie, -⟩ := zombieChild_eq_some hfind
    have hrunning : m'.sched.Running := by
      rw [hsched]
      exact (Sched.Change.reap (s := m.sched) hrun _ hc hzombie).running hrun
        (by simp) (by simp) (by simp)
    have hcurrent : m'.current = m.current := hsteady.current
    rw [step_answered hon henabled hecall hdispatch hsteady hrunning, hwait]
    refine ⟨hcurrent, ?_, ?_⟩
    · rw [← hcurrent]
      exact hrunning
    · exact update_self (10 : Fin 32) (BitVec.ofInt 64 answer.1) m'.frame
  · cases hnone
  · cases hnone

end Machine

/-! ## The invariant -/

namespace Observed

variable {o : Observed} {e : Event} {t : Trap} {i : Fin 16} {p : Int}

/-- What is pending is pending in the table, and the registers ask for any child. -/
structure Consistent (o : Observed) : Prop where
  wf : o.machine.sched.Wf
  pending : ∀ i p, o.pending i = some p →
    0 < p ∧ o.machine.sched.Pending i p ∧ (o.machine.contextOf i).regs 17 = 260 ∧
      (o.machine.contextOf i).regs 10 = BitVec.ofInt 64 (-2)

theorem asked_cases (h : o.asked t = some p) :
    o.pending o.machine.current = some p ∨
      o.pending o.machine.current = none ∧ t.frame 17 = 260 ∧ 0 < p ∧
        toInt (t.frame 10).toNat = p := by
  rw [asked] at h
  split at h
  · next hpending =>
    cases h
    exact Or.inl hpending
  · next hpending =>
    split at h
    · next hcall =>
      cases h
      exact Or.inr ⟨hpending, Sysno.ofNumber_eq_some hcall.1, hcall.2, rfl⟩
    · cases h

theorem again_of_ne (hi : i ≠ o.machine.current) : o.again e i = o.pending i := by
  cases e with
  | trap t =>
    rw [again]
    split
    · exact update_of_ne hi ..
    · rfl
  | _ => rfl

theorem again_current (h : o.again e o.machine.current = some p) :
    (o.pending o.machine.current = some p ∧ ∀ t, e = .trap t → o.machine.halted = false →
      o.machine.enabled (.trap t) = true → ¬ t.IsEcall) ∨
    ∃ t, e = .trap t ∧ o.machine.halted = false ∧ o.machine.enabled (.trap t) = true ∧ t.IsEcall ∧
      (o.machine.step (.trap t)).state o.machine.current = .blocked ∧
      (o.machine.step (.trap t)).current ≠ o.machine.current ∧ o.asked t = some p := by
  cases e with
  | trap t =>
    rw [again] at h
    split at h
    · next hhappens =>
      rw [update_self] at h
      split at h
      · next hblocked =>
        exact Or.inr ⟨t, rfl, hhappens.1, hhappens.2.1, hhappens.2.2, hblocked.1, hblocked.2, h⟩
      · cases h
    · next hnot =>
      refine Or.inl ⟨h, fun t' ht' hon henabled hecall => hnot ?_⟩
      cases ht'
      exact ⟨hon, henabled, hecall⟩
  | _ => exact Or.inl ⟨h, nofun⟩

/-- A pending call that is executed finds its child, though it looks for any. -/
theorem Consistent.finds (h : o.Consistent) (hpending : o.pending o.machine.current = some p)
    (hframe : t.frame = o.machine.frame) (henabled : o.machine.enabled (.trap t) = true)
    (hecall : t.IsEcall) :
    t.frame 17 = 260 ∧ toInt (t.frame 10).toNat = -2 ∧
      (∃ j, o.machine.sched.Child o.machine.current p j ∧ o.machine.state j = .zombie) ∧
      ∃ child, o.machine.zombieChild (toInt (t.frame 10).toNat) = some child := by
  obtain ⟨-, hwaits, h17, h10⟩ := h.pending _ _ hpending
  rw [Machine.contextOf, if_pos rfl] at h17 h10
  have hcall : t.frame 17 = 260 := by
    rw [hframe]
    exact h17
  have harg : toInt (t.frame 10).toNat = -2 := by
    rw [hframe, show o.machine.frame 10 = BitVec.ofInt 64 (-2) from h10]
    decide
  have hrun := Machine.ecall_running henabled hecall (by rw [hcall]; decide)
  rcases hwaits with ⟨hsleeps, -⟩ | ⟨-, j, hj, hzombie⟩
  · have hstate := hsleeps.1
    rw [show (o.machine.sched.slots o.machine.current).state = .running from hrun] at hstate
    cases hstate
  · refine ⟨hcall, harg, ⟨j, hj, hzombie⟩, ?_⟩
    rw [harg]
    cases hfind : o.machine.zombieChild (-2) with
    | some child => exact ⟨child, rfl⟩
    | none =>
      refine absurd hzombie (Machine.zombieChild_eq_none hfind ⟨hj.1, hj.2.1, hj.2.2.1, ?_⟩)
      exact fun hpos => absurd hpos (by decide)

theorem Consistent.step (h : o.Consistent) (hlaw : o.Lawful e) : (o.step e).Consistent := by
  refine ⟨o.machine.step_wf e h.wf, fun i p hp => ?_⟩
  have hafter : (if (o.machine.step e).state i = .unused ∨ (o.machine.step e).state i = .zombie
      then none else o.again e i) = some p := hp
  split at hafter
  · cases hafter
  next hended =>
    have hlive : ((o.machine.step e).sched.slots i).Live := not_or.mp hended
    show 0 < p ∧ (o.machine.step e).sched.Pending i p ∧
      ((o.machine.step e).contextOf i).regs 17 = 260 ∧
      ((o.machine.step e).contextOf i).regs 10 = BitVec.ofInt 64 (-2)
    by_cases hi : i = o.machine.current
    · subst hi
      rcases again_current hafter with ⟨hpending, hno⟩ |
        ⟨t, rfl, hon, henabled, hecall, hblocked, hne, hasked⟩
      · obtain ⟨hpos, hwaits, h17, h10⟩ := h.pending _ _ hpending
        obtain ⟨t, rfl, hframe, -, hkind⟩ := hlaw p hpending
        by_cases hhappens : o.machine.halted = true ∨ o.machine.enabled (.trap t) = false
        · have hsame : o.machine.step (.trap t) = o.machine := if_pos hhappens
          rw [hsame]
          exact ⟨hpos, hwaits, h17, h10⟩
        · rw [not_or, Bool.not_eq_true, Bool.not_eq_false] at hhappens
          have hmsb := hkind.resolve_left (hno t rfl hhappens.1 hhappens.2)
          obtain ⟨hwaits', hregs⟩ :=
            Machine.interrupt_pending hhappens.1 hhappens.2 hmsb hwaits
          rw [Machine.contextOf, if_pos rfl] at h17 h10
          rw [hregs, hframe]
          exact ⟨hpos, hwaits', h17, h10⟩
      · rcases asked_cases hasked with hpending | ⟨-, hcall, hpos, harg⟩
        · obtain ⟨t', ht', hframe, -⟩ := hlaw p hpending
          cases ht'
          obtain ⟨hcall, -, -, child, hfind⟩ := h.finds hpending hframe henabled hecall
          have hrunning := (Machine.waitpid_reaps hon henabled hecall hcall hfind).2.1
          rw [hrunning] at hblocked
          cases hblocked
        · rw [← harg] at hpos ⊢
          obtain ⟨hwaits, hregs⟩ :=
            Machine.waitpid_sleeps hon henabled hecall hcall hblocked hne
          rw [hregs]
          exact ⟨hpos, hwaits, by rw [update_of_ne (by decide), hcall],
            update_self ..⟩
    · rw [again_of_ne hi] at hafter
      obtain ⟨hpos, hwaits, hregs⟩ := h.pending i p hafter
      obtain ⟨hwaits', hcontext⟩ := Machine.step_pending h.wf hpos hwaits hi hlive
      rw [hcontext]
      exact ⟨hpos, hwaits', hregs⟩

theorem start_consistent (m : Machine) : (start m).Consistent :=
  ⟨m.taskInit_wf, nofun⟩

theorem run_machine (o : Observed) (events : List Event) :
    (run step o events).machine = o.machine.runEvents events := by
  induction events generalizing o with
  | nil => rfl
  | cons e rest ih => exact ih (o.step e)

/-- In any run in which no call is overtaken when it is executed again: a `waitpid`
that asked for a child and returns a pid returns that of the child, with its exit
code. The idle task blocks in no wait (`Machine.enabled`). -/
theorem waitpid_returns_asked (m₀ : Machine) (events : List Event) (t : Trap) (p : Int)
    (hmeets : Meets step (fun o e => o.Lawful e ∧ ¬ o.Overtaken e) (start m₀) (events ++ [.trap t]))
    (hon : (m₀.taskInit.runEvents events).halted = false)
    (henabled : (m₀.taskInit.runEvents events).enabled (.trap t) = true) (hecall : t.IsEcall)
    (hasked : (run step (start m₀) events).asked t = some p) :
    let m := m₀.taskInit.runEvents events
    let outcome := (m.trapped t).sysWaitpid t.mem (t.frame 10).toNat (t.frame 11).toNat
      (t.frame 12).toNat
    t.frame 17 = 260 ∧ (0 < outcome.2.1 →
        outcome.2.1 = p ∧ (m.step (.trap t)).frame 10 = BitVec.ofInt 64 p ∧
          ∃ child, (m.tasks child).pid = p ∧ m.state child = .zombie ∧ outcome.2.2 =
              if (t.frame 11).toNat = 0 then none else some (m.tasks child).exitCode) := by
  intro m outcome
  have hmachine : (run step (start m₀) events).machine = m := run_machine _ events
  have hinv : (run step (start m₀) events).Consistent :=
    run_meets (fun _ _ h hcond => h.step hcond.1) (start_consistent m₀) hmeets.append_left
  obtain ⟨hlaw, hover⟩ := hmeets.last
  generalize run step (start m₀) events = o at hmachine hinv hlaw hover hasked
  -- the call finds the child that was asked for
  have hfinds : t.frame 17 = 260 ∧ ∀ child, m.zombieChild (toInt (t.frame 10).toNat) = some child →
      (m.tasks child).pid = p := by
    rcases asked_cases hasked with hpending | ⟨-, hcall, hpos, harg⟩
    · obtain ⟨t', ht', hframe, -⟩ := hlaw p hpending
      cases ht'
      obtain ⟨hcall, harg, ⟨j, hj, hzombie⟩, -⟩ :=
        hinv.finds hpending hframe (by rwa [hmachine]) hecall
      refine ⟨hcall, fun child hfind => ?_⟩
      rw [harg] at hfind
      obtain ⟨hc, hz, hfirst⟩ := Machine.zombieChild_eq_some hfind
      rw [hmachine] at hj hzombie
      have hany : ∀ {k : Fin 16} {target target' : Int}, ¬ target' > 0 →
          m.sched.Child m.current target k → m.sched.Child m.current target' k :=
        fun hneg hk => ⟨hk.1, hk.2.1, hk.2.2.1, fun hpos => absurd hpos hneg⟩
      obtain hlt | rfl | hgt := lt_trichotomy child j
      · refine absurd ⟨t, p, child, j, rfl, hecall, hpending, hlt, ?_⟩ hover
        rw [hmachine, Machine.waitsFor_iff, Machine.waitsFor_iff]
        exact ⟨hany (by decide) hc, hz, hj, hzombie⟩
      · exact hj.2.2.2 (hinv.pending _ _ hpending).1
      · exact absurd hzombie (hfirst j hgt (hany (by decide) hj))
    · refine ⟨hcall, fun child hfind => ?_⟩
      rw [harg] at hfind
      exact (Machine.zombieChild_eq_some hfind).1.2.2.2 hpos
  refine ⟨hfinds.1, fun hpos => ?_⟩
  obtain ⟨m', answer, hwait, hcases⟩ := Machine.sysWaitpid_cases (m.trapped t) t.mem
    (t.frame 10).toNat (t.frame 11).toNat (t.frame 12).toNat
  have hsecond : outcome.2 = answer := congrArg Prod.snd hwait
  rw [hsecond] at hpos ⊢
  rcases hcases with ⟨child, hfind, -, -, hresult⟩ | ⟨-, -, -, -, hresult⟩ | ⟨-, -, hresult⟩
  · have hpair := hresult hpos
    have hpid : (m.tasks child).pid = p := hfinds.2 child hfind
    have hanswer : answer.1 = p := (congrArg Prod.fst hpair).trans hpid
    refine ⟨hanswer, ?_, child, hpid, (Machine.zombieChild_eq_some hfind).2.1,
      congrArg Prod.snd hpair⟩
    rw [(Machine.waitpid_reaps hon henabled hecall hfinds.1 hfind).2.2, hwait, hanswer]
  · exact absurd hpos (by rw [hresult]; decide)
  · exact absurd hpos (not_lt.mpr hresult)

/-- The system call the running task was resumed at. -/
def callAgain (m : Machine) : Trap :=
  ⟨8, m.frame, m.csr.sepc, 0, ⟨fun _ => none, fun _ => false⟩⟩

theorem callAgain_lawful (o : Observed) : o.Lawful (.trap (callAgain o.machine)) :=
  fun _ _ => ⟨_, rfl, rfl, rfl, Or.inl (Or.inl rfl)⟩

theorem lawful_of_none (h : o.pending o.machine.current = none) :
    o.Lawful e ∧ ¬ o.Overtaken e := by
  constructor
  · intro p hp
    rw [h] at hp
    cases hp
  · rintro ⟨t, p, i, j, -, -, hp, -⟩
    rw [h] at hp
    cases hp

open Machine (withShell startShell userCall timerTrap)

/-- The shell forks and waits for the child; the child exits, and the idle task runs
for a tick. -/
def oneChild : List Event :=
  startShell ++ [.trap (userCall 220 0), .trap (userCall 260 2), .trap (userCall 93 7),
    .trap timerTrap]

/-- The shell's second `waitpid`. -/
def childAgain : Trap := callAgain (withShell.taskInit.runEvents oneChild)

/-- The shell calls again, and gets its child. -/
theorem waitpid_returns_asked_child :
    0 < (((withShell.taskInit.runEvents oneChild).trapped childAgain).sysWaitpid childAgain.mem
        (childAgain.frame 10).toNat (childAgain.frame 11).toNat
        (childAgain.frame 12).toNat).2.1 ∧
      ((withShell.taskInit.runEvents oneChild).step (.trap childAgain)).frame 10 =
        BitVec.ofInt 64 2 := by
  have hpos : 0 < (((withShell.taskInit.runEvents oneChild).trapped childAgain).sysWaitpid
      childAgain.mem (childAgain.frame 10).toNat (childAgain.frame 11).toNat
      (childAgain.frame 12).toNat).2.1 := by decide +kernel
  have hmachine : (run step (start withShell) oneChild).machine =
      withShell.taskInit.runEvents oneChild := run_machine _ _
  have hquiet : Meets step (fun o _ => o.pending o.machine.current = none) (start withShell)
      oneChild := by decide +kernel
  have hzombie : ∀ i, (withShell.taskInit.runEvents oneChild).state i = .zombie → i = 2 := by
    decide +kernel
  have hmeets : Meets step (fun o e => o.Lawful e ∧ ¬ o.Overtaken e) (start withShell)
      (oneChild ++ [.trap childAgain]) := by
    refine meets_append.mpr ⟨hquiet.imp fun o e h => lawful_of_none h, ⟨?_, ?_⟩, trivial⟩
    · have hlaw := callAgain_lawful (run step (start withShell) oneChild)
      rwa [hmachine] at hlaw
    · rintro ⟨t, p, i, j, -, -, -, hlt, -, hi, -, hj⟩
      rw [hmachine] at hi hj
      rw [hzombie i hi, hzombie j hj] at hlt
      exact absurd hlt (by decide)
  obtain ⟨-, hresult⟩ := waitpid_returns_asked withShell oneChild childAgain 2 hmeets
    (by decide +kernel) (by decide +kernel) (Or.inl rfl) (by decide +kernel)
  exact ⟨hpos, (hresult hpos).2.1⟩

/-- The shell forks twice and waits for the second child; the first one exits, then the
second. -/
def twoChildren : List Event :=
  startShell ++ [.trap (userCall 220 0), .trap (userCall 220 0), .trap (userCall 260 3),
    .trap (userCall 93 5), .trap (userCall 93 7), .trap timerTrap]

/-- The shell calls again, and gets the first one. -/
theorem waitpid_returns_other :
    let o := run step (start withShell) twoChildren
    Meets step Lawful (start withShell) (twoChildren ++ [.trap (callAgain o.machine)]) ∧
      o.asked (callAgain o.machine) = some 3 ∧
      (o.machine.step (.trap (callAgain o.machine))).frame 10 = 2 := by
  intro o
  have hquiet : Meets step (fun o _ => o.pending o.machine.current = none) (start withShell)
      twoChildren := by decide +kernel
  exact ⟨meets_append.mpr ⟨hquiet.imp fun o e h => (lawful_of_none h).1, callAgain_lawful o,
    trivial⟩, by decide +kernel, by decide +kernel⟩

end Observed

end MiniOs.Kernel
