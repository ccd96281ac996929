import MiniOs.Kernel.Sync
import MiniOs.Proofs.Running

/-!
# Semaphores and mutexes

A mutex is safe. One token goes round: it is the value, or a task holds it, and
every step of `sync.c` that touches one of the two touches the other. `owner`
could only do harm if `mutex_unlock` took it for a permission while somebody else
held the token. It is written by the holder and cleared before the token is given
back, so while it names a task that task holds the token.

A semaphore can lose a wakeup. `sem_wait` looks at the value in one step and
blocks in another, and `task_wake_one` only sees tasks that are blocked: a post
that falls between the two wakes nobody, and the task goes to sleep next to a
value it could have had. Where no post comes in that moment, and none comes while
more tasks sleep than it and the posts under way will wake, a positive value and
a sleeping task do not meet.

What a trap does to the table is not looked into here. It moves tasks between
running and ready, and none of it shows to `sync.c`.
-/

namespace MiniOs.Spec.Sched

open MiniOs.Kernel Function

variable {s s' s'' : Sched} {i : Fin 16}

/-- The same tasks are blocked, on the same channels. -/
def SameBlocked (s s' : Sched) : Prop :=
  ∀ i channel, ((s'.slots i).state = .blocked ∧ (s'.slots i).channel = channel) ↔
    (s.slots i).state = .blocked ∧ (s.slots i).channel = channel

theorem SameBlocked.refl (s : Sched) : SameBlocked s s := fun _ _ => Iff.rfl

theorem SameBlocked.trans (h1 : SameBlocked s s') (h2 : SameBlocked s' s'') : SameBlocked s s'' :=
  fun i channel => (h2 i channel).trans (h1 i channel)

/-- One task changes that was not blocked and is not. -/
theorem sameBlocked_of_update {x : Slot} (hslots : s'.slots = update s.slots i x)
    (hi : (s.slots i).state ≠ .blocked) (hx : x.state ≠ .blocked) : SameBlocked s s' := by
  intro j channel
  rw [hslots, update_apply]
  split
  · next hj => simp [hj, hi, hx]
  · rfl

theorem sameBlocked_save (s : Sched) (context : TrapContext) : SameBlocked s (s.save context) := by
  intro j channel
  rw [slots_save]
  split
  · next hj => rw [hj]
  · rfl

theorem sameBlocked_giveWay (s : Sched) : SameBlocked s s.giveWay := by
  have hdemote : SameBlocked s s.demote := by
    by_cases hrun : s.Running
    · rw [demote_of_running hrun]
      exact sameBlocked_of_update rfl (by simp [show _ = _ from hrun]) (by simp)
    · rw [demote_of_not_running hrun]
      exact .refl s
  rcases giveWay_cases s with ⟨n, -, hready, heq⟩ | ⟨-, -, heq⟩
  · rw [heq]
    refine hdemote.trans (sameBlocked_of_update rfl ?_ (by simp))
    rw [show (s.demote.slots n).state = .ready from hready]
    decide
  · rw [heq]
    exact .refl s

theorem Changes.saves {acts : List Act} (h : Changes s acts s') (hsave : ∀ a ∈ acts, a = .save) :
    Alike s s' ∧ SameBlocked s s' := by
  induction h with
  | nil s => exact ⟨.refl s, .refl s⟩
  | @cons s s1 s2 a acts hc hrest ih =>
    obtain rfl := hsave a List.mem_cons_self
    cases hc with
    | save context =>
      have hrest := ih fun a ha => hsave a (List.mem_cons_of_mem _ ha)
      exact ⟨(alike_save s context).trans hrest.1, (sameBlocked_save s context).trans hrest.2⟩

end MiniOs.Spec.Sched

namespace MiniOs.Kernel

open MiniOs.Lib MiniOs.Spec Function

/-- A trap that is no system call, or the one at the end of `task_block`: who
exists and who is blocked stays. -/
theorem Machine.quiet_trap (m : Machine) {t : Trap} (h : ¬ (t.IsEcall ∧ t.frame 17 ≠ 124)) :
    Sched.Alike m.sched (m.step (.trap t)).sched ∧
      Sched.SameBlocked m.sched (m.step (.trap t)).sched := by
  rcases m.step_moves (.trap t) with heq | ⟨acts, s, hmoved⟩
  · rw [heq]
    exact ⟨.refl _, .refl _⟩
  have hsave : ∀ a ∈ acts, a = Sched.Act.save := by
    intro a ha
    have hyield : t.IsEcall → (m.trapped t).call = some .yield := by
      intro hecall
      have h124 : t.frame 17 = 124 := not_not.mp fun hne => h ⟨hecall, hne⟩
      show Sysno.ofNumber (t.frame 17) = _
      rw [h124]
      decide
    rcases hmoved.does a ha with rfl | ⟨hecall, hdoes⟩ | ⟨hecall, hcall, -⟩
    · rfl
    · have hcall := hyield hecall
      cases a <;> simp [Machine.DoesCall, Machine.BlocksOn, Machine.waitArgs, hcall] at hdoes
    · rw [hyield hecall] at hcall
      cases hcall
  obtain ⟨halike, hblocked⟩ := hmoved.changes.saves hsave
  rcases hmoved.result with ⟨heq, -⟩ | ⟨-, heq⟩
  · rw [heq]
    exact ⟨halike, hblocked⟩
  · rw [heq]
    exact ⟨halike.trans (Sched.alike_giveWay s), hblocked.trans (Sched.sameBlocked_giveWay s)⟩

/-- The running task blocks itself. -/
theorem Machine.alike_taskBlock {m : Machine} (hrun : m.sched.Running) (address : Nat) :
    Sched.Alike m.sched (m.taskBlock (.object address)).sched := by
  rcases Machine.sched_taskBlock hrun address with heq | hchange
  · rw [heq]
    exact .refl _
  · exact hchange.alike trivial

theorem Machine.alike_taskWakeOne {m : Machine} (hrun : m.sched.Running) (address : Nat) :
    Sched.Alike m.sched (m.taskWakeOne (.object address)).sched := by
  rw [Machine.taskWakeOne]
  split
  · exact .refl _
  · next i hfind =>
    exact (Machine.waitsOn_change hrun (List.find?_some hfind)).1.alike trivial

namespace SyncState

variable {s : SyncState} {e : SyncEvent} {m : Machine}

/-- Every event: nothing happens, the processor changes hands, or the running task
goes on. -/
theorem step_cases (s : SyncState) (e : SyncEvent) :
    s.step e = s ∨
    (∃ m, s.step e = { s with machine := m } ∧ Sched.Alike s.machine.sched m.sched ∧
      Sched.SameBlocked s.machine.sched m.sched) ∨
    (∃ c, e = .call c ∧ s.Runs ∧ s.place s.current = .outside ∧ s.step e = s.begin c) ∨
    (e = .advance ∧ s.Runs ∧ s.step e = s.advance) := by
  cases e with
  | trap t =>
    rw [step]
    split
    · exact Or.inl rfl
    · next h => exact Or.inr (Or.inl ⟨_, rfl, s.machine.quiet_trap h⟩)
  | call c =>
    rw [step]
    split
    · next h => exact Or.inr (Or.inr (Or.inl ⟨c, rfl, h.1, h.2, rfl⟩))
    · exact Or.inl rfl
  | advance =>
    rw [step]
    split
    · next h => exact Or.inr (Or.inr (Or.inr ⟨rfl, h, rfl⟩))
    · exact Or.inl rfl

theorem Runs.running (h : s.Runs) : s.machine.sched.Running := h.2

/-- The task of the slot exists, and its pid. -/
def Used (s : SyncState) (i : Fin 16) : Prop := (s.machine.sched.slots i).Used
def pid (s : SyncState) (i : Fin 16) : Int := (s.machine.sched.slots i).pid

theorem Runs.used (h : s.Runs) : s.Used s.current := h.running.live.used

/-! ## Mutual exclusion -/

theorem holders_setHolds_true : (s.setHolds true).holders = insert s.current s.holders := by
  ext i
  by_cases hi : i = s.current <;> simp [holders, setHolds, update_apply, hi]

theorem holders_setHolds_false : (s.setHolds false).holders = s.holders.erase s.current := by
  ext i
  by_cases hi : i = s.current <;> simp [holders, setHolds, update_apply, hi]

/-- The token is the value or with one task, and `owner` names nobody else. -/
structure OneToken (s : SyncState) : Prop where
  nonneg : 0 ≤ s.value
  token : s.value + s.holders.card = 1
  -- nobody calls `sem_wait` directly
  locks : ∀ i, s.place i ≠ .test false ∧ s.place i ≠ .block false
  held : ∀ i, s.place i = .own ∨ s.place i = .disown ∨ s.place i = .increment → s.holds i = true
  released : ∀ i, s.place i = .increment → s.owner = -1
  owned : s.owner ≠ -1 → ∃ i, s.Used i ∧ s.holds i = true ∧ s.pid i = s.owner
  pid_nonneg : ∀ i, s.Used i → 0 ≤ s.pid i
  pid_inj : ∀ i j, s.Used i → s.Used j → s.pid i = s.pid j → i = j

namespace OneToken

variable (h : s.OneToken)
include h

theorem le_one : s.holders.card ≤ 1 := by
  have := h.token
  have := h.nonneg
  omega

theorem unique {i j : Fin 16} (hi : s.holds i = true) (hj : s.holds j = true) : i = j :=
  Finset.card_le_one.mp h.le_one i (by simpa [holders] using hi) j (by simpa [holders] using hj)

/-- While the value is positive nobody holds the mutex. -/
theorem free (hv : 0 < s.value) : s.holders = ∅ ∧ s.value = 1 := by
  have htoken := h.token
  have hzero : s.holders.card = 0 := by omega
  exact ⟨Finset.card_eq_zero.mp hzero, by omega⟩

theorem holds_eq_false (hv : 0 < s.value) (i : Fin 16) : s.holds i = false := by
  have hempty := (h.free hv).1
  rw [holders, Finset.filter_eq_empty_iff] at hempty
  simpa using hempty (Finset.mem_univ i)

/-- The same tasks, moved about by the scheduler. -/
theorem of_alike (ha : Sched.Alike s.machine.sched m.sched) :
    OneToken { s with machine := m } :=
  { h with
    owned howner := by
      obtain ⟨i, hused, hholds, hpid⟩ := h.owned howner
      exact ⟨i, (ha.used i).mpr hused, hholds, (ha.pid i).trans hpid⟩
    pid_nonneg i hi := by
      rw [pid, ha.pid]
      exact h.pid_nonneg i ((ha.used i).mp hi)
    pid_inj i j hi hj heq := by
      rw [pid, pid, ha.pid, ha.pid] at heq
      exact h.pid_inj i j ((ha.used i).mp hi) ((ha.used j).mp hj) heq }

/-- The running task goes to another place. -/
theorem goto {p : Place} (hlock : p ≠ .test false ∧ p ≠ .block false)
    (hheld : p = .own ∨ p = .disown ∨ p = .increment → s.holds s.current = true)
    (hreleased : p = .increment → s.owner = -1) : (s.goto p).OneToken :=
  { h with
    locks i := by
      simp only [SyncState.goto, update_apply]
      split
      · exact hlock
      · exact h.locks i
    held i := by
      simp only [SyncState.goto, update_apply]
      split
      · next hi => exact hi ▸ hheld
      · exact h.held i
    released i := by
      simp only [SyncState.goto, update_apply]
      split
      · exact hreleased
      · exact h.released i }

theorem take (hv : 0 < s.value) : ({ s with value := 0 }.setHolds true).OneToken where
  nonneg := le_refl 0
  token := by
    rw [holders_setHolds_true]
    show 0 + ((insert s.current s.holders).card : Int) = 1
    rw [(h.free hv).1]
    rfl
  locks := h.locks
  held i hi := by
    have := h.held i hi
    rw [h.holds_eq_false hv] at this
    cases this
  released := h.released
  owned howner := by
    obtain ⟨i, -, hholds, -⟩ := h.owned howner
    rw [h.holds_eq_false hv] at hholds
    cases hholds
  pid_nonneg := h.pid_nonneg
  pid_inj := h.pid_inj

/-- The holder writes its pid into `owner`. -/
theorem own (hused : s.Used s.current) (hholds : s.holds s.current = true)
    (hplace : s.place s.current ≠ .increment) : OneToken { s with owner := s.currentPid } :=
  { h with
    released i hi := by
      have heq := h.unique (h.held i (Or.inr (Or.inr hi))) hholds
      exact absurd (heq ▸ hi) hplace
    owned _ := ⟨s.current, hused, hholds, rfl⟩ }

theorem disown : OneToken { s with owner := -1 } :=
  { h with
    released _ _ := rfl
    owned howner := absurd rfl howner }

/-- The holder gives the value back, after `owner` was cleared. -/
theorem giveBack (hholds : s.holds s.current = true) (howner : s.owner = -1)
    (hplace : s.place s.current = .wake) :
    ({ s with value := s.value + 1 }.setHolds false).OneToken where
  nonneg := Int.add_nonneg h.nonneg (by decide)
  token := by
    rw [holders_setHolds_false]
    show s.value + 1 + ((s.holders.erase s.current).card : Int) = 1
    have hmem : s.current ∈ s.holders := by simpa [holders] using hholds
    have hcard := Finset.card_erase_add_one hmem
    have htoken := h.token
    omega
  locks := h.locks
  held i hi := by
    have heq := h.unique (h.held i hi) hholds
    have hwake : s.place i = .wake := heq ▸ hplace
    change s.place i = .own ∨ s.place i = .disown ∨ s.place i = .increment at hi
    simp [hwake] at hi
  released := h.released
  owned hne := absurd howner hne
  pid_nonneg := h.pid_nonneg
  pid_inj := h.pid_inj

theorem begin {c : SyncCall} (hruns : s.Runs) (hplace : s.place s.current = .outside)
    (hc : SyncEvent.onMutex (.call c) = true) : (s.begin c).OneToken := by
  cases c with
  | semWait => cases hc
  | semPost => cases hc
  | mutexLock => exact h.goto (by simp) (by simp) (by simp)
  | mutexTrylock =>
    rw [SyncState.begin]
    split
    · exact h
    · next hne =>
      have htaken := h.take (lt_of_le_of_ne h.nonneg (Ne.symm hne))
      refine htaken.own hruns.used (update_self ..) ?_
      show s.place s.current ≠ .increment
      simp [hplace]
  | mutexUnlock =>
    rw [SyncState.begin]
    split
    · exact h
    next howner =>
      -- the caller is the owner, and there is only one task of that pid
      push Not at howner
      have hnonneg := h.pid_nonneg s.current hruns.used
      have hne : s.owner ≠ -1 := by
        intro hminus
        rw [howner] at hminus
        have : s.pid s.current = -1 := hminus
        omega
      obtain ⟨i, hused, hholds, hpid⟩ := h.owned hne
      have hi := h.pid_inj i s.current hused hruns.used (hpid.trans howner)
      subst hi
      exact h.goto (by simp) (fun _ => hholds) (by simp)

theorem advance (hruns : s.Runs) : s.advance.OneToken := by
  rw [SyncState.advance]
  split
  · exact h
  · next lock hplace =>
    have hlock : lock = true := by
      cases lock with
      | true => rfl
      | false => exact absurd hplace (h.locks s.current).1
    subst hlock
    split
    · next hv =>
      have hone := (h.free hv).2
      simp only [if_true, hone]
      exact (h.take hv).goto (by simp) (fun _ => by simp [setHolds, SyncState.current]) (by simp)
    · exact h.goto (by simp) (by simp) (by simp)
  · next lock hplace =>
    have hlock : lock = true := by
      cases lock with
      | true => rfl
      | false => exact absurd hplace (h.locks s.current).2
    subst hlock
    exact (h.goto (p := .test true) (by simp) (by simp) (by simp)).of_alike
      (Machine.alike_taskBlock hruns.running s.address)
  · next hplace =>
    have hholds := h.held s.current (Or.inl hplace)
    exact (h.own hruns.used hholds (by simp [hplace])).goto (by simp) (by simp) (by simp)
  · next hplace =>
    have hholds := h.held s.current (Or.inr (Or.inl hplace))
    exact h.disown.goto (by simp) (fun _ => hholds) (fun _ => rfl)
  · next hplace =>
    have hholds := h.held s.current (Or.inr (Or.inr hplace))
    have howner := h.released s.current hplace
    exact (h.goto (p := .wake) (by simp) (by simp) (by simp)).giveBack hholds howner
      (by simp [SyncState.goto, SyncState.current])
  · exact (h.goto (p := .outside) (by simp) (by simp) (by simp)).of_alike
      (Machine.alike_taskWakeOne hruns.running s.address)

theorem step (he : e.onMutex = true) : (s.step e).OneToken := by
  rcases s.step_cases e with heq | ⟨m, heq, ha, -⟩ | ⟨c, rfl, hruns, hplace, heq⟩ | ⟨-, hruns, heq⟩
  · rw [heq]
    exact h
  · rw [heq]
    exact h.of_alike ha
  · rw [heq]
    exact h.begin hruns hplace he
  · rw [heq]
    exact h.advance hruns

end OneToken

theorem oneToken_mutexInit (address : Nat)
    (hpid : ∀ i, (m.sched.slots i).Used → 0 ≤ (m.sched.slots i).pid)
    (hinj : ∀ i j, (m.sched.slots i).Used → (m.sched.slots j).Used →
      (m.sched.slots i).pid = (m.sched.slots j).pid → i = j) :
    (mutexInit m address).OneToken where
  nonneg := by simp [mutexInit, semInit]
  token := by simp [mutexInit, semInit, holders]
  locks i := by simp [mutexInit, semInit]
  held i := by simp [mutexInit, semInit]
  released i := by simp [mutexInit, semInit]
  owned howner := absurd rfl howner
  pid_nonneg := hpid
  pid_inj := hinj

/-- Tasks with different pids share a mutex: whatever they call and whenever they are
interrupted, the value and the number of holders make one. -/
theorem mutex_excludes (m : Machine) (address : Nat)
    (hpid : ∀ i, (m.sched.slots i).Used → 0 ≤ (m.sched.slots i).pid)
    (hinj : ∀ i j, (m.sched.slots i).Used → (m.sched.slots j).Used →
      (m.sched.slots i).pid = (m.sched.slots j).pid → i = j)
    (events : List SyncEvent) (hcalls : ∀ e ∈ events, e.onMutex = true) :
    let s := (mutexInit m address).runEvents events
    s.value + s.holders.card = 1 ∧ (s.value = 0 ∨ s.value = 1) ∧
      ∀ i j, s.holds i = true → s.holds j = true → i = j := by
  have h : ((mutexInit m address).runEvents events).OneToken :=
    run_meets (fun _ _ h he => h.step he) (oneToken_mutexInit address hpid hinj)
      (meets_of_mem (fun e he _ => hcalls e he) _)
  have htoken := h.token
  have hnonneg := h.nonneg
  exact ⟨htoken, by omega, fun i j => h.unique⟩

/-- Two kernel tasks beside the idle task, under a quantum of one tick. -/
def twoTasks : Machine :=
  (Machine.powerOn.taskInit.runEvents [.setQuantum 1, .create 0x80200000 [], .create 0x80200100 []])

/-- The first task takes the mutex and is interrupted before it writes `owner`. The
second finds the mutex taken, and its `mutex_unlock` does nothing. -/
theorem mutex_excludes_two :
    let s := (mutexInit twoTasks 0x80300000).runEvents
      [.trap Machine.timerTrap, .call .mutexLock, .advance, .trap Machine.timerTrap,
        .call .mutexTrylock, .call .mutexUnlock]
    s.value + s.holders.card = 1 ∧ (s.value = 0 ∨ s.value = 1) ∧
      ∀ i j, s.holds i = true → s.holds j = true → i = j :=
  mutex_excludes twoTasks 0x80300000 (by decide +kernel) (by decide +kernel) _
    (by simp [SyncEvent.onMutex])

/-! ## Wakeups -/

theorem mem_blocked {i : Fin 16} : i ∈ s.blocked ↔
    (s.machine.sched.slots i).state = .blocked ∧
      (s.machine.sched.slots i).channel = some (.object s.address) := by
  simp only [blocked, Finset.mem_filter, Finset.mem_univ, true_and]
  rfl

theorem blocked_of_same (h : Sched.SameBlocked s.machine.sched m.sched) :
    blocked { s with machine := m } = s.blocked := by
  ext i
  rw [mem_blocked, mem_blocked]
  exact h i _

/-- `task_block` puts the running task to sleep, unless it is the idle task. -/
theorem mem_blocked_taskBlock {i : Fin 16}
    (hi : i ∈ blocked { s with machine := s.machine.taskBlock (.object s.address) }) :
    i ∈ s.blocked ∨ i = s.current ∧ s.pid s.current ≠ 0 := by
  by_cases hc : i = s.current
  · by_cases hpid : s.pid s.current = 0
    · have hsame : s.machine.taskBlock (.object s.address) = s.machine := if_pos hpid
      rw [hsame] at hi
      exact Or.inl hi
    · exact Or.inr ⟨hc, hpid⟩
  · left
    have hne : i ≠ s.machine.current := hc
    have hstate : (s.machine.taskBlock (.object s.address)).sched.slots i =
        s.machine.sched.slots i := by
      rw [Machine.taskBlock]
      split
      · rfl
      · rw [Machine.sched_setTask, Sched.slots_set_ne _ hne, Machine.sched_setThread,
          Sched.slots_set_ne _ hne]
    rw [mem_blocked] at hi ⊢
    rwa [hstate] at hi

/-- `task_wake_one` wakes one task where there is one. -/
theorem blocked_taskWakeOne (hidle : (0 : Fin 16) ∉ s.blocked) :
    (blocked { s with machine := s.machine.taskWakeOne (.object s.address) }).card =
        s.blocked.card - 1 ∧
      (0 : Fin 16) ∉ blocked { s with machine := s.machine.taskWakeOne (.object s.address) } := by
  have hwaits : ∀ i, s.machine.waitsOn (.object s.address) i = true ↔ i ∈ s.blocked := by
    intro i
    simp only [Machine.waitsOn, decide_eq_true_eq, mem_blocked]
    refine ⟨And.right, fun h => ⟨?_, h⟩⟩
    rintro rfl
    exact hidle (mem_blocked.mpr h)
  rw [Machine.taskWakeOne]
  cases hfind : (List.finRange 16).find? (s.machine.waitsOn (.object s.address)) with
  | none =>
    have hempty : s.blocked = ∅ := by
      refine Finset.eq_empty_of_forall_notMem fun i hi => ?_
      exact List.find?_eq_none.mp hfind i (List.mem_finRange i) ((hwaits i).mpr hi)
    exact ⟨by simp only [hempty]; rfl, hidle⟩
  | some i =>
    have hmem := (hwaits i).mp (List.find?_some hfind)
    have herase : blocked { s with machine := s.machine.wake i } = s.blocked.erase i := by
      ext j
      rw [mem_blocked, Finset.mem_erase, mem_blocked, Machine.sched_wake, Sched.slots_wake]
      by_cases hj : j = i <;> simp [hj]
    simp only
    rw [herase]
    exact ⟨Finset.card_erase_of_mem hmem, fun h => hidle (Finset.mem_of_mem_erase h)⟩

theorem posting_goto {p : Place} (hfrom : s.place s.current ≠ .wake) (hto : p ≠ .wake) :
    (s.goto p).posting = s.posting := by
  ext i
  by_cases hi : i = s.current <;> simp [posting, goto, update_apply, hi, hfrom, hto]

theorem posting_goto_wake : (s.goto .wake).posting = insert s.current s.posting := by
  ext i
  by_cases hi : i = s.current <;> simp [posting, goto, update_apply, hi]

theorem posting_goto_outside : (s.goto .outside).posting = s.posting.erase s.current := by
  ext i
  by_cases hi : i = s.current <;> simp [posting, goto, update_apply, hi]

/-- While the value is positive nobody is about to block, and the posts under way
will wake all that sleep. -/
structure Covered (s : SyncState) : Prop where
  idle : s.pid 0 = 0
  awake : (0 : Fin 16) ∉ s.blocked
  gap : 0 < s.value → ∀ i lock, s.place i ≠ .block lock
  covered : 0 < s.value → s.blocked.card ≤ s.posting.card

namespace Covered

variable (h : s.Covered)
include h

/-- A change of `value`, `owner` and `holds` by a step that posts nothing. -/
theorem set {v owner : Int} {holds : Fin 16 → Bool} (hv : 0 < v → 0 < s.value) :
    Covered { s with value := v, owner := owner, holds := holds } :=
  ⟨h.idle, h.awake, fun hpos => h.gap (hv hpos), fun hpos => h.covered (hv hpos)⟩

/-- The running task goes from one place to another, neither of them inside a post. -/
theorem goto {p : Place} (hfrom : s.place s.current ≠ .wake) (hto : p ≠ .wake)
    (hblock : 0 < s.value → ∀ lock, p ≠ .block lock) : (s.goto p).Covered where
  idle := h.idle
  awake := h.awake
  gap hpos i lock := by
    simp only [SyncState.goto, update_apply]
    split
    · exact hblock hpos lock
    · exact h.gap hpos i lock
  covered hpos := by
    rw [posting_goto hfrom hto]
    exact h.covered hpos

theorem of_same (ha : Sched.Alike s.machine.sched m.sched)
    (hb : Sched.SameBlocked s.machine.sched m.sched) : Covered { s with machine := m } where
  idle := (ha.pid 0).trans h.idle
  awake := by
    rw [blocked_of_same hb]
    exact h.awake
  gap := h.gap
  covered hpos := by
    rw [blocked_of_same hb]
    exact h.covered hpos

theorem begin {c : SyncCall} (hplace : s.place s.current = .outside) : (s.begin c).Covered := by
  have hgoto : ∀ p, p ≠ .wake → (∀ lock, p ≠ .block lock) → (s.goto p).Covered :=
    fun p hwake hblock => h.goto (by simp [hplace]) hwake fun _ => hblock
  cases c with
  | semWait => exact hgoto _ (by simp) (by simp)
  | semPost => exact hgoto _ (by simp) (by simp)
  | mutexLock => exact hgoto _ (by simp) (by simp)
  | mutexTrylock =>
    rw [SyncState.begin]
    split
    · exact h
    · exact h.set fun hpos => absurd hpos (lt_irrefl 0)
  | mutexUnlock =>
    rw [SyncState.begin]
    split
    · exact h
    · exact hgoto _ (by simp) (by simp)

/-- The running task goes to sleep. Somebody was about to block, so the value is not
positive. -/
theorem block {lock : Bool} (hruns : s.Runs) (hplace : s.place s.current = .block lock) :
    Covered { s.goto (.test lock) with machine := s.machine.taskBlock (.object s.address) } := by
  have hv : ¬ 0 < s.value := fun hpos => h.gap hpos s.current lock hplace
  refine ⟨((Machine.alike_taskBlock hruns.running s.address).pid 0).trans h.idle, fun hmem => ?_,
    fun hpos => absurd hpos hv, fun hpos => absurd hpos hv⟩
  rcases mem_blocked_taskBlock hmem with hmem | ⟨heq, hpid⟩
  · exact h.awake hmem
  · rw [← heq] at hpid
    exact hpid h.idle

theorem increment (hplace : s.place s.current = .increment)
    (hin : s.between = ∅ ∧ s.blocked.card ≤ s.posting.card + 1) :
    (({ s with value := s.value + 1 }.setHolds false).goto .wake).Covered where
  idle := h.idle
  awake := h.awake
  gap _ i lock := by
    simp only [SyncState.goto, update_apply]
    split
    · simp
    intro hi
    have hmem : i ∈ s.between := by
      simp only [between, Finset.mem_filter, Finset.mem_univ, true_and]
      cases lock with
      | false => exact Or.inl hi
      | true => exact Or.inr hi
    rw [hin.1] at hmem
    exact absurd hmem (Finset.notMem_empty i)
  covered _ := by
    rw [posting_goto_wake]
    show s.blocked.card ≤ (insert s.current s.posting).card
    rw [Finset.card_insert_of_notMem (by simp [posting, hplace])]
    exact hin.2

theorem wake (hruns : s.Runs) (hplace : s.place s.current = .wake) :
    Covered { s.goto .outside with machine := s.machine.taskWakeOne (.object s.address) } := by
  obtain ⟨hcard, hawake⟩ := blocked_taskWakeOne h.awake
  refine ⟨((Machine.alike_taskWakeOne hruns.running s.address).pid 0).trans h.idle, hawake,
    fun hpos i lock => ?_, fun hpos => ?_⟩
  · simp only [SyncState.goto, update_apply]
    split
    · simp
    · exact h.gap hpos i lock
  · have hmem : s.current ∈ s.posting := by simp [posting, hplace]
    show (blocked { s with machine := s.machine.taskWakeOne (.object s.address) }).card ≤
      (s.goto .outside).posting.card
    rw [hcard, posting_goto_outside, Finset.card_erase_of_mem hmem]
    exact Nat.sub_le_sub_right (h.covered hpos) 1

theorem advance (hruns : s.Runs) (hin : s.PostsInTime .advance) : s.advance.Covered := by
  rw [SyncState.advance]
  split
  · exact h
  · next lock hplace =>
    have hfrom : s.place s.current ≠ .wake := by simp [hplace]
    split
    · have hless : 0 < s.value - 1 → 0 < s.value := by omega
      split
      · exact (h.set hless).goto hfrom (by simp) (by simp)
      · exact (h.set hless).goto hfrom (by simp) (by simp)
    · next hv => exact h.goto hfrom (by simp) fun hpos => absurd hpos hv
  · next lock hplace => exact h.block hruns hplace
  · next hplace =>
    have hfrom : s.place s.current ≠ .wake := by simp [hplace]
    exact (h.set id).goto hfrom (by simp) (by simp)
  · next hplace =>
    have hfrom : s.place s.current ≠ .wake := by simp [hplace]
    exact (h.set id).goto hfrom (by simp) (by simp)
  · next hplace => exact h.increment hplace (hin hplace)
  · next hplace => exact h.wake hruns hplace

theorem step (hin : s.PostsInTime e) : (s.step e).Covered := by
  rcases s.step_cases e with heq | ⟨m, heq, ha, hb⟩ | ⟨c, -, -, hplace, heq⟩ | ⟨rfl, hruns, heq⟩
  · rw [heq]
    exact h
  · rw [heq]
    exact h.of_same ha hb
  · rw [heq]
    exact h.begin hplace
  · rw [heq]
    exact h.advance hruns hin

end Covered

/-- A semaphore whose posts come in time loses no wakeup: where the value is positive
and a task sleeps, a post is under way. -/
theorem sem_wakes (m : Machine) (address : Nat) (value : Int) (events : List SyncEvent)
    (hidle : (m.tasks 0).pid = 0) (hfree : (semInit m address value).blocked = ∅)
    (hin : Meets step PostsInTime (semInit m address value) events) :
    let s := (semInit m address value).runEvents events
    ¬ (0 < s.value ∧ s.blocked.Nonempty ∧ s.posting = ∅) := by
  have hinit : (semInit m address value).Covered := by
    refine ⟨hidle, by simp [hfree], fun _ i lock => by simp [semInit], fun _ => ?_⟩
    rw [hfree]
    exact Nat.zero_le _
  have h : ((semInit m address value).runEvents events).Covered :=
    run_meets (fun _ _ h he => h.step he) hinit hin
  rintro s ⟨hpos, hblocked, hposting⟩
  have hcard := h.covered hpos
  rw [show ((semInit m address value).runEvents events).posting = ∅ from hposting] at hcard
  exact absurd (Finset.card_pos.mpr hblocked) (by simpa using hcard)

/-- A task sleeps and is woken by the other. -/
theorem sem_wakes_one :
    let s := (semInit twoTasks 0x80300000 0).runEvents
      [.trap Machine.timerTrap, .call .semWait, .advance, .advance,
        .trap (Machine.kernelCall 124 0 0), .call .semPost, .advance, .advance]
    ¬ (0 < s.value ∧ s.blocked.Nonempty ∧ s.posting = ∅) :=
  sem_wakes twoTasks 0x80300000 0 _ (by decide +kernel) (by decide +kernel) (by decide +kernel)

/-- The first task finds the value at zero and is interrupted. The second posts, and
wakes nobody. Then the first goes to sleep, and the value it waits for is there. -/
theorem sem_wakeup_lost :
    let s := (semInit twoTasks 0x80300000 0).runEvents
      [.trap Machine.timerTrap, .call .semWait, .advance, .trap Machine.timerTrap,
        .call .semPost, .advance, .advance, .trap Machine.timerTrap, .trap Machine.timerTrap,
        .advance]
    0 < s.value ∧ s.blocked = {1} ∧ s.posting = ∅ ∧ s.place 2 = .outside := by
  decide +kernel

end SyncState

end MiniOs.Kernel
