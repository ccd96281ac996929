import MiniOs.Proofs.Contexts

/-!
# Who waits how long

Both policies are fair in their own way, and each rests on one number.

Round robin: the distance from the task that has the processor to a task that
waits. It is in the table when the choice is made, and the choice is the nearest
ready task, so every choice that is not for the waiting task brings the processor
closer to it. What other tasks do in between does not matter, because the distance
is between slots.

First come first served: the stamp of a task, which is the value of the counter
when the task became ready. Whatever makes a task ready takes a new stamp, and
while a task is ready its stamp does not change, so of two tasks the one with the
smaller stamp has been ready longer.
-/

namespace MiniOs.Spec.Sched

open MiniOs.Kernel Function

variable {s s' s'' : Sched} {a : Act} {i j : Fin 16}

/-! ## The queue -/

/-- Who is ready after a change was ready before and kept the stamp, or took a new
one. -/
structure Queued (s s' : Sched) : Prop where
  clock : s.clock ≤ s'.clock
  ready : ∀ j, s'.Ready j → (s.Ready j ∧ (s'.slots j).order = (s.slots j).order) ∨
      (¬ s.Ready j ∧ s.clock < (s'.slots j).order ∧ (s'.slots j).order ≤ s'.clock)

theorem Queued.refl (s : Sched) : Queued s s := ⟨le_refl _, fun _ hj => Or.inl ⟨hj, rfl⟩⟩

/-- Two changes, if nobody leaves the queue in the first and is back after the
second. -/
theorem Queued.trans (h1 : Queued s s') (h2 : Queued s' s'')
    (hno : ∀ j, s.Ready j → ¬ s'.Ready j → ¬ s''.Ready j) : Queued s s'' := by
  refine ⟨h1.clock.trans h2.clock, fun j hj => ?_⟩
  rcases h2.ready j hj with ⟨hj', horder⟩ | ⟨hj', hlt, hle⟩
  · rcases h1.ready j hj' with ⟨hj0, horder'⟩ | ⟨hj0, hlt, hle⟩
    · exact Or.inl ⟨hj0, horder.trans horder'⟩
    · rw [horder]
      exact Or.inr ⟨hj0, hlt, hle.trans h2.clock⟩
  · exact Or.inr ⟨fun hj0 => hno j hj0 hj' hj, h1.clock.trans_lt hlt, hle⟩

theorem queued_of_update {x : Slot} (hslots : s'.slots = update s.slots i x)
    (hclock : s.clock ≤ s'.clock)
    (hx : x.state = .ready → ¬ s.Ready i ∧ s.clock < x.order ∧ x.order ≤ s'.clock) :
    Queued s s' := by
  refine ⟨hclock, fun j hj => ?_⟩
  rw [Ready, hslots] at hj
  rw [hslots]
  by_cases hji : j = i
  · subst hji
    rw [update_self] at hj ⊢
    exact Or.inr (hx hj)
  · rw [update_of_ne hji] at hj ⊢
    exact Or.inl ⟨hj, rfl⟩

theorem ready_save (context : TrapContext) : (s.save context).Ready j ↔ s.Ready j := by
  rw [Ready, Ready, slots_save]
  split
  · next hj => rw [hj]
  · rfl

theorem queued_save (s : Sched) (context : TrapContext) : Queued s (s.save context) := by
  refine ⟨le_refl _, fun j hj => Or.inl ⟨(ready_save context).mp hj, ?_⟩⟩
  rw [slots_save]
  split
  · next hj => rw [hj]
  · rfl

theorem Ended.queued {code : Int} (he : Ended s i code s') : Queued s s' := by
  refine ⟨he.clock, fun j hj => ?_⟩
  have hji : j ≠ i := by
    rintro rfl
    rw [Ready, he.zombie] at hj
    cases hj
  rcases he.other j hji with ⟨-, hstate, -, horder⟩ | ⟨hawaits, -, -, horder, hclock⟩
  · rw [Ready, hstate] at hj
    exact Or.inl ⟨hj, horder⟩
  · refine Or.inr ⟨fun hready => ?_, by omega, by omega⟩
    have hblocked := hawaits.2.1
    rw [hready] at hblocked
    cases hblocked

theorem Change.queued (h : Change s a s') : Queued s s' := by
  cases h with
  | spawn hrun context ok hslot hfree =>
    refine queued_of_update rfl (Nat.le_succ _) fun _ => ⟨?_, Nat.lt_succ_self _, le_refl _⟩
    simp [Ready, hfree]
  | exit hrun code hpid => exact (finish_ended hrun.live.used code).queued
  | kill hrun code hi hlive hpid => exact (kill_ended hlive.used code).queued
  | reap hrun target hchild hzombie =>
    exact queued_of_update rfl (le_refl _) fun h => TaskState.noConfusion h
  | wait hrun target hchild hnone =>
    exact queued_of_update rfl (le_refl _) fun h => TaskState.noConfusion h
  | block hrun address hpid =>
    exact queued_of_update rfl (le_refl _) fun h => TaskState.noConfusion h
  | wake hrun address hi hblocked hchannel =>
    refine queued_of_update rfl (Nat.le_succ _) fun _ => ⟨?_, Nat.lt_succ_self _, le_refl _⟩
    simp [Ready, hblocked]
  | save context => exact queued_save s context
  | setPolicy policy => exact ⟨le_refl _, fun j hj => Or.inl ⟨hj, rfl⟩⟩

/-- No change gives the processor to a task. -/
theorem Change.was_running (h : Change s a s') (hj : (s'.slots j).state = .running) :
    (s.slots j).state = .running := by
  have hupdate : ∀ {i : Fin 16} {x : Slot}, x.state ≠ .running →
      (update s.slots i x j).state = .running → (s.slots j).state = .running := by
    intro i x hx hj
    by_cases hji : j = i
    · rw [hji, update_self] at hj
      exact absurd hj hx
    · rwa [update_of_ne hji] at hj
  have hended : ∀ {i code}, Ended s i code s' → (s.slots j).state = .running := by
    intro i code he
    have hji : j ≠ i := by
      rintro rfl
      rw [he.zombie] at hj
      cases hj
    rcases he.other j hji with ⟨-, hstate, -⟩ | ⟨-, hready, -⟩
    · exact hstate.symm.trans hj
    · rw [hready] at hj
      cases hj
  cases h with
  | spawn hrun context ok hslot hfree => exact hupdate (by cases ok <;> simp) hj
  | exit hrun code hpid => exact hended (finish_ended hrun.live.used code)
  | kill hrun code hi hlive hpid => exact hended (kill_ended hlive.used code)
  | reap hrun target hchild hzombie => exact hupdate TaskState.noConfusion hj
  | wait hrun target hchild hnone => exact hupdate TaskState.noConfusion hj
  | block hrun address hpid => exact hupdate TaskState.noConfusion hj
  | wake hrun address hi hblocked hchannel => exact hupdate TaskState.noConfusion hj
  | save context =>
    rw [slots_save] at hj
    split at hj
    · next hji => rwa [hji]
    · exact hj
  | setPolicy policy => exact hj

variable {acts : List Act}

theorem Changes.was_running (h : Changes s acts s') (hj : (s'.slots j).state = .running) :
    (s.slots j).state = .running := by
  induction h with
  | nil s => exact hj
  | cons h hrest ih => exact h.was_running (ih hj)

theorem Change.policy (h : Change s a s') (ha : a ≠ .setPolicy) : s'.policy = s.policy := by
  cases h with
  | exit hrun code hpid => exact (finish_ended hrun.live.used code).policy
  | kill hrun code hi hlive hpid => exact (kill_ended hlive.used code).policy
  | setPolicy policy => exact absurd rfl ha
  | _ => rfl

theorem Changes.policy (h : Changes s acts s') (hacts : .setPolicy ∉ acts) :
    s'.policy = s.policy := by
  induction h with
  | nil s => rfl
  | cons h hrest ih =>
    rw [List.mem_cons, not_or] at hacts
    exact (ih hacts.2).trans (h.policy (Ne.symm hacts.1))

theorem policy_demote (s : Sched) : s.demote.policy = s.policy := by
  rw [demote]
  split <;> rfl

theorem current_demote (s : Sched) : s.demote.current = s.current := by
  rw [demote]
  split <;> rfl

theorem Changes.queued (h : Changes s acts s') (hfew : Machine.Few acts) :
    Queued s s' := by
  rcases hfew with ⟨front, hone, rfl | rfl⟩ | hwakes
  · rcases h.of_le_one hone with rfl | ⟨a, -, hchange⟩
    · exact .refl _
    · exact hchange.queued
  · obtain ⟨s1, hfront, hsave⟩ := h.split
    have h1 : Queued s s1 := by
      rcases hfront.of_le_one hone with rfl | ⟨a, -, hchange⟩
      · exact .refl _
      · exact hchange.queued
    obtain ⟨context, rfl⟩ := hsave.saved
    exact h1.trans (queued_save s1 context) fun j _ hj => (not_congr (ready_save context)).mpr hj
  · induction h with
    | nil s => exact .refl s
    | @cons s s1 s2 a acts hc hrest ih =>
      obtain ⟨i, rfl⟩ := hwakes a List.mem_cons_self
      refine hc.queued.trans (ih fun a ha => hwakes a (List.mem_cons_of_mem _ ha)) ?_
      -- who is woken was blocked, and nobody else moves
      intro j hj hj1
      refine absurd ?_ hj1
      cases hc with
      | wake hrun address hi hblocked hchannel =>
        rw [Ready, slots_wake]
        split
        · rfl
        · exact hj

theorem queued_demote (s : Sched) : Queued s s.demote := by
  by_cases hrun : s.Running
  · rw [demote_of_running hrun]
    refine queued_of_update rfl (Nat.le_succ _) fun _ => ⟨?_, Nat.lt_succ_self _, le_refl _⟩
    rw [Ready, show (s.slots s.current).state = .running from hrun]
    decide
  · rw [demote_of_not_running hrun]
    exact .refl s

theorem queued_resume (s : Sched) (i : Fin 16) : Queued s (s.resume i) :=
  queued_of_update rfl (le_refl _) fun h => TaskState.noConfusion h

/-- Only the running task joins the queue when the choice is made. -/
theorem ready_demote (h : s.demote.Ready j) : s.Ready j ∨ (s.slots j).state = .running := by
  by_cases hrun : s.Running
  · rw [demote_of_running hrun, Ready, slots_ready] at h
    split at h
    · next hj => exact Or.inr (hj ▸ hrun)
    · exact Or.inl h
  · rw [demote_of_not_running hrun] at h
    exact Or.inl h

/-- The queue when the choice is made. -/
theorem Changes.queued_demote (h : Changes s acts s') (hfew : Machine.Few acts) :
    Queued s s'.demote := by
  refine (h.queued hfew).trans (Sched.queued_demote s') fun j hj hj' hd => ?_
  have hrun := h.was_running ((ready_demote hd).resolve_left hj')
  rw [Ready, hrun] at hj
  cases hj

theorem Changes.queued_giveWay (h : Changes s acts s') (hfew : Machine.Few acts) :
    Queued s s'.giveWay := by
  rcases giveWay_cases s' with ⟨n, -, -, heq⟩ | ⟨-, -, heq⟩
  · rw [heq]
    refine (h.queued_demote hfew).trans (queued_resume _ n) fun j _ hd hr => hd ?_
    rw [Ready, slots_resume] at hr
    split at hr
    · cases hr
    · exact hr
  · rw [heq]
    exact h.queued hfew

end MiniOs.Spec.Sched

namespace MiniOs.Kernel.Machine

open MiniOs.Lib MiniOs.Spec

variable {m d : Machine} {e : Event} {i j n : Fin 16}

/-! ## Choices -/

/-- The machine on which `switch_from_trap` calls `select_next`, where it gets that
far. -/
def atChoice (m : Machine) (force : Bool) : Option Machine :=
  if m.taskCount ≤ 1 then none
  else if force then some (m.saveTrapContext m.current).demoted
  else
    match (m.saveTrapContext m.current).spendTick with
    | (_, true) => none
    | (m, false) => some m.demoted

/-- The same for an event. -/
def choice (m : Machine) : Event → Option Machine
  | .trap t =>
    if m.halted = true ∨ m.enabled (.trap t) = false then none
    else (m.atSwitch t).bind fun m₁ => m₁.atChoice (decide ¬ t.IsTimer)
  | _ => none

/-- The task an event selects. -/
def selected (m : Machine) (e : Event) : Option (Fin 16) := (m.choice e).bind selectNext

theorem atChoice_some {force : Bool} (h : m.atChoice force = some d) :
    d.sched = (m.sched.save m.context).demote ∧
      (m.switchFromTrap force).1.sched = (m.sched.save m.context).giveWay := by
  rw [atChoice] at h
  split at h
  · cases h
  next hcount =>
    split at h
    · next hforce =>
      cases h
      subst hforce
      have hsched : (m.switchFromTrap true).1.sched = _ := sched_taskReschedule
      rw [hsched, if_neg hcount, sched_demoted, sched_saveTrapContext]
      exact ⟨rfl, rfl⟩
    · next hforce =>
      obtain rfl := eq_false_of_ne_true hforce
      have hspend := @sched_spendTick (m.saveTrapContext m.current)
      have hsched : (m.switchFromTrap false).1.sched = _ := sched_schedTick
      split at h
      · cases h
      · next m1 heq =>
        cases h
        rw [heq, sched_saveTrapContext] at hspend
        rw [hsched, if_neg hcount, if_neg (by simp [keeps, heq]), sched_demoted]
        exact ⟨congrArg Sched.demote hspend, rfl⟩

theorem atChoice_none {force : Bool} (h : m.atChoice force = none) :
    (m.switchFromTrap force).1.current = m.current := by
  rw [atChoice] at h
  rw [switchFromTrap]
  split at h
  · next hcount => rw [if_pos hcount]
  next hcount =>
    rw [if_neg hcount]
    split at h
    · cases h
    next hforce =>
      have hspend := congrArg Sched.current (@sched_spendTick (m.saveTrapContext m.current))
      rw [if_neg hforce]
      cases hst : (m.saveTrapContext m.current).spendTick with
      | mk m1 kept =>
        rw [hst] at h hspend
        cases kept with
        | true => exact hspend
        | false => cases h

variable {t : Trap}

/-- What `trap_handler` does to the table once `switch_from_trap` is called. -/
theorem step_atSwitch {m1 : Machine} (hon : m.halted = false)
    (henabled : m.enabled (.trap t) = true) (hat : m.atSwitch t = some m1) :
    (m.step (.trap t)).sched = (m1.switchFromTrap (decide ¬ t.IsTimer)).1.sched := by
  rw [atSwitch] at hat
  split at hat
  · next htimer =>
    cases hat
    rw [step, if_neg (by simp [hon, henabled]), decide_eq_false (not_not.mpr htimer)]
    show (m.trapHandler t).sched = _
    rw [trapHandler]
    rw [if_pos htimer.1, if_pos htimer.2]
    rfl
  · next htimer =>
    split at hat
    · next hecall =>
      rw [step_ecall hon henabled hecall, decide_eq_true htimer]
      generalize (m.trapped t).syscallDispatch t.mem = outcome at hat ⊢
      obtain ⟨m', replaced⟩ := outcome
      dsimp only at hat ⊢
      split at hat
      · next hstopped =>
        cases hat
        rw [afterDispatch, if_neg (by simp [hstopped.1]), if_pos hstopped.2]
        generalize (if m'.state m'.current = .blocked ∧ replaced = 2 then
          m'.setEpc (t.epc + 4) else m') = m1
        dsimp only
        split <;> rfl
      · cases hat
    · cases hat

theorem choice_some (h : m.choice e = some d) :
    ∃ acts s, Sched.Changes m.sched acts s ∧ Few acts ∧ (∀ a ∈ acts, m.Does e a) ∧
      d.sched = s.demote ∧ (m.step e).sched = s.giveWay := by
  cases e with
  | trap t =>
    rw [choice] at h
    split at h
    · cases h
    next hno =>
      rw [not_or, Bool.not_eq_true, Bool.not_eq_false] at hno
      obtain ⟨m1, hat, hd⟩ := Option.bind_eq_some_iff.mp h
      obtain ⟨hdemote, hgive⟩ := atChoice_some hd
      obtain ⟨acts, hchanges, hone, hdoes⟩ := atSwitch_changes hno.1 hno.2 hat
      refine ⟨acts ++ [.save], _, hchanges.append (save_changes _ m1.context),
        Or.inl ⟨acts, hone, Or.inr rfl⟩, fun a ha => ?_, hdemote, ?_⟩
      · rcases List.mem_append.mp ha with ha | ha
        · exact hdoes a ha
        · exact Or.inl (List.mem_singleton.mp ha)
      · rw [step_atSwitch hno.1 hno.2 hat, hgive]
  | _ => cases h

/-- Where no choice is made, the processor stays. -/
theorem choice_none (h : m.choice e = none) : (m.step e).current = m.current := by
  by_contra hne
  obtain ⟨t, m1, rfl, hon, henabled, hat, -⟩ := step_resumed hne
  rw [choice, if_neg (by simp [hon, henabled]), hat] at h
  refine hne ((congrArg Sched.current (step_atSwitch hon henabled hat)).trans ?_)
  exact (atChoice_none h).trans (atSwitch_current hon henabled hat)

theorem selected_some (h : m.selected e = some n) :
    ∃ acts s, Sched.Changes m.sched acts s ∧ Few acts ∧ (∀ a ∈ acts, m.Does e a) ∧
      s.demote.next = some n ∧ (m.step e).sched = s.demote.resume n := by
  obtain ⟨d, hd, hn⟩ := Option.bind_eq_some_iff.mp h
  obtain ⟨acts, s, hchanges, hfew, hdoes, hdemote, hgive⟩ := choice_some hd
  have hnext : s.demote.next = some n := by
    rw [← hdemote]
    exact hn
  refine ⟨acts, s, hchanges, hfew, hdoes, hnext, ?_⟩
  rw [hgive, Sched.giveWay, hnext]

theorem selected_none (h : m.selected e = none) : (m.step e).current = m.current := by
  cases hd : m.choice e with
  | none => exact choice_none hd
  | some d =>
    obtain ⟨acts, s, hchanges, -, -, hdemote, hgive⟩ := choice_some hd
    have hnext : s.demote.next = none := by
      rw [← hdemote]
      rw [selected, hd] at h
      exact h
    have hstay : s.giveWay.current = s.current := by
      rcases Sched.giveWay_cases s with ⟨n, hn, -⟩ | ⟨-, -, heq⟩
      · rw [hnext] at hn
        cases hn
      · rw [heq]
    exact ((congrArg Sched.current hgive).trans hstay).trans hchanges.current

/-! ## Round robin -/

theorem does_setPolicy : ¬ m.Does (.trap t) .setPolicy := by
  rintro (h | ⟨-, h⟩ | ⟨-, -, h⟩)
  · cases h
  · exact h
  · cases h

theorem selected_policy {s : Sched} {acts : List Sched.Act} (h : m.selected e = some n)
    (hchanges : Sched.Changes m.sched acts s) (hdoes : ∀ a ∈ acts, m.Does e a) :
    s.demote.policy = m.policy := by
  have htrap : .setPolicy ∉ acts := by
    intro hmem
    have hdo := hdoes _ hmem
    cases e with
    | trap t => exact does_setPolicy hdo
    | _ => cases h
  rw [Sched.policy_demote]
  exact hchanges.policy htrap

/-- A choice while a task waits brings the processor closer to it. -/
theorem selected_closer (hrr : m.policy = .rr) (h : m.selected e = some n)
    (hi : (m.step e).state i = .ready) :
    (m.step e).current = n ∧ Sched.turns n i < Sched.turns m.current i := by
  obtain ⟨acts, s, hchanges, -, hdoes, hnext, hsched⟩ := selected_some h
  have hcurrent : s.demote.current = m.current :=
    (Sched.current_demote s).trans hchanges.current
  have hready : (s.demote.resume n).Ready i := by
    rw [← hsched]
    exact hi
  have hin : i ≠ n := by
    rintro rfl
    rw [Sched.Ready, Sched.slots_resume, if_pos rfl] at hready
    cases hready
  rw [Sched.Ready, Sched.slots_resume, if_neg hin] at hready
  rw [Sched.next, selected_policy h hchanges hdoes, hrr] at hnext
  have hle := (Sched.nextRr_some hnext).2 i hready
  rw [hcurrent] at hle
  refine ⟨congrArg Sched.current hsched, Sched.turns_lt (lt_of_le_of_ne hle fun heq => hin ?_)⟩
  rw [← Sched.turns_spec m.current i, ← Sched.turns_spec m.current n, heq]

/-- The tasks selected in a run, in order. -/
def selections : Machine → List Event → List (Fin 16)
  | _, [] => []
  | m, e :: rest => (m.selected e).toList ++ (m.step e).selections rest

theorem selections_closer {events : List Event}
    (hrr : ∀ l, l <+: events → (m.runEvents l).policy = .rr)
    (hi : ∀ l, l <+: events → (m.runEvents l).state i = .ready) :
    (m.selections events).Nodup ∧
      ∀ n ∈ m.selections events, Sched.turns n i < Sched.turns m.current i := by
  induction events generalizing m with
  | nil => exact ⟨List.nodup_nil, by simp [selections]⟩
  | cons e rest ih =>
    have hcons : ∀ l, l <+: rest → e :: l <+: e :: rest := fun l hl =>
      List.cons_prefix_cons.mpr ⟨rfl, hl⟩
    obtain ⟨hnodup, hcloser⟩ := @ih (m.step e) (fun l hl => hrr (e :: l) (hcons l hl))
      (fun l hl => hi (e :: l) (hcons l hl))
    rw [selections]
    cases hsel : m.selected e with
    | none =>
      rw [selected_none hsel] at hcloser
      exact ⟨hnodup, hcloser⟩
    | some n =>
      have hrr0 : m.policy = .rr := hrr [] List.nil_prefix
      have hi1 : (m.step e).state i = .ready := hi [e] (hcons [] List.nil_prefix)
      obtain ⟨hcurrent, hlt⟩ := selected_closer hrr0 hsel hi1
      rw [hcurrent] at hcloser
      refine ⟨List.nodup_cons.mpr ⟨fun hmem => lt_irrefl _ (hcloser n hmem), hnodup⟩, ?_⟩
      intro k hk
      rcases List.mem_cons.mp hk with rfl | hk
      · exact hlt
      · exact (hcloser k hk).trans hlt

/-- Under round robin, while a task is ready nobody is selected twice, and at most
fifteen tasks are selected. The idle task blocks in no wait (`enabled`). -/
theorem roundRobin_bypass (m : Machine) (events : List Event) (i : Fin 16)
    (hrr : ∀ l, l <+: events → (m.runEvents l).policy = .rr)
    (hi : ∀ l, l <+: events → (m.runEvents l).state i = .ready) :
    (m.selections events).Nodup ∧ (m.selections events).length ≤ 15 := by
  obtain ⟨hnodup, hcloser⟩ := selections_closer hrr hi
  refine ⟨hnodup, ?_⟩
  have hself : i ∉ m.selections events := fun hmem =>
    absurd (hcloser i hmem) (not_lt.mpr (Sched.turns_le_self _ i))
  have hcard := (List.nodup_cons.mpr ⟨hself, hnodup⟩).length_le_card
  rw [List.length_cons, Fintype.card_fin] at hcard
  omega

theorem roundRobin_bypass_timer :
    (powerOn.taskInit.runEvents [.create 1 [], .create 1 []]).selections [.trap timerTrap] = [1] ∧
      ((powerOn.taskInit.runEvents [.create 1 [], .create 1 []]).selections
        [.trap timerTrap]).length ≤ 15 := by
  refine ⟨by decide +kernel, (roundRobin_bypass _ _ 2 (fun l hl => ?_) fun l hl => ?_).2⟩ <;>
    rcases List.prefix_cons_iff.mp hl with rfl | ⟨l', rfl, hl'⟩
  · decide +kernel
  · rw [List.prefix_nil.mp hl']
    decide +kernel
  · decide +kernel
  · rw [List.prefix_nil.mp hl']
    decide +kernel

/-! ## First come first served -/

theorem step_queued (m : Machine) (e : Event) : Sched.Queued m.sched (m.step e).sched := by
  rcases m.step_moves e with heq | ⟨acts, s, hmoved⟩
  · rw [heq]
    exact .refl _
  · rcases hmoved.result with ⟨hsched, -⟩ | ⟨-, hsched⟩
    · rw [hsched]
      exact hmoved.changes.queued hmoved.few
    · rw [hsched]
      exact hmoved.changes.queued_giveWay hmoved.few

/-- Stamps of ready tasks are not in the future. -/
def Stamped (m : Machine) : Prop :=
  ∀ i, m.state i = .ready → (m.threads i).readyOrder ≤ m.orderCounter

theorem runEvents_stamped (m : Machine) (events : List Event) :
    (m.taskInit.runEvents events).Stamped := by
  refine @run_inv _ _ step Stamped (fun m e h i hi => ?_) m.taskInit (fun i hi => ?_) events
  · have hq := m.step_queued e
    rcases hq.ready i hi with ⟨hready, horder⟩ | ⟨-, -, hle⟩
    · exact horder.le.trans ((h i hready).trans hq.clock)
    · exact hle
  · obtain ⟨hrun, -, -, hunused⟩ := taskInit_tasks m.toSystem
    have hstate : ((Kernel.taskInit m.toSystem).tasks i).state = .ready := hi
    by_cases h0 : i = 0
    · rw [h0, hrun] at hstate
      cases hstate
    · rw [hunused i h0] at hstate
      cases hstate

/-- The counter has passed `c`, and a task that is ready became so after it. -/
def After (c : Nat) (i : Fin 16) (s : Sched) : Prop :=
  c ≤ s.clock ∧ (s.Ready i → c < (s.slots i).order)

theorem After.queued {c : Nat} {s s' : Sched} (h : After c i s) (hq : Sched.Queued s s') :
    After c i s' := by
  refine ⟨h.1.trans hq.clock, fun hi => ?_⟩
  rcases hq.ready i hi with ⟨hready, horder⟩ | ⟨-, hlt, -⟩
  · rw [horder]
    exact h.2 hready
  · exact h.1.trans_lt hlt

theorem After.runEvents {c : Nat} (h : After c i m.sched) (events : List Event) :
    After c i (m.runEvents events).sched :=
  @run_inv _ _ step (fun m => After c i m.sched) (fun m e h => h.queued (m.step_queued e)) m h
    events

/-- While a task is ready its stamp does not change. -/
theorem stamp_kept {events : List Event}
    (hi : ∀ l, l <+: events → (m.runEvents l).state i = .ready) :
    ((m.runEvents events).threads i).readyOrder = (m.threads i).readyOrder := by
  induction events generalizing m with
  | nil => rfl
  | cons e rest ih =>
    have hcons : ∀ l, l <+: rest → e :: l <+: e :: rest := fun l hl =>
      List.cons_prefix_cons.mpr ⟨rfl, hl⟩
    have hi0 : m.sched.Ready i := hi [] List.nil_prefix
    have hi1 : (m.step e).sched.Ready i := hi [e] (hcons [] List.nil_prefix)
    have hrest := @ih (m.step e) fun l hl => hi (e :: l) (hcons l hl)
    rcases (m.step_queued e).ready i hi1 with ⟨-, horder⟩ | ⟨hno, -⟩
    · exact hrest.trans horder
    · exact absurd hi0 hno

/-- The task that is chosen has the smallest stamp. -/
theorem selectNext_fcfs (hfcfs : d.policy = .fcfs) (h : d.selectNext = some n) :
    d.state n = .ready ∧
      ∀ j, d.state j = .ready → (d.threads n).readyOrder ≤ (d.threads j).readyOrder := by
  rw [selectNext_eq, Sched.next, show d.sched.policy = .fcfs from hfcfs] at h
  dsimp only at h
  have hbest := @Sched.nextFcfs_best d.sched
  rw [h] at hbest
  exact ⟨hbest.1, fun j hj => hbest.2 j (by simp) hj⟩

theorem timer_keeps (hfcfs : m.policy = .fcfs) (htimer : t.IsTimer)
    (hrun : m.state m.current = .running) (hpid : (m.tasks m.current).pid ≠ 0) :
    m.choice (.trap t) = none := by
  have hkeep : ((m.trapped t).saveTrapContext m.current).spendTick.2 = true := by
    simp only [spendTick]
    rw [if_pos ⟨hfcfs, hpid, hrun⟩]
  rw [choice]
  split
  · rfl
  rw [atSwitch, if_pos htimer, Option.bind_some, atChoice]
  split
  · rfl
  · rw [if_neg (by simp [htimer])]
    split
    · rfl
    · next m1 heq =>
      have hno := congrArg Prod.snd heq
      rw [show (m.trapped t).current = m.current from rfl, hkeep] at hno
      cases hno

/-- Under first come first served, after any run: the task that is selected has been
ready through every stretch up to now in which any candidate has been, and a tick
does not take the processor from a running task other than the idle task. The idle task
blocks in no wait (`enabled`), and fewer than `2 ^ 64` stamps are given out. -/
theorem fcfs_order (m₀ : Machine) (early late : List Event) (e : Event)
    (hfcfs : (m₀.taskInit.runEvents (early ++ late)).policy = .fcfs) :
    let m₁ := m₀.taskInit.runEvents early
    let m := m₀.taskInit.runEvents (early ++ late)
    (∀ d n, m.choice e = some d → d.selectNext = some n →
      (m.step e).current = n ∧ d.state n = .ready ∧
        ∀ j, d.state j = .ready → (∀ l, l <+: late → (m₁.runEvents l).state j = .ready) →
          ∀ l, l <+: late → (m₁.runEvents l).state n = .ready) ∧
      ∀ t, e = .trap t → t.IsTimer → m.state m.current = .running →
        (m.tasks m.current).pid ≠ 0 → (m.step e).current = m.current := by
  intro m₁ m
  have hm : m = m₁.runEvents late := run_append step m₀.taskInit early late
  refine ⟨fun d n hd hn => ?_, ?_⟩
  · have hsel : m.selected e = some n := by
      rw [selected, hd]
      exact hn
    obtain ⟨-, s', -, -, -, -, hresume⟩ := selected_some hsel
    obtain ⟨acts, s, hchanges, hfew, hdoes, hdemote, hgive⟩ := choice_some hd
    have hpolicy : d.policy = .fcfs := by
      have hdp : d.policy = s.demote.policy := congrArg Sched.policy hdemote
      rw [hdp, selected_policy hsel hchanges hdoes]
      exact hfcfs
    obtain ⟨hready, hbest⟩ := selectNext_fcfs hpolicy hn
    refine ⟨congrArg Sched.current hresume, hready, fun j hj hlong l hl => ?_⟩
    have hq : Sched.Queued m.sched d.sched := by
      rw [hdemote]
      exact hchanges.queued_demote hfew
    by_contra hno
    -- the stamp of `j` is from before the stretch, that of the other from after `l`
    have hold : (d.threads j).readyOrder ≤ m₁.orderCounter := by
      have hkept := stamp_kept hlong
      have hjm : m.sched.Ready j := by
        rw [hm]
        exact hlong late (List.prefix_refl late)
      rcases hq.ready j hj with ⟨-, horder⟩ | ⟨hnew, -⟩
      · have hstamped := m₀.runEvents_stamped early j (hlong [] List.nil_prefix)
        rw [← hm] at hkept
        exact (horder.trans hkept).le.trans hstamped
      · exact absurd hjm hnew
    have hyoung : m₁.orderCounter < (d.threads n).readyOrder := by
      obtain ⟨rest, rfl⟩ := hl
      have hmono : After m₁.orderCounter n (m₁.runEvents l).sched := by
        refine ⟨?_, fun h => absurd h hno⟩
        exact (@run_inv _ _ step (fun m => m₁.orderCounter ≤ m.orderCounter)
          (fun m e h => h.trans (m.step_queued e).clock) m₁ (le_refl _) l)
      have hlate := hmono.runEvents rest
      have hend : (m₁.runEvents l).runEvents rest = m := by
        rw [hm]
        exact (run_append step m₁ l rest).symm
      rw [hend] at hlate
      exact (hlate.queued hq).2 hready
    exact absurd (hyoung.trans_le (hbest j hj)) (not_lt.mpr hold)
  · rintro t rfl htimer hrun hpid
    exact choice_none (timer_keeps hfcfs htimer hrun hpid)

/-- Two tasks are created; the first tick takes the first of them. -/
theorem fcfs_order_create :
    ((powerOn.taskInit.runEvents
      ([.setScheduler .fcfs, .create 1 [], .create 1 []] ++ [])).step (.trap timerTrap)).current =
        1 := by
  have hsel : (powerOn.taskInit.runEvents
      ([.setScheduler .fcfs, .create 1 [], .create 1 []] ++ [])).selected (.trap timerTrap) =
        some 1 := by decide +kernel
  obtain ⟨d, hd, hn⟩ := Option.bind_eq_some_iff.mp hsel
  exact ((fcfs_order powerOn [.setScheduler .fcfs, .create 1 [], .create 1 []] []
    (.trap timerTrap) (by decide +kernel)).1 d 1 hd hn).1

end MiniOs.Kernel.Machine
