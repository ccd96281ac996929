import MiniOs.Proofs.Running

/-!
# Where a task goes on

A task that does not have the processor has a stored context, and nothing touches
it until the task is resumed: a change to the table of one task leaves the
contexts of all others alone, and a new task takes a slot that was free and a pid
that was never used. When the processor changes hands, the registers and the
control registers are those that were stored.

Two results rest on this. A system call goes on behind its `ecall`, whatever
happens until then, and the exception is a `yield` of a task that is running:
`syscall_dispatch` answers 2, which `trap_handler` takes for a change of context
that did not happen.
-/

namespace MiniOs.Spec.Sched

open MiniOs.Kernel

variable {s s' s'' : Sched} {a : Act} {i j : Fin 16}

/-- The task in a slot is still there, and unless it had the processor, where it
was. -/
structure Kept (s s' : Sched) (j : Fin 16) : Prop where
  used : (s.slots j).Used
  pid : (s'.slots j).pid = (s.slots j).pid
  context : j ≠ s.current → (s'.slots j).context = (s.slots j).context

theorem kept_of_update {x : Slot} (hslots : s'.slots = Function.update s.slots i x)
    (hpid : x.pid = (s.slots i).pid)
    (hcontext : i ≠ s.current → x.context = (s.slots i).context) (hi : (s.slots i).Used)
    (hj : (s'.slots j).Used) : Kept s s' j := by
  by_cases hji : j = i
  · subst hji
    have hself : s'.slots j = x := by rw [hslots, Function.update_self]
    exact ⟨hi, by rw [hself, hpid], fun h => by rw [hself, hcontext h]⟩
  · have hother : s'.slots j = s.slots j := by rw [hslots, Function.update_of_ne hji]
    rw [hother] at hj
    exact ⟨hj, by rw [hother], fun _ => by rw [hother]⟩

/-- After a change a task was there before, or it is new, with the next pid. -/
theorem Change.kept (h : Change s a s') (hj : (s'.slots j).Used) :
    Kept s s' j ∨ a = .spawn j ∧ ¬ (s.slots j).Used ∧ (s'.slots j).pid = s.nextPid := by
  cases h with
  | @spawn slot hrun context ok hslot hfree =>
    by_cases hjs : j = slot
    · subst hjs
      have hnew : (s.spawn j context ok).slots j = _ := slots_set_self j _
      exact Or.inr ⟨rfl, not_not.mpr hfree, by rw [hnew]⟩
    · have hother : (s.spawn slot context ok).slots j = s.slots j := slots_set_ne _ hjs
      rw [hother] at hj
      exact Or.inl ⟨hj, by rw [hother], fun _ => by rw [hother]⟩
  | exit hrun code hpid =>
    have he := finish_ended hrun.live.used code
    exact Or.inl ⟨(he.used hrun.live.used j).mp hj, he.pid j, fun _ => he.context j⟩
  | kill hrun code hi hlive hpid =>
    have he := kill_ended hlive.used code
    exact Or.inl ⟨(he.used hlive.used j).mp hj, he.pid j, fun _ => he.context j⟩
  | @reap i hrun target hchild hzombie =>
    have hji : j ≠ i := by
      rintro rfl
      rw [slots_reap, if_pos rfl] at hj
      exact hj rfl
    have hother : (s.reap i).slots j = s.slots j := slots_set_ne _ hji
    rw [hother] at hj
    exact Or.inl ⟨hj, by rw [hother], fun _ => by rw [hother]⟩
  | wait hrun target hchild hnone =>
    exact Or.inl (kept_of_update rfl rfl (fun _ => rfl) hrun.live.used hj)
  | block hrun address hpid =>
    exact Or.inl (kept_of_update rfl rfl (fun _ => rfl) hrun.live.used hj)
  | wake hrun address hi hblocked hchannel =>
    exact Or.inl (kept_of_update rfl rfl (fun _ => rfl) (by simp [Slot.Used, hblocked]) hj)
  | save context =>
    rw [(alike_save s context).used] at hj
    refine Or.inl ⟨hj, (alike_save s context).pid j, fun hne => ?_⟩
    rw [slots_save, if_neg hne]
  | setPolicy policy => exact Or.inl ⟨hj, rfl, fun _ => rfl⟩

theorem Change.nextPid_le (h : Change s a s') : s.nextPid ≤ s'.nextPid := by
  cases h with
  | spawn hrun context ok hslot hfree => exact (Int.lt_succ _).le
  | exit hrun code hpid => exact (finish_ended hrun.live.used code).nextPid.ge
  | kill hrun code hi hlive hpid => exact (kill_ended hlive.used code).nextPid.ge
  | _ => exact le_refl _

variable {acts : List Act}

theorem Changes.nextPid_le (h : Changes s acts s') :
    s.nextPid ≤ s'.nextPid := by
  induction h with
  | nil s => exact le_refl _
  | cons h hrest ih => exact h.nextPid_le.trans ih

theorem Changes.current (h : Changes s acts s') : s'.current = s.current := by
  induction h with
  | nil s => rfl
  | cons h hrest ih => exact ih.trans h.current

theorem Kept.trans (h1 : Kept s s' j) (h2 : Kept s' s'' j) (hcurrent : s'.current = s.current) :
    Kept s s'' j :=
  ⟨h1.used, h2.pid.trans h1.pid, fun hne => (h2.context (hcurrent ▸ hne)).trans (h1.context hne)⟩

/-- The running task goes on running, unless it ends or blocks itself. -/
theorem Change.running (h : Change s a s') (hrun : s.Running) (hend : a ≠ .finish s.current)
    (hwait : ∀ target, a ≠ .wait target) (hblock : a ≠ .block) : s'.Running := by
  have hnot : ∀ {i : Fin 16}, (s.slots i).state ≠ .running → s.current ≠ i := by
    rintro i hi rfl
    exact hi hrun
  have hupdate : ∀ {i : Fin 16} {x : Slot}, s.current ≠ i →
      (Function.update s.slots i x s.current).state = .running := by
    intro i x hi
    rw [Function.update_of_ne hi]
    exact hrun
  cases h with
  | spawn _ context ok hslot hfree => exact hupdate (hnot (by simp [hfree]))
  | exit _ code hpid => exact absurd rfl hend
  | kill _ code hi hlive hpid =>
    have he := kill_ended hlive.used code
    rw [Running, he.current]
    rcases he.other _ hi.symm with ⟨-, hstate, -⟩ | ⟨hawaits, -⟩
    · exact hstate.trans hrun
    · have hblocked := hawaits.2.1
      rw [show (s.slots s.current).state = .running from hrun] at hblocked
      cases hblocked
  | reap _ target hchild hzombie => exact hupdate (hnot (by simp [hzombie]))
  | wait _ target hchild hnone => exact absurd rfl (hwait target)
  | block _ address hpid => exact absurd rfl hblock
  | wake _ address hi hblocked hchannel => exact hupdate (hnot (by simp [hblocked]))
  | save context =>
    show ((s.save context).slots s.current).state = .running
    rw [slots_save, if_pos rfl]
    exact hrun
  | setPolicy policy => exact hrun

theorem Changes.of_le_one (h : Changes s acts s') (hone : acts.length ≤ 1) :
    s' = s ∨ ∃ a, acts = [a] ∧ Change s a s' := by
  cases h with
  | nil => exact Or.inl rfl
  | @cons _ _ _ a rest hchange hrest =>
    obtain rfl : rest = [] := by simpa using hone
    cases hrest
    exact Or.inr ⟨a, rfl, hchange⟩

theorem Changes.split {acts1 acts2 : List Act} (h : Changes s (acts1 ++ acts2) s') :
    ∃ s1, Changes s acts1 s1 ∧ Changes s1 acts2 s' := by
  induction acts1 generalizing s with
  | nil => exact ⟨s, .nil s, h⟩
  | cons a rest ih =>
    cases h with
    | cons h hrest =>
      obtain ⟨s1, h1, h2⟩ := ih hrest
      exact ⟨s1, .cons h h1, h2⟩

theorem Changes.saved (h : Changes s [.save] s') : ∃ context, s' = s.save context := by
  cases h with
  | cons h hnil =>
    cases hnil
    cases h with
    | save context => exact ⟨context, rfl⟩

/-- The same for what one event changes. -/
theorem Changes.kept (h : Changes s acts s') (hfew : Machine.Few acts) (hj : (s'.slots j).Used) :
    Kept s s' j ∨ .spawn j ∈ acts ∧ ¬ (s.slots j).Used ∧ s.nextPid ≤ (s'.slots j).pid := by
  have hfront : ∀ {front : List Act} {s1 : Sched}, front.length ≤ 1 → Changes s front s1 →
      (s1.slots j).Used →
        Kept s s1 j ∨ .spawn j ∈ front ∧ ¬ (s.slots j).Used ∧ s.nextPid ≤ (s1.slots j).pid := by
    intro front s1 hone hchanges hused
    rcases hchanges.of_le_one hone with rfl | ⟨a, rfl, hchange⟩
    · exact Or.inl ⟨hused, rfl, fun _ => rfl⟩
    · exact (hchange.kept hused).imp id fun hnew =>
        ⟨List.mem_singleton.mpr hnew.1.symm, hnew.2.1, hnew.2.2.ge⟩
  rcases hfew with ⟨front, hone, rfl | rfl⟩ | hwakes
  · exact hfront hone h hj
  · obtain ⟨s1, hchanges, hsave⟩ := h.split
    obtain ⟨context, rfl⟩ := hsave.saved
    have hkept : Kept s1 (s1.save context) j := by
      rcases (Change.save (s := s1) context).kept hj with hkept | ⟨hno, -⟩
      · exact hkept
      · cases hno
    rcases hfront hone hchanges hkept.used with hfirst | ⟨hspawn, hno, hle⟩
    · exact Or.inl (hfirst.trans hkept hchanges.current)
    · exact Or.inr ⟨List.mem_append_left _ hspawn, hno, by rwa [hkept.pid]⟩
  · left
    clear hfront
    induction h with
    | nil s => exact ⟨hj, rfl, fun _ => rfl⟩
    | cons hc hrest ih =>
      have hkept := ih hj fun a ha => hwakes a (List.mem_cons_of_mem _ ha)
      obtain ⟨i, hi⟩ := hwakes _ List.mem_cons_self
      rcases hc.kept hkept.used with hfirst | ⟨hspawn, -⟩
      · exact hfirst.trans hkept hc.current
      · rw [hi] at hspawn
        cases hspawn

theorem giveWay_running (h : s.giveWay.current ≠ s.current) : s.giveWay.Running := by
  rcases giveWay_cases s with ⟨n, -, -, heq⟩ | ⟨-, -, heq⟩
  · rw [heq]
    show ((s.demote.resume n).slots n).state = .running
    rw [slots_resume, if_pos rfl]
  · rw [heq] at h
    exact absurd rfl h

theorem context_demote (s : Sched) (j : Fin 16) :
    (s.demote.slots j).context = (s.slots j).context := by
  by_cases hrun : s.Running
  · rw [demote_of_running hrun, slots_ready]
    split
    · next hj => rw [hj]
    · rfl
  · rw [demote_of_not_running hrun]

theorem context_giveWay (s : Sched) (j : Fin 16) :
    (s.giveWay.slots j).context = (s.slots j).context := by
  rcases giveWay_cases s with ⟨n, -, -, heq⟩ | ⟨-, -, heq⟩
  · rw [heq, slots_resume, ← context_demote s j]
    split
    · next hj => rw [hj]
    · rfl
  · rw [heq]

end MiniOs.Spec.Sched

namespace MiniOs.Kernel

/-- The number of a call. -/
def Sysno.number : Sysno → Word
  | .dup2 => 24 | .mkdir => 34 | .unlink => 35 | .open => 56 | .close => 57 | .getdents => 61
  | .lseek => 62 | .read => 63 | .write => 64 | .exit => 93 | .wait => 95 | .yield => 124
  | .fork => 220 | .execve => 221 | .waitpid => 260 | .ps => 400 | .chdir => 402
  | .getcwd => 403 | .kill => 405 | .setCloexec => 406

theorem Sysno.ofNumber_eq_some {number : Word} {c : Sysno} (h : ofNumber number = some c) :
    number = c.number := by
  have hpeel : ∀ {n : Word} {x : Sysno} {rest : Option Sysno},
      (if number = n then some x else rest) = some c → n = x.number →
      (rest = some c → number = c.number) → number = c.number := by
    intro n x rest hif hn hrest
    split at hif
    · next heq =>
      cases hif
      exact heq.trans hn
    · exact hrest hif
  iterate 20 refine hpeel h rfl fun h => ?_
  cases h

end MiniOs.Kernel

namespace MiniOs.Kernel.Machine

open MiniOs.Lib MiniOs.Spec

variable {m : Machine}

/-! ## Switching -/

theorem context_resume (m : Machine) (i : Fin 16) :
    (m.resume i).context = (m.threads i).trapCtx := by
  simp [resume, restoreTrapContext, context, setThread, setTask]

theorem trapCtx_demoted (m : Machine) (i : Fin 16) :
    (m.demoted.threads i).trapCtx = (m.threads i).trapCtx := by
  rw [demoted]
  split
  · simp only [makeReady, setThread, setTask, Function.update_apply]
    split
    · next hi => rw [hi]
    · rfl
  · rfl

theorem giveWay_context (hsaved : (m.threads m.current).trapCtx = m.context) :
    (m.giveWay.2 = false ∧ m.giveWay.1.current = m.current ∧ m.giveWay.1.context = m.context) ∨
    (m.giveWay.2 = true ∧ m.giveWay.1.current ≠ m.current ∧
      m.giveWay.1.context = (m.threads m.giveWay.1.current).trapCtx) := by
  have hdemoted : m.demoted.current = m.current ∧ m.demoted.context = m.context := by
    rw [demoted]
    split <;> exact ⟨rfl, rfl⟩
  rw [giveWay_eq]
  cases m.sched.demote.next with
  | none =>
    left
    dsimp only
    split <;> exact ⟨rfl, hdemoted⟩
  | some i =>
    rw [context_resume, trapCtx_demoted]
    by_cases hi : i = m.current
    · left
      rw [hi]
      exact ⟨by simp, rfl, hsaved⟩
    · exact Or.inr ⟨by simp [hi], hi, rfl⟩

/-- What `switch_from_trap` returns, and what the processor goes on with. -/
theorem switchFromTrap_context (m : Machine) (force : Bool) :
    ((m.switchFromTrap force).2 = false ∧ (m.switchFromTrap force).1.current = m.current ∧
      (m.switchFromTrap force).1.context = m.context) ∨
    ((m.switchFromTrap force).2 = true ∧ (m.switchFromTrap force).1.current ≠ m.current ∧
      (m.switchFromTrap force).1.context =
        (m.threads (m.switchFromTrap force).1.current).trapCtx) := by
  rw [switchFromTrap]
  split
  · exact Or.inl ⟨rfl, rfl, rfl⟩
  have hother : ∀ i, i ≠ m.current →
      ((m.saveTrapContext m.current).threads i).trapCtx = (m.threads i).trapCtx := by
    intro i hi
    simp [saveTrapContext, setThread, hi]
  have hgive : ∀ m1 : Machine, m1.current = m.current → m1.context = m.context →
      (∀ i, (m1.threads i).trapCtx = ((m.saveTrapContext m.current).threads i).trapCtx) →
      (m1.giveWay.2 = false ∧ m1.giveWay.1.current = m.current ∧ m1.giveWay.1.context = m.context) ∨
      (m1.giveWay.2 = true ∧ m1.giveWay.1.current ≠ m.current ∧
        m1.giveWay.1.context = (m.threads m1.giveWay.1.current).trapCtx) := by
    intro m1 hcurrent hcontext hthreads
    have hsaved : (m1.threads m1.current).trapCtx = m1.context := by
      rw [hthreads, hcurrent, hcontext]
      simp [saveTrapContext, setThread, context]
    rw [← hcurrent, ← hcontext]
    rcases giveWay_context hsaved with h | ⟨hsw, hne, hctx⟩
    · exact Or.inl h
    · refine Or.inr ⟨hsw, hne, ?_⟩
      rw [hctx, hthreads]
      exact hother _ (hcurrent ▸ hne)
  split
  · exact hgive _ rfl rfl fun _ => rfl
  have hspend : (m.saveTrapContext m.current).spendTick.1.current = m.current ∧
      (m.saveTrapContext m.current).spendTick.1.context = m.context ∧
      ∀ i, ((m.saveTrapContext m.current).spendTick.1.threads i).trapCtx =
        ((m.saveTrapContext m.current).threads i).trapCtx := by
    have hctx := fun i => congrArg (fun s => (s.slots i).context)
      (@sched_spendTick (m.saveTrapContext m.current))
    refine ⟨?_, ?_, hctx⟩ <;> simp only [spendTick] <;> split
    · rfl
    · split <;> rfl
    · rfl
    · split <;> rfl
  dsimp only
  split
  · next m1 heq =>
    rw [heq] at hspend
    exact Or.inl ⟨rfl, hspend.1, hspend.2.1⟩
  · next m1 heq =>
    rw [heq] at hspend
    exact hgive m1 hspend.1 hspend.2.1 hspend.2.2

variable {t : Trap}

theorem atSwitch_current {m1 : Machine} (hon : m.halted = false)
    (henabled : m.enabled (.trap t) = true) (hat : m.atSwitch t = some m1) :
    m1.current = m.current := by
  obtain ⟨acts, hchanges, -⟩ := atSwitch_changes hon henabled hat
  exact hchanges.current

/-- `switch_from_trap`, where it switches: the context of the task is written down,
and the next one goes on with its own. -/
theorem switchFromTrap_switch {force : Bool}
    (hne : (m.switchFromTrap force).1.current ≠ m.current) :
    (m.switchFromTrap force).2 = true ∧
      (m.switchFromTrap force).1.sched = (m.sched.save m.context).giveWay ∧
      (m.switchFromTrap force).1.context =
        (m.threads (m.switchFromTrap force).1.current).trapCtx := by
  rcases switchFromTrap_context m force with ⟨-, hsame, -⟩ | ⟨hsw, -, hcontext⟩
  · exact absurd hsame hne
  refine ⟨hsw, ?_, hcontext⟩
  have hcurrent : (m.switchFromTrap force).1.sched.current ≠ m.sched.current := hne
  cases force with
  | true =>
    have hsched : (m.switchFromTrap true).1.sched = _ := sched_taskReschedule
    rw [hsched] at hcurrent ⊢
    split at hcurrent
    · exact absurd rfl hcurrent
    · next hlt => rw [if_neg hlt]
  | false =>
    have hsched : (m.switchFromTrap false).1.sched = _ := sched_schedTick
    rw [hsched] at hcurrent ⊢
    split at hcurrent
    · exact absurd rfl hcurrent
    · next hlt =>
      split at hcurrent
      · exact absurd rfl hcurrent
      · next hkeeps => rw [if_neg hlt, if_neg hkeeps]

theorem afterDispatch_switch {epc : Word} {replaced : Nat}
    (hne : (m.afterDispatch epc replaced).current ≠ m.current) :
    m.halted = false ∧ (m.state m.current = .zombie ∨ m.state m.current = .blocked) ∧
      ∃ m1, m1 = (if m.state m.current = .blocked ∧ replaced = 2 then m.setEpc (epc + 4) else m) ∧
        (m.afterDispatch epc replaced).sched = (m1.sched.save m1.context).giveWay ∧
        (m.afterDispatch epc replaced).context =
          (m1.threads (m.afterDispatch epc replaced).current).trapCtx := by
  rw [afterDispatch] at hne ⊢
  split at hne
  · exact absurd rfl hne
  next hon =>
    rw [if_neg hon]
    split at hne
    · next hstopped =>
      rw [if_pos hstopped]
      refine ⟨eq_false_of_ne_true hon, hstopped, _, rfl, ?_⟩
      generalize hm1 : (if m.state m.current = .blocked ∧ replaced = 2 then m.setEpc (epc + 4)
        else m) = m1 at hne ⊢
      have hcurrent : m1.current = m.current := by
        rw [← hm1]
        split <;> rfl
      dsimp only at hne ⊢
      have hswitched : (m1.switchFromTrap true).1.current ≠ m1.current := by
        rw [hcurrent]
        intro hsame
        refine hne ?_
        split <;> exact hsame
      obtain ⟨hsw, hsched, hcontext⟩ := switchFromTrap_switch hswitched
      rw [if_neg (by rw [taskReschedule, hsw]; simp)]
      exact ⟨hsched, hcontext⟩
    · refine absurd ?_ hne
      split <;> rfl

/-- A trap that takes the processor away from a task writes down where the task
was, and goes on where the next one was. -/
theorem trap_switch (hon : m.halted = false) (henabled : m.enabled (.trap t) = true)
    (hne : (m.step (.trap t)).current ≠ m.current) :
    ∃ m1, m.atSwitch t = some m1 ∧ (m.step (.trap t)).sched = (m1.sched.save m1.context).giveWay ∧
      (m.step (.trap t)).context = (m1.threads (m.step (.trap t)).current).trapCtx := by
  have hstep : m.step (.trap t) = m.trapHandler t := by
    rw [step, if_neg (by simp [hon, henabled])]
    rfl
  rw [hstep] at hne ⊢
  rw [trapHandler] at hne ⊢
  split at hne
  · next hmsb =>
    rw [if_pos hmsb]
    split at hne
    · next htimer =>
      rw [if_pos htimer]
      exact ⟨_, if_pos ⟨hmsb, htimer⟩, (switchFromTrap_switch hne).2⟩
    · exact absurd rfl hne
  · next hmsb =>
    rw [if_neg hmsb]
    split at hne
    · next hecall =>
      rw [if_pos hecall]
      obtain ⟨acts, hchanges, -⟩ := dispatch_changes hon henabled hecall
      obtain ⟨hrunning, hstopped, m1, hm1, hsched, hcontext⟩ :=
        afterDispatch_switch fun h => hne (h.trans hchanges.current)
      refine ⟨m1, ?_, hsched, hcontext⟩
      rw [atSwitch, if_neg fun h : t.IsTimer => hmsb h.1, if_pos (show t.IsEcall from hecall), hm1]
      exact if_pos ⟨hrunning, hstopped⟩
    · exact absurd rfl hne

/-- An event that gives the processor to a task gives it the context that was
stored. -/
theorem step_resumed {e : Event} (hne : (m.step e).current ≠ m.current) :
    ∃ t m1, e = .trap t ∧ m.halted = false ∧ m.enabled (.trap t) = true ∧
      m.atSwitch t = some m1 ∧ (m.step e).sched = (m1.sched.save m1.context).giveWay ∧
      (m.step e).context = (m1.threads (m.step e).current).trapCtx ∧
      (m.step e).sched.Running := by
  rcases m.step_moves e with heq | ⟨acts, s, hmoved⟩
  · rw [heq] at hne
    exact absurd rfl hne
  rcases hmoved.result with ⟨hsched, -⟩ | ⟨⟨t, rfl⟩, -⟩
  · have hcurrent : (m.step e).current = m.current :=
      (congrArg Sched.current hsched).trans hmoved.changes.current
    exact absurd hcurrent hne
  by_cases hno : m.halted = true ∨ m.enabled (.trap t) = false
  · rw [step, if_pos hno] at hne
    exact absurd rfl hne
  · rw [not_or, Bool.not_eq_true, Bool.not_eq_false] at hno
    obtain ⟨m1, hat, hsched, hcontext⟩ := trap_switch hno.1 hno.2 hne
    refine ⟨t, m1, rfl, hno.1, hno.2, hat, hsched, hcontext, ?_⟩
    have hcurrent := atSwitch_current hno.1 hno.2 hat
    rw [hsched]
    refine Sched.giveWay_running fun h => hne ?_
    exact ((congrArg Sched.current hsched).trans h).trans hcurrent

/-- A task without the processor, after an event: it is still where it was, or has
been resumed there, or is another task. -/
theorem step_kept {e : Event} {i : Fin 16} (hi : i ≠ m.current)
    (hused : ((m.step e).sched.slots i).Used) :
    (((m.step e).sched.slots i).pid = (m.sched.slots i).pid ∧ (m.sched.slots i).Used ∧
      ((m.step e).sched.slots i).context = (m.sched.slots i).context ∧
      ((m.step e).current = i → (m.step e).context = (m.sched.slots i).context)) ∨
    m.Does e (.spawn i) ∧ ¬ (m.sched.slots i).Used ∧
      m.nextPid ≤ ((m.step e).sched.slots i).pid := by
  by_cases hcurrent : (m.step e).current = i
  · have hne : (m.step e).current ≠ m.current := fun h => hi (hcurrent.symm.trans h)
    obtain ⟨t, m1, rfl, hon, henabled, hat, hsched, hcontext, -⟩ := step_resumed hne
    obtain ⟨acts, hchanges, hone, hdoes⟩ := atSwitch_changes hon henabled hat
    have hi1 : i ≠ m1.sched.current := fun h => hi (h.trans hchanges.current)
    have halike : Sched.Alike m1.sched (m.step (.trap t)).sched := by
      rw [hsched]
      exact (Sched.alike_save _ _).trans (Sched.alike_giveWay _)
    have hstored : ((m.step (.trap t)).sched.slots i).context = (m1.sched.slots i).context := by
      rw [hsched, Sched.context_giveWay, Sched.slots_save, if_neg hi1]
    rw [halike.pid, hstored]
    rcases hchanges.kept (few_of_le_one hone) ((halike.used i).mp hused) with hkept | hnew
    · refine Or.inl ⟨hkept.pid, hkept.used, hkept.context hi, fun h => ?_⟩
      rw [hcontext, h]
      exact hkept.context hi
    · exact Or.inr ⟨hdoes _ hnew.1, hnew.2⟩
  · rcases m.step_moves e with heq | ⟨acts, s, hmoved⟩
    · rw [heq] at hused ⊢
      exact Or.inl ⟨rfl, hused, rfl, fun h => absurd h.symm hi⟩
    · have hfrom : Sched.Alike s (m.step e).sched ∧
          ((m.step e).sched.slots i).context = (s.slots i).context := by
        rcases hmoved.result with ⟨hsched, -⟩ | ⟨-, hsched⟩
        · rw [hsched]
          exact ⟨.refl s, rfl⟩
        · rw [hsched]
          exact ⟨Sched.alike_giveWay s, Sched.context_giveWay s i⟩
      obtain ⟨halike, hstored⟩ := hfrom
      rw [halike.pid, hstored]
      rcases hmoved.changes.kept hmoved.few ((halike.used i).mp hused) with hkept | hnew
      · exact Or.inl ⟨hkept.pid, hkept.used, hkept.context hi, fun h => absurd h hcurrent⟩
      · exact Or.inr ⟨hmoved.does _ hnew.1, hnew.2⟩

theorem step_nextPid_le (m : Machine) (e : Event) : m.nextPid ≤ (m.step e).nextPid := by
  rcases m.step_moves e with heq | ⟨acts, s, hmoved⟩
  · rw [heq]
  · have hnext : (m.step e).nextPid = s.nextPid := by
      rcases hmoved.result with ⟨hsched, -⟩ | ⟨-, hsched⟩
      · exact congrArg Sched.nextPid hsched
      · exact (congrArg Sched.nextPid hsched).trans (Sched.alike_giveWay s).nextPid
    rw [hnext]
    exact hmoved.changes.nextPid_le

/-! ## Behind the `ecall` -/

/-- The calls that do not come back behind their `ecall`: a successful `execve`, an
`exit` that ends the task, and a wait that blocks. -/
def Leaves (m : Machine) (t : Trap) : Prop :=
  ((m.trapped t).syscallDispatch t.mem).2 = 1 ∨
    ((m.trapped t).syscallDispatch t.mem).1.state m.current = .zombie ∨
    ∃ target, (m.trapped t).BlocksOn target

/-- The call is a `yield` of a task that is running. -/
def Spins (m : Machine) (t : Trap) : Prop := t.frame 17 = 124 ∧ m.state m.current = .running

theorem enabled_used (h : m.enabled (.trap t) = true) :
    (m.sched.slots m.current).Used := by
  intro hunused
  have hstate : m.state m.current = .unused := hunused
  simp only [enabled, hstate] at h
  cases h

theorem dispatch_yield {mem : UserMemory} (h : m.frame 17 = 124) :
    m.syscallDispatch mem = (m, 2) := by
  have hcall : Sysno.ofNumber (m.frame 17) = some .yield := by
    rw [h]
    decide
  simp only [syscallDispatch, hcall]

/-- A call that is answered leaves its task running, and the pc behind the `ecall`. -/
theorem afterDispatch_answered {epc : Word} (hon : m.halted = false) (hrun : m.sched.Running) :
    m.afterDispatch epc 0 = (m.setEpc (epc + 4)).prepareTrapReturn := by
  have hgo : ¬ (m.state m.current = .zombie ∨ m.state m.current = .blocked) := by
    rw [show m.state m.current = .running from hrun]
    decide
  rw [afterDispatch, if_neg (by simp [hon]), if_neg hgo, if_pos rfl]

section Ecall

variable (hon : m.halted = false) (henabled : m.enabled (.trap t) = true) (hecall : t.IsEcall)
include hon henabled hecall

theorem step_ecall :
    m.step (.trap t) = ((m.trapped t).syscallDispatch t.mem).1.afterDispatch t.epc
      ((m.trapped t).syscallDispatch t.mem).2 := by
  have hmsb : ¬ t.cause.msb = true := by
    rcases hecall with h | h <;> rw [h] <;> decide
  rw [step, if_neg (by simp [hon, henabled])]
  show m.trapHandler t = _
  rw [trapHandler]
  rw [if_neg hmsb]
  exact if_pos hecall

theorem step_answered {m' : Machine} {result : Int}
    (hdispatch : (m.trapped t).syscallDispatch t.mem = (m'.answer result, 0))
    (hsteady : Steady (m.trapped t) m') (hrun : m'.sched.Running) :
    m.step (.trap t) = ((m'.answer result).setEpc (t.epc + 4)).prepareTrapReturn := by
  rw [step_ecall hon henabled hecall, hdispatch]
  exact @afterDispatch_answered (m'.answer result) t.epc (hsteady.halted.trans hon) hrun

/-- A task in `task_block` goes on behind the `ecall` there, now or later. -/
theorem yield_blocked (hyield : t.frame 17 = 124) (hblocked : m.state m.current = .blocked) :
    ((m.step (.trap t)).current = m.current ∧ (m.step (.trap t)).csr.sepc = t.epc + 4) ∨
      (m.step (.trap t)).current ≠ m.current ∧
        ((m.step (.trap t)).sched.slots m.current).context.epc = t.epc + 4 := by
  have hstep := step_ecall hon henabled hecall
  rw [dispatch_yield (m := m.trapped t) hyield] at hstep
  by_cases hcurrent : (m.step (.trap t)).current = m.current
  · refine Or.inl ⟨hcurrent, ?_⟩
    have hstopped : (m.trapped t).state (m.trapped t).current = .zombie ∨
        (m.trapped t).state (m.trapped t).current = .blocked := Or.inr hblocked
    have hbehind : (m.trapped t).state (m.trapped t).current = .blocked ∧ 2 = 2 :=
      ⟨hblocked, rfl⟩
    rw [afterDispatch, if_neg (by rw [show (m.trapped t).halted = false from hon]; decide),
      if_pos hstopped, if_pos hbehind] at hstep
    dsimp only at hstep
    rw [if_neg (by simp)] at hstep
    rw [hstep] at hcurrent ⊢
    rcases switchFromTrap_context ((m.trapped t).setEpc (t.epc + 4)) true with
      ⟨-, -, hcontext⟩ | ⟨-, hne, -⟩
    · exact congrArg TrapContext.epc hcontext
    · exact absurd hcurrent hne
  · refine Or.inr ⟨hcurrent, ?_⟩
    rw [hstep] at hcurrent ⊢
    obtain ⟨-, -, m1, hm1, hsched, -⟩ := afterDispatch_switch hcurrent
    rw [if_pos (show (m.trapped t).state (m.trapped t).current = .blocked ∧ 2 = 2 from
      ⟨hblocked, rfl⟩)] at hm1
    rw [hsched, Sched.context_giveWay, Sched.slots_save, hm1]
    rw [if_pos (show m.current = ((m.trapped t).setEpc (t.epc + 4)).sched.current from rfl)]
    rfl

/-- A system call that comes back: the machine is off, or the task is behind the
`ecall`, or will be when it is resumed. -/
theorem ecall_goes_on (hleaves : ¬ m.Leaves t) (hspins : ¬ m.Spins t) :
    (m.step (.trap t)).halted = true ∨
      ((m.step (.trap t)).current = m.current ∧ (m.step (.trap t)).csr.sepc = t.epc + 4) ∨
      (m.step (.trap t)).current ≠ m.current ∧
        ((m.step (.trap t)).sched.slots m.current).context.epc = t.epc + 4 := by
  have hstep := step_ecall hon henabled hecall
  rw [Leaves, not_or, not_or] at hleaves
  obtain ⟨hexecve, hexit, hwait⟩ := hleaves
  simp only [enabled] at henabled
  split at henabled
  · next hrun =>
    have hserved := @served (m.trapped t) hrun t.mem
    generalize (m.trapped t).syscallDispatch t.mem = outcome at hserved hstep hexecve hexit
    obtain ⟨m', replaced⟩ := outcome
    cases hserved with
    | @answered m1 acts result hsteady hacts hone hdoes =>
      have hstill : m1.sched.Running := by
        rcases hacts.of_le_one hone with heq | ⟨a, rfl, hchange⟩
        · rw [heq]
          exact hrun
        have hdo := hdoes a List.mem_cons_self
        refine hchange.running hrun ?_ ?_ ?_
        · rintro rfl
          exact hdo.2.1 rfl
        · rintro target rfl
          exact hwait ⟨target, hdo⟩
        · rintro rfl
          exact hdo
      have hback := @afterDispatch_answered (m1.answer result) t.epc
        (hsteady.halted.trans hon) hstill
      rw [hstep.trans hback]
      exact Or.inr (Or.inl ⟨hsteady.current, rfl⟩)
    | exited code hcall hpid hsteady hsched =>
      refine absurd ?_ hexit
      show (m'.sched.slots m.current).state = .zombie
      rw [hsched]
      exact (Sched.finish_ended (Sched.Running.live (s := m.sched) hrun).used code).zombie
    | stopped hcall hpid =>
      rw [hstep, afterDispatch, if_pos rfl]
      exact Or.inl rfl
    | replaced context hcall hcurrent hhalted hsched => exact absurd rfl hexecve
    | yielded hcall => exact absurd ⟨Sysno.ofNumber_eq_some hcall, hrun⟩ hspins
  · next hblocked =>
    have hyield : t.frame 17 = 124 := of_decide_eq_true henabled hecall
    refine Or.inr (yield_blocked hon ?_ hecall hyield hblocked)
    simp [enabled, hblocked, hyield]
  · exact absurd hecall (of_decide_eq_true henabled)
  · cases henabled

end Ecall

theorem runEvents_halted (h : m.halted = true) (events : List Event) :
    m.runEvents events = m := by
  induction events with
  | nil => rfl
  | cons e rest ih =>
    have hstep : m.step e = m := if_pos (Or.inl h)
    rw [runEvents, run_cons, hstep]
    exact ih

/-- The first time after a state that the task with a pid executes is after these
events. -/
structure Resumes (m : Machine) (i : Fin 16) (pid : Int) (events : List Event) : Prop where
  away : ∀ k, k < events.length → (m.runEvents (events.take k)).current ≠ i
  on : (m.runEvents events).halted = false
  current : (m.runEvents events).current = i
  pid : ((m.runEvents events).tasks i).pid = pid

/-- A task without the processor is resumed with the context it had. -/
theorem Resumes.context {i : Fin 16} {pid : Int} {events : List Event} {context : TrapContext}
    (hr : m.Resumes i pid events) (hi : m.current ≠ i) (hpid : pid < m.nextPid)
    (hstored : (m.sched.slots i).Used → (m.sched.slots i).pid = pid →
      (m.sched.slots i).context = context) : (m.runEvents events).context = context := by
  induction events generalizing m with
  | nil => exact absurd hr.current hi
  | cons e rest ih =>
    have hrun : m.runEvents (e :: rest) = (m.step e).runEvents rest := rfl
    by_cases hcurrent : (m.step e).current = i
    · -- the task has the processor, so this is the end of the run
      obtain rfl : rest = [] := by
        by_contra hrest
        have hlt : 1 < (e :: rest).length := by
          rw [List.length_cons]
          have hpos := List.length_pos_iff.mpr hrest
          omega
        exact hr.away 1 hlt hcurrent
      have hused : ((m.step e).sched.slots i).Used := by
        obtain ⟨-, -, -, -, -, -, -, -, hrunning⟩ :=
          step_resumed fun h => hi (h.symm.trans hcurrent)
        rw [← hcurrent]
        exact hrunning.live.used
      have hsame : ((m.step e).sched.slots i).pid = pid := hr.pid
      rcases step_kept hi.symm hused with ⟨hpid', hused', -, hcontext⟩ | hnew
      · rw [hrun]
        exact (hcontext hcurrent).trans (hstored hused' (hpid'.symm.trans hsame))
      · exact absurd (hnew.2.2.trans_eq hsame) (not_le.mpr hpid)
    · rw [hrun]
      refine ih ⟨fun k hk => ?_, hr.on, hr.current, hr.pid⟩ hcurrent
        (hpid.trans_le (m.step_nextPid_le e)) fun hused hsame => ?_
      · exact hr.away (k + 1) (by simpa using hk)
      · rcases step_kept hi.symm hused with ⟨hpid', hused', hcontext, -⟩ | hnew
        · exact hcontext.trans (hstored hused' (hpid'.symm.trans hsame))
        · exact absurd (hnew.2.2.trans_eq hsame) (not_le.mpr hpid)

/-- A task that is blocked where it stands is in `task_block`, and one that has ended loops. -/
theorem enabled_of_proper (h : m.sched.Proper)
    (hstands : m.state m.current = .blocked → t.frame 17 = 124)
    (hlives : m.state m.current ≠ .zombie) : m.enabled (.trap t) = true := by
  obtain ⟨hused, hready⟩ := h.standing
  rw [enabled]
  cases hstate : m.state m.current with
  | unused => exact absurd hstate hused
  | ready => exact absurd hstate hready
  | running => rfl
  | blocked => exact decide_eq_true fun _ => hstands hstate
  | zombie => exact absurd hstate hlives

/-- After any run in which the idle task does not block in a wait: a system call that is not
a successful `execve`, an `exit` or a wait that blocks goes on behind its `ecall`, at once or
after any switches, exactly unless it is a `yield` of a task that is running. In such a run
the call of a task that is blocked is the one at the end of `task_block`, and a task that
has ended makes none. -/
theorem ecall_resumes_iff (m₀ : Machine) (before : List Event) (t : Trap)
    (hidle : Meets step (fun m e => ¬ m.IdleWaits e) m₀.taskInit before)
    (hon : (m₀.taskInit.runEvents before).halted = false)
    (hstands : (m₀.taskInit.runEvents before).state (m₀.taskInit.runEvents before).current =
      .blocked → t.frame 17 = 124)
    (hlives : (m₀.taskInit.runEvents before).state (m₀.taskInit.runEvents before).current ≠
      .zombie) (hecall : t.IsEcall) (hleaves : ¬ (m₀.taskInit.runEvents before).Leaves t) :
    let m := m₀.taskInit.runEvents before
    (∀ events, (m.step (.trap t)).Resumes m.current (m.tasks m.current).pid events →
        ((m.step (.trap t)).runEvents events).csr.sepc = t.epc + 4) ↔
      ¬ (t.frame 17 = 124 ∧ m.state m.current = .running) := by
  intro m
  have henabled : m.enabled (.trap t) = true :=
    enabled_of_proper (runEvents_proper m₀.taskInit_proper hidle) hstands hlives
  constructor
  · rintro hback ⟨hyield, hrun⟩
    have hstep : m.step (.trap t) = (m.trapped t).afterDispatch t.epc 2 := by
      rw [step_ecall hon henabled hecall, dispatch_yield (m := m.trapped t) hyield]
    have hgo : ¬ ((m.trapped t).state (m.trapped t).current = .zombie ∨
        (m.trapped t).state (m.trapped t).current = .blocked) := by
      rw [show (m.trapped t).state (m.trapped t).current = .running from hrun]
      decide
    rw [afterDispatch, if_neg (by rw [show (m.trapped t).halted = false from hon]; decide),
      if_neg hgo, if_neg (by decide)] at hstep
    have hepc := hback [] ⟨fun k hk => absurd hk (Nat.not_lt_zero k), by rw [hstep]; exact hon,
      by rw [hstep]; rfl, by rw [hstep]; rfl⟩
    have hstuck : ((m.step (.trap t)).runEvents []).csr.sepc = t.epc := by
      rw [hstep]
      rfl
    rw [hstuck] at hepc
    exact absurd hepc (by simp)
  · intro hspins events hr
    have hwf : m.sched.Wf := runEvents_wf m₀.taskInit_wf before
    rcases ecall_goes_on hon henabled hecall hleaves hspins with hoff | ⟨hcurrent, hepc⟩ |
      ⟨hcurrent, hepc⟩
    · have hoff' := hr.on
      rw [runEvents_halted hoff, hoff] at hoff'
      cases hoff'
    · cases events with
      | nil => exact hepc
      | cons e rest => exact absurd hcurrent (hr.away 0 (Nat.zero_lt_succ _))
    · have hpid := (hwf.fresh _ (enabled_used henabled)).2.trans_le (m.step_nextPid_le (.trap t))
      have hcontext := hr.context hcurrent hpid fun _ _ => rfl
      exact (congrArg TrapContext.epc hcontext).trans hepc

theorem not_leaves (hexecve : ((m.trapped t).syscallDispatch t.mem).2 ≠ 1)
    (hexit : ((m.trapped t).syscallDispatch t.mem).1.state m.current ≠ .zombie)
    (hwait : (m.trapped t).waitArgs = none) : ¬ m.Leaves t := by
  rintro (h | h | ⟨target, hargs, -⟩)
  · exact hexecve h
  · exact hexit h
  · rw [hwait] at hargs
    cases hargs

/-- A task that has the processor, and the same task once `sync.c` has blocked it. -/
def ticked : List Event := [.create 1 [], .trap timerTrap]
def blockedOn (address : Nat) : List Event := ticked ++ [.block address]

theorem not_idleWaits_blockedOn (address : Nat) :
    Meets step (fun m e => ¬ m.IdleWaits e) powerOn.taskInit (blockedOn address) := by
  refine meets_of_mem ?_ _
  rintro e he m ⟨-, t, target, rfl, hecall, -⟩
  simp only [blockedOn, ticked, List.cons_append, List.nil_append, List.mem_cons,
    Event.trap.injEq, reduceCtorEq, List.not_mem_nil, or_false, false_or] at he
  subst he
  exact absurd hecall (by decide)

/-- A `close` from user mode returns at once. The `ecall` of `task_block` gives the processor
away; when the task has been woken and is chosen again, it goes on behind it. -/
theorem ecall_resumes_iff_switched :
    ∃ m m' : Machine, m = powerOn.taskInit.runEvents ticked ∧
      m' = powerOn.taskInit.runEvents (blockedOn 64) ∧
      (m.step (.trap { kernelCall 57 0 4 with cause := 8 })).csr.sepc = 4 + 4 ∧
      m'.current = 1 ∧ (m'.step (.trap (kernelCall 124 0 4))).current = 0 ∧
      (m'.step (.trap (kernelCall 124 0 4))).Resumes 1 1 [.wakeOne 64, .trap timerTrap] ∧
      ((m'.step (.trap (kernelCall 124 0 4))).runEvents [.wakeOne 64, .trap timerTrap]).csr.sepc =
        4 + 4 := by
  have haway : ((powerOn.taskInit.runEvents (blockedOn 64)).step
      (.trap (kernelCall 124 0 4))).Resumes 1 1 [.wakeOne 64, .trap timerTrap] :=
    ⟨by decide +kernel, by decide +kernel, by decide +kernel, by decide +kernel⟩
  refine ⟨_, _, rfl, rfl, ?_, by decide +kernel, by decide +kernel, haway, ?_⟩
  · refine (ecall_resumes_iff powerOn ticked { kernelCall 57 0 4 with cause := 8 }
      (not_idleWaits_blockedOn 0).append_left (by decide +kernel) (by decide +kernel)
      (by decide +kernel) (by decide)
      (not_leaves (by decide +kernel) (by decide +kernel) (by decide +kernel))).mpr
      (by decide +kernel) [] ?_
    exact ⟨fun k hk => absurd hk (Nat.not_lt_zero k), by decide +kernel, by decide +kernel,
      by decide +kernel⟩
  · exact (ecall_resumes_iff powerOn (blockedOn 64) _ (not_idleWaits_blockedOn 64)
      (by decide +kernel) (by decide +kernel) (by decide +kernel) (by decide)
      (not_leaves (by decide +kernel) (by decide +kernel) (by decide +kernel))).mpr
      (by decide +kernel) _ haway

/-- A `yield` of the idle task comes back to the same `ecall`. -/
theorem ecall_yield_spins :
    powerOn.taskInit.enabled (.trap (kernelCall 124 0 4)) = true ∧
      ¬ powerOn.taskInit.Leaves (kernelCall 124 0 4) ∧
      (powerOn.taskInit.step (.trap (kernelCall 124 0 4))).Resumes powerOn.taskInit.current
        (powerOn.taskInit.tasks powerOn.taskInit.current).pid [] ∧
      ((powerOn.taskInit.step (.trap (kernelCall 124 0 4))).runEvents []).csr.sepc ≠ 4 + 4 := by
  refine ⟨by decide +kernel, not_leaves (by decide +kernel) (by decide +kernel) (by decide +kernel),
    ⟨fun k hk => absurd hk (Nat.not_lt_zero k), by decide +kernel, by decide +kernel,
      by decide +kernel⟩, by decide +kernel⟩

end MiniOs.Kernel.Machine
