import Mathlib.Data.Fintype.Card
import MiniOs.Proofs.Choice
import MiniOs.Proofs.Processes
import MiniOs.Proofs.Served

/-!
# The tree of processes

Who exists, under which pid, and whose child: the part of the table that only
creations, ends and reaping change. Everything else moves a task between
running, ready and blocked, and `Alike` says that this does not show here.

The tree is well formed because pids grow. A parent was there before its child,
so its pid is smaller, and a task that ends hands its children to the idle task,
whose pid is smaller than any other. No condition on the run is needed.
-/

namespace MiniOs.Spec.Sched

open MiniOs.Kernel

variable {s s' s'' : Sched} {i : Fin 16}

/-! ## Changes that do not show -/

/-- The same tasks, with the same pids and parents. -/
structure Alike (s s' : Sched) : Prop where
  nextPid : s'.nextPid = s.nextPid
  count : s'.count = s.count
  unused : ∀ i, (s'.slots i).state = .unused ↔ (s.slots i).state = .unused
  zombie : ∀ i, (s'.slots i).state = .zombie ↔ (s.slots i).state = .zombie
  pid : ∀ i, (s'.slots i).pid = (s.slots i).pid
  ppid : ∀ i, (s'.slots i).ppid = (s.slots i).ppid

theorem Alike.refl (s : Sched) : Alike s s :=
  ⟨rfl, rfl, fun _ => Iff.rfl, fun _ => Iff.rfl, fun _ => rfl, fun _ => rfl⟩

theorem Alike.trans (h1 : Alike s s') (h2 : Alike s' s'') : Alike s s'' :=
  ⟨h2.nextPid.trans h1.nextPid, h2.count.trans h1.count,
    fun i => (h2.unused i).trans (h1.unused i), fun i => (h2.zombie i).trans (h1.zombie i),
    fun i => (h2.pid i).trans (h1.pid i), fun i => (h2.ppid i).trans (h1.ppid i)⟩

theorem Alike.used (h : Alike s s') (i : Fin 16) : (s'.slots i).Used ↔ (s.slots i).Used :=
  not_congr (h.unused i)

theorem Alike.live (h : Alike s s') (i : Fin 16) : (s'.slots i).Live ↔ (s.slots i).Live :=
  and_congr (not_congr (h.unused i)) (not_congr (h.zombie i))

/-- One task that has not ended moves to another state. -/
theorem alike_of_update {x : Slot} (hslots : s'.slots = Function.update s.slots i x)
    (hnext : s'.nextPid = s.nextPid) (hcount : s'.count = s.count)
    (hpid : x.pid = (s.slots i).pid) (hppid : x.ppid = (s.slots i).ppid)
    (hlive : (s.slots i).Live) (hlive' : x.state ∈ [.ready, .running, .blocked]) :
    Alike s s' := by
  have hx : x.state ≠ .unused ∧ x.state ≠ .zombie := by
    constructor <;> intro h <;> rw [h] at hlive' <;> simp at hlive'
  refine ⟨hnext, hcount, ?_, ?_, ?_, ?_⟩ <;> intro j <;> rw [hslots, Function.update_apply] <;>
    split
  · next hj => simp [hj, hlive.1, hx.1]
  · rfl
  · next hj => simp [hj, hlive.2, hx.2]
  · rfl
  · next hj => rw [hj, hpid]
  · rfl
  · next hj => rw [hj, hppid]
  · rfl

theorem live_of_state {x : Slot} {state : TaskState} (h : x.state = state)
    (hused : state ≠ .unused) (hzombie : state ≠ .zombie) : x.Live := by
  subst h
  exact ⟨hused, hzombie⟩

theorem Running.live (h : s.Running) : (s.slots s.current).Live :=
  live_of_state h (by decide) (by decide)

theorem alike_demote (s : Sched) : Alike s s.demote := by
  by_cases hrun : s.Running
  · rw [demote_of_running hrun]
    exact alike_of_update rfl rfl rfl rfl rfl hrun.live (by simp)
  · rw [demote_of_not_running hrun]
    exact .refl s

theorem alike_giveWay (s : Sched) : Alike s s.giveWay := by
  rcases giveWay_cases s with ⟨n, -, hready, heq⟩ | ⟨-, -, heq⟩
  · rw [heq]
    refine (alike_demote s).trans (alike_of_update rfl rfl rfl rfl rfl ?_ (by simp))
    exact live_of_state hready (by decide) (by decide)
  · rw [heq]
    exact .refl s

theorem alike_save (s : Sched) (context : TrapContext) : Alike s (s.save context) := by
  refine ⟨rfl, rfl, ?_, ?_, ?_, ?_⟩ <;> intro j <;> rw [slots_save] <;> split
  all_goals first
    | rfl
    | next hj => rw [hj]

/-! ## Ends -/

theorem Ended.used {code : Int} (h : Ended s i code s') (hi : (s.slots i).Used) (j : Fin 16) :
    (s'.slots j).Used ↔ (s.slots j).Used := by
  rcases eq_or_ne j i with rfl | hj
  · simp only [hi, iff_true]
    simp [Slot.Used, h.zombie]
  · rcases h.other j hj with ⟨-, hstate, -⟩ | ⟨hawaits, hready, -⟩
    · rw [Slot.Used, hstate]
      rfl
    · simp [Slot.Used, hready, hawaits.2.1]

theorem Ended.live {code : Int} (h : Ended s i code s') {j : Fin 16} (hj : j ≠ i) :
    (s'.slots j).Live ↔ (s.slots j).Live := by
  rcases h.other j hj with ⟨-, hstate, -⟩ | ⟨hawaits, hready, -⟩
  · rw [Slot.Live, hstate]
    rfl
  · simp [Slot.Live, hready, hawaits.2.1]

/-! ## The tree -/

/-- The slots with a task. -/
def tasks (s : Sched) : Finset (Fin 16) := Finset.univ.filter fun i => (s.slots i).Used

@[simp] theorem mem_tasks : i ∈ s.tasks ↔ (s.slots i).Used := by simp [tasks]

/-- Pids are different and were all handed out; every task but the idle task has a
parent that has not ended and is older. -/
structure Wf (s : Sched) : Prop where
  idle_pid : (s.slots 0).pid = 0
  idle_ppid : (s.slots 0).ppid = -1
  idle_live : (s.slots 0).Live
  inj : ∀ i j, (s.slots i).Used → (s.slots j).Used → (s.slots i).pid = (s.slots j).pid → i = j
  fresh : ∀ i, (s.slots i).Used → 0 ≤ (s.slots i).pid ∧ (s.slots i).pid < s.nextPid
  parent : ∀ i, i ≠ 0 → (s.slots i).Used →
    ∃ j, (s.slots j).Live ∧ (s.slots j).pid = (s.slots i).ppid ∧ (s.slots j).pid < (s.slots i).pid
  count : s.count = s.tasks.card

namespace Wf

theorem eq_zero (h : s.Wf) (hi : (s.slots i).Used) (hpid : (s.slots i).pid = 0) : i = 0 :=
  h.inj i 0 hi h.idle_live.used (hpid.trans h.idle_pid.symm)

theorem pid_pos (h : s.Wf) (hi : (s.slots i).Used) (h0 : i ≠ 0) : 0 < (s.slots i).pid :=
  lt_of_le_of_ne (h.fresh i hi).1 fun hpid => h0 (h.eq_zero hi hpid.symm)

theorem of_alike (h : s.Wf) (ha : Alike s s') : s'.Wf := by
  refine ⟨?_, ?_, ?_, ?_, ?_, ?_, ?_⟩
  · rw [ha.pid, h.idle_pid]
  · rw [ha.ppid, h.idle_ppid]
  · exact (ha.live 0).mpr h.idle_live
  · intro i j hi hj hpid
    rw [ha.pid, ha.pid] at hpid
    exact h.inj i j ((ha.used i).mp hi) ((ha.used j).mp hj) hpid
  · intro i hi
    rw [ha.pid, ha.nextPid]
    exact h.fresh i ((ha.used i).mp hi)
  · intro i h0 hi
    obtain ⟨j, hlive, hpid, hlt⟩ := h.parent i h0 ((ha.used i).mp hi)
    refine ⟨j, (ha.live j).mpr hlive, ?_⟩
    rw [ha.pid, ha.pid, ha.ppid]
    exact ⟨hpid, hlt⟩
  · have htasks : s'.tasks = s.tasks := by
      ext i
      rw [mem_tasks, mem_tasks, ha.used]
    rw [ha.count, h.count, htasks]

theorem spawn (h : s.Wf) (hrun : s.Running) (context : TrapContext) (ok : Bool) (hi : i ≠ 0)
    (hfree : (s.slots i).state = .unused) : (s.spawn i context ok).Wf := by
  have hother : ∀ j, j ≠ i → (s.spawn i context ok).slots j = s.slots j :=
    fun j hj => slots_set_ne _ hj
  have hnew : (s.spawn i context ok).slots i = _ := slots_set_self i _
  have hpos : 0 < s.nextPid := by
    have h0 := h.fresh 0 h.idle_live.used
    omega
  have hne : ∀ j, (s.slots j).Used → j ≠ i := by
    rintro j hj rfl
    exact hj hfree
  -- a used slot is the new one, which has the fresh pid, or was used before
  have hcases : ∀ j, ((s.spawn i context ok).slots j).Used →
      (j = i ∧ ok = true) ∨ (j ≠ i ∧ (s.slots j).Used) := by
    intro j hj
    by_cases hji : j = i
    · subst hji
      refine Or.inl ⟨rfl, ?_⟩
      cases ok with
      | true => rfl
      | false =>
        rw [hnew] at hj
        exact absurd rfl hj
    · rw [hother j hji] at hj
      exact Or.inr ⟨hji, hj⟩
  have hpid : ((s.spawn i context ok).slots i).pid = s.nextPid := by rw [hnew]
  refine ⟨?_, ?_, ?_, ?_, ?_, ?_, ?_⟩
  · rw [hother 0 hi.symm, h.idle_pid]
  · rw [hother 0 hi.symm, h.idle_ppid]
  · rw [hother 0 hi.symm]
    exact h.idle_live
  · intro j k hj hk heq
    rcases hcases j hj with ⟨rfl, -⟩ | ⟨hji, hj'⟩ <;>
      rcases hcases k hk with ⟨rfl, -⟩ | ⟨hki, hk'⟩
    · rfl
    · rw [hpid, hother k hki] at heq
      have hlt := (h.fresh k hk').2
      omega
    · rw [hpid, hother j hji] at heq
      have hlt := (h.fresh j hj').2
      omega
    · rw [hother j hji, hother k hki] at heq
      exact h.inj j k hj' hk' heq
  · intro j hj
    show 0 ≤ _ ∧ _ < s.nextPid + 1
    rcases hcases j hj with ⟨rfl, -⟩ | ⟨hji, hj⟩
    · rw [hpid]
      omega
    · rw [hother j hji]
      have hfresh := h.fresh j hj
      omega
  · intro j h0 hj
    rcases hcases j hj with ⟨rfl, -⟩ | ⟨hji, hj⟩
    · have hcurrent := hne _ hrun.live.used
      refine ⟨s.current, ?_, ?_⟩ <;> rw [hother _ hcurrent]
      · exact hrun.live
      · rw [hnew]
        exact ⟨rfl, (h.fresh _ hrun.live.used).2⟩
    · obtain ⟨k, hlive, hppid, hlt⟩ := h.parent j h0 hj
      refine ⟨k, ?_⟩
      rw [hother k (hne k hlive.used), hother j hji]
      exact ⟨hlive, hppid, hlt⟩
  · have hmem : i ∉ s.tasks := by simp [Slot.Used, hfree]
    cases ok with
    | true =>
      have htasks : (s.spawn i context true).tasks = insert i s.tasks := by
        ext j
        rw [Finset.mem_insert, mem_tasks, mem_tasks]
        constructor
        · intro hj
          exact (hcases j hj).imp And.left And.right
        · rintro (rfl | hj)
          · rw [hnew]
            exact TaskState.noConfusion
          · rw [hother j (hne j hj)]
            exact hj
      rw [htasks, Finset.card_insert_of_notMem hmem]
      show s.count + 1 = _
      rw [h.count]
      rfl
    | false =>
      have htasks : (s.spawn i context false).tasks = s.tasks := by
        ext j
        rw [mem_tasks, mem_tasks]
        constructor
        · intro hj
          rcases hcases j hj with ⟨-, hok⟩ | ⟨-, hj⟩
          · cases hok
          · exact hj
        · intro hj
          rw [hother j (hne j hj)]
          exact hj
      rw [htasks]
      exact h.count

theorem ended (h : s.Wf) {code : Int} (he : Ended s i code s') (hi : (s.slots i).Used)
    (hpid : (s.slots i).pid ≠ 0) : s'.Wf := by
  have hi0 : i ≠ 0 := by
    rintro rfl
    exact hpid h.idle_pid
  have hidle : (s'.slots 0).Live := (he.live hi0.symm).mpr h.idle_live
  refine ⟨?_, ?_, hidle, ?_, ?_, ?_, ?_⟩
  · rw [he.pid, h.idle_pid]
  · rw [he.ppid, if_neg (by simp), h.idle_ppid]
  · intro j k hj hk heq
    rw [he.pid, he.pid] at heq
    exact h.inj j k ((he.used hi j).mp hj) ((he.used hi k).mp hk) heq
  · intro j hj
    rw [he.pid, he.nextPid]
    exact h.fresh j ((he.used hi j).mp hj)
  · intro j h0 hj
    rw [he.used hi] at hj
    rw [he.ppid, he.pid]
    split
    · -- a child of the task goes to the idle task
      refine ⟨0, hidle, ?_⟩
      rw [he.pid, h.idle_pid]
      exact ⟨rfl, h.pid_pos hj h0⟩
    next hno =>
      obtain ⟨k, hlive, hppid, hlt⟩ := h.parent j h0 hj
      have hki : k ≠ i := by
        rintro rfl
        exact hno ⟨h0, hj, hppid.symm⟩
      refine ⟨k, (he.live hki).mpr hlive, ?_⟩
      rw [he.pid]
      exact ⟨hppid, hlt⟩
  · have htasks : s'.tasks = s.tasks := by
      ext j
      rw [mem_tasks, mem_tasks, he.used hi]
    rw [he.count, h.count, htasks]

theorem reap (h : s.Wf) (hi : i ≠ 0) (hzombie : (s.slots i).state = .zombie) :
    (s.reap i).Wf := by
  have hother : ∀ j, j ≠ i → (s.reap i).slots j = s.slots j := fun j hj => slots_set_ne _ hj
  have hgone : ¬ ((s.reap i).slots i).Used := by
    rw [slots_reap, if_pos rfl]
    exact not_not.mpr rfl
  have hne : ∀ j, ((s.reap i).slots j).Used → j ≠ i := by
    rintro j hj rfl
    exact hgone hj
  have hlive : ∀ j, (s.slots j).Live → j ≠ i := by
    rintro j hj rfl
    exact hj.2 hzombie
  refine ⟨?_, ?_, ?_, ?_, ?_, ?_, ?_⟩
  · rw [hother 0 hi.symm, h.idle_pid]
  · rw [hother 0 hi.symm, h.idle_ppid]
  · rw [hother 0 hi.symm]
    exact h.idle_live
  · intro j k hj hk heq
    have hji := hne j hj
    have hki := hne k hk
    rw [hother j hji] at hj heq
    rw [hother k hki] at hk heq
    exact h.inj j k hj hk heq
  · intro j hj
    have hji := hne j hj
    rw [hother j hji] at hj ⊢
    exact h.fresh j hj
  · intro j h0 hj
    have hji := hne j hj
    rw [hother j hji] at hj ⊢
    obtain ⟨k, hk, hppid, hlt⟩ := h.parent j h0 hj
    refine ⟨k, ?_⟩
    rw [hother k (hlive k hk)]
    exact ⟨hk, hppid, hlt⟩
  · have hmem : i ∈ s.tasks := by simp [Slot.Used, hzombie]
    have htasks : (s.reap i).tasks = s.tasks.erase i := by
      ext j
      rw [Finset.mem_erase, mem_tasks, mem_tasks]
      constructor
      · intro hj
        have hji := hne j hj
        rw [hother j hji] at hj
        exact ⟨hji, hj⟩
      · rintro ⟨hji, hj⟩
        rwa [hother j hji]
    have hcard := Finset.card_erase_add_one hmem
    show s.count - 1 = _
    rw [htasks, h.count, ← hcard]
    omega

end Wf

/-- The changes that create no task and end none. -/
def Act.Keeps : Act → Prop
  | .spawn _ => False
  | .finish _ => False
  | .reap _ => False
  | _ => True

theorem Change.alike {a : Act} (h : Change s a s') (ha : a.Keeps) : Alike s s' := by
  cases h with
  | spawn hrun context ok hslot hfree => exact ha.elim
  | exit hrun code hpid => exact ha.elim
  | kill hrun code hi hlive hpid => exact ha.elim
  | reap hrun target hchild hzombie => exact ha.elim
  | wait hrun target hchild hnone =>
    exact alike_of_update rfl rfl rfl rfl rfl hrun.live (by simp)
  | block hrun address hpid =>
    exact alike_of_update rfl rfl rfl rfl rfl hrun.live (by simp)
  | wake hrun address hi hblocked hchannel =>
    exact alike_of_update rfl rfl rfl rfl rfl
      (live_of_state hblocked (by decide) (by decide)) (by simp)
  | save context => exact alike_save s context
  | setPolicy policy =>
    exact ⟨rfl, rfl, fun _ => Iff.rfl, fun _ => Iff.rfl, fun _ => rfl, fun _ => rfl⟩

theorem Changes.alike {acts : List Act} (h : Changes s acts s') (hacts : ∀ a ∈ acts, a.Keeps) :
    Alike s s' := by
  induction h with
  | nil s => exact .refl s
  | cons h hrest ih =>
    exact (h.alike (hacts _ List.mem_cons_self)).trans
      (ih fun a ha => hacts a (List.mem_cons_of_mem _ ha))

theorem Change.wf {a : Act} (h : Change s a s') (hwf : s.Wf) : s'.Wf := by
  cases h with
  | spawn hrun context ok hslot hfree => exact hwf.spawn hrun context ok hslot hfree
  | exit hrun code hpid =>
    exact hwf.ended (finish_ended hrun.live.used code) hrun.live.used hpid
  | kill hrun code hi hlive hpid =>
    exact hwf.ended (kill_ended hlive.used code) hlive.used hpid
  | reap hrun target hchild hzombie => exact hwf.reap hchild.1 hzombie
  | wait hrun target hchild hnone =>
    exact hwf.of_alike ((Change.wait hrun target hchild hnone).alike trivial)
  | block hrun address hpid =>
    exact hwf.of_alike ((Change.block hrun address hpid).alike trivial)
  | wake hrun address hi hblocked hchannel =>
    exact hwf.of_alike ((Change.wake hrun address hi hblocked hchannel).alike trivial)
  | save context => exact hwf.of_alike (alike_save s context)
  | setPolicy policy => exact hwf.of_alike ((Change.setPolicy policy).alike trivial)

theorem Change.current {a : Act} (h : Change s a s') : s'.current = s.current := by
  cases h with
  | exit hrun code hpid => exact (finish_ended hrun.live.used code).current
  | kill hrun code hi hlive hpid => exact (kill_ended hlive.used code).current
  | _ => rfl

/-- What every change keeps, some changes keep. -/
theorem Changes.inv {Inv : Sched → Prop} {P : Act → Prop}
    (hstep : ∀ {s a s'}, P a → Inv s → Change s a s' → Inv s') {acts : List Act}
    (h : Changes s acts s') (hacts : ∀ a ∈ acts, P a) (hinv : Inv s) : Inv s' := by
  induction h with
  | nil s => exact hinv
  | cons h hrest ih =>
    exact ih (fun a ha => hacts a (List.mem_cons_of_mem _ ha))
      (hstep (hacts _ List.mem_cons_self) hinv h)

theorem Changes.wf {acts : List Act} (h : Changes s acts s') (hwf : s.Wf) : s'.Wf :=
  @Changes.inv s s' Wf (fun _ => True) (fun _ hwf h => h.wf hwf) acts h (fun _ _ => trivial) hwf

end MiniOs.Spec.Sched

namespace MiniOs.Kernel.Machine

open MiniOs.Lib MiniOs.Spec

/-! ## The machine -/

theorem taskInit_wf (m : Machine) : m.taskInit.sched.Wf := by
  obtain ⟨hrun, hpid, hppid, hunused⟩ := taskInit_tasks m.toSystem
  have hslot : ∀ i, m.taskInit.sched.slots i =
      slotOf ((Kernel.taskInit m.toSystem).tasks i) (m.taskInit.threads i) := fun _ => rfl
  have hused : ∀ i, (m.taskInit.sched.slots i).Used ↔ i = 0 := by
    intro i
    rw [hslot]
    constructor
    · intro hi
      by_contra h0
      exact hi (hunused i h0)
    · rintro rfl
      simp [Slot.Used, slotOf, hrun]
  refine ⟨hpid, hppid, ?_, ?_, ?_, ?_, ?_⟩
  · exact Sched.live_of_state hrun (by decide) (by decide)
  · intro i j hi hj _
    rw [(hused i).mp hi, (hused j).mp hj]
  · intro i hi
    obtain rfl := (hused i).mp hi
    rw [hslot]
    exact ⟨hpid.ge, by rw [slotOf, hpid]; exact Int.one_pos⟩
  · intro i h0 hi
    exact absurd ((hused i).mp hi) h0
  · have htasks : m.taskInit.sched.tasks = {0} := by
      ext i
      rw [Sched.mem_tasks, hused, Finset.mem_singleton]
    rw [htasks]
    rfl

theorem step_wf (m : Machine) (e : Event) (h : m.sched.Wf) : (m.step e).sched.Wf := by
  rcases m.step_moves e with heq | ⟨acts, s, hmoved⟩
  · rwa [heq]
  · have hwf := hmoved.changes.wf h
    rcases hmoved.result with ⟨hsched, -⟩ | ⟨-, hsched⟩
    · rwa [hsched]
    · rw [hsched]
      exact hwf.of_alike (Sched.alike_giveWay s)

theorem runEvents_wf {m : Machine} (h : m.sched.Wf) (events : List Event) :
    (m.runEvents events).sched.Wf :=
  @run_inv _ _ step (fun m => m.sched.Wf) (fun m e h => m.step_wf e h) m h events

end MiniOs.Kernel.Machine
