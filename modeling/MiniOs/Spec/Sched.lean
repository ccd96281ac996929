import MiniOs.Kernel.Machine

/-!
# The task table as a scheduler sees it

What is left of the machine when memory, files, names and time slices are taken
away: for every slot the state of its task, who it is and whose child, what it
waits for, when it became ready, and where it stopped; and which task has the
processor. The operations below are what the kernel does to that, one per thing
that can happen to a task. `Proofs/Sched.lean` shows that every function of
`task.c` acts on the machine as one of them acts on the table.

The operations are total. When one makes sense, for example that only a zombie is
reaped, is said by the results that need it.
-/

namespace MiniOs.Spec

open MiniOs.Kernel Function

/-- A task. -/
structure Slot where
  state : TaskState
  pid : Int
  ppid : Int
  exitCode : Int
  target : Int
  channel : Option Channel
  order : Nat
  context : TrapContext

/-- The table. `clock` counts the times a task became ready, below `2 ^ 64` as the
kernel's counter does. -/
structure Sched where
  slots : Fin 16 → Slot
  current : Fin 16
  count : Int
  nextPid : Int
  clock : Nat
  policy : Policy

/-- The slot has a task, which may have ended. -/
def Slot.Used (x : Slot) : Prop := x.state ≠ .unused

/-- The slot has a task that has not ended. -/
def Slot.Live (x : Slot) : Prop := x.state ≠ .unused ∧ x.state ≠ .zombie

instance (x : Slot) : Decidable x.Used := inferInstanceAs (Decidable (_ ≠ _))
instance (x : Slot) : Decidable x.Live := inferInstanceAs (Decidable (_ ∧ _))

theorem Slot.Live.used {x : Slot} (h : x.Live) : x.Used := h.1

namespace Sched

variable (s : Sched)

/-- An update of one slot. -/
def set (i : Fin 16) (x : Slot) : Sched := { s with slots := update s.slots i x }

/-! ## What happens to a task -/

/-- A running task gives the processor up and queues. -/
def ready (i : Fin 16) : Sched :=
  { s.set i { s.slots i with state := .ready, order := s.clock + 1 } with clock := s.clock + 1 }

/-- A blocked task queues. -/
def wake (i : Fin 16) : Sched :=
  { s.set i { s.slots i with state := .ready, channel := none, order := s.clock + 1 } with
    clock := s.clock + 1 }

/-- The task with a pid. -/
def find (pid : Int) : Option (Fin 16) :=
  (List.finRange 16).find? fun i => (s.slots i).state ≠ .unused ∧ (s.slots i).pid = pid

/-- A child of the running task appears in a slot, or almost: where its
descriptors cannot be set up, the slot stays unused and the pid is spent. -/
def spawn (slot : Fin 16) (context : TrapContext) (ok : Bool) : Sched :=
  { s.set slot
      { state := if ok then .ready else .unused, pid := s.nextPid
        ppid := (s.slots s.current).pid, exitCode := 0, target := -1, channel := none
        order := s.clock + 1, context := context } with
    count := if ok then s.count + 1 else s.count
    nextPid := s.nextPid + 1
    clock := s.clock + 1 }

/-- A task that ended: its parent, if that waits for it. -/
def wakeParent (i : Fin 16) : Sched :=
  match s.find (s.slots i).ppid with
  | none => s
  | some parent =>
    if (s.slots parent).state = .blocked ∧
        ((s.slots parent).target < 0 ∨ (s.slots parent).target = (s.slots i).pid) then
      s.wake parent
    else s

/-- And its children, who go to the idle task. -/
def adopt (pid : Int) : Sched :=
  { s with
    slots := fun i =>
      if i ≠ 0 ∧ (s.slots i).state ≠ .unused ∧ (s.slots i).ppid = pid then
        { s.slots i with ppid := 0 }
      else s.slots i }

/-- A task ends. -/
def finish (i : Fin 16) (exitCode : Int) : Sched :=
  ((s.set i { s.slots i with exitCode := exitCode, state := .zombie }).wakeParent i).adopt
    (s.slots i).pid

/-- A task is ended by another one. -/
def kill (i : Fin 16) (exitCode : Int) : Sched :=
  (s.set i { s.slots i with channel := none }).finish i exitCode

/-- A task that ended is forgotten. -/
def reap (i : Fin 16) : Sched :=
  { s.set i { s.slots i with state := .unused, pid := -1, ppid := -1 } with
    count := s.count - 1 }

/-- A child of task `parent` that a wait for `target` is about. -/
def Child (parent : Fin 16) (target : Int) (i : Fin 16) : Prop :=
  i ≠ 0 ∧ (s.slots i).Used ∧ (s.slots i).ppid = (s.slots parent).pid ∧
    (target > 0 → (s.slots i).pid = target)

instance (parent : Fin 16) (target : Int) (i : Fin 16) : Decidable (s.Child parent target i) :=
  inferInstanceAs (Decidable (_ ∧ _))

/-- The running task waits for a child. -/
def wait (target : Int) : Sched :=
  s.set s.current
    { s.slots s.current with
      target := target, state := .blocked, channel := some (.task s.current) }

/-- The running task waits for something else. -/
def block (channel : Channel) : Sched :=
  s.set s.current { s.slots s.current with channel := some channel, state := .blocked }

/-! ## The processor changes hands -/

/-- The ready tasks after the running one, in turn. -/
def nextRr : Option (Fin 16) :=
  ((List.finRange 16).map fun i => s.current + 1 + i).find? fun i => (s.slots i).state = .ready

/-- One round of the search for the task that has been ready longest. -/
def earlier (best : Option (Fin 16)) (i : Fin 16) : Option (Fin 16) :=
  if (s.slots i).state ≠ .ready then best
  else
    match best with
    | none => some i
    | some b => if (s.slots i).order < (s.slots b).order then some i else some b

/-- The task that has been ready longest. -/
def nextFcfs : Option (Fin 16) := (List.finRange 16).foldl s.earlier none

/-- Who is next. -/
def next : Option (Fin 16) :=
  match s.policy with
  | .fcfs => s.nextFcfs
  | .rr => s.nextRr

/-- Where the running task stands is written down. -/
def save (context : TrapContext) : Sched :=
  s.set s.current { s.slots s.current with context := context }

/-- A ready task takes the processor. -/
def resume (i : Fin 16) : Sched :=
  { s.set i { s.slots i with state := .running } with current := i }

/-- The table before the choice: the running task is ready like the others. -/
def demote : Sched := if (s.slots s.current).state = .running then s.ready s.current else s

/-- The processor goes to whoever is next, and stays where nobody is. -/
def giveWay : Sched :=
  match s.demote.next with
  | none =>
    if (s.demote.slots s.current).state = .ready then
      s.demote.set s.current { s.demote.slots s.current with state := .running }
    else s.demote
  | some i => s.demote.resume i

/-- The running task may go on: it neither ended nor blocked, or there is nobody
else, or it is the idle task. -/
def Settled : Prop :=
  (s.slots s.current).state ≠ .zombie ∧ (s.slots s.current).state ≠ .blocked ∨
    s.count ≤ 1 ∨ (s.slots s.current).pid = 0

/-! ## Changes -/

/-- What can happen between two choices of a task. -/
inductive Act where
  | spawn (slot : Fin 16)
  | finish (i : Fin 16)
  | reap (i : Fin 16)
  | wait (target : Int)
  | block
  | wake (i : Fin 16)
  | save
  | setPolicy

/-- The task that has the processor is running. -/
def Running : Prop := (s.slots s.current).state = .running

/-- A change, with what was checked before. All but the last two are made by the
running task. -/
inductive Change (s : Sched) : Act → Sched → Prop where
  | spawn {slot : Fin 16} (hrun : s.Running) (context : TrapContext) (ok : Bool)
      (hslot : slot ≠ 0) (hfree : (s.slots slot).state = .unused) :
      Change s (.spawn slot) (s.spawn slot context ok)
  | exit (hrun : s.Running) (code : Int) (hpid : (s.slots s.current).pid ≠ 0) :
      Change s (.finish s.current) (s.finish s.current code)
  | kill {i : Fin 16} (hrun : s.Running) (code : Int) (hi : i ≠ s.current)
      (hlive : (s.slots i).Live) (hpid : (s.slots i).pid ≠ 0) :
      Change s (.finish i) (s.kill i code)
  | reap {i : Fin 16} (hrun : s.Running) (target : Int) (hchild : s.Child s.current target i)
      (hzombie : (s.slots i).state = .zombie) : Change s (.reap i) (s.reap i)
  | wait (hrun : s.Running) (target : Int) (hchild : ∃ i, s.Child s.current target i)
      (hnone : ∀ i, s.Child s.current target i → (s.slots i).state ≠ .zombie) :
      Change s (.wait target) (s.wait target)
  | block (hrun : s.Running) (address : Nat) (hpid : (s.slots s.current).pid ≠ 0) :
      Change s .block (s.block (.object address))
  | wake {i : Fin 16} (hrun : s.Running) (address : Nat) (hi : i ≠ 0)
      (hblocked : (s.slots i).state = .blocked)
      (hchannel : (s.slots i).channel = some (.object address)) : Change s (.wake i) (s.wake i)
  | save (context : TrapContext) : Change s .save (s.save context)
  | setPolicy (policy : Policy) : Change s .setPolicy { s with policy := policy }

/-- Changes one after the other. -/
inductive Changes : Sched → List Act → Sched → Prop where
  | nil (s : Sched) : Changes s [] s
  | cons {s s₁ s₂ : Sched} {a : Act} {acts : List Act} (h : Change s a s₁)
      (hrest : Changes s₁ acts s₂) : Changes s (a :: acts) s₂

theorem Changes.append {s s1 s2 : Sched} {acts1 acts2 : List Act} (h1 : Changes s acts1 s1)
    (h2 : Changes s1 acts2 s2) : Changes s (acts1 ++ acts2) s2 := by
  induction h1 with
  | nil s => exact h2
  | cons h hrest ih => exact .cons h (ih h2)

theorem Changes.steps {s t : Sched} {acts : List Act} (h : Changes s acts t) :
    Relation.ReflTransGen (fun s t : Sched => (∃ a, s.Change a t) ∨ t = s.giveWay) s t := by
  induction h with
  | nil s => exact .refl
  | cons h _ ih => exact .head (Or.inl ⟨_, h⟩) ih

/-! ## Reading a table -/

section Read

variable {s}

theorem slots_set (i j : Fin 16) (x : Slot) :
    (s.set i x).slots j = if j = i then x else s.slots j := update_apply ..

@[simp] theorem slots_set_self (i : Fin 16) (x : Slot) : (s.set i x).slots i = x :=
  update_self ..

@[simp] theorem slots_set_ne {i j : Fin 16} (x : Slot) (h : j ≠ i) :
    (s.set i x).slots j = s.slots j := update_of_ne h ..

theorem slots_ready (i j : Fin 16) : (s.ready i).slots j =
    if j = i then { s.slots i with state := .ready, order := s.clock + 1 } else s.slots j :=
  slots_set ..

theorem slots_wake (i j : Fin 16) : (s.wake i).slots j =
    if j = i then
      { s.slots i with state := .ready, channel := none, order := s.clock + 1 }
    else s.slots j :=
  slots_set ..

theorem slots_resume (i j : Fin 16) : (s.resume i).slots j =
    if j = i then { s.slots i with state := .running } else s.slots j := slots_set ..

theorem slots_reap (i j : Fin 16) : (s.reap i).slots j =
    if j = i then { s.slots i with state := .unused, pid := -1, ppid := -1 } else s.slots j :=
  slots_set ..

theorem slots_adopt (pid : Int) (j : Fin 16) : (s.adopt pid).slots j =
    { s.slots j with
      ppid := if j ≠ 0 ∧ (s.slots j).Used ∧ (s.slots j).ppid = pid then 0
        else (s.slots j).ppid } := by
  by_cases h : j ≠ 0 ∧ (s.slots j).Used ∧ (s.slots j).ppid = pid
  · rw [if_pos h]
    exact if_pos h
  · rw [if_neg h]
    exact if_neg h

theorem slots_save (context : TrapContext) (j : Fin 16) : (s.save context).slots j =
    if j = s.current then { s.slots s.current with context := context } else s.slots j :=
  slots_set ..

end Read

/-! ## The end of a task -/

/-- Task `j` is the parent of task `i`, and waits for it. -/
def Awaits (s : Sched) (i j : Fin 16) : Prop :=
  s.find (s.slots i).ppid = some j ∧ (s.slots j).state = .blocked ∧
    ((s.slots j).target < 0 ∨ (s.slots j).target = (s.slots i).pid)

/-- What both ways for a task to end come to. -/
structure Ended (s : Sched) (i : Fin 16) (code : Int) (s' : Sched) : Prop where
  current : s'.current = s.current
  count : s'.count = s.count
  nextPid : s'.nextPid = s.nextPid
  policy : s'.policy = s.policy
  clock : s.clock ≤ s'.clock
  zombie : (s'.slots i).state = .zombie
  code : (s'.slots i).exitCode = code
  pid : ∀ j, (s'.slots j).pid = (s.slots j).pid
  target : ∀ j, (s'.slots j).target = (s.slots j).target
  context : ∀ j, (s'.slots j).context = (s.slots j).context
  ppid : ∀ j, (s'.slots j).ppid =
    if j ≠ 0 ∧ (s.slots j).Used ∧ (s.slots j).ppid = (s.slots i).pid then 0
    else (s.slots j).ppid
  exitCode : ∀ j, j ≠ i → (s'.slots j).exitCode = (s.slots j).exitCode
  other : ∀ j, j ≠ i →
    (¬ s.Awaits i j ∧ (s'.slots j).state = (s.slots j).state ∧
      (s'.slots j).channel = (s.slots j).channel ∧ (s'.slots j).order = (s.slots j).order) ∨
    (s.Awaits i j ∧ (s'.slots j).state = .ready ∧ (s'.slots j).channel = none ∧
      (s'.slots j).order = s.clock + 1 ∧ s'.clock = s.clock + 1)

section Ended

variable {s : Sched} {i : Fin 16}

theorem wakeParent_cases (s : Sched) (i : Fin 16) :
    (s.wakeParent i = s ∧ ∀ j, ¬ s.Awaits i j) ∨
      ∃ parent, s.Awaits i parent ∧ s.wakeParent i = s.wake parent := by
  rw [wakeParent]
  split
  · next hnone =>
    refine Or.inl ⟨rfl, fun j hj => ?_⟩
    rw [hj.1] at hnone
    cases hnone
  next parent hparent =>
    split
    · next hwaits => exact Or.inr ⟨parent, ⟨hparent, hwaits⟩, rfl⟩
    · next hno =>
      refine Or.inl ⟨rfl, fun j hj => hno ?_⟩
      have hsame := hj.1
      rw [hparent] at hsame
      cases hsame
      exact hj.2

/-- Only who is there and under which pid matters to `find`. -/
theorem find_congr {s' : Sched} (hused : ∀ j, (s'.slots j).Used ↔ (s.slots j).Used)
    (hpid : ∀ j, (s'.slots j).pid = (s.slots j).pid) (pid : Int) :
    s'.find pid = s.find pid := by
  unfold find
  congr 1
  funext j
  have hj := hused j
  simp only [Slot.Used] at hj
  simp only [hj, hpid]

/-- An end, once the task is a zombie with its code. -/
theorem ended_of_zombie {z : Slot} {code : Int} (hi : (s.slots i).Used) (hstate : z.state = .zombie)
    (hcode : z.exitCode = code) (hpid : z.pid = (s.slots i).pid)
    (hppid : z.ppid = (s.slots i).ppid) (htarget : z.target = (s.slots i).target)
    (hcontext : z.context = (s.slots i).context) :
    Ended s i code (((s.set i z).wakeParent i).adopt (s.slots i).pid) := by
  have hfind : (s.set i z).find z.ppid = s.find (s.slots i).ppid := by
    rw [hppid]
    refine find_congr (fun j => ?_) (fun j => ?_) _ <;> rw [slots_set] <;> split
    · next hj => simpa [hj, Slot.Used, hstate] using hi
    · rfl
    · next hj => rw [hj, hpid]
    · rfl
  -- the same parent waits in both tables, and it is not the task itself
  have hawaits : ∀ j, (s.set i z).Awaits i j → j ≠ i ∧ s.Awaits i j := by
    rintro j ⟨hj, hblocked, htarget'⟩
    simp only [slots_set_self] at hj htarget'
    have hne : j ≠ i := by
      rintro rfl
      rw [slots_set_self, hstate] at hblocked
      cases hblocked
    rw [slots_set_ne _ hne, hpid] at htarget'
    rw [slots_set_ne _ hne] at hblocked
    exact ⟨hne, hfind.symm.trans hj, hblocked, htarget'⟩
  have hback : ∀ j, j ≠ i → s.Awaits i j → (s.set i z).Awaits i j := by
    rintro j hne ⟨hj, hblocked, htarget'⟩
    refine ⟨by rw [slots_set_self, hfind, hj], by rwa [slots_set_ne _ hne], ?_⟩
    rwa [slots_set_ne _ hne, slots_set_self, hpid]
  have hset : ∀ j, ((s.set i z).slots j).pid = (s.slots j).pid ∧
      ((s.set i z).slots j).ppid = (s.slots j).ppid ∧
      ((s.set i z).slots j).target = (s.slots j).target ∧
      ((s.set i z).slots j).context = (s.slots j).context ∧
      (((s.set i z).slots j).Used ↔ (s.slots j).Used) := by
    intro j
    rcases eq_or_ne j i with rfl | hj
    · rw [slots_set_self]
      exact ⟨hpid, hppid, htarget, hcontext, fun _ => hi, fun _ => by simp [Slot.Used, hstate]⟩
    · rw [slots_set_ne z hj]
      exact ⟨rfl, rfl, rfl, rfl, Iff.rfl⟩
  rcases wakeParent_cases (s.set i z) i with ⟨heq, hnone⟩ | ⟨parent, hparent, heq⟩
  · rw [heq]
    refine ⟨rfl, rfl, rfl, rfl, le_refl _, by simp [slots_adopt, hstate],
      by simp [slots_adopt, hcode], fun j => ?_, fun j => ?_, fun j => ?_, fun j => ?_,
      fun j hj => ?_, fun j hj => Or.inl ?_⟩ <;> rw [slots_adopt]
    · exact (hset j).1
    · exact (hset j).2.2.1
    · exact (hset j).2.2.2.1
    · simp only [(hset j).2.1, (hset j).2.2.2.2]
    · simp [hj]
    · simp only [slots_set_ne z hj]
      exact ⟨fun h => hnone j (hback j hj h), trivial, trivial, trivial⟩
  · obtain ⟨hne, hawait⟩ := hawaits parent hparent
    have hwake : ∀ j, j ≠ parent →
        ((s.set i z).wake parent).slots j = (s.set i z).slots j := fun j hj => by
      rw [slots_wake, if_neg hj]
    have hwoken : ((s.set i z).wake parent).slots parent =
        { s.slots parent with state := .ready, channel := none, order := s.clock + 1 } := by
      rw [slots_wake, if_pos rfl, slots_set_ne z hne]
      rfl
    have hused : (s.slots parent).Used := by simp [Slot.Used, hawait.2.1]
    rw [heq]
    refine ⟨rfl, rfl, rfl, rfl, Nat.le_succ _, ?_, ?_, fun j => ?_, fun j => ?_, fun j => ?_,
      fun j => ?_, fun j hj => ?_, fun j hj => ?_⟩ <;> rw [slots_adopt]
    · rw [hwake i hne.symm, slots_set_self]
      exact hstate
    · rw [hwake i hne.symm, slots_set_self]
      exact hcode
    · rcases eq_or_ne j parent with rfl | hj
      · rw [hwoken]
      · rw [hwake j hj]
        exact (hset j).1
    · rcases eq_or_ne j parent with rfl | hj
      · rw [hwoken]
      · rw [hwake j hj]
        exact (hset j).2.2.1
    · rcases eq_or_ne j parent with rfl | hj
      · rw [hwoken]
      · rw [hwake j hj]
        exact (hset j).2.2.2.1
    · rcases eq_or_ne j parent with rfl | hj
      · simp [hwoken, Slot.Used, hawait.2.1]
      · rw [hwake j hj]
        simp only [(hset j).2.1, (hset j).2.2.2.2]
    · rcases eq_or_ne j parent with rfl | hparent
      · rw [hwoken]
      · rw [hwake j hparent]
        simp [hj]
    · rcases eq_or_ne j parent with rfl | hother
      · right
        rw [hwoken]
        exact ⟨hawait, rfl, rfl, rfl, rfl⟩
      · left
        rw [hwake j hother]
        simp only [slots_set_ne z hj]
        refine ⟨fun h => hother ?_, trivial, trivial, trivial⟩
        have hsame := h.1
        rw [hawait.1] at hsame
        exact (Option.some.inj hsame).symm

theorem finish_ended (hi : (s.slots i).Used) (code : Int) : Ended s i code (s.finish i code) :=
  ended_of_zombie hi rfl rfl rfl rfl rfl rfl

theorem kill_ended (hi : (s.slots i).Used) (code : Int) : Ended s i code (s.kill i code) := by
  have heq : s.kill i code =
      ((s.set i { s.slots i with
        channel := none, exitCode := code, state := .zombie }).wakeParent i).adopt
          (s.slots i).pid := by
    simp [kill, finish, set]
  rw [heq]
  exact ended_of_zombie hi rfl rfl rfl rfl rfl rfl

end Ended

end Sched

end MiniOs.Spec
