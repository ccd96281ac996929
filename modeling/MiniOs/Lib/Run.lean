import Mathlib.Tactic.Common

/-!
# Runs of a step function

A component that is called from outside is a state, a set of requests and a
function that serves one request. A reachable state is then whatever a list of
requests leads to, and an invariant is proved once for the step and read off
for every list. `run_inv` is that rule; `run_meets` is the same rule when the
step keeps the invariant only under a condition on the request and the state it
is served in, which is the shape a result takes when one kind of request breaks
the property.
-/

namespace MiniOs.Lib

variable {σ α : Type}

/-- Serve a list of requests, one after the other. -/
def run (step : σ → α → σ) : σ → List α → σ
  | s, [] => s
  | s, a :: rest => run step (step s a) rest

/-- Every request of a run meets a condition in the state it is served in. -/
def Meets (step : σ → α → σ) (cond : σ → α → Prop) : σ → List α → Prop
  | _, [] => True
  | s, a :: rest => cond s a ∧ Meets step cond (step s a) rest

@[simp] theorem run_nil (step : σ → α → σ) (s : σ) : run step s [] = s := rfl

@[simp] theorem run_cons (step : σ → α → σ) (s : σ) (a : α) (rest : List α) :
    run step s (a :: rest) = run step (step s a) rest := rfl

theorem run_append (step : σ → α → σ) (s : σ) (l1 l2 : List α) :
    run step s (l1 ++ l2) = run step (run step s l1) l2 := by
  induction l1 generalizing s with
  | nil => rfl
  | cons a rest ih => exact ih (step s a)

variable {step : σ → α → σ} {cond : σ → α → Prop} {inv : σ → Prop}

/-- What the step keeps under a condition, a run keeps whose requests all meet
the condition. -/
theorem run_meets (hstep : ∀ s a, inv s → cond s a → inv (step s a)) {s : σ} {l : List α}
    (hs : inv s) (hl : Meets step cond s l) : inv (run step s l) := by
  induction l generalizing s with
  | nil => exact hs
  | cons a rest ih => exact ih (hstep s a hs hl.1) hl.2

/-- Where a step keeps the invariant exactly under the condition, a run goes through
states that satisfy it exactly when its requests meet the condition. -/
theorem meets_iff (hstep : ∀ s a, inv s → (inv (step s a) ↔ cond s a)) {s : σ} (hs : inv s)
    (l : List α) :
    Meets step cond s l ↔ ∀ l1, l1 <+: l → inv (run step s l1) := by
  induction l generalizing s with
  | nil =>
    refine iff_of_true trivial fun l1 hl => ?_
    rw [List.prefix_nil.mp hl]
    exact hs
  | cons a rest ih =>
    constructor
    · rintro ⟨ha, hrest⟩ l1 hl
      rcases List.prefix_cons_iff.mp hl with rfl | ⟨l2, rfl, hl2⟩
      · exact hs
      · exact (ih ((hstep s a hs).mpr ha)).mp hrest l2 hl2
    · intro h
      have ha : inv (step s a) := h [a] ⟨rest, rfl⟩
      exact ⟨(hstep s a hs).mp ha, (ih ha).mpr fun l1 hl =>
        h (a :: l1) (List.prefix_cons_iff.mpr (Or.inr ⟨l1, rfl, hl⟩))⟩

/-- What every step keeps, every run keeps. -/
theorem run_inv (hstep : ∀ s a, inv s → inv (step s a)) {s : σ} (hs : inv s) (l : List α) :
    inv (run step s l) := by
  induction l generalizing s with
  | nil => exact hs
  | cons a rest ih => exact ih (hstep s a hs)

theorem Meets.imp {cond' : σ → α → Prop} {s : σ} {l : List α} (h : Meets step cond s l)
    (himp : ∀ s a, cond s a → cond' s a) : Meets step cond' s l := by
  induction l generalizing s with
  | nil => trivial
  | cons a rest ih => exact ⟨himp s a h.1, ih h.2⟩

instance decidableMeets (step : σ → α → σ) (cond : σ → α → Prop) [∀ s a, Decidable (cond s a)]
    (s : σ) (l : List α) : Decidable (Meets step cond s l) :=
  match l with
  | [] => isTrue trivial
  | a :: rest =>
    have := decidableMeets step cond (step s a) rest
    inferInstanceAs (Decidable (cond s a ∧ Meets step cond (step s a) rest))

/-- A condition that does not depend on the state. -/
theorem meets_of_mem {l : List α} (h : ∀ a ∈ l, ∀ s, cond s a) (s : σ) : Meets step cond s l := by
  induction l generalizing s with
  | nil => trivial
  | cons a rest ih =>
    exact ⟨h a List.mem_cons_self s, ih (fun b hb => h b (List.mem_cons_of_mem a hb)) _⟩

theorem meets_append {s : σ} {l1 l2 : List α} :
    Meets step cond s (l1 ++ l2) ↔ Meets step cond s l1 ∧ Meets step cond (run step s l1) l2 := by
  induction l1 generalizing s with
  | nil => exact ⟨fun h => ⟨trivial, h⟩, And.right⟩
  | cons a rest ih => exact (and_congr_right fun _ => ih).trans and_assoc.symm

theorem Meets.append_left {s : σ} {l1 l2 : List α} (h : Meets step cond s (l1 ++ l2)) :
    Meets step cond s l1 :=
  (meets_append.mp h).1

theorem Meets.last {s : σ} {l : List α} {a : α} (h : Meets step cond s (l ++ [a])) :
    cond (run step s l) a :=
  (meets_append.mp h).2.1

end MiniOs.Lib
