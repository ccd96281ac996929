import Mathlib.Algebra.Group.Fin.Basic
import Mathlib.Tactic.Abel
import MiniOs.Lib.Scan
import MiniOs.Spec.Sched

/-!
# Who is next

The two ways of choosing a task, by what they choose: round robin the nearest
ready slot after the running one, first come first served the ready task with
the smallest stamp. Both find a task exactly when there is one, so `giveWay`
keeps the processor where it is only if nobody is ready and the running task
stopped running.
-/

namespace MiniOs.Spec.Sched

open MiniOs.Kernel MiniOs.Lib

/-- The task in a slot is ready. -/
def Ready (s : Sched) (i : Fin 16) : Prop := (s.slots i).state = .ready

instance (s : Sched) (i : Fin 16) : Decidable (s.Ready i) := inferInstanceAs (Decidable (_ = _))

variable {s : Sched}

/-! ## First come first served -/

/-- How the search stands after the slots it has seen: nobody was ready, or the
best is ready and has the smallest stamp. -/
def Best (s : Sched) (seen : List (Fin 16)) : Option (Fin 16) → Prop
  | none => ∀ j ∈ seen, ¬ s.Ready j
  | some n => s.Ready n ∧ ∀ j ∈ seen, s.Ready j → (s.slots n).order ≤ (s.slots j).order

theorem Best.step {seen : List (Fin 16)} {best : Option (Fin 16)} (h : s.Best seen best)
    (i : Fin 16) : s.Best (i :: seen) (s.earlier best i) := by
  have hcase : s.earlier best i = if s.Ready i then
      (match best with
        | none => some i
        | some b => if (s.slots i).order < (s.slots b).order then some i else some b)
      else best := by
    unfold earlier
    by_cases hi : s.Ready i
    · rw [if_pos hi]
      cases best <;> exact if_neg (not_not.mpr hi)
    · rw [if_neg hi]
      exact if_pos hi
  rw [hcase]
  split
  · next hi =>
    cases best with
    | none =>
      refine ⟨hi, fun j hj hready => ?_⟩
      rcases List.mem_cons.mp hj with rfl | hj
      · exact le_refl _
      · exact absurd hready (h j hj)
    | some b =>
      dsimp only
      split
      · next hlt =>
        refine ⟨hi, fun j hj hready => ?_⟩
        rcases List.mem_cons.mp hj with rfl | hj
        · exact le_refl _
        · exact hlt.le.trans (h.2 j hj hready)
      · next hge =>
        refine ⟨h.1, fun j hj hready => ?_⟩
        rcases List.mem_cons.mp hj with rfl | hj
        · exact not_lt.mp hge
        · exact h.2 j hj hready
  · next hi =>
    cases best with
    | none =>
      intro j hj
      rcases List.mem_cons.mp hj with rfl | hj
      · exact hi
      · exact h j hj
    | some b =>
      refine ⟨h.1, fun j hj hready => ?_⟩
      rcases List.mem_cons.mp hj with rfl | hj
      · exact absurd hready hi
      · exact h.2 j hj hready

theorem Best.foldl {seen : List (Fin 16)} {best : Option (Fin 16)} (h : s.Best seen best)
    (l : List (Fin 16)) : s.Best (l.reverse ++ seen) (l.foldl s.earlier best) := by
  induction l generalizing seen best with
  | nil => exact h
  | cons i rest ih =>
    rw [List.reverse_cons, List.append_assoc]
    exact ih (h.step i)

theorem nextFcfs_best : s.Best (List.finRange 16).reverse s.nextFcfs := by
  have h := @Best.foldl s [] none (fun _ hj => by cases hj) (List.finRange 16)
  rwa [List.append_nil] at h

/-! ## Round robin -/

/-- How far a slot is behind another one, in turns. -/
def turns (i j : Fin 16) : Fin 16 := j - i - 1

theorem turns_spec (i j : Fin 16) : i + 1 + turns i j = j := by
  rw [turns, sub_sub, add_sub_cancel]

theorem turns_add (i k : Fin 16) : turns i (i + 1 + k) = k := by
  rw [turns, sub_sub, add_sub_cancel_left]

/-- Past a slot that is nearer, the way is shorter. -/
theorem turns_lt {i j k : Fin 16} (h : turns i j < turns i k) : turns j k < turns i k := by
  have hsplit : turns j k = turns i k - turns i j - 1 := by
    unfold turns
    abel
  rw [hsplit]
  generalize turns i j = a at h
  generalize turns i k = b at h
  rw [Fin.lt_def] at h
  have hsub : (b - a).val = b.val - a.val := Fin.sub_val_of_le (Fin.le_def.mpr h.le)
  have hone : (1 : Fin 16) ≤ b - a := by
    rw [Fin.le_def, hsub]
    exact Nat.sub_pos_of_lt h
  rw [Fin.lt_def, Fin.sub_val_of_le hone, hsub]
  exact (Nat.sub_lt (Nat.sub_pos_of_lt h) Nat.one_pos).trans_le (Nat.sub_le _ _)

theorem turns_le_self (i j : Fin 16) : turns i j ≤ turns j j := by
  have hself : turns j j = Fin.last 15 := by
    rw [turns, sub_self]
    rfl
  rw [hself]
  exact Fin.le_last _

theorem nextRr_eq : s.nextRr =
    ((List.finRange 16).find? fun k => s.Ready (s.current + 1 + k)).map (s.current + 1 + ·) := by
  rw [nextRr, List.find?_map]
  rfl

theorem nextRr_some {n : Fin 16} (h : s.nextRr = some n) :
    s.Ready n ∧ ∀ j, s.Ready j → turns s.current n ≤ turns s.current j := by
  rw [nextRr_eq, Option.map_eq_some_iff] at h
  obtain ⟨k, hk, rfl⟩ := h
  obtain ⟨hready, hfirst⟩ := find?_finRange_eq_some.mp hk
  refine ⟨of_decide_eq_true hready, fun j hj => not_lt.mp fun hlt => ?_⟩
  rw [turns_add] at hlt
  have hno := hfirst _ hlt
  rw [turns_spec, decide_eq_false_iff_not] at hno
  exact hno hj

theorem nextRr_none (h : s.nextRr = none) (j : Fin 16) : ¬ s.Ready j := by
  rw [nextRr_eq, Option.map_eq_none_iff] at h
  have hno := find?_finRange_eq_none.mp h (turns s.current j)
  rw [turns_spec, decide_eq_false_iff_not] at hno
  exact hno

/-! ## Either way -/

theorem next_ready {n : Fin 16} (h : s.next = some n) : s.Ready n := by
  rw [next] at h
  split at h
  · have hbest := @nextFcfs_best s
    rw [h] at hbest
    exact hbest.1
  · exact (nextRr_some h).1

theorem next_none (h : s.next = none) (j : Fin 16) : ¬ s.Ready j := by
  rw [next] at h
  split at h
  · have hbest := @nextFcfs_best s
    rw [h] at hbest
    exact hbest j (by simp)
  · exact nextRr_none h j

theorem demote_of_running (h : s.Running) : s.demote = s.ready s.current := if_pos h

theorem demote_of_not_running (h : ¬ s.Running) : s.demote = s := if_neg h

/-- The processor changes hands, unless nobody wants it. -/
theorem giveWay_cases (s : Sched) :
    (∃ n, s.demote.next = some n ∧ s.demote.Ready n ∧ s.giveWay = s.demote.resume n) ∨
      (∀ j, ¬ s.Ready j) ∧ ¬ s.Running ∧ s.giveWay = s := by
  rw [giveWay]
  cases hnext : s.demote.next with
  | some n => exact Or.inl ⟨n, rfl, next_ready hnext, rfl⟩
  | none =>
    right
    have hnone := next_none hnext
    have hrun : ¬ s.Running := by
      intro hrun
      refine hnone s.current ?_
      rw [demote_of_running hrun, Ready, slots_ready, if_pos rfl]
    rw [demote_of_not_running hrun] at hnone ⊢
    dsimp only
    exact ⟨hnone, hrun, if_neg (hnone s.current)⟩

end MiniOs.Spec.Sched
