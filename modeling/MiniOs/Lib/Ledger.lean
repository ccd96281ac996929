import Mathlib.Logic.Function.Basic
import Mathlib.Tactic.Common

/-!
# Exclusive ownership of numbered resources

A ledger relates three things: holders, each of which holds at most one
resource; resources; and a mark per resource that an allocator consults. The
ledger is *sound* when everything held is a real resource, is marked, and is
held once. It is *exact* when nothing is marked without a holder.

Soundness is what keeps two holders off one resource, exactness is what keeps
resources from leaking, and the two are separate because an allocator can be
sound and leak. The file has the three moves an allocator makes on a ledger:
a holder acquires an unmarked resource, a set of holders gives back what it
holds, and a holder forgets what it holds without giving it back. The last one
keeps soundness and is the only one that loses exactness.
-/

namespace MiniOs.Lib

open Function

variable {κ β : Type}

/-- Everything held is real, is marked, and has one holder. -/
structure Ledger (real : β → Prop) (own : κ → Option β) (mark : β → Bool) :
    Prop where
  real : ∀ {k b}, own k = some b → real b
  marked : ∀ {k b}, own k = some b → mark b = true
  unique : ∀ {k k' b}, own k = some b → own k' = some b → k = k'

/-- Nothing real is marked without a holder. -/
def Exact (real : β → Prop) (own : κ → Option β) (mark : β → Bool) : Prop :=
  ∀ b, real b → mark b = true → ∃ k, own k = some b

namespace Ledger

variable {real : β → Prop} {own own' : κ → Option β} {mark mark' : β → Bool}

/-- An unmarked resource has no holder. -/
theorem not_own (h : Ledger real own mark) {k : κ} {b : β}
    (hb : mark b = false) : own k ≠ some b := by
  intro hk
  rw [h.marked hk] at hb
  cases hb

/-- Holding less of the same, under the same marks, is still sound. -/
theorem forget (h : Ledger real own mark)
    (hsub : ∀ k b, own' k = some b → own k = some b) :
    Ledger real own' mark where
  real hk := h.real (hsub _ _ hk)
  marked hk := h.marked (hsub _ _ hk)
  unique hk hk' := h.unique (hsub _ _ hk) (hsub _ _ hk')

variable [DecidableEq κ] [DecidableEq β]

/-- A holder takes an unmarked resource, which is marked from then on. -/
theorem acquire (h : Ledger real own mark) {k : κ} {b : β} (hreal : real b)
    (hfree : mark b = false) (hown : own' = update own k (some b))
    (hmark : mark' = update mark b true) : Ledger real own' mark' := by
  subst hown hmark
  have hcase : ∀ {i c}, update own k (some b) i = some c →
      (i = k ∧ c = b) ∨ (i ≠ k ∧ c ≠ b ∧ own i = some c) := by
    intro i c hi
    by_cases hik : i = k
    · subst hik
      rw [update_self] at hi
      exact Or.inl ⟨rfl, (Option.some.inj hi).symm⟩
    · rw [update_of_ne hik] at hi
      exact Or.inr ⟨hik, fun hc => h.not_own hfree (hc ▸ hi), hi⟩
  refine ⟨fun hi => ?_, fun hi => ?_, fun hi hj => ?_⟩
  · rcases hcase hi with ⟨-, rfl⟩ | ⟨-, -, hi⟩
    · exact hreal
    · exact h.real hi
  · rcases hcase hi with ⟨-, rfl⟩ | ⟨-, hne, hi⟩
    · exact update_self ..
    · rw [update_of_ne hne]
      exact h.marked hi
  · rcases hcase hi with ⟨rfl, rfl⟩ | ⟨-, hne, hi⟩
    · rcases hcase hj with ⟨rfl, -⟩ | ⟨-, hne, -⟩
      · rfl
      · exact absurd rfl hne
    · rcases hcase hj with ⟨-, heq⟩ | ⟨-, -, hj⟩
      · exact absurd heq hne
      · exact h.unique hi hj

end Ledger

section Exactness

variable {real : β → Prop} {own own' : κ → Option β} {mark mark' : β → Bool}
  [DecidableEq κ] [DecidableEq β]

/-- Taking a resource into an empty hand loses track of nothing. -/
theorem Exact.acquire (h : Exact real own mark) {k : κ} {b : β}
    (hempty : own k = none) (hown : own' = update own k (some b))
    (hmark : mark' = update mark b true) : Exact real own' mark' := by
  subst hown hmark
  intro c hc hm
  by_cases hcb : c = b
  · exact ⟨k, by rw [hcb, update_self]⟩
  · rw [update_of_ne hcb] at hm
    obtain ⟨i, hi⟩ := h c hc hm
    have hik : i ≠ k := fun hik => by rw [hik, hempty] at hi; cases hi
    exact ⟨i, by rw [update_of_ne hik, hi]⟩

end Exactness

section Release

variable {real : β → Prop} {own own' : κ → Option β} {mark mark' : β → Bool}
  {gone : κ → Prop}

/-- The holders in `gone` give back what they hold and nobody else is touched:
what is left is sound, because what they held was theirs alone. -/
theorem Ledger.release (h : Ledger real own mark)
    (hgone : ∀ k, gone k → own' k = none)
    (hkeep : ∀ k, ¬ gone k → own' k = own k)
    (hmark : ∀ b, real b → (mark' b = true ↔ mark b = true ∧ ∀ k, gone k → own k ≠ some b)) :
    Ledger real own' mark' := by
  have hcase : ∀ {k b}, own' k = some b → ¬ gone k ∧ own k = some b := by
    intro k b hk
    by_cases hg : gone k
    · rw [hgone k hg] at hk
      cases hk
    · exact ⟨hg, by rw [← hkeep k hg, hk]⟩
  refine ⟨fun hk => h.real (hcase hk).2, fun {k b} hk => ?_,
    fun hk hk' => h.unique (hcase hk).2 (hcase hk').2⟩
  obtain ⟨hg, hown⟩ := hcase hk
  refine (hmark b (h.real hown)).mpr ⟨h.marked hown, fun i hi hib => hg ?_⟩
  rw [h.unique hown hib]
  exact hi

/-- And exact, because nobody who still holds something stopped being seen. -/
theorem Exact.release (h : Exact real own mark)
    (hkeep : ∀ k, ¬ gone k → own' k = own k)
    (hmark : ∀ b, real b → (mark' b = true ↔ mark b = true ∧ ∀ k, gone k → own k ≠ some b)) :
    Exact real own' mark' := by
  intro b hb hm
  obtain ⟨hold, hnot⟩ := (hmark b hb).mp hm
  obtain ⟨k, hk⟩ := h b hb hold
  exact ⟨k, by rw [hkeep k fun hg => hnot k hg hk, hk]⟩

end Release

end MiniOs.Lib
