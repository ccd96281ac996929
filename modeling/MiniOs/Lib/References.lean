import Mathlib.Data.Fintype.Card
import Mathlib.Tactic.Common

/-!
# Reference counts

Holders refer to objects, each to one at most, and an object carries the number
of references to it, which an allocator reads as free or taken. `Counted` compares
the counts with what they should be. What they should be is a function of its own
and not yet the number of holders: an operation changes a count first and a holder
after, so between the two they differ by `unit`.

There are three moves. An object is taken with its first reference, a reference is
added to an object that has one, and a reference is dropped. `holders_update` has
the other side, what a holder that changes its mind does to the number of holders.
-/

namespace MiniOs.Lib

open Function

variable {κ ι : Type} [Fintype κ] [DecidableEq κ] [DecidableEq ι]

/-- How many refer to an object. -/
def holders (f : κ → Option ι) (i : ι) : Nat := (Finset.univ.filter fun k => f k = some i).card

omit [DecidableEq κ] in
theorem holders_pos {f : κ → Option ι} {i : ι} : 0 < holders f i ↔ ∃ k, f k = some i := by
  simp [holders, Finset.card_pos, Finset.filter_nonempty_iff]

/-- One reference, to the object a holder refers to. -/
def unit (o : Option ι) (i : ι) : Nat := if o = some i then 1 else 0

theorem unit_none (i : ι) : unit (none : Option ι) i = 0 := rfl

theorem unit_self (i : ι) : unit (some i) i = 1 := if_pos rfl

theorem unit_of_ne {i j : ι} (h : j ≠ i) : unit (some i) j = 0 :=
  if_neg fun heq => h (Option.some.inj heq).symm

/-- A holder refers to something else. -/
theorem holders_update (f : κ → Option ι) (k : κ) (o : Option ι) (i : ι) :
    holders (update f k o) i + unit (f k) i = holders f i + unit o i := by
  -- both sides count the other holders, and then `k` before and after
  have hsplit : ∀ f : κ → Option ι, holders f i =
      ((Finset.univ.erase k).filter fun j => f j = some i).card + unit (f k) i := by
    intro f
    rw [holders, unit, ← Finset.insert_erase (Finset.mem_univ k), Finset.filter_insert]
    split
    · rw [Finset.card_insert_of_notMem (by simp), Finset.erase_insert (by simp)]
    · rw [Finset.erase_insert (by simp), Nat.add_zero]
  have hsame : ((Finset.univ.erase k).filter fun j => update f k o j = some i) =
      (Finset.univ.erase k).filter fun j => f j = some i := by
    refine Finset.filter_congr fun j hj => ?_
    rw [update_of_ne (Finset.ne_of_mem_erase hj)]
  rw [hsplit f, hsplit (update f k o), hsame, update_self]
  omega

theorem holders_release (f : κ → Option ι) (k : κ) :
    holders f = holders (update f k none) + unit (f k) := by
  funext i
  have h := holders_update f k none i
  rw [unit_none, Nat.add_zero] at h
  exact h.symm

/-- A holder that had nothing, or let go before, takes hold. -/
theorem holders_acquire (f : κ → Option ι) (k : κ) (o : Option ι) :
    holders (update f k o) = holders (update f k none) + unit o := by
  have h := holders_release (update f k o) k
  rwa [update_idem, update_self] at h

/-- Objects are taken where they should have references, and have that many. -/
structure Counted (taken : ι → Bool) (refs : ι → Int) (count : ι → Nat) : Prop where
  taken_iff : ∀ i, taken i = true ↔ 0 < count i
  refs_eq : ∀ i, taken i = true → refs i = count i

namespace Counted

variable {taken taken' : ι → Bool} {refs refs' : ι → Int} {count count' : ι → Nat} {i : ι}

omit [DecidableEq ι] in
/-- Two states that differ at one object. -/
theorem of_others (h : Counted taken refs count)
    (hothers : ∀ j, j ≠ i → taken' j = taken j ∧ refs' j = refs j ∧ count' j = count j)
    (htaken : taken' i = true ↔ 0 < count' i) (hrefs : taken' i = true → refs' i = count' i) :
    Counted taken' refs' count' where
  taken_iff j := by
    by_cases hj : j = i
    · rw [hj, htaken]
    · rw [(hothers j hj).1, (hothers j hj).2.2, h.taken_iff]
  refs_eq j hj' := by
    by_cases hj : j = i
    · subst hj
      exact hrefs hj'
    · rw [(hothers j hj).1] at hj'
      rw [(hothers j hj).2.1, (hothers j hj).2.2, h.refs_eq j hj']

/-- A free object is taken with one reference. -/
theorem take (h : Counted taken refs count) (hfree : taken i = false)
    (hothers : ∀ j, j ≠ i → taken' j = taken j ∧ refs' j = refs j)
    (htaken : taken' i = true) (hrefs : refs' i = 1) :
    Counted taken' refs' (count + unit (some i)) := by
  have hzero : count i = 0 := by
    have hpos := (h.taken_iff i).not.mp (by simp [hfree])
    omega
  refine h.of_others (fun j hj => ⟨(hothers j hj).1, (hothers j hj).2, ?_⟩) ?_ fun _ => ?_
  · rw [Pi.add_apply, unit_of_ne hj, Nat.add_zero]
  · simp [htaken, unit_self]
  · simp [hrefs, unit_self, hzero]

/-- One more reference to an object that has some. -/
theorem add (h : Counted taken refs count) (hi : 0 < count i)
    (hothers : ∀ j, j ≠ i → taken' j = taken j ∧ refs' j = refs j)
    (htaken : taken' i = taken i) (hrefs : refs' i = refs i + 1) :
    Counted taken' refs' (count + unit (some i)) := by
  have htrue := (h.taken_iff i).mpr hi
  have heq := h.refs_eq i htrue
  refine h.of_others (fun j hj => ⟨(hothers j hj).1, (hothers j hj).2, ?_⟩) ?_ fun _ => ?_
  · rw [Pi.add_apply, unit_of_ne hj, Nat.add_zero]
  · simp [htaken, htrue, unit_self]
  · simp [hrefs, unit_self, heq]

/-- A reference is dropped, and the object goes with the last one. -/
theorem drop (h : Counted taken refs (count + unit (some i)))
    (hothers : ∀ j, j ≠ i → taken' j = taken j ∧ refs' j = refs j)
    (htaken : taken' i = (refs i - 1 != 0)) (hrefs : refs' i = refs i - 1) :
    Counted taken' refs' count := by
  have heq := h.refs_eq i ((h.taken_iff i).mpr (by simp [unit_self]))
  rw [Pi.add_apply, unit_self] at heq
  refine h.of_others (fun j hj => ⟨(hothers j hj).1, (hothers j hj).2, ?_⟩) ?_ fun _ => ?_
  · rw [Pi.add_apply, unit_of_ne hj, Nat.add_zero]
  · rw [htaken, bne_iff_ne]
    omega
  · omega

end Counted

end MiniOs.Lib
