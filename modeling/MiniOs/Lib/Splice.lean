import Mathlib.Data.List.Basic
import Mathlib.Tactic.Common

/-!
# Strings written over in place

`splice l offset new` is `l` with `new` laid over it from `offset` on; what reaches
beyond the end makes it longer. Two facts carry its users: which element stands at a
position, and that a piece laid over behind another one is the two laid over together,
so that a loop that writes in pieces has written the whole.

`overlay` is the same for a memory, which has no end.

Reading goes the other way, slot by slot into a list, and `mapM_range'_eq_some` says when
that gives a list: every slot can be read and holds what the list has there.
-/

namespace MiniOs.Lib

variable {α : Type}

def splice (l : List α) (offset : Nat) (new : List α) : List α :=
  l.take offset ++ new ++ l.drop (offset + new.length)

section Splice

variable {l a b : List α} {offset : Nat}

theorem length_splice (h : offset ≤ l.length) :
    (splice l offset a).length = max l.length (offset + a.length) := by
  simp only [splice, List.length_append, List.length_take, List.length_drop]
  omega

theorem splice_nil (l : List α) (offset : Nat) : splice l offset [] = l := by
  simp [splice]

theorem splice_length (l a : List α) : splice l l.length a = l ++ a := by
  simp [splice]

theorem getElem?_splice (h : offset ≤ l.length) (p : Nat) :
    (splice l offset a)[p]? =
      if offset ≤ p ∧ p < offset + a.length then a[p - offset]? else l[p]? := by
  have htake : (l.take offset).length = offset := by rw [List.length_take]; omega
  rw [splice, List.append_assoc, List.getElem?_append, htake]
  rcases Nat.lt_or_ge p offset with hlt | hge
  · rw [if_pos hlt, if_neg (by omega), List.getElem?_take_of_lt hlt]
  · rw [if_neg (by omega), List.getElem?_append]
    rcases Nat.lt_or_ge (p - offset) a.length with hin | hout
    · rw [if_pos hin, if_pos (by omega)]
    · rw [if_neg (by omega), if_neg (by omega), List.getElem?_drop]
      congr 1
      omega

end Splice

/-- A memory with a list laid over it from `lo` on. -/
def overlay (f : Nat → Option α) (lo : Nat) (l : List α) : Nat → Option α := fun a =>
  if lo ≤ a ∧ a < lo + l.length then l[a - lo]? else f a

theorem overlay_nil (f : Nat → Option α) (lo : Nat) : overlay f lo [] = f := by
  funext a
  exact if_neg (by rw [List.length_nil]; omega)

theorem overlay_overlay (f : Nat → Option α) (lo : Nat) (a b : List α) :
    overlay (overlay f lo a) (lo + a.length) b = overlay f lo (a ++ b) := by
  funext p
  unfold overlay
  rw [List.length_append, List.getElem?_append]
  split_ifs <;> first | omega | rfl | (congr 1; omega)

theorem overlay_below (f : Nat → Option α) (lo : Nat) (a b : List α) :
    overlay (overlay f (lo + a.length) b) lo a = overlay f lo (a ++ b) := by
  funext p
  unfold overlay
  rw [List.length_append, List.getElem?_append]
  split_ifs <;> first | omega | rfl | (congr 1; omega)

theorem mapM_range'_eq_some {f : Nat → Option α} {start count : Nat} {l : List α} :
    (List.range' start count).mapM f = some l ↔
      l.length = count ∧ ∀ i, i < count → f (start + i) = l[i]? := by
  induction count generalizing start l with
  | zero =>
    rw [List.range'_zero, List.mapM_nil]
    constructor
    · rintro ⟨⟩
      exact ⟨rfl, fun i hi => absurd hi (Nat.not_lt_zero i)⟩
    · rintro ⟨hlen, -⟩
      rw [List.eq_nil_of_length_eq_zero hlen]
      rfl
  | succ count ih =>
    rw [List.range'_succ, List.mapM_cons]
    constructor
    · intro h
      obtain ⟨x, hx, h⟩ := Option.bind_eq_some_iff.mp h
      obtain ⟨rest, hrest, h⟩ := Option.bind_eq_some_iff.mp h
      obtain rfl := Option.some.inj h
      obtain ⟨hlen, hget⟩ := ih.mp hrest
      refine ⟨by rw [List.length_cons, hlen], fun i hi => ?_⟩
      cases i with
      | zero => exact hx
      | succ i =>
        rw [List.getElem?_cons_succ, ← hget i (by omega)]
        congr 1
        omega
    · rintro ⟨hlen, hget⟩
      cases l with
      | nil => cases hlen
      | cons x rest =>
        have hx : f start = some x := hget 0 (by omega)
        have hrest : (List.range' (start + 1) count).mapM f = some rest := by
          refine ih.mpr ⟨Nat.succ.inj hlen, fun i hi => ?_⟩
          have hnext := hget (i + 1) (by omega)
          rw [List.getElem?_cons_succ] at hnext
          rw [← hnext]
          congr 1
          omega
        rw [hx, hrest]
        rfl

end MiniOs.Lib
