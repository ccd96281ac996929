import Mathlib.Data.List.FinRange
import Mathlib.Tactic.Common

/-!
# Scanning a table

A linear scan over numbered slots for the first one that satisfies a test. A
slot may be unreadable, and then the scan stops without an answer, so there are
three ways for it to end. The lemmas characterise each of them by what the slots
hold, in both directions, so that a user of a scan never has to look at its
recursion. Where every slot can be read the scan is `List.find?`, and the end of
the file says the same about it.
-/

namespace MiniOs.Lib

variable {ε : Type}

/-- How a scan ends. -/
inductive Scan (ε : Type) where
  /-- The first slot that passes the test. -/
  | found (i : Nat) (e : ε)
  /-- Every slot was read and none passed. -/
  | ended
  /-- A slot could not be read. -/
  | blocked

/-- Look at `left` slots from slot `i` on. -/
def scan (get : Nat → Option ε) (p : ε → Bool) : Nat → Nat → Scan ε
  | 0, _ => .ended
  | left + 1, i =>
    match get i with
    | none => .blocked
    | some e => if p e then .found i e else scan get p left (i + 1)

/-- The slots from `i` up to `j` can be read and fail the test. -/
def Passed (get : Nat → Option ε) (p : ε → Bool) (i j : Nat) : Prop :=
  ∀ k, i ≤ k → k < j → ∃ e, get k = some e ∧ p e = false

section Scan

variable {get : Nat → Option ε} {p : ε → Bool} {left i j : Nat} {e : ε}

theorem Passed.cons (h : get i = some e) (hp : p e = false)
    (hrest : Passed get p (i + 1) j) : Passed get p i j := by
  intro k h1 h2
  rcases Nat.lt_or_ge i k with hk | hk
  · exact hrest k (by omega) h2
  · obtain rfl : k = i := by omega
    exact ⟨e, h, hp⟩

theorem scan_found (h : scan get p left i = .found j e) :
    i ≤ j ∧ j < i + left ∧ get j = some e ∧ p e = true ∧ Passed get p i j := by
  induction left generalizing i with
  | zero => cases h
  | succ left ih =>
    unfold scan at h
    split at h
    · cases h
    next e' hget =>
      split at h
      · next hp =>
        cases h
        exact ⟨by omega, by omega, hget, hp, fun k h1 h2 => by omega⟩
      · next hp =>
        obtain ⟨h1, h2, hj, hpj, hpass⟩ := ih h
        exact ⟨by omega, by omega, hj, hpj, hpass.cons hget (eq_false_of_ne_true hp)⟩

theorem scan_ended (h : scan get p left i = .ended) : Passed get p i (i + left) := by
  induction left generalizing i with
  | zero => exact fun k h1 h2 => by omega
  | succ left ih =>
    unfold scan at h
    split at h
    · cases h
    · next e hget =>
      split at h
      · cases h
      · next hp =>
        have hrest := ih h
        rw [show i + 1 + left = i + (left + 1) by omega] at hrest
        exact hrest.cons hget (eq_false_of_ne_true hp)

theorem scan_blocked (h : scan get p left i = .blocked) :
    ∃ k, i ≤ k ∧ k < i + left ∧ get k = none := by
  induction left generalizing i with
  | zero => cases h
  | succ left ih =>
    unfold scan at h
    split at h
    · next hget => exact ⟨i, by omega, by omega, hget⟩
    · split at h
      · cases h
      · obtain ⟨k, h1, h2, hk⟩ := ih h
        exact ⟨k, by omega, by omega, hk⟩

theorem scan_eq_ended (h : Passed get p i (i + left)) : scan get p left i = .ended := by
  cases hs : scan get p left i with
  | ended => rfl
  | found j e =>
    obtain ⟨h1, h2, hj, hp, -⟩ := scan_found hs
    obtain ⟨e', he', hp'⟩ := h j h1 h2
    rw [hj] at he'
    cases he'
    rw [hp] at hp'
    cases hp'
  | blocked =>
    obtain ⟨k, h1, h2, hk⟩ := scan_blocked hs
    obtain ⟨e, he, -⟩ := h k h1 h2
    rw [hk] at he
    cases he

theorem scan_eq_found (h1 : i ≤ j) (h2 : j < i + left) (hj : get j = some e)
    (hp : p e = true) (hpass : Passed get p i j) : scan get p left i = .found j e := by
  induction left generalizing i with
  | zero => omega
  | succ left ih =>
    unfold scan
    rcases Nat.lt_or_ge i j with hlt | hge
    · obtain ⟨e', he', hp'⟩ := hpass i (by omega) hlt
      rw [he']
      dsimp only
      rw [hp', if_neg (by simp)]
      exact ih (by omega) (by omega) fun k hk => hpass k (by omega)
    · obtain rfl : i = j := by omega
      rw [hj]
      exact if_pos hp

end Scan

/-! ## Collecting what is there -/

section Collect

variable {f g : Nat → Option ε} {n j : Nat} {x : ε}

/-- Two tables that differ in one slot, which one of them has empty. -/
theorem filterMap_range_insert (hj : j < n) (hf : f j = none) (hg : g j = some x)
    (hfg : ∀ i, i < n → i ≠ j → g i = f i) :
    ∃ before after, (List.range n).filterMap f = before ++ after ∧
      (List.range n).filterMap g = before ++ x :: after := by
  have hsplit : List.range n = List.range j ++ j :: List.range' (j + 1) (n - j - 1) := by
    rw [List.range_eq_range', List.range_eq_range', ← List.range'_succ,
      show n = j + (n - j - 1 + 1) by omega, ← List.range'_append]
    simp
  refine ⟨(List.range j).filterMap f, (List.range' (j + 1) (n - j - 1)).filterMap f, ?_, ?_⟩
  · rw [hsplit, List.filterMap_append, List.filterMap_cons_none hf]
  have hbefore : (List.range j).filterMap g = (List.range j).filterMap f := by
    refine List.filterMap_congr fun i hi => ?_
    have hlt := List.mem_range.mp hi
    exact hfg i (by omega) (by omega)
  have hafter : (List.range' (j + 1) (n - j - 1)).filterMap g =
      (List.range' (j + 1) (n - j - 1)).filterMap f := by
    refine List.filterMap_congr fun i hi => ?_
    have hin := List.mem_range'_1.mp hi
    exact hfg i (by omega) (by omega)
  rw [hsplit, List.filterMap_append, List.filterMap_cons_some hg, hbefore, hafter]

end Collect

/-! ## Scans that cannot fail -/

section Find

variable {n : Nat} {p : Fin n → Bool} {i : Fin n}

/-- The first slot that passes a test. -/
theorem find?_finRange_eq_some :
    (List.finRange n).find? p = some i ↔ p i = true ∧ ∀ j, j < i → p j = false := by
  rw [List.find?_eq_some_iff_getElem]
  refine and_congr_right fun hi => ⟨?_, fun hfirst => ⟨i, by simp, by simp, fun j hj => ?_⟩⟩
  · rintro ⟨k, hk, rfl, hfirst⟩ j hj
    have hlt : j.val < k := by simpa [Fin.lt_def] using hj
    simpa using hfirst j hlt
  · have hlt : (⟨j, hj.trans i.isLt⟩ : Fin n) < i := hj
    simpa using hfirst _ hlt

theorem find?_finRange_eq_none : (List.finRange n).find? p = none ↔ ∀ j, p j = false := by
  simp

end Find

end MiniOs.Lib
