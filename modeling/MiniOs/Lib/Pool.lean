import Mathlib.Data.List.Nodup
import Mathlib.Data.List.Perm.Basic

/-!
# A pool of pages

An allocator with two sources: a list of pages that have been given back, and a
pointer that runs through memory never handed out. `Pool` says that every page below
the pointer is on the list or in use, once, and is an invariant of the three things
such an allocator does. The pages in use are a list in any order.
-/

namespace MiniOs.Lib

/-- The pages of `size` bytes from `lo` to `bump` are those of `free` and of `used`;
the pages from `bump` to `hi` are untouched. -/
structure Pool (size lo hi : Nat) (free : List Nat) (bump : Nat) (used : List Nat) : Prop where
  nodup : (free ++ used).Nodup
  mem_iff : ∀ p, p ∈ free ++ used ↔ lo ≤ p ∧ p + size ≤ bump ∧ p % size = 0
  lo_aligned : lo % size = 0
  bump_aligned : bump % size = 0
  lo_le : lo ≤ bump
  bump_le : bump ≤ hi

namespace Pool

variable {size lo hi bump p : Nat} {free used used' : List Nat}

/-- Between a page and the next there is none. -/
theorem next_le {q : Nat} (hp : p % size = 0) (hq : q % size = 0) (hlt : p < q) :
    p + size ≤ q := by
  obtain ⟨a, rfl⟩ := Nat.dvd_of_mod_eq_zero hp
  obtain ⟨b, rfl⟩ := Nat.dvd_of_mod_eq_zero hq
  have hab : a < b := Nat.lt_of_mul_lt_mul_left hlt
  calc size * a + size = size * (a + 1) := (Nat.mul_succ size a).symm
    _ ≤ size * b := Nat.mul_le_mul_left size hab

/-- Two pages are equal or have no byte in common. -/
theorem apart {q : Nat} (hp : p % size = 0) (hq : q % size = 0) (hne : p ≠ q) :
    p + size ≤ q ∨ q + size ≤ p := by
  rcases Nat.lt_or_gt_of_ne hne with hlt | hlt
  · exact .inl (next_le hp hq hlt)
  · exact .inr (next_le hq hp hlt)

theorem perm (h : Pool size lo hi free bump used) (hperm : used.Perm used') :
    Pool size lo hi free bump used' :=
  { h with
    nodup := (hperm.append_left free).nodup_iff.mp h.nodup
    mem_iff p := (hperm.append_left free).mem_iff.symm.trans (h.mem_iff p) }

/-- A page of the list is handed out. -/
theorem reuse (h : Pool size lo hi (p :: free) bump used) :
    Pool size lo hi free bump (p :: used) :=
  { h with
    nodup := (List.perm_middle.nodup_iff).mpr h.nodup
    mem_iff q := List.perm_middle.mem_iff.trans (h.mem_iff q) }

/-- The next page is handed out. -/
theorem extend (h : Pool size lo hi free bump used) (hsize : 0 < size)
    (hroom : bump + size ≤ hi) : Pool size lo hi free (bump + size) (bump :: used) where
  nodup := by
    rw [List.perm_middle.nodup_iff, List.nodup_cons]
    refine ⟨fun hmem => ?_, h.nodup⟩
    have hbelow := ((h.mem_iff bump).mp hmem).2.1
    omega
  mem_iff q := by
    rw [List.perm_middle.mem_iff, List.mem_cons, h.mem_iff q]
    have hlo := h.lo_le
    have hbump := h.bump_aligned
    constructor
    · rintro (rfl | ⟨hq, hle, hmod⟩)
      · exact ⟨hlo, Nat.le_refl _, hbump⟩
      · exact ⟨hq, by omega, hmod⟩
    · rintro ⟨hq, hle, hmod⟩
      by_cases hlt : q < bump
      · exact .inr ⟨hq, next_le hmod hbump hlt, hmod⟩
      · exact .inl (by omega)
  lo_aligned := h.lo_aligned
  bump_aligned := by rw [Nat.add_mod_right]; exact h.bump_aligned
  lo_le := Nat.le_add_right_of_le h.lo_le
  bump_le := hroom

theorem release (h : Pool size lo hi free bump (p :: used)) :
    Pool size lo hi (p :: free) bump used :=
  { h with
    nodup := (List.perm_middle.nodup_iff).mp h.nodup
    mem_iff q := List.perm_middle.mem_iff.symm.trans (h.mem_iff q) }

theorem nodup_used (h : Pool size lo hi free bump used) : used.Nodup :=
  (List.nodup_append.mp h.nodup).2.1

theorem length_add (h : Pool size lo hi free bump used) (hsize : 0 < size) :
    free.length + used.length = (bump - lo) / size := by
  have hpages : (free ++ used).Perm ((List.range ((bump - lo) / size)).map (lo + size * ·)) := by
    refine (List.perm_ext_iff_of_nodup h.nodup ?_).mpr fun p => ?_
    · refine List.nodup_range.map fun i j hij => ?_
      exact Nat.eq_of_mul_eq_mul_left hsize (Nat.add_left_cancel hij)
    obtain ⟨a, ha⟩ := Nat.dvd_of_mod_eq_zero h.lo_aligned
    obtain ⟨b, hb⟩ := Nat.dvd_of_mod_eq_zero h.bump_aligned
    rw [h.mem_iff, List.mem_map, ha, hb, ← Nat.mul_sub, Nat.mul_div_cancel_left _ hsize]
    constructor
    · rintro ⟨hlo, hhi, hmod⟩
      obtain ⟨c, rfl⟩ := Nat.dvd_of_mod_eq_zero hmod
      have hac : a ≤ c := Nat.le_of_mul_le_mul_left hlo hsize
      have hcb : c + 1 ≤ b := Nat.le_of_mul_le_mul_left hhi hsize
      refine ⟨c - a, List.mem_range.mpr (by omega), ?_⟩
      rw [← Nat.mul_add, Nat.add_sub_cancel' hac]
    · rintro ⟨i, hi, rfl⟩
      rw [List.mem_range] at hi
      have hlast : a + i + 1 ≤ b := by omega
      rw [← Nat.mul_add]
      exact ⟨Nat.mul_le_mul_left size (Nat.le_add_right a i),
        Nat.mul_le_mul_left size hlast, Nat.mul_mod_right ..⟩
  simpa using hpages.length_eq

theorem bounds (h : Pool size lo hi free bump used) (hp : p ∈ used) :
    lo ≤ p ∧ p + size ≤ hi ∧ p % size = 0 := by
  obtain ⟨hlo, hhi, hmod⟩ := (h.mem_iff p).mp (List.mem_append_right free hp)
  exact ⟨hlo, Nat.le_trans hhi h.bump_le, hmod⟩

end Pool
end MiniOs.Lib
