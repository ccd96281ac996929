import MiniOs.Cemu.Mmu

/-!
# What an access to DRAM touches

`Dram::load` and `Dram::store` compare the end of an access with the size of the vector, and
the end is a sum modulo `2 ^ 64`. An address below `DRAM_BASE` is a huge index. Where the
bytes from there on reach the base the sum has wrapped around, so that nothing is refused and
the vector is indexed far behind its end.

`Bus` passes no such address on, but `Mmu::translate` does not ask `Bus`. The addresses of
entries are multiples of eight, and that leaves one of them: the last doubleword below DRAM.
-/

namespace MiniOs.Cemu

open MiniOs.Lib

/-- Every byte of the access has an index in the vector. -/
def InVector (addr : Word) (size : Nat) : Prop :=
  ∀ i, i < size / 8 → addr - dramBase + BitVec.ofNat 64 i < dramSize

/-- The access begins below DRAM, and the bytes reach it. -/
def Wraps (addr : Word) (size : Nat) : Prop :=
  addr.toNat < dramBase.toNat ∧ dramBase.toNat ≤ addr.toNat + size / 8

/-- An access at the address throws, or stays within the vector. -/
def Bounded (dram : Ram) (addr : Word) (size : Nat) : Prop :=
  (Dram.load dram addr size = .error ⟨.loadAccessFault, addr⟩ ∨ InVector addr size) ∧
    ∀ value, Dram.store dram addr size value = .error ⟨.storeAMOAccessFault, addr⟩ ∨
      InVector addr size

variable {dram : Ram} {addr vaddr satp : Word} {size : Nat}

/-! ## One access -/

theorem toNat_index (addr : Word) (i : Nat) :
    (addr - dramBase + BitVec.ofNat 64 i).toNat =
      (addr.toNat + (2 ^ 64 - 2 ^ 31) + i) % 2 ^ 64 := by
  have hbase : dramBase.toNat = 2 ^ 31 := rfl
  rw [BitVec.toNat_add, BitVec.toNat_sub, BitVec.toNat_ofNat, hbase]
  omega

/-- The check of the end is right but for the accesses that wrap around. -/
theorem refused_or_inVector (h : sizeOk size = true) :
    (addr - dramBase + BitVec.ofNat 64 (size / 8) > dramSize ∨ InVector addr size) ↔
      ¬ Wraps addr size := by
  have hbytes : 1 ≤ size / 8 ∧ size / 8 ≤ 8 := by
    rw [sizeOk, decide_eq_true_iff] at h
    omega
  have haddr := addr.isLt
  have hbase : dramBase.toNat = 2 ^ 31 := rfl
  have hsize : dramSize.toNat = 2 ^ 27 := rfl
  rw [gt_iff_lt, BitVec.lt_def, toNat_index, Wraps, hbase, hsize]
  constructor
  · rintro (hend | hin) ⟨hbelow, hreach⟩
    · omega
    · have hfirst := hin 0 hbytes.1
      rw [BitVec.lt_def, toNat_index, hsize] at hfirst
      omega
  · intro hwraps
    by_cases hend : 2 ^ 27 < (addr.toNat + (2 ^ 64 - 2 ^ 31) + size / 8) % 2 ^ 64
    · exact Or.inl hend
    · refine Or.inr fun i hi => ?_
      rw [BitVec.lt_def, toNat_index, hsize]
      omega

theorem bounded_iff (dram : Ram) (addr : Word) (size : Nat) :
    Bounded dram addr size ↔ ¬ (sizeOk size = true ∧ Wraps addr size) := by
  unfold Bounded Dram.load Dram.store
  by_cases hok : sizeOk size = true
  · have hno : ¬ sizeOk size = false := by
      rw [hok]
      decide
    rw [if_neg hno, not_and, imp_iff_right hok, ← refused_or_inVector hok]
    by_cases hend : addr - dramBase + BitVec.ofNat 64 (size / 8) > dramSize
    · rw [if_pos hend]
      exact iff_of_true ⟨Or.inl rfl, fun value => Or.inl (by rw [if_neg hno, if_pos hend])⟩
        (Or.inl hend)
    · rw [if_neg hend]
      constructor
      · rintro ⟨herror | hin, -⟩
        · cases herror
        · exact Or.inr hin
      · rintro (hend' | hin)
        · exact absurd hend' hend
        · exact ⟨Or.inr hin, fun _ => Or.inr hin⟩
  · rw [if_pos (Bool.not_eq_true _ ▸ hok)]
    refine iff_of_true ⟨Or.inl rfl, fun value => Or.inl ?_⟩ fun h => hok h.1
    rw [if_pos (Bool.not_eq_true _ ▸ hok)]

/-! ## The entries of a walk -/

/-- The addresses `Mmu::translate` reads entries from, in order. -/
def entryAddrs (satp : Word) (dram : Ram) (vaddr : Word) : List Word :=
  let addr := (satp &&& 0xfffffffffff) * 4096 + Mmu.vpn2 vaddr * 8
  addr :: match Mmu.entry dram vaddr addr with
    | .error _ => []
    | .ok pte =>
      if Mmu.isTable pte = false then []
      else
        let addr := Mmu.tableOf pte + Mmu.vpn1 vaddr * 8
        addr :: match Mmu.entry dram vaddr addr with
          | .error _ => []
          | .ok pte =>
            if Mmu.isTable pte = false then [] else [Mmu.tableOf pte + Mmu.vpn0 vaddr * 8]

/-- The entry that is marked is one of those that were read. -/
theorem walk_mem_entryAddrs {leaf : Mmu.Leaf} (h : Mmu.walk satp dram vaddr = .ok leaf) :
    leaf.addr ∈ entryAddrs satp dram vaddr := by
  unfold Mmu.walk at h
  unfold entryAddrs
  dsimp only at h ⊢
  rcases hroot : Mmu.entry dram vaddr _ with e | pte <;> rw [hroot] at h
  · cases h
  dsimp only at h ⊢
  by_cases htable : Mmu.isTable pte = false
  · rw [if_pos htable] at h
    cases h
  rw [if_neg htable] at h ⊢
  rcases hmiddle : Mmu.entry dram vaddr (Mmu.tableOf pte + _) with e | pte' <;> rw [hmiddle] at h
  · cases h
  dsimp only at h ⊢
  by_cases htable' : Mmu.isTable pte' = false
  · rw [if_pos htable'] at h
    cases h
    exact List.mem_cons_of_mem _ List.mem_cons_self
  rw [if_neg htable'] at h ⊢
  rcases hlast : Mmu.entry dram vaddr (Mmu.tableOf pte' + _) with e | last <;> rw [hlast] at h
  · cases h
  · cases h
    exact List.mem_cons_of_mem _ (List.mem_cons_of_mem _ List.mem_cons_self)

theorem toNat_entryAddr (page index : Word) : (page * 4096 + index * 8).toNat % 8 = 0 := by
  rw [BitVec.toNat_add, BitVec.toNat_mul, BitVec.toNat_mul]
  show (page.toNat * 4096 % 2 ^ 64 + index.toNat * 8 % 2 ^ 64) % 2 ^ 64 % 8 = 0
  omega

theorem aligned_of_mem (h : addr ∈ entryAddrs satp dram vaddr) : addr.toNat % 8 = 0 := by
  unfold entryAddrs Mmu.tableOf at h
  dsimp only at h
  rcases List.mem_cons.mp h with rfl | h
  · exact toNat_entryAddr _ _
  split at h
  · cases h
  split at h
  · cases h
  rcases List.mem_cons.mp h with rfl | h
  · exact toNat_entryAddr _ _
  split at h
  · cases h
  split at h
  · cases h
  · rw [List.mem_singleton.mp h]
    exact toNat_entryAddr _ _

/-- The one entry that wraps around. -/
theorem bounded_entry_iff (dram : Ram) (haligned : addr.toNat % 8 = 0) :
    Bounded dram addr 64 ↔ addr ≠ dramBase - 8 := by
  have hlast : (dramBase - 8).toNat = 2 ^ 31 - 8 := rfl
  have hbase : dramBase.toNat = 2 ^ 31 := rfl
  rw [bounded_iff, not_and, imp_iff_right (by decide), not_iff_not, Wraps, hbase, BitVec.toNat_eq,
    hlast]
  omega

/-- Whatever is in memory: an access throws or stays within the vector, just if it does not
begin below DRAM and reach it; and of the entries `Mmu::translate` reads, and marks, the one
that does not is the last doubleword below DRAM. -/
theorem dram_in_bounds_iff (dram : Ram) :
    (∀ addr size, Bounded dram addr size ↔ ¬ (sizeOk size = true ∧ Wraps addr size)) ∧
      ∀ satp vaddr,
        (∀ leaf, Mmu.walk satp dram vaddr = .ok leaf →
          leaf.addr ∈ entryAddrs satp dram vaddr) ∧
        ∀ addr ∈ entryAddrs satp dram vaddr, Bounded dram addr 64 ↔ addr ≠ dramBase - 8 :=
  ⟨bounded_iff dram, fun _ _ => ⟨fun _ => walk_mem_entryAddrs,
    fun _ h => bounded_entry_iff dram (aligned_of_mem h)⟩⟩

/-- With the page below DRAM in `satp`, the walk for the highest addresses reads there,
whatever is in memory. -/
theorem walk_leaves_vector :
    Mmu.isEnabled 0x800000000007ffff = true ∧
      (∀ dram, dramBase - 8 ∈ entryAddrs 0x800000000007ffff dram 0x7fc0000000 ∧
        ∃ value, Dram.load dram (dramBase - 8) 64 = .ok value) ∧
      ¬ InVector (dramBase - 8) 64 := by
  refine ⟨by decide, fun dram => ⟨List.mem_cons_self, _, rfl⟩, fun h => ?_⟩
  exact absurd (h 0 (by decide)) (by decide)

end MiniOs.Cemu
