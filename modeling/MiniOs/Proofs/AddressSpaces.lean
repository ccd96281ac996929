import MiniOs.Lib.Run
import MiniOs.Proofs.SpaceTables

/-!
# Address spaces come and go

What can happen to memory and the address spaces in use is that a space is made,
changed, written to or given back, and that somebody's access sets marks in some table.
Each of these keeps the invariant, and `vm_init` starts it, so it holds after every
history. Nothing is said about what the pages of a process hold.
-/

namespace MiniOs.Kernel

open MiniOs.Lib Function
open MiniOs.Cemu (Word)

variable {layout : Layout} {others : List Nat}

/-! ## What happens -/

/-- A space is made, changed, written to or given back, or an access is translated, by
whatever tables. -/
inductive SpaceEvent where
  | create
  | map (i va : Nat) (r w x : Bool)
  | fill (i va : Nat) (contents : Region)
  | destroy (i : Nat)
  | access (csrs : Cemu.Csr) (vaddr : Word) (type : Cemu.AccessType) (mode : Word)

def Spaces.step (s : Spaces) : SpaceEvent → Spaces
  | .create =>
    match createEmptySpace s.memory with
    | (m, space) => ⟨m, s.spaces ++ space.toList⟩
  | .map i va r w x =>
    match s.spaces[i]? with
    | none => s
    | some space =>
      match mapUserPage s.memory space va (flagsOf r w x) with
      | (m, space, _) => ⟨m, s.spaces.set i space⟩
  | .fill i va contents =>
    match s.spaces[i]?.bind (mappingAt · va) with
    | none => s
    | some mapping =>
      { s with memory :=
        { s.memory with ram := s.memory.ram.blit mapping.page contents pageSize } }
  | .destroy i =>
    match s.spaces[i]? with
    | none => s
    | some space => ⟨userSpaceDestroy s.memory space, s.spaces.eraseIdx i⟩
  | .access csrs vaddr type mode =>
    { s with memory :=
      { s.memory with
        ram := regionOf (Cemu.Mmu.translate csrs (dramOf s.memory.ram) vaddr type mode).2
          s.memory.ram } }

section Steps

variable {s : Spaces} (hok : s.Ok layout others)
include hok

theorem owned_nodup {space : AddressSpace} (hspace : space ∈ s.spaces) : space.owned.Nodup := by
  have hall := (List.nodup_append.mp (List.nodup_append.mp hok.uses.pool.nodup_used).1).1
  exact (List.nodup_flatMap.mp hall).1 space hspace

/-- What a process has in its pages is no matter. -/
theorem fill_ok {i va : Nat} {space : AddressSpace} {mapping : Mapping} {m' : Memory}
    (hi : s.spaces[i]? = some space) (hmapping : mappingAt space va = some mapping)
    (hw : Wrote [mapping.page] s.memory m') (hheap : m'.toHeap = s.memory.toHeap) :
    Spaces.Ok layout others ⟨m', s.spaces⟩ := by
  have hspace : space ∈ s.spaces := List.mem_of_getElem? hi
  have haligned : ∀ p ∈ space.owned, p % pageSize = 0 := fun p hp =>
    hok.aligned (List.mem_append_left _ (Spaces.Ok.owned_mem hspace hp))
  have hpage : mapping.page ∈ space.pages.map Mapping.page :=
    List.mem_map_of_mem (mappingAt_mem hmapping).1
  have hown : mapping.page ∈ space.owned := List.mem_append_left _ hpage
  have hpages : ∀ p ∈ [mapping.page], p % pageSize = 0 := by simpa using haligned _ hown
  have htables := hok.spaces space hspace
  -- the page is none of the tables
  have hdisjoint := (List.nodup_append.mp (owned_nodup hok hspace)).2.2
  have hkeep : ∀ {base t}, base ∈ [space.l0User, space.l1Mmio, space.root] →
      Table s.memory.ram base t → Table m'.ram base t := fun hmem ht =>
    ht.wrote hw hpages (haligned _ (List.mem_append_right _ hmem)) fun hbase =>
      hdisjoint _ hpage _ hmem (List.mem_singleton.mp hbase).symm
  have htables' : SpaceTables m' space := by
    refine ⟨htables.satp, ?_, hkeep (by simp) htables.l1Mmio, hkeep (by simp) htables.l0User,
      htables.mapped⟩
    rw [hw.l1Dram]
    exact hkeep (by simp) htables.root
  have hreplaced := hok.replace [] hi (hheap ▸ hok.uses) (List.Perm.refl _) hw
    (fun p hp => ⟨hpages p hp, .inl (List.mem_singleton.mp hp ▸ hown)⟩) htables'
  obtain ⟨before, after, hsplit, -, hset, -⟩ := split_at hi
  rwa [hset, ← hsplit] at hreplaced

theorem destroy_ok {i : Nat} {space : AddressSpace} (hi : s.spaces[i]? = some space) :
    Spaces.Ok layout others ⟨userSpaceDestroy s.memory space, s.spaces.eraseIdx i⟩ := by
  obtain ⟨before, after, hsplit, -, -, herase⟩ := split_at hi
  rw [userSpaceDestroy_eq, herase]
  obtain ⟨hkernel, hspaces⟩ := hok.fresh
    (Wrote.heap s.memory (space.owned.foldl Kernel.kfree s.memory.toHeap) []) nofun nofun
  refine ⟨Heap.Uses.kfree_all space.owned (hok.uses.perm ?_), hkernel, fun other hother => ?_⟩
  · unfold Spaces.pages
    dsimp only
    rw [hsplit, List.flatMap_append, List.flatMap_cons, List.flatMap_append]
    simp only [List.append_assoc]
    exact List.perm_append_comm_assoc _ _ _
  · refine hspaces other ?_
    rw [hsplit]
    obtain h | h := List.mem_append.mp hother <;> simp [h]

theorem inRam {p : Nat} (hp : p ∈ s.pages) : InRam p := by
  obtain ⟨hlo, hhi, hmod⟩ := hok.uses.bounds (List.mem_append_left _ hp)
  have hstart := layout.start_le
  have htop : heapTop ≤ 0x88000000 := by decide
  unfold kernelStart at hstart
  exact ⟨hmod, by omega, by omega⟩

theorem access_ok (csrs : Cemu.Csr) (vaddr : Word) (type : Cemu.AccessType) (mode : Word) :
    Spaces.Ok layout others (s.step (.access csrs vaddr type mode)) := by
  have hkeep : ∀ {base t}, base ∈ s.pages → Table s.memory.ram base t →
      Table (s.step (.access csrs vaddr type mode)).memory.ram base t :=
    fun hmem ht => ht.translated (inRam hok hmem) csrs vaddr type mode
  have hkernel : ∀ {base t}, base ∈ kernelPages s.memory → Table s.memory.ram base t →
      Table (s.step (.access csrs vaddr type mode)).memory.ram base t :=
    fun hmem ht => hkeep (Spaces.Ok.kernel_mem hmem) ht
  obtain ⟨hl2, hdram, hmmio⟩ := hok.kernel
  have hl2' := hkernel (by simp [kernelPages]) hl2
  have hdram' := hkernel (by simp [kernelPages]) hdram
  have hmmio' := hkernel (by simp [kernelPages]) hmmio
  refine ⟨hok.uses, ⟨hl2', hdram', hmmio'⟩, fun space hspace => ?_⟩
  have hown : ∀ {base t}, base ∈ space.owned → Table s.memory.ram base t →
      Table (s.step (.access csrs vaddr type mode)).memory.ram base t :=
    fun hmem ht => hkeep (Spaces.Ok.owned_mem hspace hmem) ht
  have htables := hok.spaces space hspace
  have hroot := hown (by simp [AddressSpace.owned]) htables.root
  exact ⟨htables.satp, hroot, hown (by simp [AddressSpace.owned]) htables.l1Mmio,
    hown (by simp [AddressSpace.owned]) htables.l0User, htables.mapped⟩

/-- One step keeps the invariant, -/
theorem step_ok (e : SpaceEvent) : (s.step e).Ok layout others := by
  cases e with
  | create => exact create_ok hok
  | map i va r w x =>
    dsimp only [Spaces.step]
    split
    · exact hok
    · next space hi => exact map_ok hok hi (flagsOf_rwx r w x)
  | fill i va contents =>
    dsimp only [Spaces.step]
    split
    · exact hok
    · next mapping hi =>
      obtain ⟨space, hspace, hmapping⟩ := Option.bind_eq_some_iff.mp hi
      exact fill_ok hok hspace hmapping (Wrote.blit s.memory (by simp) contents) rfl
  | destroy i =>
    dsimp only [Spaces.step]
    split
    · exact hok
    · next space hi => exact destroy_ok hok hi
  | access csrs vaddr type mode => exact access_ok hok csrs vaddr type mode

/-- and so does a run. -/
theorem run_ok (events : List SpaceEvent) : (run Spaces.step s events).Ok layout others := by
  have hstep : ∀ (s : Spaces) (e : SpaceEvent), s.Ok layout others → (s.step e).Ok layout others :=
    fun _ e h => step_ok h e
  exact run_inv hstep hok events

end Steps

/-! ## The kernel's own tables -/

theorem megapages_succ (m : Memory) (table first base flags count : Nat) :
    m.megapages table first base flags (count + 1) =
      (m.megapages table first base flags count).setEntry table (first + count)
        (pte (base + count * 0x200000) flags) := by
  unfold Memory.megapages
  rw [List.range_succ, List.foldl_append]
  rfl

theorem megapages_table {m : Memory} {table first base flags : Nat} {t : TableFn}
    (ht : Table m.ram table t) (hflags : flags < 32) (count : Nat)
    (hbase : base + count * 0x200000 ≤ 2 ^ 56) :
    Table (m.megapages table first base flags count).ram table fun j =>
      if first ≤ j ∧ j < first + count then some (base + (j - first) * 0x200000, flags)
      else t j := by
  induction count with
  | zero =>
    have hnone : (fun j => if first ≤ j ∧ j < first + 0 then
        some (base + (j - first) * 0x200000, flags) else t j) = t :=
      funext fun j => if_neg (by omega)
    rw [hnone]
    exact ht
  | succ count ih =>
    have haddr : base + count * 0x200000 < 2 ^ 56 := by omega
    have hprev := ih (Nat.le_of_lt haddr)
    have hset := hprev.set (j := first + count) haddr hflags
    rw [megapages_succ]
    refine cast (congrArg (Table _ table) (funext fun j => ?_)) hset
    by_cases hj : j = first + count
    · subst hj
      rw [update_self, if_pos (by omega), Nat.add_sub_cancel_left]
    · rw [update_of_ne hj]
      by_cases hin : first ≤ j ∧ j < first + count
      · rw [if_pos hin, if_pos (by omega)]
      · rw [if_neg hin, if_neg (by omega)]

theorem Wrote.megapages {pages : List Nat} (m : Memory) {table : Nat} (htable : table ∈ pages)
    {first base flags : Nat} (count : Nat) (hcount : first + count ≤ 512) :
    Wrote pages m (m.megapages table first base flags count) := by
  induction count with
  | zero => exact Wrote.heap m m.toHeap pages
  | succ count ih =>
    rw [megapages_succ]
    exact (ih (by omega)).trans (Wrote.setEntry _ htable (by omega) _)

theorem dramFn_eq : dramFn = fun j =>
    if 0 ≤ j ∧ j < 0 + 64 then some (0x80000000 + (j - 0) * 0x200000, flagsKernel) else none := by
  funext j
  unfold dramFn
  simp

theorem mmioFn_eq : mmioFn = fun j =>
    if 0 ≤ j ∧ j < 0 + 1 then some (0 + (j - 0) * 0x200000, flagsDevice)
    else if 128 ≤ j ∧ j < 128 + 1 then some (0x10000000 + (j - 128) * 0x200000, flagsDevice)
    else if 96 ≤ j ∧ j < 96 + 32 then some (0x0c000000 + (j - 96) * 0x200000, flagsDevice)
    else if 16 ≤ j ∧ j < 16 + 1 then some (0x02000000 + (j - 16) * 0x200000, flagsDevice)
    else none := by
  funext j
  unfold mmioFn
  grind

theorem rootFn_eq (mmio dram : Nat) : rootFn mmio dram =
    update (update (fun _ : Nat => none) 0 (some (mmio, flagsTable))) 2
      (some (dram, flagsTable)) := by
  funext j
  unfold rootFn update
  grind

theorem vmInit_tables (m : Memory) {l2 l1Dram l1Mmio : Nat}
    (hin : ∀ p ∈ [l2, l1Dram, l1Mmio], p % pageSize = 0 ∧ p < 2 ^ 56)
    (hnodup : [l2, l1Dram, l1Mmio].Nodup) :
    let m1 := ((m.zeroPage l2).zeroPage l1Dram).zeroPage l1Mmio
    let m2 := m1.setEntry l2 0 (pte l1Mmio pteV)
    let m3 := m2.setEntry l2 2 (pte l1Dram pteV)
    let m4 := m3.megapages l1Dram 0 0x80000000 (pteV ||| pteR ||| pteW ||| pteX) 64
    let m5 := m4.megapages l1Mmio 16 0x02000000 (pteV ||| pteR ||| pteW) 1
    let m6 := m5.megapages l1Mmio 96 0x0c000000 (pteV ||| pteR ||| pteW) 32
    let m7 := m6.megapages l1Mmio 128 0x10000000 (pteV ||| pteR ||| pteW) 1
    let m8 := m7.megapages l1Mmio 0 0 (pteV ||| pteR ||| pteW) 1
    Table m8.ram l2 (rootFn l1Mmio l1Dram) ∧ Table m8.ram l1Dram dramFn ∧
      Table m8.ram l1Mmio mmioFn := by
  intro m1 m2 m3 m4 m5 m6 m7 m8
  have hne : l2 ≠ l1Dram ∧ l2 ≠ l1Mmio ∧ l1Dram ≠ l1Mmio := by
    simp only [List.nodup_cons, List.mem_cons, List.not_mem_nil, or_false, not_or] at hnodup
    exact ⟨hnodup.1.1, hnodup.1.2, hnodup.2.1⟩
  obtain ⟨hld, hlm, hdm⟩ := hne
  obtain ⟨h2, -⟩ := hin l2 (by simp)
  obtain ⟨hd, hd56⟩ := hin l1Dram (by simp)
  obtain ⟨hm, hm56⟩ := hin l1Mmio (by simp)
  have hp2 : ∀ p ∈ [l2], p % pageSize = 0 := by simpa using h2
  have hpd : ∀ p ∈ [l1Dram], p % pageSize = 0 := by simpa using hd
  have hpm : ∀ p ∈ [l1Mmio], p % pageSize = 0 := by simpa using hm
  have wd : Wrote [l1Dram] (m.zeroPage l2) ((m.zeroPage l2).zeroPage l1Dram) :=
    Wrote.blit _ (by simp) _
  have wm : Wrote [l1Mmio] ((m.zeroPage l2).zeroPage l1Dram) m1 := Wrote.blit _ (by simp) _
  have w2 : Wrote [l2] m1 m2 := Wrote.setEntry m1 (by simp) (by decide) _
  have w3 : Wrote [l2] m2 m3 := Wrote.setEntry m2 (by simp) (by decide) _
  have w4 : Wrote [l1Dram] m3 m4 := Wrote.megapages m3 (by simp) 64 (by decide)
  have w5 : Wrote [l1Mmio] m4 m5 := Wrote.megapages m4 (by simp) 1 (by decide)
  have w6 : Wrote [l1Mmio] m5 m6 := Wrote.megapages m5 (by simp) 32 (by decide)
  have w7 : Wrote [l1Mmio] m6 m7 := Wrote.megapages m6 (by simp) 1 (by decide)
  have w8 : Wrote [l1Mmio] m7 m8 := Wrote.megapages m7 (by simp) 1 (by decide)
  have wmmio : Wrote [l1Mmio] m4 m8 := ((w5.trans w6).trans w7).trans w8
  refine ⟨?_, ?_, ?_⟩
  · have t0 : Table (m.zeroPage l2).ram l2 fun _ => none := Table.zero _ _
    have t1 := (t0.wrote wd hpd h2 (by simpa using hld)).wrote wm hpm h2 (by simpa using hlm)
    have t3 : Table m3.ram l2 (rootFn l1Mmio l1Dram) := by
      rw [rootFn_eq]
      exact (t1.set hm56 (by decide)).set hd56 (by decide)
    exact (t3.wrote w4 hpd h2 (by simpa using hld)).wrote wmmio hpm h2 (by simpa using hlm)
  · have t0 : Table ((m.zeroPage l2).zeroPage l1Dram).ram l1Dram fun _ => none := Table.zero _ _
    have t1 := t0.wrote wm hpm hd (by simpa using hdm)
    have t3 := t1.wrote (w2.trans w3) hp2 hd (by simpa using hld.symm)
    have t4 : Table m4.ram l1Dram dramFn := by
      rw [dramFn_eq]
      exact megapages_table t3 (by decide) 64 (by decide)
    exact t4.wrote wmmio hpm hd (by simpa using hdm)
  · have t1 : Table m1.ram l1Mmio fun _ => none := Table.zero _ _
    have t3 := t1.wrote (w2.trans w3) hp2 hm (by simpa using hlm.symm)
    have t4 := t3.wrote w4 hpd hm (by simpa using hdm.symm)
    have t5 : Table m5.ram l1Mmio _ := megapages_table t4 (by decide) 1 (by decide)
    have t6 : Table m6.ram l1Mmio _ := megapages_table t5 (by decide) 32 (by decide)
    have t7 : Table m7.ram l1Mmio _ := megapages_table t6 (by decide) 1 (by decide)
    rw [mmioFn_eq]
    exact megapages_table t7 (by decide) 1 (by decide)

theorem vmInit_ok {m : Memory} (hu : m.Uses layout others) {satp : Word}
    (hvm : (vmInit m).2 = some satp) : Spaces.Ok layout others ⟨(vmInit m).1, []⟩ := by
  revert hvm
  unfold vmInit
  obtain ⟨h1, l2, heq1, hu1⟩ := Memory.kalloc_uses hu
  rw [heq1]
  dsimp only
  obtain ⟨h2, l1Dram, heq2, hu2⟩ := Memory.kalloc_uses (m := { m with toHeap := h1 }) hu1
  rw [heq2]
  dsimp only
  obtain ⟨h3, l1Mmio, heq3, hu3⟩ := Memory.kalloc_uses (m := { m with toHeap := h2 }) hu2
  rw [heq3]
  cases l2 with
  | none => exact nofun
  | some l2 =>
    cases l1Dram with
    | none => exact nofun
    | some l1Dram =>
      cases l1Mmio with
      | none => exact nofun
      | some l1Mmio =>
        intro _
        have hused : h3.Uses layout ([l2, l1Dram, l1Mmio] ++ others) :=
          Heap.Uses.perm hu3 ((List.reverse_perm [l2, l1Dram, l1Mmio]).append_right others)
        obtain ⟨hl2, hdram, hmmio⟩ := vmInit_tables { m with toHeap := h3 } (fun p hp => by
            obtain ⟨-, hhi, hmod⟩ := hused.bounds (List.mem_append_left others hp)
            exact ⟨hmod, page_lt hhi⟩)
          (List.nodup_append.mp hused.pool.nodup_used).1
        exact ⟨hused, ⟨hl2, hdram, hmmio⟩, nofun⟩

end MiniOs.Kernel
