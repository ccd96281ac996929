import MiniOs.Proofs.AddressSpaces

/-!
# User programs reach their own pages

The kernel keeps two accounts of an address space: the list of mappings in `space`, by
which it copies to and from a process, and the page tables, by which the emulator
translates. `reach` is the first account, with the kernel's own pages beside it, and
`physical_reach` says that the second agrees with it, for every address and every mode.

In user mode the kernel's pages do not count, since none of them has the flag U, and
what is left are the mappings. Their pages are the process's own by the invariant.
-/

namespace MiniOs.Kernel

open MiniOs.Lib Function
open MiniOs.Cemu (Word)

variable {layout : Layout} {others : List Nat}

/-! ## What an address leads to -/

/-- The flags of the kernel's own pages, which are where their addresses say. -/
def kernelFlags (v : Nat) : Option Nat :=
  if 2 ^ 31 ≤ v ∧ v < 2 ^ 31 + 2 ^ 27 then some flagsKernel
  else if v / 2 ^ 21 = 16 ∨ 96 ≤ v / 2 ^ 21 ∧ v / 2 ^ 21 ≤ 128 then some flagsDevice
  else none

/-- The page an address leads to and its flags: below 2 MiB by the mappings. -/
def reach (space : AddressSpace) (v : Nat) : Option (Nat × Nat) :=
  if v < 2 ^ 21 then
    (mappingAt space v).map fun mapping => (mapping.page, mapping.flags ||| pteU ||| pteV)
  else (kernelFlags v).map fun flags => (v / pageSize * pageSize, flags)

/-- The tables of a space, by where they are. -/
def tablesOf (m : Memory) (space : AddressSpace) : Nat → TableFn := fun base =>
  if base = space.root then rootFn space.l1Mmio m.kernelL1Dram
  else if base = space.l1Mmio then update mmioFn 0 (some (space.l0User, flagsUserTable))
  else if base = space.l0User then userFn space
  else if base = m.kernelL1Dram then dramFn
  else fun _ => none

theorem mmioFn_some {j a f : Nat} (h : mmioFn j = some (a, f)) :
    f = flagsDevice ∧ a = j * 0x200000 ∧ (j = 0 ∨ j = 16 ∨ 96 ≤ j ∧ j ≤ 128) := by
  unfold mmioFn at h
  grind

theorem dramFn_some {j a f : Nat} (h : dramFn j = some (a, f)) :
    f = flagsKernel ∧ a = 0x80000000 + j * 0x200000 ∧ j < 64 := by
  unfold dramFn at h
  grind

theorem rootFn_some {mmio dram j a f : Nat} (h : rootFn mmio dram j = some (a, f)) :
    f = flagsTable ∧ (j = 0 ∧ a = mmio ∨ j = 2 ∧ a = dram) := by
  unfold rootFn at h
  grind

section Reach

variable {s : Spaces} {space : AddressSpace} (hok : s.Ok layout others)
  (hspace : space ∈ s.spaces)
include hok hspace

/-- The four tables of a space are in four pages. -/
theorem tables_ne :
    space.root ≠ space.l1Mmio ∧ space.root ≠ space.l0User ∧ space.l1Mmio ≠ space.l0User ∧
      ∀ p ∈ space.owned, p ≠ s.memory.kernelL1Dram := by
  have htables : [space.l0User, space.l1Mmio, space.root].Nodup :=
    (List.nodup_append.mp (owned_nodup hok hspace)).2.1
  simp only [List.nodup_cons, List.mem_cons, List.not_mem_nil, or_false, not_or] at htables
  refine ⟨fun h => htables.2.1 h.symm, fun h => htables.1.2 h.symm, fun h => htables.1.1 h.symm,
    fun p hp heq => ?_⟩
  have hdisjoint := (List.nodup_append.mp (List.nodup_append.mp hok.uses.pool.nodup_used).1).2.2
  exact hdisjoint p (List.mem_flatMap.mpr ⟨space, hspace, hp⟩) p
    (by rw [heq]; simp [kernelPages]) rfl

theorem tablesOf_eq :
    tablesOf s.memory space space.root = rootFn space.l1Mmio s.memory.kernelL1Dram ∧
      tablesOf s.memory space space.l1Mmio = update mmioFn 0 (some (space.l0User, flagsUserTable)) ∧
      tablesOf s.memory space space.l0User = userFn space ∧
      tablesOf s.memory space s.memory.kernelL1Dram = dramFn := by
  obtain ⟨hrm, hru, hmu, hdram⟩ := tables_ne hok hspace
  have hr := hdram space.root (by simp [AddressSpace.owned])
  have hm := hdram space.l1Mmio (by simp [AddressSpace.owned])
  have hu := hdram space.l0User (by simp [AddressSpace.owned])
  unfold tablesOf
  refine ⟨if_pos rfl, ?_, ?_, ?_⟩
  · rw [if_neg hrm.symm, if_pos rfl]
  · rw [if_neg hru.symm, if_neg hmu.symm, if_pos rfl]
  · rw [if_neg hr.symm, if_neg hm.symm, if_neg hu.symm, if_pos rfl]

/-- The table below the root, and what its entries are. -/
theorem second_cases {b j a f : Nat}
    (hb : b = space.l1Mmio ∨ b = s.memory.kernelL1Dram)
    (h : tablesOf s.memory space b j = some (a, f)) :
    j = 0 ∧ a = space.l0User ∧ f = flagsUserTable ∨
      (f = flagsDevice ∨ f = flagsKernel) ∧ a % 2 ^ 21 = 0 := by
  obtain ⟨-, hmmio, -, hdram⟩ := tablesOf_eq hok hspace
  rcases hb with rfl | rfl
  · rw [hmmio] at h
    by_cases hj : j = 0
    · subst hj
      rw [update_self] at h
      cases h
      exact .inl ⟨rfl, rfl, rfl⟩
    · rw [update_of_ne hj] at h
      obtain ⟨hf, ha, -⟩ := mmioFn_some h
      exact .inr ⟨.inl hf, by omega⟩
  · rw [hdram] at h
    obtain ⟨hf, ha, -⟩ := dramFn_some h
    exact .inr ⟨.inr hf, by omega⟩

/-- Every entry is valid and leads to a page. -/
theorem tablesOf_entry {b j a f : Nat} (h : tablesOf s.memory space b j = some (a, f)) :
    f.testBit 0 = true ∧ a % pageSize = 0 := by
  have halign : ∀ {p}, p ∈ s.pages → p % pageSize = 0 := fun hp =>
    hok.aligned (List.mem_append_left _ hp)
  have hown : ∀ {p}, p ∈ space.owned → p % pageSize = 0 := fun hp =>
    halign (Spaces.Ok.owned_mem hspace hp)
  unfold tablesOf at h
  split at h
  · obtain ⟨rfl, ⟨-, rfl⟩ | ⟨-, rfl⟩⟩ := rootFn_some h
    · exact ⟨rfl, hown (by simp [AddressSpace.owned])⟩
    · exact ⟨rfl, halign (Spaces.Ok.kernel_mem (by simp [kernelPages]))⟩
  split at h
  · by_cases hj : j = 0
    · subst hj
      rw [update_self] at h
      cases h
      exact ⟨rfl, hown (by simp [AddressSpace.owned])⟩
    · rw [update_of_ne hj] at h
      obtain ⟨rfl, rfl, -⟩ := mmioFn_some h
      exact ⟨rfl, by unfold pageSize; omega⟩
  · split at h
    · obtain ⟨mapping, hmapping, heq⟩ := Option.map_eq_some_iff.mp h
      cases heq
      refine ⟨by simp [pteV], hown ?_⟩
      exact List.mem_append_left _ (List.mem_map_of_mem (mappingAt_mem hmapping).1)
    · split at h
      · obtain ⟨rfl, rfl, -⟩ := dramFn_some h
        exact ⟨rfl, by unfold pageSize; omega⟩
      · cases h

theorem space_tree : Tree s.memory.ram (tablesOf s.memory space) space.root := by
  obtain ⟨hroot, hmmio, huser, hdram⟩ := tablesOf_eq hok hspace
  have htables := hok.spaces space hspace
  have hin : ∀ p ∈ space.owned, InRam p := fun p hp =>
    inRam hok (Spaces.Ok.owned_mem hspace hp)
  have hindram : InRam s.memory.kernelL1Dram :=
    inRam hok (Spaces.Ok.kernel_mem (by simp [kernelPages]))
  have hsecond : ∀ {i b f}, tablesOf s.memory space space.root i = some (b, f) →
      b = space.l1Mmio ∨ b = s.memory.kernelL1Dram := by
    intro i b f h
    rw [hroot] at h
    obtain ⟨-, ⟨-, hb⟩ | ⟨-, hb⟩⟩ := rootFn_some h
    · exact .inl hb
    · exact .inr hb
  refine ⟨hin _ (by simp [AddressSpace.owned]), ?_, ?_, ?_, ?_, ?_, ?_⟩
  · rw [hroot]
    exact htables.root
  · intro i b f h _
    rcases hsecond h with rfl | rfl
    · rw [hmmio]
      exact ⟨hin _ (by simp [AddressSpace.owned]), htables.l1Mmio⟩
    · rw [hdram]
      exact ⟨hindram, hok.kernel.l1Dram⟩
  · intro i b f j a g h _ h' hleaf
    obtain ⟨-, rfl, -⟩ | ⟨rfl | rfl, -⟩ := second_cases hok hspace (hsecond h) h'
    · rw [huser]
      exact ⟨hin _ (by simp [AddressSpace.owned]), htables.l0User⟩
    · cases hleaf
    · cases hleaf
  · intro i b f j a g h _ h' hleaf
    obtain ⟨-, -, rfl⟩ | ⟨-, ha⟩ := second_cases hok hspace (hsecond h) h'
    · cases hleaf
    · exact ha
  · intro b j a f h
    exact (tablesOf_entry hok hspace h).1
  · intro b j a f h
    exact (tablesOf_entry hok hspace h).2

omit hok hspace in
/-- A large page of the devices leads where its address says. -/
theorem mmio_reach {x : Nat} (hlo : 2 ^ 21 ≤ x) (hhi : x < 2 ^ 30) :
    (match mmioFn (x / 2 ^ 21) with
      | none => none
      | some (a, g) =>
        if isLeaf g then some (a + x / 2 ^ 12 % 512 * pageSize, g)
        else tablesOf s.memory space a (x / 2 ^ 12 % 512)) =
      (kernelFlags x).map fun flags => (x / pageSize * pageSize, flags) := by
  cases hfn : mmioFn (x / 2 ^ 21) with
  | none =>
    have hnone : kernelFlags x = none := by
      unfold kernelFlags
      rw [if_neg (by omega), if_neg ?_]
      intro hdevice
      unfold mmioFn at hfn
      grind
    rw [hnone]
    rfl
  | some p =>
    obtain ⟨a, g⟩ := p
    obtain ⟨rfl, rfl, hj⟩ := mmioFn_some hfn
    have hflags : kernelFlags x = some flagsDevice := by
      unfold kernelFlags
      rw [if_neg (by omega), if_pos (by omega)]
    have hleaf : isLeaf flagsDevice = true := rfl
    have hpage : x / 2 ^ 21 * 0x200000 + x / 2 ^ 12 % 512 * pageSize = x / pageSize * pageSize := by
      unfold pageSize
      omega
    dsimp only
    rw [if_pos hleaf, hflags, hpage]
    rfl

omit hok hspace in
/-- The same of DRAM. -/
theorem dram_reach {x : Nat} (hlo : 2 ^ 31 ≤ x) (hhi : x < 3 * 2 ^ 30) :
    (match dramFn (x / 2 ^ 21 % 512) with
      | none => none
      | some (a, g) =>
        if isLeaf g then some (a + x / 2 ^ 12 % 512 * pageSize, g)
        else tablesOf s.memory space a (x / 2 ^ 12 % 512)) =
      (kernelFlags x).map fun flags => (x / pageSize * pageSize, flags) := by
  unfold kernelFlags dramFn
  by_cases hin : x < 2 ^ 31 + 2 ^ 27
  · have hleaf : isLeaf flagsKernel = true := rfl
    have hpage : 0x80000000 + x / 2 ^ 21 % 512 * 0x200000 + x / 2 ^ 12 % 512 * pageSize =
        x / pageSize * pageSize := by
      unfold pageSize
      omega
    rw [if_pos (by omega), if_pos ⟨hlo, hin⟩]
    dsimp only
    rw [if_pos hleaf, hpage]
    rfl
  · rw [if_neg (by omega), if_neg (by omega), if_neg (by omega)]
    rfl

/-- The walk, read off the list of mappings. -/
theorem walkTables_eq (v : Word) :
    walkTables (tablesOf s.memory space) space.root (index2 v) (index1 v) (index0 v) =
      reach space (v.toNat % 2 ^ 39) := by
  obtain ⟨hroot, hmmio, huser, hdram⟩ := tablesOf_eq hok hspace
  obtain ⟨x, hx⟩ : ∃ x, x = v.toNat % 2 ^ 39 := ⟨_, rfl⟩
  have h2 : index2 v = x / 2 ^ 30 := by unfold index2; omega
  have h1 : index1 v = x / 2 ^ 21 % 512 := by unfold index1; omega
  have h0 : index0 v = x / 2 ^ 12 % 512 := by unfold index0; omega
  have htable : isLeaf flagsTable = false := rfl
  unfold walkTables reach
  rw [hroot, h2, h1, h0, ← hx]
  unfold rootFn
  by_cases hfirst : x / 2 ^ 30 = 0
  · rw [if_pos hfirst]
    simp only [htable, Bool.false_eq_true, if_false]
    rw [hmmio]
    by_cases hlow : x < 2 ^ 21
    · have hzero : x / 2 ^ 21 % 512 = 0 := by omega
      have huserTable : isLeaf flagsUserTable = false := rfl
      rw [hzero, update_self, if_pos hlow]
      simp only [huserTable, Bool.false_eq_true, if_false]
      have hpage : x / 2 ^ 12 % 512 * pageSize = x / pageSize * pageSize := by
        unfold pageSize
        omega
      rw [huser, userFn, hpage, mappingAt_page]
    · have hne : x / 2 ^ 21 % 512 ≠ 0 := by omega
      have hmod : x / 2 ^ 21 % 512 = x / 2 ^ 21 := by omega
      rw [update_of_ne hne, if_neg hlow, hmod]
      exact mmio_reach (by omega) (by omega)
  · rw [if_neg hfirst]
    by_cases hsecond : x / 2 ^ 30 = 2
    · rw [if_pos hsecond, if_neg (by omega)]
      simp only [htable, Bool.false_eq_true, if_false]
      rw [hdram]
      exact dram_reach (by omega) (by omega)
    · have hnone : kernelFlags x = none := by
        unfold kernelFlags
        rw [if_neg (by omega), if_neg (by omega)]
      rw [if_neg hsecond, if_neg (by omega), hnone]
      rfl

/-- The emulator's translation, read off the list of mappings. -/
theorem physical_reach {csrs : Cemu.Csr} (hsatp : csrs.load Cemu.SATP = space.satp) (v : Word)
    (type : Cemu.AccessType) (mode : Word) :
    Cemu.Mmu.physical csrs (dramOf s.memory.ram) v type mode =
      match reach space (v.toNat % 2 ^ 39) with
      | none => none
      | some (page, flags) =>
        if allows flags type mode then some (BitVec.ofNat 64 (page + v.toNat % pageSize))
        else none := by
  rw [(hok.spaces space hspace).satp] at hsatp
  refine (physical_eq (space_tree hok hspace) hsatp v type mode).trans ?_
  have hwalk := walkTables_eq hok hspace v
  generalize walkTables (tablesOf s.memory space) space.root (index2 v) (index1 v) (index0 v) =
    found at hwalk ⊢
  subst hwalk
  cases reach space (v.toNat % 2 ^ 39) <;> rfl

/-- In user mode the mappings are all there is. -/
theorem physical_user {csrs : Cemu.Csr} (hsatp : csrs.load Cemu.SATP = space.satp) {v : Word}
    (hv : v.toNat < 2 ^ 39) (type : Cemu.AccessType) (p : Word) :
    Cemu.Mmu.physical csrs (dramOf s.memory.ram) v type Cemu.modeUser = some p ↔
      ∃ mapping, mappingAt space v.toNat = some mapping ∧
        mapping.flags.testBit (accessBit type) = true ∧
        p = BitVec.ofNat 64 (mapping.page + v.toNat % pageSize) := by
  have htables := hok.spaces space hspace
  have hbit : 0 < accessBit type ∧ accessBit type < 4 := by cases type <;> decide
  rw [physical_reach hok hspace hsatp, Nat.mod_eq_of_lt hv]
  unfold reach
  by_cases hlow : v.toNat < 2 ^ 21
  · rw [if_pos hlow]
    cases hfind : mappingAt space v.toNat with
    | none => exact iff_of_false nofun nofun
    | some mapping =>
      obtain ⟨-, -, huser, hkeep⟩ := (htables.mapped _ (mappingAt_mem hfind).1).2.entry
      have hallows : allows (mapping.flags ||| pteU ||| pteV) type Cemu.modeUser ↔
          mapping.flags.testBit (accessBit type) = true := by
        unfold allows
        rw [hkeep _ hbit.1 hbit.2, huser]
        exact and_iff_left fun _ => rfl
      dsimp only [Option.map_some]
      by_cases hflag : mapping.flags.testBit (accessBit type) = true
      · rw [if_pos (hallows.mpr hflag)]
        constructor
        · intro h
          exact ⟨mapping, rfl, hflag, (Option.some.inj h).symm⟩
        · rintro ⟨mapping', heq, -, rfl⟩
          cases heq
          rfl
      · rw [if_neg fun h => hflag (hallows.mp h)]
        refine iff_of_false nofun ?_
        rintro ⟨mapping', heq, hflag', -⟩
        cases heq
        exact hflag hflag'
  · -- the kernel's pages are not for users, and mappings end at 2 MiB
    rw [if_neg hlow]
    have hnone : mappingAt space v.toNat = none := by
      cases hfind : mappingAt space v.toNat with
      | none => rfl
      | some mapping =>
        obtain ⟨hmem, hva⟩ := mappingAt_mem hfind
        have htop := (htables.mapped _ hmem).1
        rw [hva] at htop
        unfold userStackTop at htop
        unfold pageSize at htop
        omega
    rw [hnone]
    refine iff_of_false (fun h => ?_) nofun
    cases hflags : kernelFlags v.toNat with
    | none => rw [hflags] at h; cases h
    | some flags =>
      rw [hflags] at h
      have hkernel : flags = flagsKernel ∨ flags = flagsDevice := by
        unfold kernelFlags at hflags
        grind
      have hdenied : ¬ allows flags type Cemu.modeUser := by
        rintro ⟨-, huser⟩
        have hu := huser rfl
        rcases hkernel with rfl | rfl <;> cases hu
      dsimp only [Option.map_some] at h
      rw [if_neg hdenied] at h
      cases h

end Reach

/-- A page of a space is nobody else's. -/
theorem owned_foreign {s : Spaces} (hok : s.Ok layout others) {i : Nat} {space : AddressSpace}
    (hi : s.spaces[i]? = some space) {q : Nat} (hq : q ∈ space.owned) :
    q ∉ kernelPages s.memory ++ others ∧
      ∀ j space', j ≠ i → s.spaces[j]? = some space' → q ∉ space'.owned := by
  obtain ⟨before, after, hsplit, hlength, -, -⟩ := split_at hi
  have hnodup := hok.uses.pool.nodup_used
  unfold Spaces.pages at hnodup
  rw [List.append_assoc] at hnodup
  obtain ⟨hspaces, -, hrest⟩ := List.nodup_append.mp hnodup
  have hmem : q ∈ s.spaces.flatMap AddressSpace.owned :=
    List.mem_flatMap.mpr ⟨space, List.mem_of_getElem? hi, hq⟩
  refine ⟨fun hin => hrest q hmem q hin rfl, fun j space' hji hj hq' => ?_⟩
  rw [hsplit, List.flatMap_append, List.flatMap_cons] at hspaces
  obtain ⟨-, hcons, hbefore⟩ := List.nodup_append.mp hspaces
  obtain ⟨-, -, hafter⟩ := List.nodup_append.mp hcons
  rw [hsplit] at hj
  by_cases hlt : j < before.length
  · rw [List.getElem?_append_left hlt] at hj
    exact hbefore q (List.mem_flatMap.mpr ⟨space', List.mem_of_getElem? hj, hq'⟩) q
      (List.mem_append_left _ hq) rfl
  · obtain ⟨k, hk⟩ : ∃ k, j - before.length = k + 1 := ⟨j - before.length - 1, by omega⟩
    rw [List.getElem?_append_right (Nat.not_lt.mp hlt), hk, List.getElem?_cons_succ] at hj
    exact hafter q hq q (List.mem_flatMap.mpr ⟨space', List.mem_of_getElem? hj, hq'⟩) rfl

/-- A run from the kernel's own tables. -/
def Spaces.after (m : Memory) (events : List SpaceEvent) : Spaces :=
  run Spaces.step ⟨(vmInit m).1, []⟩ events

/-- After any history, a user-mode access goes through just where the kernel has a
mapping that allows it, and ends in the page of that mapping: a page of the heap that
is no page table and no page of the kernel or of another space. -/
theorem user_access_isolated {m : Memory} (hheap : m.Uses layout others) {satp : Word}
    (hvm : (vmInit m).2 = some satp) (events : List SpaceEvent) {i : Nat} {space : AddressSpace}
    (hi : (Spaces.after m events).spaces[i]? = some space) {csrs : Cemu.Csr}
    (hsatp : csrs.load Cemu.SATP = space.satp) {v : Word} (hv : v.toNat < 2 ^ 39)
    (type : Cemu.AccessType) (p : Word) :
    let s := Spaces.after m events
    let translated := Cemu.Mmu.physical csrs (dramOf s.memory.ram) v type Cemu.modeUser
    (translated = some p ↔ ∃ mapping, mappingAt space v.toNat = some mapping ∧
        mapping.flags.testBit (accessBit type) = true ∧
        p = BitVec.ofNat 64 (mapping.page + v.toNat % pageSize)) ∧
    (translated = some p → (layout.kernelEnd ≤ p.toNat ∧ p.toNat < heapTop) ∧
      p.toNat / pageSize * pageSize ∉ kernelPages s.memory ++ others ∧
      (∀ space' ∈ s.spaces,
        p.toNat / pageSize * pageSize ∉ [space'.l0User, space'.l1Mmio, space'.root]) ∧
      ∀ j space', j ≠ i → s.spaces[j]? = some space' →
        p.toNat / pageSize * pageSize ∉ space'.owned) := by
  intro s translated
  have hok : s.Ok layout others := run_ok (vmInit_ok hheap hvm) events
  have hspace : space ∈ s.spaces := List.mem_of_getElem? hi
  have hiff := physical_user hok hspace hsatp hv type p
  refine ⟨hiff, fun htranslated => ?_⟩
  obtain ⟨mapping, hfind, -, rfl⟩ := hiff.mp htranslated
  have hpage : mapping.page ∈ space.pages.map Mapping.page :=
    List.mem_map_of_mem (mappingAt_mem hfind).1
  have hown : mapping.page ∈ space.owned := List.mem_append_left _ hpage
  obtain ⟨hlo, hhi, hmod⟩ :=
    hok.uses.bounds (List.mem_append_left _ (Spaces.Ok.owned_mem hspace hown))
  have htop : heapTop < 2 ^ 64 := by decide
  have haddr : (BitVec.ofNat 64 (mapping.page + v.toNat % pageSize)).toNat =
      mapping.page + v.toNat % pageSize := by
    rw [BitVec.toNat_ofNat]
    unfold pageSize at *
    omega
  have hbase : (mapping.page + v.toNat % pageSize) / pageSize * pageSize = mapping.page := by
    unfold pageSize at *
    omega
  obtain ⟨hkernel, hforeign⟩ := owned_foreign hok hi hown
  rw [haddr, hbase]
  refine ⟨⟨by omega, by unfold pageSize at *; omega⟩, hkernel, fun space' hspace' htable => ?_,
    hforeign⟩
  obtain ⟨j, hj⟩ := List.mem_iff_getElem?.mp hspace'
  by_cases hji : j = i
  · -- its own tables are other pages too
    rw [hji, hi] at hj
    cases hj
    exact (List.nodup_append.mp (owned_nodup hok hspace)).2.2 _ hpage _ htable rfl
  · exact hforeign j space' hji hj (List.mem_append_right _ htable)

/-- A kernel of three megabytes, and memory as it is before `vm_init`. -/
def sampleLayout : Layout where
  kernelEnd := 0x80500000
  taskStacks := 0x80300000
  start_le := by decide
  end_le := by decide
  stacks_in := by decide

def sampleMemory : Memory :=
  { toHeap := memInit sampleLayout, ram := Region.zero, kernelL2 := 0, kernelL1Dram := 0,
    kernelL1Mmio := 0 }

-- two spaces with the same page mapped, the second one read-only
theorem user_access_isolated_two :
    let events : List SpaceEvent :=
      [.create, .create, .map 0 0x10000 true true false, .map 1 0x10000 true false false]
    let s := Spaces.after sampleMemory events
    ∃ space, s.spaces[1]? = some space ∧
      Cemu.Mmu.physical (fun _ => space.satp) (dramOf s.memory.ram) 0x10008 .load
        Cemu.modeUser = some 0x8050a008 ∧
      Cemu.Mmu.physical (fun _ => space.satp) (dramOf s.memory.ram) 0x10008 .store
        Cemu.modeUser = none := by
  intro events s
  obtain ⟨space, hspace⟩ : ∃ space : AddressSpace, space =
      ⟨0x80506000, 0x80507000, 0x80508000, [⟨0x10000, 0x8050a000, 2⟩], satpOf 0x80506000⟩ := ⟨_, rfl⟩
  have hi : s.spaces[1]? = some space := by rw [hspace]; rfl
  have hfind : mappingAt space 0x10008 = some ⟨0x10000, 0x8050a000, 2⟩ := by rw [hspace]; decide
  have hv : (0x10008 : Word).toNat = 0x10008 := rfl
  have hvm : (vmInit sampleMemory).2 = some (satpOf 0x80500000) := rfl
  have h : ∀ type p, Cemu.Mmu.physical (fun _ => space.satp) (dramOf s.memory.ram) 0x10008 type
      Cemu.modeUser = some p ↔ _ := fun type p =>
    (user_access_isolated (memInit_uses sampleLayout) hvm events hi rfl (by decide) type p).1
  refine ⟨space, hi, (h .load _).mpr ⟨_, hfind, by decide, by decide⟩, ?_⟩
  refine Option.eq_none_iff_forall_ne_some.mpr fun p hp => ?_
  obtain ⟨mapping, hfound, hflag, -⟩ := (h .store p).mp hp
  rw [hv, hfind] at hfound
  cases hfound
  revert hflag
  decide

/-- One space with one writable page, at 0x10000. -/
def onePageEvents : List SpaceEvent := [.create, .map 0 0x10000 true true false]

def onePageSpace : AddressSpace :=
  ⟨0x80503000, 0x80504000, 0x80505000, [⟨0x10000, 0x80506000, 6⟩], satpOf 0x80503000⟩

theorem onePageSpace_mem :
    onePageSpace ∈ (Spaces.after sampleMemory onePageEvents).spaces := by
  have hspaces : (Spaces.after sampleMemory onePageEvents).spaces = [onePageSpace] := rfl
  rw [hspaces]
  exact List.mem_singleton_self _

end MiniOs.Kernel
