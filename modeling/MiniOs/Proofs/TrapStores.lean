import MiniOs.Kernel.TrapStores
import MiniOs.Proofs.Reach

/-!
# Where a trap stores

Before it knows whose stack it is on, `trap_entry` saves `t0` below the stack pointer
of whoever was interrupted. The processor is in supervisor mode by then, and the flag U
of a page stops user programs but not the supervisor: the store goes through wherever
the kernel itself could write. All later stores go to the frame at the top of the
task's kernel stack, by way of `sscratch`.

So the question is one about `sp - 16`. The kernel's pages are where their addresses
say, which makes the answer a matter of numbers; the MMU drops the bits of an address
above the 39th.
-/

namespace MiniOs.Kernel

open MiniOs.Lib
open MiniOs.Cemu (Cpu Outcome)

/-- `TASK_KERNEL_STACK_SIZE`. -/
def taskKernelStackSize : Nat := 4 * pageSize

/-- `task_stacks[slot]`. -/
def kernelStack (layout : Layout) (slot : Fin 16) : Nat :=
  layout.taskStacks + slot.val * taskKernelStackSize

theorem kernelStack_bounds (layout : Layout) (slot : Fin 16) :
    kernelStart ≤ kernelStack layout slot ∧
      kernelStack layout slot + taskKernelStackSize ≤ layout.kernelEnd := by
  have hstacks := layout.stacks_in
  have hslot := slot.isLt
  unfold kernelStack taskKernelStackSize
  unfold pageSize at *
  omega

/-- The byte is one of the task's kernel stack, or of a page mapped writable. -/
def Own (space : AddressSpace) (stack b : Nat) : Prop :=
  (stack ≤ b ∧ b < stack + taskKernelStackSize) ∨
    ∃ mapping ∈ space.pages, mapping.flags.testBit 2 = true ∧
      mapping.page ≤ b ∧ b < mapping.page + pageSize

/-- Eight bytes. -/
def OwnDword (space : AddressSpace) (stack a : Nat) : Prop := ∀ k, k < 8 → Own space stack (a + k)

/-- The addresses of devices that take a doubleword: `mtimecmp`, `mtime`, the sector
number and the data window of the block device. -/
def TakesDword (x : Nat) : Prop :=
  x = 0x2004000 ∨ x = 0x200bff8 ∨ x = 0x10001000 ∨ 0x10001100 ≤ x ∧ x ≤ 0x100012f8

/-- What the stack pointer has to be for the first store to be harmless. -/
def SafeSp (space : AddressSpace) (stack : Nat) (sp : Word) : Prop :=
  let x := (sp - 16).toNat % 2 ^ 39
  if x < 2 ^ 21 then
    ∀ mapping, mappingAt space x = some mapping → mapping.flags.testBit 2 = true →
      OwnDword space stack (mapping.page + x % pageSize)
  else if 2 ^ 31 ≤ x ∧ x < 2 ^ 31 + 2 ^ 27 then
    x + 8 ≤ 2 ^ 31 + 2 ^ 27 → OwnDword space stack x
  else ¬ TakesDword x

variable {layout : Layout} {others : List Nat} {s : Spaces} {space : AddressSpace}

/-! ## Own bytes are in no table -/

/-- The pages that hold tables. -/
def Spaces.IsTable (s : Spaces) (base : Nat) : Prop :=
  base ∈ kernelPages s.memory ∨ ∃ space ∈ s.spaces, base ∈ [space.l0User, space.l1Mmio, space.root]

/-- The invariant is one about tables. -/
theorem Spaces.Ok.of_ram {ram : Region} (hok : s.Ok layout others)
    (hsame : ∀ base, s.IsTable base → ∀ i, base ≤ i → i < base + pageSize →
      ram i = s.memory.ram i) :
    Spaces.Ok layout others ⟨{ s.memory with ram := ram }, s.spaces⟩ := by
  have hkeep : ∀ {base t}, s.IsTable base → Table s.memory.ram base t → Table ram base t :=
    fun hbase ht => ht.congr (hsame _ hbase)
  have hk : ∀ {base}, base ∈ kernelPages s.memory → s.IsTable base := Or.inl
  obtain ⟨hl2, hdram, hmmio⟩ := hok.kernel
  have hl2' := hkeep (hk (by simp [kernelPages])) hl2
  have hdram' := hkeep (hk (by simp [kernelPages])) hdram
  have hmmio' := hkeep (hk (by simp [kernelPages])) hmmio
  refine ⟨hok.uses, ⟨hl2', hdram', hmmio'⟩, fun space hspace => ?_⟩
  have htables := hok.spaces space hspace
  have hs : ∀ {base}, base ∈ [space.l0User, space.l1Mmio, space.root] → s.IsTable base :=
    fun h => .inr ⟨space, hspace, h⟩
  have hroot := hkeep (hs (by simp)) htables.root
  exact ⟨htables.satp, hroot, hkeep (hs (by simp)) htables.l1Mmio,
    hkeep (hs (by simp)) htables.l0User, htables.mapped⟩

/-- A table is a page of the pool. -/
theorem Spaces.Ok.table_mem {base : Nat} (hbase : s.IsTable base) : base ∈ s.pages := by
  obtain hk | ⟨space, hspace, hmem⟩ := hbase
  · exact kernel_mem hk
  · exact owned_mem hspace (List.mem_append_right _ hmem)

variable {stack : Nat} {cpu' : Cpu} {a : Word}

/-! ## The processor in the kernel -/

theorem dramOf_regionOf (dram : Ram) (ram : Region) : dramOf (regionOf dram ram) = dram := by
  funext a
  unfold dramOf regionOf
  rw [if_pos a.isLt, BitVec.ofNat_toNat, BitVec.setWidth_eq]

/-- The states with other contents of memory. -/
def Spaces.withDram (s : Spaces) (dram : Ram) : Spaces :=
  { s with memory := { s.memory with ram := regionOf dram s.memory.ram } }

/-- Supervisor mode, on the tables of one of the spaces, with a stack in the kernel's image. -/
structure InKernel (layout : Layout) (others : List Nat) (s : Spaces) (space : AddressSpace)
    (stack : Nat) (cpu : Cpu) : Prop where
  mode : cpu.mode = Cemu.modeSupervisor
  satp : cpu.csr.load Cemu.SATP = space.satp
  ok : (s.withDram cpu.bus.dram).Ok layout others
  mem : space ∈ s.spaces
  low : kernelStart ≤ stack
  high : stack + taskKernelStackSize ≤ layout.kernelEnd

variable {cpu : Cpu}

namespace InKernel

variable (h : InKernel layout others s space stack cpu)
include h

/-- The pages of a space are memory, and so is the kernel's stack. -/
theorem own_bounds {b : Nat} (hown : Own space stack b) : kernelStart ≤ b ∧ b < heapTop := by
  have hlow := h.low
  have hhigh := h.high
  obtain ⟨hbase, htop⟩ | ⟨mapping, hmapping, -, hle, hlt⟩ := hown
  · have hend := layout.end_le
    unfold heapTop
    unfold pageSize at *
    omega
  · have hpage : mapping.page ∈ space.owned :=
      List.mem_append_left _ (List.mem_map_of_mem hmapping)
    obtain ⟨hlo, hhi, -⟩ :=
      h.ok.uses.bounds (List.mem_append_left others (Spaces.Ok.owned_mem h.mem hpage))
    have hstart := layout.start_le
    omega

theorem own_not_table {b base : Nat} (hown : Own space stack b) (hbase : s.IsTable base) :
    b < base ∨ base + pageSize ≤ b := by
  have hhigh := h.high
  have hok := h.ok
  have hpages := Spaces.Ok.table_mem hbase
  obtain ⟨hlo, -, hmod⟩ := hok.uses.bounds (List.mem_append_left others hpages)
  obtain ⟨-, htop⟩ | ⟨mapping, hmapping, -, hle, hlt⟩ := hown
  · exact .inl (by omega)
  have hpage : mapping.page ∈ space.pages.map Mapping.page := List.mem_map_of_mem hmapping
  have hown : mapping.page ∈ space.owned := List.mem_append_left _ hpage
  have hmodp := hok.aligned (List.mem_append_left others (Spaces.Ok.owned_mem h.mem hown))
  have hne : mapping.page ≠ base := by
    rintro rfl
    obtain ⟨i, hi⟩ := List.mem_iff_getElem?.mp h.mem
    obtain ⟨hkernel, hforeign⟩ := owned_foreign hok hi hown
    obtain hk | ⟨space', hspace', hmem⟩ := hbase
    · exact hkernel (List.mem_append_left _ hk)
    · obtain ⟨j, hj⟩ := List.mem_iff_getElem?.mp hspace'
      by_cases hji : j = i
      · rw [hji, hi] at hj
        cases hj
        exact (List.nodup_append.mp (owned_nodup hok h.mem)).2.2 _ hpage _ hmem rfl
      · exact hforeign j space' hji hj (List.mem_append_right _ hmem)
  have hapart := Pool.apart hmodp hmod hne
  omega

theorem physical (v : Word) (type : Cemu.AccessType) :
    cpu.physical v type =
      match reach space (v.toNat % 2 ^ 39) with
      | none => none
      | some (page, flags) =>
        if flags.testBit (accessBit type) = true then
          some (BitVec.ofNat 64 (page + v.toNat % pageSize))
        else none := by
  have hreach := physical_reach h.ok h.mem h.satp v type cpu.mode
  have hdram : dramOf (s.withDram cpu.bus.dram).memory.ram = cpu.bus.dram := dramOf_regionOf _ _
  rw [hdram] at hreach
  unfold Cpu.physical
  rw [hreach]
  cases reach space (v.toNat % 2 ^ 39) with
  | none => rfl
  | some p =>
    obtain ⟨page, flags⟩ := p
    dsimp only
    have hmode : ¬ cpu.mode = Cemu.modeUser := by rw [h.mode]; decide
    have hallows : allows flags type cpu.mode ↔ flags.testBit (accessBit type) = true := by
      exact and_iff_left fun hu => absurd hu hmode
    by_cases hbit : flags.testBit (accessBit type) = true
    · rw [if_pos (hallows.mpr hbit), if_pos hbit]
    · rw [if_neg fun ha => hbit (hallows.mp ha), if_neg hbit]

/-- Marks change nothing. -/
theorem translated (v : Word) (type : Cemu.AccessType) :
    InKernel layout others s space stack (cpu.translate v type).2 := by
  refine ⟨h.mode, h.satp, ?_, h.mem, h.low, h.high⟩
  have hmarks := access_ok h.ok cpu.csr v type cpu.mode
  have hdram : dramOf (s.withDram cpu.bus.dram).memory.ram = cpu.bus.dram := dramOf_regionOf _ _
  have hram : regionOf (Cemu.Mmu.translate cpu.csr cpu.bus.dram v type cpu.mode).2
      (s.withDram cpu.bus.dram).memory.ram =
      regionOf (Cemu.Mmu.translate cpu.csr cpu.bus.dram v type cpu.mode).2 s.memory.ram := by
    funext a
    unfold Spaces.withDram regionOf
    dsimp only
    split <;> rfl
  unfold Spaces.step at hmarks
  dsimp only at hmarks
  rw [hdram, hram] at hmarks
  exact hmarks

/-- Neither does a doubleword in bytes of the process. -/
theorem stored {p : Word} (hown : OwnDword space stack p.toNat) (value : Word)
    (hmode : cpu'.mode = cpu.mode) (hcsr : cpu'.csr = cpu.csr)
    (hdram : cpu'.bus.dram = cpu.bus.dram.storeLe p 8 value) :
    InKernel layout others s space stack cpu' := by
  refine ⟨hmode.trans h.mode, by rw [hcsr]; exact h.satp, ?_, h.mem, h.low, h.high⟩
  have hsame : ∀ base, (s.withDram cpu.bus.dram).IsTable base → ∀ i, base ≤ i →
      i < base + pageSize → regionOf cpu'.bus.dram s.memory.ram i =
        (s.withDram cpu.bus.dram).memory.ram i := ?_
  · exact h.ok.of_ram hsame
  intro base hbase i hlo hhi
  unfold Spaces.withDram regionOf
  dsimp only
  split
  · next hi =>
    rw [hdram]
    refine Ram.storeLe_out ?_
    by_contra hin
    -- the byte is one of the eight
    have hk : (BitVec.ofNat 64 i - p).toNat < 8 := by omega
    have hbyte : p.toNat + (BitVec.ofNat 64 i - p).toNat = i ∨
        2 ^ 64 ≤ p.toNat + (BitVec.ofNat 64 i - p).toNat := by
      bv_omega
    have hout := h.own_not_table (hown _ hk) hbase
    have hlt := (h.own_bounds (hown _ hk)).2
    have htop : heapTop < 2 ^ 64 := by decide
    omega
  · rfl

end InKernel

/-! ## One instruction -/

theorem ok_of_map {α β : Type} {x : Except Cemu.Exception α} {f : α → β} {y : β}
    (h : x.map f = .ok y) : ∃ a, x = .ok a ∧ f a = y := by
  cases x with
  | error e => cases h
  | ok a => exact ⟨a, rfl, Except.ok.inj h⟩

theorem clint_takes (c : Cemu.Clint) (a value : Word) :
    (∃ c', c.store a 64 value = .ok c') ↔ a.toNat = 0x2004000 ∨ a.toNat = 0x200bff8 := by
  have hcmp : a = Cemu.clintMtimecmp ↔ a.toNat = 0x2004000 := BitVec.toNat_inj.symm
  have htime : a = Cemu.clintMtime ↔ a.toNat = 0x200bff8 := BitVec.toNat_inj.symm
  rw [← hcmp, ← htime]
  unfold Cemu.Clint.store
  rw [if_neg (by decide)]
  by_cases hc : a = Cemu.clintMtimecmp
  · rw [if_pos hc]
    exact iff_of_true ⟨_, rfl⟩ (.inl hc)
  · rw [if_neg hc]
    by_cases ht : a = Cemu.clintMtime
    · rw [if_pos ht]
      exact iff_of_true ⟨_, rfl⟩ (.inr ht)
    · rw [if_neg ht]
      exact iff_of_false nofun (not_or.mpr ⟨hc, ht⟩)

theorem block_takes (d : Cemu.BlockDevice) (hhi : a ≤ 0x100012ff) (value : Word) :
    (∃ d', d.store a 64 value = .ok d') ↔
      a.toNat = 0x10001000 ∨ 0x10001100 ≤ a.toNat ∧ a.toNat ≤ 0x100012f8 := by
  have hsector : a - Cemu.blockBase = Cemu.regSector ↔ a.toNat = 0x10001000 := by
    unfold Cemu.blockBase Cemu.regSector
    bv_omega
  have hwindow : a - Cemu.blockBase ≥ Cemu.dataWindow ∧
      a - Cemu.blockBase - Cemu.dataWindow + BitVec.ofNat 64 (64 / 8) ≤ 512 ↔
        0x10001100 ≤ a.toNat ∧ a.toNat ≤ 0x100012f8 := by
    unfold Cemu.blockBase Cemu.dataWindow
    bv_omega
  have hcommand : ¬ (a - Cemu.blockBase = Cemu.regCommand ∧ 64 = 32) := nofun
  rw [← hsector, ← hwindow]
  unfold Cemu.BlockDevice.store
  rw [if_neg (by decide)]
  by_cases hs : a - Cemu.blockBase = Cemu.regSector
  · rw [if_pos ⟨hs, rfl⟩]
    exact iff_of_true ⟨_, rfl⟩ (.inl hs)
  · rw [if_neg fun h => hs h.1, if_neg hcommand]
    split
    · next hw => exact iff_of_true ⟨_, rfl⟩ (.inr hw)
    · next hw => exact iff_of_false nofun (not_or.mpr ⟨hs, hw⟩)

/-- Memory takes a doubleword that ends in it. -/
theorem dram_takes {x : Nat} (hlo : 2 ^ 31 ≤ x) (hhi : x < 2 ^ 31 + 2 ^ 27) (b : Cemu.Bus)
    (value : Word) :
    (∃ b', b.store (BitVec.ofNat 64 x) 64 value = .ok b') ↔ x + 8 ≤ 2 ^ 31 + 2 ^ 27 := by
  have haddr : (BitVec.ofNat 64 x).toNat = x := by
    rw [BitVec.toNat_ofNat]
    omega
  generalize BitVec.ofNat 64 x = a at haddr
  have hin : Cemu.InDram a := by
    rw [Cemu.inDram_iff]
    unfold Cemu.dramBase Cemu.dramEnd
    bv_omega
  rw [Cemu.Bus.store_dram hin rfl]
  unfold Cemu.dramBase Cemu.dramSize
  split
  · next hover => exact iff_of_false nofun (by bv_omega)
  · next hbound => exact iff_of_true ⟨_, rfl⟩ (by bv_omega)

theorem device_takes {x : Nat} (hx : x / 2 ^ 21 = 16 ∨ 96 ≤ x / 2 ^ 21 ∧ x / 2 ^ 21 ≤ 128)
    (b : Cemu.Bus) (value : Word) :
    (∃ b', b.store (BitVec.ofNat 64 x) 64 value = .ok b') ↔ TakesDword x := by
  have haddr : (BitVec.ofNat 64 x).toNat = x := by
    rw [BitVec.toNat_ofNat]
    omega
  generalize BitVec.ofNat 64 x = a at haddr
  unfold TakesDword Cemu.Bus.store Cemu.targetAt Cemu.dramBase Cemu.dramEnd Cemu.uartBase
  split_ifs with hdram huart hclint hplic hfinish hblock
  · bv_omega
  · exact iff_of_false nofun (by bv_omega)
  · have hmap : (∃ b', (b.clint.store a 64 value).map (fun clint => { b with clint := clint }) =
        .ok b') ↔ ∃ c', b.clint.store a 64 value = .ok c' :=
      ⟨fun ⟨_, h⟩ => (ok_of_map h).imp fun _ h => h.1, fun ⟨_, h⟩ => ⟨_, by rw [h]; rfl⟩⟩
    rw [hmap, clint_takes, haddr]
    bv_omega
  · exact iff_of_false nofun (by bv_omega)
  · bv_omega
  · have hmap : (∃ b', (b.block.store a 64 value).map (fun block => { b with block := block }) =
        .ok b') ↔ ∃ d', b.block.store a 64 value = .ok d' :=
      ⟨fun ⟨_, h⟩ => (ok_of_map h).imp fun _ h => h.1, fun ⟨_, h⟩ => ⟨_, by rw [h]; rfl⟩⟩
    rw [hmap, block_takes _ hblock.2, haddr]
    bv_omega
  · refine iff_of_false nofun ?_
    unfold Cemu.blockBase at hblock
    bv_omega

theorem bus_load_dram {b bus : Cemu.Bus} {p x : Word} {size : Nat}
    (h : b.load p size = .ok (x, bus)) : bus.dram = b.dram := by
  unfold Cemu.Bus.load at h
  split at h
  case h_7 => cases h
  case h_5 => cases h; rfl
  all_goals
    obtain ⟨r, hr, heq⟩ := ok_of_map h
    cases heq
    rfl

theorem load_done {v x : Word} (h : cpu.load v 64 = (.done x, cpu')) :
    cpu'.bus.dram = (cpu.translate v .load).2.bus.dram ∧ cpu'.mode = cpu.mode ∧
      cpu'.csr = cpu.csr ∧ cpu'.regs = cpu.regs := by
  cases hp : cpu.physical v .load with
  | none =>
    obtain ⟨e, he⟩ : ∃ e, (cpu.load v 64).1 = .thrown e := Cpu.load_of_none hp
    rw [h] at he
    cases he
  | some p =>
    unfold Cpu.load at h
    rw [Cpu.translate_of_physical hp] at h
    dsimp only [Cpu.busLoad] at h
    cases hb : (cpu.translate v .load).2.bus.load p 64 with
    | error e => rw [hb] at h; cases h
    | ok r =>
      rw [hb] at h
      cases h
      exact ⟨bus_load_dram hb, rfl, rfl, rfl⟩

namespace InKernel

variable (h : InKernel layout others s space stack cpu)
include h

/-- Supervisor mode depends on the mode, on `satp` and on memory. -/
theorem congr (hmode : cpu'.mode = cpu.mode)
    (hsatp : cpu'.csr.load Cemu.SATP = cpu.csr.load Cemu.SATP)
    (hdram : cpu'.bus.dram = cpu.bus.dram) : InKernel layout others s space stack cpu' :=
  ⟨hmode.trans h.mode, hsatp.trans h.satp, by rw [hdram]; exact h.ok, h.mem, h.low, h.high⟩

/-- The kernel's mapping of memory is the identity. -/
theorem physical_dram (hlo : 2 ^ 31 ≤ a.toNat) (hhi : a.toNat < 2 ^ 31 + 2 ^ 27) :
    cpu.physical a .store = some a := by
  have hflags : kernelFlags a.toNat = some flagsKernel := if_pos ⟨hlo, hhi⟩
  have hpage : a.toNat / pageSize * pageSize + a.toNat % pageSize = a.toNat := by
    unfold pageSize
    omega
  have hbit : flagsKernel.testBit (accessBit .store) = true := rfl
  rw [h.physical, Nat.mod_eq_of_lt (by omega), reach, if_neg (by omega), hflags]
  dsimp only [Option.map_some]
  rw [if_pos hbit, hpage, BitVec.ofNat_toNat, BitVec.setWidth_eq]

/-- A doubleword in bytes of the process is stored, and all is as before. -/
theorem store_own {v p : Word} (hp : cpu.physical v .store = some p)
    (hown : OwnDword space stack p.toNat) (value : Word) :
    ∃ cpu', cpu.store v 64 value = (.done ⟨⟩, cpu') ∧ InKernel layout others s space stack cpu' ∧
      cpu'.csr = cpu.csr ∧ cpu'.regs = cpu.regs := by
  have hlo := (h.own_bounds (hown 0 (by decide))).1
  have hhi := (h.own_bounds (hown 7 (by decide))).2
  have htop : heapTop ≤ 2 ^ 31 + 2 ^ 27 := by decide
  unfold kernelStart at hlo
  have hin : Cemu.InDram p := by
    rw [Cemu.inDram_iff]
    unfold Cemu.dramBase Cemu.dramEnd
    bv_omega
  have hbound : ¬ p - Cemu.dramBase + BitVec.ofNat 64 (64 / 8) > Cemu.dramSize := by
    unfold Cemu.dramBase Cemu.dramSize
    bv_omega
  refine ⟨_, Cpu.store_dram ⟨rfl, hp, hin, hbound⟩ value, ?_, rfl, rfl⟩
  exact (h.translated v .store).stored hown value rfl rfl rfl

end InKernel

/-! ## The frame -/

/-- Stores go to the 256 bytes from `sp`, and `sp` stays. -/
def Instr.inFrame : Instr → Bool
  | .addi rd _ _ => rd ≠ 2
  | .andi rd _ _ => rd ≠ 2
  | .ld rd _ _ => rd ≠ 2
  | .sd _ offset base => base = 2 ∧ offset.toNat + 8 ≤ 256
  | .csrr rd _ => rd ≠ 2
  | .csrrw _ _ _ => false

/-- `sp` is at the frame on top of the kernel stack. -/
structure OnFrame (layout : Layout) (others : List Nat) (s : Spaces) (space : AddressSpace)
    (stack : Nat) (cpu : Cpu) : Prop extends InKernel layout others s space stack cpu where
  sp : cpu.regs 2 = BitVec.ofNat 64 (stack + taskKernelStackSize - 256)

theorem regNumber_ne {rd : Fin 32} (h : rd ≠ 2) : (2 : BitVec 5) ≠ regNumber rd := by
  revert h
  revert rd
  decide

theorem setReg_self (cpu : Cpu) (rd : BitVec 5) (value : Word) :
    (cpu.setReg rd value).regs rd = value := Function.update_self _ _ _

theorem setReg_of_ne (cpu : Cpu) {r rd : BitVec 5} (h : r ≠ rd) (value : Word) :
    (cpu.setReg rd value).regs r = cpu.regs r := Function.update_of_ne h _ _

theorem OnFrame.setReg (h : OnFrame layout others s space stack cpu) {rd : Fin 32} (hrd : rd ≠ 2)
    (value : Word) :
    OnFrame layout others s space stack (cpu.setReg (regNumber rd) value) :=
  ⟨h.toInKernel.congr rfl rfl rfl, (setReg_of_ne _ (regNumber_ne hrd) _).trans h.sp⟩

theorem OnFrame.store (h : OnFrame layout others s space stack cpu) {offset : Word}
    (hoffset : offset.toNat + 8 ≤ 256) (value : Word) :
    ∃ p cpu', cpu.physical (cpu.regs 2 + offset) .store = some p ∧ OwnDword space stack p.toNat ∧
      cpu.store (cpu.regs 2 + offset) 64 value = (.done ⟨⟩, cpu') ∧
      OnFrame layout others s space stack cpu' := by
  obtain ⟨a, ha⟩ : ∃ a, a = cpu.regs 2 + offset := ⟨_, rfl⟩
  have hend := layout.end_le
  have hlow := h.low
  have hhigh := h.high
  have haddr : a.toNat = stack + taskKernelStackSize - 256 + offset.toNat := by
    rw [ha, h.sp, BitVec.toNat_add, BitVec.toNat_ofNat]
    unfold taskKernelStackSize pageSize stackTop at *
    omega
  have hown : OwnDword space stack a.toNat := by
    intro k hk
    left
    unfold taskKernelStackSize pageSize at *
    omega
  have hlo : 2 ^ 31 ≤ a.toNat := by
    unfold taskKernelStackSize pageSize kernelStart at *
    omega
  have hhi : a.toNat + 8 ≤ 2 ^ 31 + 2 ^ 27 := by
    unfold stackTop at hend
    omega
  have hp := h.physical_dram hlo (by omega)
  obtain ⟨cpu', hdone, hkernel, -, hregs⟩ := h.store_own hp hown value
  rw [← ha]
  exact ⟨a, cpu', hp, hown, hdone, hkernel, by rw [hregs, h.sp]⟩

theorem OnFrame.step (h : OnFrame layout others s space stack cpu) {i : Instr}
    (hi : i.inFrame = true) (hdone : TrapEntry.step cpu i = (.done ⟨⟩, cpu')) :
    OnFrame layout others s space stack cpu' ∧
      ∀ p ∈ TrapEntry.target cpu i, OwnDword space stack p.toNat := by
  cases i with
  | addi rd rs imm =>
    cases hdone
    exact ⟨h.setReg (of_decide_eq_true hi) _, nofun⟩
  | andi rd rs imm =>
    cases hdone
    exact ⟨h.setReg (of_decide_eq_true hi) _, nofun⟩
  | csrr rd csr =>
    cases hdone
    exact ⟨h.setReg (of_decide_eq_true hi) _, nofun⟩
  | csrrw rd csr rs => cases hi
  | ld rd offset base =>
    dsimp only [TrapEntry.step] at hdone
    cases hload : cpu.load (cpu.regs (regNumber base) + offset) 64 with
    | mk outcome cpu1 =>
      rw [hload] at hdone
      cases outcome with
      | thrown e => cases hdone
      | aborted => cases hdone
      | done value =>
        cases hdone
        obtain ⟨hdram, hmode, hcsr, hregs⟩ := load_done hload
        have hkernel : InKernel layout others s space stack cpu1 :=
          (h.toInKernel.translated _ .load).congr hmode (by rw [hcsr]; rfl) hdram
        have hframe : OnFrame layout others s space stack cpu1 := ⟨hkernel, by rw [hregs, h.sp]⟩
        exact ⟨hframe.setReg (of_decide_eq_true hi) _, nofun⟩
  | sd rs offset base =>
    obtain ⟨rfl, hoffset⟩ : base = 2 ∧ offset.toNat + 8 ≤ 256 := of_decide_eq_true hi
    obtain ⟨p, cpu1, hp, hown, hstore, hframe⟩ := h.store hoffset (cpu.regs (regNumber rs))
    have hbase : regNumber 2 = 2 := rfl
    dsimp only [TrapEntry.step] at hdone
    rw [hbase, hstore] at hdone
    cases hdone
    refine ⟨hframe, fun q hq => ?_⟩
    dsimp only [TrapEntry.target] at hq
    rw [hbase, Cpu.translate_of_physical hp] at hq
    obtain rfl := List.mem_singleton.mp hq
    exact hown

theorem OnFrame.runOn (code : List Instr) :
    ∀ {cpu : Cpu}, OnFrame layout others s space stack cpu → (∀ i ∈ code, i.inFrame = true) →
      ∀ p ∈ (TrapEntry.runOn cpu code).2.2, OwnDword space stack p.toNat := by
  induction code with
  | nil => intro cpu _ _ p hp; cases hp
  | cons i rest ih =>
    intro cpu h hcode p hp
    unfold TrapEntry.runOn at hp
    cases hstep : TrapEntry.step cpu i with
    | mk outcome cpu' =>
      rw [hstep] at hp
      cases outcome with
      | thrown e => cases hp
      | aborted => cases hp
      | done u =>
        obtain ⟨hframe, htarget⟩ := h.step (hcode i List.mem_cons_self) hstep
        rcases List.mem_append.mp hp with hp | hp
        · exact htarget p hp
        · exact ih hframe (fun j hj => hcode j (List.mem_cons_of_mem _ hj)) p hp

/-! ## The store below the stack pointer -/

/-- A doubleword stored at an address, if it is stored, is stored in bytes of the process. -/
def StoresOwn (space : AddressSpace) (stack : Nat) (cpu : Cpu) (a value : Word) : Prop :=
  ∀ p, cpu.physical a .store = some p → (∃ b, cpu.bus.store p 64 value = .ok b) →
    OwnDword space stack p.toNat

theorem storesOwn_of_none {value : Word} (h : cpu.physical a .store = none) :
    StoresOwn space stack cpu a value := by
  intro p hp
  rw [h] at hp
  cases hp

theorem storesOwn_iff {y : Nat} {value : Word} (hy : y < 2 ^ 64)
    (h : cpu.physical a .store = some (BitVec.ofNat 64 y)) :
    StoresOwn space stack cpu a value ↔
      ((∃ b, cpu.bus.store (BitVec.ofNat 64 y) 64 value = .ok b) → OwnDword space stack y) := by
  have hnat : (BitVec.ofNat 64 y).toNat = y := by
    rw [BitVec.toNat_ofNat]
    exact Nat.mod_eq_of_lt hy
  constructor
  · intro hall htaken
    exact hnat ▸ hall _ h htaken
  · intro hone p hp htaken
    rw [h] at hp
    cases hp
    rw [hnat]
    exact hone htaken

section Below

variable {x : Nat} {a : Word} (hx : a.toNat % 2 ^ 39 = x)
  (h : InKernel layout others s space stack cpu)
include hx h

/-- Below 2 MiB the mappings say where, and a page of memory takes what it is given. -/
theorem storesOwn_user (hlow : x < 2 ^ 21) (value : Word) :
    StoresOwn space stack cpu a value ↔
      ∀ mapping, mappingAt space x = some mapping → mapping.flags.testBit 2 = true →
        OwnDword space stack (mapping.page + x % pageSize) := by
  have hoffset : a.toNat % pageSize = x % pageSize := by
    unfold pageSize
    omega
  have hphysical := h.physical a .store
  rw [hx, hoffset, reach, if_pos hlow] at hphysical
  cases hfind : mappingAt space x with
  | none =>
    rw [hfind] at hphysical
    exact iff_of_true (storesOwn_of_none hphysical) nofun
  | some mapping =>
    rw [hfind] at hphysical
    obtain ⟨hmem, -⟩ := mappingAt_mem hfind
    obtain ⟨-, -, -, hkeep⟩ := ((h.ok.spaces space h.mem).mapped _ hmem).2.entry
    have hbit : (mapping.flags ||| pteU ||| pteV).testBit (accessBit .store) =
        mapping.flags.testBit 2 := hkeep 2 (by decide) (by decide)
    dsimp only [Option.map_some] at hphysical
    rw [hbit] at hphysical
    by_cases hflag : mapping.flags.testBit 2 = true
    · rw [if_pos hflag] at hphysical
      have hpage : mapping.page ∈ space.owned :=
        List.mem_append_left _ (List.mem_map_of_mem hmem)
      have hpages : mapping.page ∈ (s.withDram cpu.bus.dram).pages :=
        Spaces.Ok.owned_mem h.mem hpage
      obtain ⟨hlo, hhi, -⟩ := h.ok.uses.bounds (List.mem_append_left others hpages)
      have hstart := layout.start_le
      obtain ⟨y, hy⟩ : ∃ y, y = mapping.page + x % pageSize := ⟨_, rfl⟩
      have hylo : 2 ^ 31 ≤ y := by
        unfold kernelStart at hstart
        omega
      have hyhi : y + 8 ≤ 2 ^ 31 + 2 ^ 27 := by
        have htop : heapTop + 8 ≤ 2 ^ 31 + 2 ^ 27 := by decide
        unfold pageSize at hy hhi
        omega
      rw [← hy] at hphysical
      rw [storesOwn_iff (by omega) hphysical, dram_takes hylo (by omega), imp_iff_right hyhi, hy]
      constructor
      · intro hown mapping' heq _
        cases heq
        exact hown
      · intro hown
        exact hown mapping rfl hflag
    · rw [if_neg hflag] at hphysical
      refine iff_of_true (storesOwn_of_none hphysical) fun mapping' heq hflag' => ?_
      cases heq
      exact absurd hflag' hflag

/-- Above, the kernel's pages are where their addresses say. -/
theorem storesOwn_kernel (hlow : ¬ x < 2 ^ 21) (value : Word) :
    StoresOwn space stack cpu a value ↔ ((kernelFlags x).isSome = true →
      (∃ b, cpu.bus.store (BitVec.ofNat 64 x) 64 value = .ok b) → OwnDword space stack x) := by
  have hphysical := h.physical a .store
  have hpage : x / pageSize * pageSize + a.toNat % pageSize = x := by
    unfold pageSize
    omega
  rw [hx, reach, if_neg hlow] at hphysical
  cases hflags : kernelFlags x with
  | none =>
    rw [hflags] at hphysical
    exact iff_of_true (storesOwn_of_none hphysical) nofun
  | some flags =>
    have hbit : flags.testBit (accessBit .store) = true := by
      unfold kernelFlags at hflags
      split at hflags
      · cases hflags; rfl
      · split at hflags
        · cases hflags; rfl
        · cases hflags
    rw [hflags] at hphysical
    dsimp only [Option.map_some] at hphysical
    rw [if_pos hbit, hpage] at hphysical
    rw [storesOwn_iff (by omega) hphysical]
    exact (imp_iff_right rfl).symm

end Below

/-- Where the store goes, in numbers. -/
theorem storesOwn_iff_safeSp (h : InKernel layout others s space stack cpu) (sp value : Word) :
    StoresOwn space stack cpu (sp - 16) value ↔ SafeSp space stack sp := by
  unfold SafeSp
  dsimp only
  generalize hx : (sp - 16).toNat % 2 ^ 39 = x
  split
  · next huser => exact storesOwn_user hx h huser value
  next huser =>
  rw [storesOwn_kernel hx h huser]
  split
  · next hdram =>
    have hflags : kernelFlags x = some flagsKernel := if_pos hdram
    rw [hflags, Option.isSome_some, imp_iff_right rfl, dram_takes hdram.1 hdram.2]
  next hdram =>
  unfold kernelFlags
  rw [if_neg hdram]
  split
  · next hdevice =>
    -- a device is nobody's memory
    have hnot : ¬ OwnDword space stack x := by
      intro hown
      have hge := (h.own_bounds (hown 0 (by decide))).1
      unfold kernelStart at hge
      omega
    rw [device_takes hdevice]
    exact ⟨fun hown htakes => hnot (hown rfl htakes), fun hno _ htakes => absurd htakes hno⟩
  · next hdevice =>
    refine iff_of_true nofun ?_
    unfold TakesDword
    omega

/-! ## The way in -/

namespace TrapEntry

/-- The processor when `sp` has been lowered. -/
def lowered (cpu : Cpu) : Cpu := cpu.setReg 2 (cpu.regs 2 - 16)

/-- `t0` has been saved and tells where the trap came from. -/
def tested (cpu : Cpu) : Cpu :=
  let cpu := cpu.setReg 5 (cpu.csr.load Cemu.SSTATUS)
  cpu.setReg 5 (cpu.regs 5 &&& 0x100)

theorem runOn_entry (cpu : Cpu) :
    runOn cpu entry =
      match (lowered cpu).store (cpu.regs 2 - 16) 64 (cpu.regs 5) with
      | (.done _, cpu') =>
        (.done ⟨⟩, tested cpu', (cpu.physical (cpu.regs 2 - 16) .store).toList)
      | (outcome, cpu') => (outcome, cpu', []) := by
  have hsp : cpu.regs 2 + -16 = cpu.regs 2 - 16 := (BitVec.sub_eq_add_neg _ _).symm
  have haddr : (lowered cpu).regs (regNumber 2) + 0 = cpu.regs 2 - 16 := by
    rw [BitVec.ofNat_eq_ofNat, BitVec.add_zero]
    exact setReg_self _ _ _
  have hvalue : (lowered cpu).regs (regNumber 5) = cpu.regs 5 :=
    setReg_of_ne _ (by decide) _
  have hfirst : step cpu (.addi 2 2 (-16)) = (.done ⟨⟩, lowered cpu) := by
    unfold lowered
    rw [← hsp]
    rfl
  have hstep : step (lowered cpu) (.sd 5 0 2) =
      (lowered cpu).store (cpu.regs 2 - 16) 64 (cpu.regs 5) := by
    dsimp only [step]
    rw [haddr, hvalue]
  have htarget : target (lowered cpu) (.sd 5 0 2) =
      (cpu.physical (cpu.regs 2 - 16) .store).toList := by
    dsimp only [target]
    rw [haddr]
    rfl
  unfold entry runOn
  rw [hfirst]
  dsimp only
  unfold runOn
  rw [hstep, htarget]
  cases hstore : (lowered cpu).store (cpu.regs 2 - 16) 64 (cpu.regs 5) with
  | mk outcome cpu' =>
    cases outcome with
    | done u =>
      dsimp only [runOn, step, target]
      simp only [List.nil_append, List.append_nil]
      rfl
    | thrown e => rfl
    | aborted => rfl

/-- If `t0` cannot be saved, that is all. -/
theorem storesUpToCall_thrown {e : Cemu.Exception}
    (h : ((lowered cpu).store (cpu.regs 2 - 16) 64 (cpu.regs 5)).1 = .thrown e) :
    storesUpToCall cpu = [] := by
  unfold storesUpToCall
  rw [runOn_entry]
  cases hstore : (lowered cpu).store (cpu.regs 2 - 16) 64 (cpu.regs 5) with
  | mk outcome cpu' =>
    rw [hstore] at h
    cases h
    rfl

/-- The code from the exchange of the stacks on. -/
def onKernelStack : List Instr := fromUser.drop 2 ++ saveRemaining

/-- The stacks have been exchanged, and there is room for a frame. -/
def exchanged (cpu : Cpu) : Cpu :=
  let cpu := (cpu.csrStore SSCRATCH (cpu.regs 2)).setReg 2 (cpu.csr.load SSCRATCH)
  cpu.setReg 2 (cpu.regs 2 + -256)

theorem storesUpToCall_done {p : Word} (hp : cpu.physical (cpu.regs 2 - 16) .store = some p)
    (h : (lowered cpu).store (cpu.regs 2 - 16) 64 (cpu.regs 5) = (.done ⟨⟩, cpu'))
    (hspp : cpu'.csr.load Cemu.SSTATUS &&& 0x100 = 0) :
    storesUpToCall cpu = p :: (runOn (exchanged (tested cpu')) onKernelStack).2.2 := by
  have hzero : (tested cpu').regs (regNumber 5) = 0 := by
    have hstatus := setReg_self cpu' 5 (cpu'.csr.load Cemu.SSTATUS)
    refine (setReg_self _ _ _).trans ?_
    rw [hstatus, hspp]
  unfold storesUpToCall
  rw [runOn_entry, h, hp]
  dsimp only
  rw [if_pos hzero]
  rfl

theorem onKernelStack_inFrame : ∀ i ∈ onKernelStack, i.inFrame = true := by decide

end TrapEntry

/-! ## A trap from user mode -/

section Trap

variable (cpu) (cause value : Word)

/-- The processor at the first instruction of `trap_entry`. -/
def trapped : Cpu := cpu.enterTrap Cpu.supervisorTrap cause value

/-- SPP is user mode's. -/
theorem trapped_spp (huser : cpu.mode = Cemu.modeUser) :
    (trapped cpu cause value).csr.load Cemu.SSTATUS &&& 0x100 = 0 := by
  have hload : ∃ x y, (trapped cpu cause value).csr.load Cemu.SSTATUS =
      (x &&& ~~~Cemu.maskSstatus |||
        (y &&& ~~~Cemu.maskSpp ||| cpu.mode <<< 8) &&& Cemu.maskSstatus) &&& Cemu.maskSstatus :=
    ⟨_, _, rfl⟩
  obtain ⟨x, y, hload⟩ := hload
  have hmode : cpu.mode <<< 8 = 0#64 := by rw [huser]; rfl
  have hmask : Cemu.maskSstatus &&& 0x100 = 0x100 := by decide
  have hclear : ~~~Cemu.maskSstatus &&& 0x100 = 0#64 := by decide
  have hspp : ~~~Cemu.maskSpp &&& 0x100 = 0#64 := by decide
  rw [hload, hmode, BitVec.or_zero, BitVec.and_assoc, hmask, BitVec.and_or_distrib_right,
    BitVec.and_assoc, hclear, BitVec.and_assoc, hmask, BitVec.and_assoc, hspp, BitVec.and_zero,
    BitVec.and_zero]
  rfl

end Trap

/-- From here on `sp` is at the frame. -/
theorem exchanged_onFrame (h : InKernel layout others s space stack cpu)
    (hscratch : cpu.csr.load SSCRATCH = BitVec.ofNat 64 (stack + taskKernelStackSize)) :
    OnFrame layout others s space stack (TrapEntry.exchanged cpu) := by
  refine ⟨h.congr rfl rfl rfl, ?_⟩
  refine (setReg_self _ _ _).trans ?_
  rw [setReg_self, hscratch]
  have hframe : 256 ≤ taskKernelStackSize := by decide
  bv_omega

/-- The stores of `trap_entry` are the process's if the first is. -/
theorem storesUpToCall_own_iff (h : InKernel layout others s space stack cpu)
    (hscratch : cpu.csr.load SSCRATCH = BitVec.ofNat 64 (stack + taskKernelStackSize))
    (hspp : cpu.csr.load Cemu.SSTATUS &&& 0x100 = 0) :
    (∀ p ∈ TrapEntry.storesUpToCall cpu, OwnDword space stack p.toNat) ↔
      StoresOwn space stack cpu (cpu.regs 2 - 16) (cpu.regs 5) := by
  obtain ⟨a, ha⟩ : ∃ a, a = cpu.regs 2 - 16 := ⟨_, rfl⟩
  obtain ⟨lowered, hlowered⟩ : ∃ c, c = TrapEntry.lowered cpu := ⟨_, rfl⟩
  have hsame : ∀ v, lowered.physical v .store = cpu.physical v .store := by
    intro v
    rw [hlowered]
    rfl
  have hbus : lowered.bus = cpu.bus := by rw [hlowered]; rfl
  have hcsr : lowered.csr = cpu.csr := by rw [hlowered]; rfl
  have hkernel : InKernel layout others s space stack lowered := by
    rw [hlowered]
    exact h.congr rfl rfl rfl
  rw [← ha]
  cases hp : cpu.physical a .store with
  | none =>
    obtain ⟨e, he⟩ : ∃ e, (lowered.store a 64 (cpu.regs 5)).1 = .thrown e :=
      Cpu.store_of_none ((hsame a).trans hp) _
    rw [hlowered, ha] at he
    rw [TrapEntry.storesUpToCall_thrown he]
    exact iff_of_true nofun (storesOwn_of_none hp)
  | some p =>
    cases hb : cpu.bus.store p 64 (cpu.regs 5) with
    | error e =>
      have he : (lowered.store a 64 (cpu.regs 5)).1 = .thrown e :=
        Cpu.store_of_refused ((hsame a).trans hp) (by rw [hbus]; exact hb)
      rw [hlowered, ha] at he
      rw [TrapEntry.storesUpToCall_thrown he]
      refine iff_of_true nofun fun q hq htaken => ?_
      rw [hp] at hq
      cases hq
      obtain ⟨b, hb'⟩ := htaken
      rw [hb] at hb'
      cases hb'
    | ok b =>
      obtain ⟨cpu', hdone⟩ : ∃ cpu', lowered.store a 64 (cpu.regs 5) = (.done ⟨⟩, cpu') :=
        Cpu.store_of_accepted ((hsame a).trans hp) (by rw [hbus]; exact hb)
      have hcsr' : cpu'.csr = cpu.csr := by
        have hpriv := (Cemu.store_samePrivilege lowered a 64 (cpu.regs 5)).2
        rw [hdone, hcsr] at hpriv
        exact hpriv
      have hlist := hdone
      rw [hlowered, ha] at hlist
      rw [TrapEntry.storesUpToCall_done (by rw [← ha]; exact hp) hlist (by rw [hcsr']; exact hspp)]
      have hfirst : StoresOwn space stack cpu a (cpu.regs 5) ↔ OwnDword space stack p.toNat := by
        constructor
        · intro hall
          exact hall p hp ⟨b, hb⟩
        · intro hown q hq _
          rw [hp] at hq
          cases hq
          exact hown
      rw [hfirst]
      refine ⟨fun hall => hall p List.mem_cons_self, fun hown q hq => ?_⟩
      rcases List.mem_cons.mp hq with rfl | hq
      · exact hown
      obtain ⟨cpu'', hdone', hkernel', -⟩ := hkernel.store_own ((hsame a).trans hp) hown (cpu.regs 5)
      rw [hdone] at hdone'
      cases hdone'
      have hframe : OnFrame layout others s space stack
          (TrapEntry.exchanged (TrapEntry.tested cpu')) :=
        exchanged_onFrame (hkernel'.congr rfl rfl rfl) (by rw [← hscratch, ← hcsr']; rfl)
      exact hframe.runOn _ TrapEntry.onKernelStack_inFrame q hq

/-- In any state of the kernel's memory, a trap taken from user mode stores only in the
kernel stack of the task and in pages the process has mapped writable, if and only if
its stack pointer is a safe one. -/
theorem trap_stores_own_iff {m : Memory} (hheap : m.Uses layout others) {satp : Word}
    (hvm : (vmInit m).2 = some satp) (events : List SpaceEvent)
    (hspace : space ∈ (Spaces.after m events).spaces) (slot : Fin 16) (cpu : Cpu)
    (huser : cpu.mode = Cemu.modeUser) (hsatp : cpu.csr.load Cemu.SATP = space.satp)
    (hdram : cpu.bus.dram = dramOf (Spaces.after m events).memory.ram)
    (hscratch : cpu.csr.load SSCRATCH =
      BitVec.ofNat 64 (kernelStack layout slot + taskKernelStackSize)) (cause value : Word) :
    (∀ p ∈ TrapEntry.storesUpToCall (trapped cpu cause value),
      OwnDword space (kernelStack layout slot) p.toNat) ↔
      SafeSp space (kernelStack layout slot) (cpu.regs 2) := by
  have hok : (Spaces.after m events).Ok layout others := run_ok (vmInit_ok hheap hvm) events
  obtain ⟨hlow, hstack⟩ := kernelStack_bounds layout slot
  have hkernel : InKernel layout others (Spaces.after m events) space (kernelStack layout slot)
      (trapped cpu cause value) := by
    refine ⟨rfl, hsatp, ?_, hspace, hlow, hstack⟩
    have hram : (trapped cpu cause value).bus.dram =
        dramOf (Spaces.after m events).memory.ram := hdram
    have hsame : (Spaces.after m events).withDram (trapped cpu cause value).bus.dram =
        Spaces.after m events := by
      unfold Spaces.withDram
      rw [hram, regionOf_dramOf]
    rw [hsame]
    exact hok
  rw [storesUpToCall_own_iff hkernel hscratch (trapped_spp cpu cause value huser)]
  exact storesOwn_iff_safeSp hkernel _ _

/-- A program in a space with one page, with a stack pointer of its choice. -/
def onePageCpu (sp : Word) : Cpu where
  pc := 0x10000
  regs r := if r = 2 then sp else 0
  bus := { (default : Cemu.Bus) with
    dram := dramOf (Spaces.after sampleMemory onePageEvents).memory.ram }
  mode := Cemu.modeUser
  csr a := if a = Cemu.SATP then onePageSpace.satp else if a = SSCRATCH then 0x80304000 else 0

theorem trap_stores_own_stack :
    SafeSp onePageSpace (kernelStack sampleLayout 0) 0x10800 ∧
    ∀ p ∈ TrapEntry.storesUpToCall (trapped (onePageCpu 0x10800) 8 0),
      OwnDword onePageSpace (kernelStack sampleLayout 0) p.toNat := by
  have hvm : (vmInit sampleMemory).2 = some (satpOf 0x80500000) := rfl
  have hsatp : (onePageCpu 0x10800).csr.load Cemu.SATP = onePageSpace.satp := rfl
  have hdram : (onePageCpu 0x10800).bus.dram =
      dramOf (Spaces.after sampleMemory onePageEvents).memory.ram := by rw [onePageCpu]
  have hscratch : (onePageCpu 0x10800).csr.load SSCRATCH =
      BitVec.ofNat 64 (kernelStack sampleLayout 0 + taskKernelStackSize) := by decide
  have hx : ((0x10800 : Word) - 16).toNat % 2 ^ 39 = 0x107f0 := by decide
  have hfind : mappingAt onePageSpace 0x107f0 = some ⟨0x10000, 0x80506000, 6⟩ := by decide
  have hsafe : SafeSp onePageSpace (kernelStack sampleLayout 0) 0x10800 := by
    unfold SafeSp
    rw [hx, if_pos (by decide)]
    intro mapping hmapping _ k hk
    rw [hfind] at hmapping
    cases hmapping
    refine .inr ⟨⟨0x10000, 0x80506000, 6⟩, List.mem_singleton_self _, by decide, ?_⟩
    unfold pageSize
    omega
  exact ⟨hsafe, (trap_stores_own_iff (memInit_uses sampleLayout) hvm onePageEvents
    onePageSpace_mem 0 (onePageCpu 0x10800) rfl hsatp hdram hscratch 8 0).mpr hsafe⟩

/-- A program that has pointed its stack into the kernel gets `t0` stored there. -/
theorem trap_overwrites_kernel :
    onePageSpace ∈ (Spaces.after sampleMemory onePageEvents).spaces ∧
    (0x80400000 : Word) ∈ TrapEntry.storesUpToCall (trapped (onePageCpu 0x80400010) 8 0) ∧
      ¬ OwnDword onePageSpace (kernelStack sampleLayout 0) (0x80400000 : Word).toNat := by
  refine ⟨onePageSpace_mem, by decide +kernel, fun hown => ?_⟩
  obtain ⟨-, hlt⟩ | ⟨mapping, hmapping, -, hle, -⟩ := hown 0 (by decide)
  · revert hlt
    decide
  · rw [List.mem_singleton.mp hmapping] at hle
    revert hle
    decide

end MiniOs.Kernel
