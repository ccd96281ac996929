import MiniOs.Proofs.Privilege

/-!
# Exceptions are precise

A handler can throw in two ways. `ecall` and `ebreak` throw and do nothing else. A load
or a store throws before it touches a register, but the walk of the page tables may be
behind it by then: where the translation goes through and the bus refuses, the entry
has been marked. So what an exception can leave behind is the bits A and D of one leaf.

The walk ends at an entry it has just read, and storing the marked entry rewrites the
other seven bytes with what they are. That is what makes the frame one of bits.
-/

namespace MiniOs.Cemu

open MiniOs.Lib

namespace Mmu

variable {satp vaddr : Word} {dram : Ram}

theorem entry_ok {addr pte : Word} (h : entry dram vaddr addr = .ok pte) :
    pte = dram.loadLe addr 8 := by
  unfold entry Dram.load at h
  by_cases hbound : addr - dramBase + BitVec.ofNat 64 (64 / 8) > dramSize
  · rw [if_neg (by decide), if_pos hbound] at h
    cases h
  · rw [if_neg (by decide), if_neg hbound] at h
    dsimp only at h
    split at h
    · cases h
    · exact (Except.ok.inj h).symm

variable {leaf : Leaf}

/-- The walk ends at an entry of the memory. -/
theorem walk_pte (h : walk satp dram vaddr = .ok leaf) :
    leaf.pte = dram.loadLe leaf.addr 8 := by
  unfold walk at h
  split at h
  · cases h
  split at h
  · cases h
  dsimp only at h
  split at h
  · cases h
  next heq =>
  split at h
  · cases h
    exact entry_ok heq
  · split at h
    · cases h
    · next heq' =>
      cases h
      exact entry_ok heq'

/-- Entries lie at multiples of eight. -/
theorem walk_aligned (h : walk satp dram vaddr = .ok leaf) :
    leaf.addr.toNat % 8 = 0 := by
  have haligned : ∀ pte idx : Word, (tableOf pte + idx * 8).toNat % 8 = 0 := by
    intro pte idx
    unfold tableOf
    rw [BitVec.toNat_add, BitVec.toNat_mul, BitVec.toNat_mul]
    show (_ * 4096 % _ + _ * 8 % _) % _ % 8 = 0
    omega
  unfold walk at h
  split at h
  · cases h
  split at h
  · cases h
  dsimp only at h
  split at h
  · cases h
  · split at h
    · cases h
      exact haligned _ _
    · split at h
      · cases h
      · cases h
        exact haligned _ _

/-- The bits of an entry other than A and D stay. -/
theorem getLsbD_mark (pte : Word) (type : AccessType) {k : Nat} (h6 : k ≠ 6) (h7 : k ≠ 7) :
    (mark pte type).getLsbD k = pte.getLsbD k := by
  have hA : pteA = BitVec.twoPow 64 6 := rfl
  have hD : pteD = BitVec.twoPow 64 7 := rfl
  unfold mark
  split <;> simp only [hA, hD, BitVec.getLsbD_or, BitVec.getLsbD_twoPow] <;> grind

/-- A byte is as before, or it is the lowest byte of a leaf and differs in A and D. -/
def KeptButMarks (satp : Word) (dram dram' : Ram) (a : Word) : Prop :=
  dram' a = dram a ∨ (∃ vaddr leaf, walk satp dram vaddr = .ok leaf ∧ a = leaf.addr) ∧
    ∀ k, k ≠ 6 → k ≠ 7 → (dram' a).toBitVec.getLsbD k = (dram a).toBitVec.getLsbD k

def SameButMarks (satp : Word) (dram dram' : Ram) : Prop := ∀ a, KeptButMarks satp dram dram' a

theorem SameButMarks.refl (satp : Word) (dram : Ram) : SameButMarks satp dram dram :=
  fun _ => .inl rfl

theorem sameButMarks_mark (h : walk satp dram vaddr = .ok leaf) (type : AccessType) :
    SameButMarks satp dram (dram.storeLe leaf.addr 8 (mark leaf.pte type)) := by
  intro a
  by_cases hin : (a - leaf.addr).toNat < 8
  · -- the byte as it was, read back from the entry
    have hbefore : dram a = byte leaf.pte (a - leaf.addr).toNat := by
      rw [walk_pte h, Ram.loadLe, byte_ofBytes hin (by decide)]
      congr 1
      bv_omega
    have hafter : dram.storeLe leaf.addr 8 (mark leaf.pte type) a =
        byte (mark leaf.pte type) (a - leaf.addr).toNat := if_pos hin
    by_cases hlow : a = leaf.addr
    · refine .inr ⟨⟨vaddr, leaf, h, hlow⟩, fun k h6 h7 => ?_⟩
      have hzero : (a - leaf.addr).toNat = 0 := by bv_omega
      rw [hafter, hbefore, hzero, getLsbD_byte, getLsbD_byte, Nat.mul_zero, Nat.zero_add,
        getLsbD_mark _ _ h6 h7]
    · left
      have hpos : (a - leaf.addr).toNat ≠ 0 := by bv_omega
      rw [hafter, hbefore]
      refine UInt8.eq_of_toBitVec_eq (BitVec.eq_of_getLsbD_eq fun k hk => ?_)
      rw [getLsbD_byte, getLsbD_byte, getLsbD_mark _ _ (by omega) (by omega)]
  · exact .inl (Ram.storeLe_out (by omega))

/-- A translation leaves memory alone or marks the leaf. -/
theorem translate_dram (csrs : Csr) (dram : Ram) (vaddr : Word) (type : AccessType)
    (mode : Word) :
    (translate csrs dram vaddr type mode).2 = dram ∨
      ∃ leaf, walk (csrs.load SATP) dram vaddr = .ok leaf ∧
        (translate csrs dram vaddr type mode).2 =
          dram.storeLe leaf.addr 8 (mark leaf.pte type) := by
  unfold translate
  split
  · exact .inl rfl
  split
  · exact .inl rfl
  next leaf hwalk =>
  split
  · exact .inl rfl
  · unfold Dram.store
    rw [if_neg (by decide)]
    by_cases hbound : leaf.addr - dramBase + BitVec.ofNat 64 (64 / 8) > dramSize
    · rw [if_pos hbound]
      exact .inl rfl
    · rw [if_neg hbound]
      exact .inr ⟨leaf, hwalk, rfl⟩

theorem translate_sameButMarks (csrs : Csr) (dram : Ram) (vaddr : Word) (type : AccessType)
    (mode : Word) :
    SameButMarks (csrs.load SATP) dram (translate csrs dram vaddr type mode).2 := by
  obtain heq | ⟨leaf, hwalk, heq⟩ := translate_dram csrs dram vaddr type mode <;> rw [heq]
  · exact SameButMarks.refl _ _
  · exact sameButMarks_mark hwalk type

end Mmu

/-- All of the processor is as before but for marks in the page tables. -/
structure OnlyMarks (cpu cpu' : Cpu) : Prop where
  regs : cpu'.regs = cpu.regs
  pc : cpu'.pc = cpu.pc
  mode : cpu'.mode = cpu.mode
  csr : cpu'.csr = cpu.csr
  bus : cpu'.bus = { cpu.bus with dram := cpu'.bus.dram }
  dram : Mmu.SameButMarks (cpu.csr.load SATP) cpu.bus.dram cpu'.bus.dram

theorem OnlyMarks.refl (cpu : Cpu) : OnlyMarks cpu cpu :=
  ⟨rfl, rfl, rfl, rfl, rfl, Mmu.SameButMarks.refl _ _⟩

theorem translate_onlyMarks (cpu : Cpu) (vaddr : Word) (type : AccessType) :
    OnlyMarks cpu (cpu.translate vaddr type).2 :=
  ⟨rfl, rfl, rfl, rfl, rfl, Mmu.translate_sameButMarks _ _ _ _ _⟩

variable {cpu cpu' : Cpu} {size : Nat} {e : Exception} {inst : BitVec 32}

theorem load_thrown {addr : Word} (h : cpu.load addr size = (.thrown e, cpu')) :
    OnlyMarks cpu cpu' := by
  have hmarks := translate_onlyMarks cpu addr .load
  unfold Cpu.load at h
  split at h
  · next heq =>
    cases h
    rwa [heq] at hmarks
  · next heq =>
    rw [heq] at hmarks
    unfold Cpu.busLoad at h
    split at h
    · cases h
      exact hmarks
    · cases h

theorem store_thrown {addr value : Word} (h : cpu.store addr size value = (.thrown e, cpu')) :
    OnlyMarks cpu cpu' := by
  have hmarks := translate_onlyMarks cpu addr .store
  unfold Cpu.store at h
  split at h
  · next heq =>
    cases h
    rwa [heq] at hmarks
  · next heq =>
    rw [heq] at hmarks
    split at h
    · cases h
      exact hmarks
    · cases h

theorem loadWith_thrown {extend : Word → Word}
    (h : loadWith size extend cpu inst = (.thrown e, cpu')) :
    OnlyMarks cpu cpu' := by
  unfold loadWith at h
  split at h
  · cases h
  · next heq =>
    cases h
    exact load_thrown heq
  · cases h

theorem storeWith_thrown (h : storeWith size cpu inst = (.thrown e, cpu')) :
    OnlyMarks cpu cpu' := by
  unfold storeWith at h
  split at h
  · cases h
  · next heq =>
    cases h
    exact store_thrown heq
  · cases h

theorem handler_thrown {op : Op} (h : op.handler cpu inst = (.thrown e, cpu')) :
    OnlyMarks cpu cpu' := by
  cases op with
  | lb | lh | lw | ld | lbu | lhu | lwu => exact loadWith_thrown h
  | sb | storeByte | storeHalf | storeWord | storeDouble => exact storeWith_thrown h
  | ecall | ebreak =>
    cases h
    exact OnlyMarks.refl cpu
  -- the rest returns
  | _ => cases h

/-! ## The trap that follows -/

/-- A trap leaves the address of the instruction in the register of the mode it enters. -/
theorem enterTrap_supervisor (cpu : Cpu) (cause value : Word) :
    (cpu.enterTrap Cpu.supervisorTrap cause value).csr.load SEPC = cpu.pc := rfl

theorem enterTrap_machine (cpu : Cpu) (cause value : Word) :
    (cpu.enterTrap Cpu.machineTrap cause value).csr.load MEPC = cpu.pc := rfl

theorem handleException_epc (cpu : Cpu) (e : Exception) :
    (cpu.handleException e).mode = modeSupervisor ∧ (cpu.handleException e).csr.load SEPC = cpu.pc ∨
      (cpu.handleException e).mode = modeMachine ∧
        (cpu.handleException e).csr.load MEPC = cpu.pc := by
  unfold Cpu.handleException
  dsimp only
  split
  · exact .inl ⟨rfl, enterTrap_supervisor cpu _ _⟩
  · exact .inr ⟨rfl, enterTrap_machine cpu _ _⟩

/-- Where an instruction throws, everything is as before but `x0`, which is zero now,
and the marks, and the trap saves the address of the instruction. -/
theorem exceptions_precise {cpu cpu' : Cpu} {inst : BitVec 32} {e : Exception}
    (h : execute cpu inst = (.thrown e, cpu')) :
    (∀ r, r ≠ 0 → cpu'.regs r = cpu.regs r) ∧ cpu'.pc = cpu.pc ∧ cpu'.mode = cpu.mode ∧
      cpu'.csr = cpu.csr ∧
      cpu'.bus = { cpu.bus with dram := cpu'.bus.dram } ∧
      Mmu.SameButMarks (cpu.csr.load SATP) cpu.bus.dram cpu'.bus.dram ∧
      ((cpu'.handleException e).mode = modeSupervisor ∧
          (cpu'.handleException e).csr.load SEPC = cpu.pc ∨
        (cpu'.handleException e).mode = modeMachine ∧
          (cpu'.handleException e).csr.load MEPC = cpu.pc) := by
  cases hop : dispatch inst with
  | none =>
    rw [execute_none hop] at h
    cases h
  | some op =>
    rw [execute_some hop] at h
    obtain ⟨hregs, hpc, hmode, hcsr, hbus, hdram⟩ := handler_thrown h
    refine ⟨fun r hr => ?_, hpc, hmode, hcsr, hbus, hdram, ?_⟩
    · rw [hregs]
      exact Function.update_of_ne hr _ _
    · have hepc := handleException_epc cpu' e
      rwa [hpc] at hepc

-- `ld a0, 0(zero)` where nothing answers at address 0
theorem exceptions_precise_ld :
    execute default 0x00003503 = (.thrown ⟨.loadAccessFault, 0⟩, (default : Cpu).setReg 0 0) ∧
      (((default : Cpu).setReg 0 0).handleException ⟨.loadAccessFault, 0⟩).csr.load MEPC = 0 := by
  have h : execute default 0x00003503 =
      (.thrown ⟨.loadAccessFault, 0⟩, (default : Cpu).setReg 0 0) := by rfl
  obtain ⟨-, -, -, -, -, -, ⟨hmode, -⟩ | ⟨-, hepc⟩⟩ := exceptions_precise h
  · cases hmode
  · exact ⟨h, hepc⟩

end MiniOs.Cemu
