import MiniOs.Proofs.Integer

/-!
# Branches, jumps and upper immediates

The offset of a branch is scattered over the word, and that of a jump in another order. The
handlers gather it again with masks, each in its own expression. Two facts meet here: the
expression is the immediate of its format, and the immediate of an encoding is the offset
that was encoded. The first is about every word, the second about no handler.
-/

namespace MiniOs.Cemu

open MiniOs.Spec

variable {w : BitVec 32} {cpu : Cpu}

/-! ## Gathering -/

/-- The bits a handler sets where the word is negative. -/
theorem mask_sign (w : BitVec 32) (m : Nat) :
    (((if w &&& 0x80000000 ≠ 0 then m else 0 : Nat)) : BitVec 32) =
      if w.getLsbD 31 then BitVec.ofNat 32 m else 0 := by
  have hmask : ∀ k, k < 32 → (0x80000000 : BitVec 32).getLsbD k = decide (k = 31) := by decide
  have hbit : (w &&& 0x80000000).getLsbD 31 = w.getLsbD 31 := by
    rw [BitVec.getLsbD_and, hmask 31 (by decide)]
    exact Bool.and_true _
  cases hw : w.getLsbD 31 with
  | false =>
    have hzero : w &&& 0x80000000 = 0 := by
      apply BitVec.eq_of_getLsbD_eq
      intro k hk
      rw [BitVec.getLsbD_and, hmask k hk]
      grind
    rw [if_neg (not_not_intro hzero)]
    rfl
  | true =>
    have hne : w &&& 0x80000000 ≠ 0 := by
      intro hzero
      rw [hzero, hw] at hbit
      cases hbit
    rw [if_pos hne]
    rfl

/-- The masks of the handlers of branches, by the bits they have. -/
theorem masks_branch : ∀ k, k < 32 → (0xfffff000#32).getLsbD k = decide (12 ≤ k) ∧
    (0x80#32).getLsbD k = decide (k = 7) ∧ (0x7e0#32).getLsbD k = decide (5 ≤ k ∧ k < 11) ∧
    (0x1e#32).getLsbD k = decide (1 ≤ k ∧ k < 5) := by
  decide

theorem immB_eq (w : BitVec 32) : immB w = (immediateB w).signExtend 64 := by
  refine (congrArg (BitVec.signExtend 64) ?_).trans (signExtend_signExtend _ (by decide))
  rw [mask_sign]
  apply BitVec.eq_of_getLsbD_eq
  intro k hk
  have hmasks := masks_branch k hk
  have hmasks4 := masks_branch (k - 4) (by omega)
  simp only [immediateB, BitVec.getLsbD_or, BitVec.getLsbD_and, BitVec.getLsbD_shiftLeft,
    BitVec.getLsbD_ushiftRight, BitVec.getLsbD_signExtend, BitVec.msb_eq_getLsbD_last,
    BitVec.getLsbD_append, BitVec.getLsbD_extractLsb']
  split <;> grind

theorem masks_jump : ∀ k, k < 32 → (0xfff00000#32).getLsbD k = decide (20 ≤ k) ∧
    (0xff#32).getLsbD k = decide (k < 8) ∧ (0x800#32).getLsbD k = decide (k = 11) ∧
    (0x7fe#32).getLsbD k = decide (1 ≤ k ∧ k < 11) := by
  decide

theorem immJ_eq (w : BitVec 32) : immJ w = (immediateJ w).signExtend 64 := by
  refine (congrArg (BitVec.signExtend 64) ?_).trans (signExtend_signExtend _ (by decide))
  rw [mask_sign]
  apply BitVec.eq_of_getLsbD_eq
  intro k hk
  have hmasks := masks_jump k hk
  have hmasks12 := masks_jump (k - 12) (by omega)
  simp only [immediateJ, BitVec.getLsbD_or, BitVec.getLsbD_and, BitVec.getLsbD_shiftLeft,
    BitVec.getLsbD_ushiftRight, BitVec.getLsbD_signExtend, BitVec.msb_eq_getLsbD_last,
    BitVec.getLsbD_append, BitVec.getLsbD_extractLsb']
  split <;> grind

theorem immU_eq (w : BitVec 32) : immU w = (immediateU w).signExtend 64 := by
  have hmask : ∀ k, k < 32 → (0xfffff000#32).getLsbD k = decide (12 ≤ k) := by decide
  refine congrArg (BitVec.signExtend 64) ?_
  apply BitVec.eq_of_getLsbD_eq
  intro k hk
  simp only [immediateU, BitVec.getLsbD_and, BitVec.getLsbD_append, BitVec.getLsbD_extractLsb']
  grind

/-! ## Transfers -/

/-- The condition a handler tests. -/
def branchCond : Condition → Word → Word → Bool
  | .eq => fun a b => a = b
  | .ne => fun a b => a ≠ b
  | .lt => fun a b => a.slt b
  | .ge => fun a b => !a.slt b
  | .ltu => fun a b => a < b
  | .geu => fun a b => b ≤ a

theorem handler_branch (cond : Condition) : (opOf cond.instr).handler = branchIf (branchCond cond) := by
  cases cond <;> rfl

theorem branchCond_eq (cond : Condition) (a b : Word) : branchCond cond a b = cond.holds a b := by
  cases cond with
  | eq | ne | lt | ltu | geu => rfl
  | ge =>
    change (!decide (a.toInt < b.toInt)) = decide (b.toInt ≤ a.toInt)
    rw [← decide_not, decide_eq_decide]
    exact Int.not_lt

theorem branch_steps {cond : Condition} (h : cond.instr.Encodes w) (cpu : Cpu) :
    Steps cpu w
      (if cond.holds (cpu.registers.read (fieldRs1 w)) (cpu.registers.read (fieldRs2 w)) then
        cpu.pc + (immediateB w).signExtend 64 else cpu.pc + 4) cpu.registers := by
  have hexecute := execute_of_encodes h (by cases cond <;> decide) (by cases cond <;> decide) cpu
  rw [handler_branch] at hexecute
  refine ⟨cpu.setReg 0 0, hexecute.trans ?_, registers_clear cpu, rfl, rfl, rfl, rfl⟩
  unfold branchIf
  rw [regs_clear, regs_clear, branchCond_eq, immB_eq]
  rfl

/-- `JAL` and `JALR` write `rd` last, so that `JALR` has read `rs1` by then. -/
theorem jump_steps {pc : Word}
    (h : execute cpu w = (.done pc, (cpu.setReg 0 0).setReg (rd w) (cpu.pc + 4))) :
    Steps cpu w pc (cpu.registers.write (fieldRd w) (cpu.pc + 4)) := by
  refine ⟨_, h, ?_, rfl, rfl, rfl, rfl⟩
  rw [registers_setReg, registers_clear]
  rfl

theorem jal_steps (h : Instr.jal.Encodes w) (cpu : Cpu) :
    Steps cpu w (cpu.pc + (immediateJ w).signExtend 64)
      (cpu.registers.write (fieldRd w) (cpu.pc + 4)) := by
  rw [← immJ_eq]
  exact jump_steps (execute_of_encodes h (by decide) (by decide) cpu)

theorem jalr_steps (h : Instr.jalr.Encodes w) (cpu : Cpu) :
    Steps cpu w ((cpu.registers.read (fieldRs1 w) + (immediateI w).signExtend 64) &&& ~~~1)
      (cpu.registers.write (fieldRd w) (cpu.pc + 4)) := by
  rw [← immI_eq, ← regs_clear]
  exact jump_steps (execute_of_encodes h (by decide) (by decide) cpu)

theorem lui_steps (h : Instr.lui.Encodes w) (cpu : Cpu) :
    Steps cpu w (cpu.pc + 4) (cpu.registers.write (fieldRd w) ((immediateU w).signExtend 64)) := by
  rw [← immU_eq, @writeRd_steps_iff w cpu (fun _ w => immU w)
    (execute_of_encodes h (by decide) (by decide) cpu)]
  exact Or.inr rfl

theorem auipc_steps (h : Instr.auipc.Encodes w) (cpu : Cpu) :
    Steps cpu w (cpu.pc + 4)
      (cpu.registers.write (fieldRd w) (cpu.pc + (immediateU w).signExtend 64)) := by
  rw [← immU_eq, @writeRd_steps_iff w cpu (fun cpu w => cpu.pc + immU w)
    (execute_of_encodes h (by decide) (by decide) cpu)]
  exact Or.inr rfl

/-- Executing the encoding of a branch, a jump or an upper immediate goes on where the
specification says, with the registers the specification says, and changes nothing else. -/
theorem transfers_follow (t : Transfer) (cpu : Cpu) :
    Steps cpu t.encode (t.nextPc cpu.registers cpu.pc) (t.registers cpu.registers cpu.pc) := by
  have hencodes := t.encodes
  obtain ⟨w, hw⟩ : ∃ w, w = t.encode := ⟨_, rfl⟩
  rw [← hw] at hencodes ⊢
  cases t with
  | branch cond rs1 rs2 offset =>
    obtain ⟨-, -, h1, h2, himm⟩ := fields_branch rs1 rs2 _ _ offset.value offset.even hw
    have hsteps := branch_steps hencodes cpu
    rwa [h1, h2, himm] at hsteps
  | jal rd offset =>
    obtain ⟨-, hrd, himm⟩ := fields_jump rd _ offset.value offset.even hw
    have hsteps := jal_steps hencodes cpu
    rwa [hrd, himm] at hsteps
  | jalr rd rs1 imm =>
    obtain ⟨-, -, hrd, h1, himm⟩ := fields_immediate rd rs1 _ _ imm hw
    have hsteps := jalr_steps hencodes cpu
    rwa [hrd, h1, himm] at hsteps
  | lui rd imm =>
    obtain ⟨-, hrd, himm⟩ := fields_upper rd _ imm hw
    have hsteps := lui_steps hencodes cpu
    rwa [hrd, himm] at hsteps
  | auipc rd imm =>
    obtain ⟨-, hrd, himm⟩ := fields_upper rd _ imm hw
    have hsteps := auipc_steps hencodes cpu
    rwa [hrd, himm] at hsteps

end MiniOs.Cemu
