import MiniOs.Proofs.Integer

/-!
# The instructions on control registers

`CSRRW` writes the control register and then `rd`. The other handlers write `rd` first, and
two of them read `rs1` after that, which is the value of the control register by then where
`rd` is the same register; for `x0` too, since nothing clears it in between. The handlers
with an immediate read no register, and only one of them has the operand right: `CSRRSI`
shifts a 1 by it, and the complement `CSRRCI` takes has 32 bits.

This is about the registers the array has a place for. The views of `mstatus`, `mie` and
`mip` are another matter.
-/

namespace MiniOs.Cemu

open MiniOs.Spec Function

variable {w : BitVec 32} {i : Instr} {cpu : Cpu}

/-- A control register that is stored in the array. -/
def PlainCsr (addr : CsrAddr) : Prop := addr ≠ SIE ∧ addr ≠ SIP ∧ addr ≠ SSTATUS

instance (addr : CsrAddr) : Decidable (PlainCsr addr) := inferInstanceAs (Decidable (_ ∧ _))

theorem PlainCsr.load {addr : CsrAddr} (h : PlainCsr addr) (csr : Csr) : csr.load addr = csr addr := by
  unfold Csr.load
  rw [if_neg h.1, if_neg h.2.1, if_neg h.2.2]

theorem PlainCsr.store {addr : CsrAddr} (h : PlainCsr addr) (csr : Csr) (v : Word) :
    csr.store addr v = update csr addr v := by
  unfold Csr.store
  rw [if_neg h.1, if_neg h.2.1, if_neg h.2.2]

/-- The instruction leaves the old value of the control register in `rd` and `new` in the
register, and nothing else is different. -/
def CsrSteps (cpu : Cpu) (w : BitVec 32) (new : Word) : Prop :=
  ∃ cpu', execute cpu w = (.done (cpu.pc + 4), cpu') ∧
    cpu'.registers = cpu.registers.write (fieldRd w) (cpu.csr (fieldCsr w)) ∧
    cpu'.csr = update cpu.csr (fieldCsr w) new ∧ cpu'.pc = cpu.pc ∧
    cpu'.bus = cpu.bus ∧ cpu'.mode = cpu.mode

theorem csrSteps_iff {cpu' : Cpu} {new : Word}
    (h : execute cpu w = (.done (cpu.pc + 4), cpu'))
    (hx : cpu'.registers = cpu.registers.write (fieldRd w) (cpu.csr (fieldCsr w)))
    (hcsr : cpu'.csr = update cpu.csr (fieldCsr w) new)
    (hrest : cpu'.pc = cpu.pc ∧ cpu'.bus = cpu.bus ∧ cpu'.mode = cpu.mode) (new' : Word) :
    CsrSteps cpu w new' ↔ new = new' := by
  constructor
  · rintro ⟨cpu1, hrun, -, hcsr1, -⟩
    rw [h] at hrun
    obtain rfl := (Prod.mk.inj hrun).2
    have hsame := congrFun (hcsr.symm.trans hcsr1) (fieldCsr w)
    rwa [update_self, update_self] at hsame
  · rintro rfl
    exact ⟨cpu', h, hx, hcsr, hrest⟩

theorem csrAfterRd_steps_iff {value : Word → Cpu → BitVec 32 → Word}
    (h : execute cpu w = csrAfterRd value (cpu.setReg 0 0) w) (hplain : PlainCsr (fieldCsr w))
    (new : Word) :
    CsrSteps cpu w new ↔ value (cpu.csr (fieldCsr w))
      ((cpu.setReg 0 0).setReg (fieldRd w) (cpu.csr (fieldCsr w))) w = new := by
  have hload : (cpu.setReg 0 0).csr.load (csrAddr w) = cpu.csr (fieldCsr w) := hplain.load cpu.csr
  unfold csrAfterRd at h
  rw [hload] at h
  refine csrSteps_iff h ?_ (hplain.store cpu.csr _) ⟨rfl, rfl, rfl⟩ new
  change ((cpu.setReg 0 0).setReg (rd w) (cpu.csr (fieldCsr w))).registers = _
  rw [registers_setReg, registers_clear]
  rfl

theorem regs_after (cpu : Cpu) (rd r : BitVec 5) (t : Word) :
    ((cpu.setReg 0 0).setReg rd t).regs r = if rd = r then t else cpu.registers.read r := by
  change update (cpu.setReg 0 0).regs rd t r = _
  rw [update_apply, regs_clear]
  by_cases hr : r = rd
  · rw [if_pos hr, if_pos hr.symm]
  · rw [if_neg hr, if_neg (Ne.symm hr)]

theorem rs1_eq (w : BitVec 32) : rs1 w = fieldRs1 w := rfl

/-! ## The values -/

theorem bits_eq_iff {n : Nat} (x y : BitVec n) : x = y ↔ ∀ k, k < n → x.getLsbD k = y.getLsbD k :=
  ⟨fun h _ _ => by rw [h], fun h => BitVec.eq_of_getLsbD_eq h⟩

section Values

variable (t v : Word)

theorem or_self_eq_or_iff : t ||| t = t ||| v ↔ v &&& ~~~t = 0 := by
  rw [bits_eq_iff, bits_eq_iff]
  refine forall_congr' fun k => forall_congr' fun hk => ?_
  rw [BitVec.getLsbD_or, BitVec.getLsbD_or, BitVec.getLsbD_and, BitVec.getLsbD_not, decide_eq_true hk]
  cases t.getLsbD k <;> cases v.getLsbD k <;> simp

theorem and_not_self_eq_iff : t &&& ~~~t = t &&& ~~~v ↔ t &&& ~~~v = 0 := by
  rw [BitVec.and_not_self]
  exact eq_comm

/-- The complement on 32 bits clears the upper half. -/
theorem and_not_cut_iff (z : BitVec 5) :
    t &&& (~~~(z.setWidth 32 : BitVec 32)).setWidth 64 = t &&& ~~~(z.setWidth 64) ↔
      t.toNat < 2 ^ 32 := by
  rw [bits_eq_iff]
  constructor
  · intro h
    have htop : t = (t.setWidth 32).setWidth 64 := by
      apply BitVec.eq_of_getLsbD_eq
      intro k hk
      have hbit := h k hk
      have hz : 32 ≤ k → z.getLsbD k = false := fun hle => BitVec.getLsbD_of_ge z k (by omega)
      simp only [BitVec.getLsbD_and, BitVec.getLsbD_not, BitVec.getLsbD_setWidth] at hbit ⊢
      grind
    rw [htop, BitVec.toNat_setWidth, BitVec.toNat_setWidth]
    omega
  · intro hlt k hk
    have htop : 32 ≤ k → t.getLsbD k = false := fun hle =>
      Nat.testBit_lt_two_pow (Nat.lt_of_lt_of_le hlt (Nat.pow_le_pow_right (by decide) hle))
    simp only [BitVec.getLsbD_and, BitVec.getLsbD_not, BitVec.getLsbD_setWidth]
    grind

/-- The bits of `1 << z`, which is an `int` and is sign-extended. -/
theorem getLsbD_one_shl (z : BitVec 5) {k : Nat} (hk : k < 64) :
    (((1 : BitVec 32) <<< (z.setWidth 32 : BitVec 32).toNat).signExtend 64).getLsbD k =
      decide (k = z.toNat ∨ z.toNat = 31 ∧ 31 ≤ k) := by
  have hz := z.isLt
  have hone : ∀ k, (1 : BitVec 32).getLsbD k = decide (k = 0) := by
    intro k
    simp
  rw [BitVec.toNat_setWidth, Nat.mod_eq_of_lt (by omega)]
  simp only [BitVec.getLsbD_signExtend, BitVec.msb_eq_getLsbD_last, BitVec.getLsbD_shiftLeft, hone]
  grind

end Values

/-- What the handlers need of their operands. With `rd` the same register as `rs1`, `CSRRS`
sets no bit that was clear and `CSRRC` clears them all. `CSRRSI` sets the bit with the number
in the field, or the bits from 31 on, and not the bits of the number; and `CSRRCI` clears the
upper half. -/
def CsrRight (i : Instr) (w : BitVec 32) (t v : Word) : Prop :=
  (i = .csrrs → fieldRd w = fieldRs1 w → v &&& ~~~t = 0) ∧
    (i = .csrrc → fieldRd w = fieldRs1 w → t &&& ~~~v = 0) ∧
    (i = .csrrsi → ∀ k, k < 64 → ¬ ((fieldRs1 w).getLsbD k = true ↔
        k = (fieldRs1 w).toNat ∨ (fieldRs1 w).toNat = 31 ∧ 31 ≤ k) → t.getLsbD k = true) ∧
    (i = .csrrci → t.toNat < 2 ^ 32)

section Handlers

variable (hplain : PlainCsr (fieldCsr w)) (cpu : Cpu)
include hplain

theorem csrrw_steps (h : Instr.csrrw.Encodes w) :
    CsrSteps cpu w (cpu.registers.read (fieldRs1 w)) := by
  have hload : (cpu.setReg 0 0).csr.load (csrAddr w) = cpu.csr (fieldCsr w) := hplain.load cpu.csr
  have hexecute := execute_of_encodes h (by decide) (by decide) cpu
  change _ = executeCSR_RW (cpu.setReg 0 0) w at hexecute
  unfold executeCSR_RW at hexecute
  rw [hload, regs_clear] at hexecute
  refine (csrSteps_iff hexecute ?_ (hplain.store cpu.csr _) ⟨rfl, rfl, rfl⟩ _).mpr rfl
  rw [registers_setReg]
  exact congrArg (Registers.write · (fieldRd w) (cpu.csr (fieldCsr w))) (registers_clear cpu)

theorem csrrwi_steps (h : Instr.csrrwi.Encodes w) :
    CsrSteps cpu w ((fieldRs1 w).setWidth 64) := by
  rw [@csrAfterRd_steps_iff w cpu (fun _ _ w => (uimm w).setWidth 64)
    (execute_of_encodes h (by decide) (by decide) cpu) hplain]
  have hlt := (fieldRs1 w).isLt
  refine BitVec.eq_of_toNat_eq ?_
  change (((fieldRs1 w).setWidth 32).setWidth 64).toNat = _
  rw [BitVec.toNat_setWidth, BitVec.toNat_setWidth, BitVec.toNat_setWidth]
  omega

theorem csrrs_steps_iff (h : Instr.csrrs.Encodes w) :
    CsrSteps cpu w (cpu.csr (fieldCsr w) ||| cpu.registers.read (fieldRs1 w)) ↔
      (fieldRd w = fieldRs1 w →
        cpu.registers.read (fieldRs1 w) &&& ~~~cpu.csr (fieldCsr w) = 0) := by
  rw [@csrAfterRd_steps_iff w cpu (fun t cpu w => t ||| cpu.regs (rs1 w))
    (execute_of_encodes h (by decide) (by decide) cpu) hplain, regs_after, rs1_eq]
  by_cases hrd : fieldRd w = fieldRs1 w
  · rw [if_pos hrd, or_self_eq_or_iff]
    exact ⟨fun hbits _ => hbits, fun hbits => hbits hrd⟩
  · rw [if_neg hrd]
    exact iff_of_true rfl fun heq => absurd heq hrd

theorem csrrc_steps_iff (h : Instr.csrrc.Encodes w) :
    CsrSteps cpu w (cpu.csr (fieldCsr w) &&& ~~~cpu.registers.read (fieldRs1 w)) ↔
      (fieldRd w = fieldRs1 w →
        cpu.csr (fieldCsr w) &&& ~~~cpu.registers.read (fieldRs1 w) = 0) := by
  rw [@csrAfterRd_steps_iff w cpu (fun t cpu w => t &&& ~~~cpu.regs (rs1 w))
    (execute_of_encodes h (by decide) (by decide) cpu) hplain, regs_after, rs1_eq]
  by_cases hrd : fieldRd w = fieldRs1 w
  · rw [if_pos hrd, and_not_self_eq_iff]
    exact ⟨fun hbits _ => hbits, fun hbits => hbits hrd⟩
  · rw [if_neg hrd]
    exact iff_of_true rfl fun heq => absurd heq hrd

theorem csrrsi_steps_iff (h : Instr.csrrsi.Encodes w) :
    CsrSteps cpu w (cpu.csr (fieldCsr w) ||| (fieldRs1 w).setWidth 64) ↔
      ∀ k, k < 64 → ¬ ((fieldRs1 w).getLsbD k = true ↔
        k = (fieldRs1 w).toNat ∨ (fieldRs1 w).toNat = 31 ∧ 31 ≤ k) →
          (cpu.csr (fieldCsr w)).getLsbD k = true := by
  rw [@csrAfterRd_steps_iff w cpu
    (fun t _ w => t ||| ((1 : BitVec 32) <<< (uimm w).toNat).signExtend 64)
    (execute_of_encodes h (by decide) (by decide) cpu) hplain, bits_eq_iff]
  refine forall_congr' fun k => forall_congr' fun hk => ?_
  have hone := getLsbD_one_shl (fieldRs1 w) hk
  change (_ ||| ((1 : BitVec 32) <<< ((fieldRs1 w).setWidth 32).toNat).signExtend 64).getLsbD k = _
    ↔ _
  rw [BitVec.getLsbD_or, BitVec.getLsbD_or, BitVec.getLsbD_setWidth, hone]
  cases (cpu.csr (fieldCsr w)).getLsbD k <;> cases (fieldRs1 w).getLsbD k <;> simp [hk]
  all_goals tauto

theorem csrrci_steps_iff (h : Instr.csrrci.Encodes w) :
    CsrSteps cpu w (cpu.csr (fieldCsr w) &&& ~~~(fieldRs1 w).setWidth 64) ↔
      (cpu.csr (fieldCsr w)).toNat < 2 ^ 32 := by
  rw [@csrAfterRd_steps_iff w cpu (fun t _ w => t &&& (~~~uimm w).setWidth 64)
    (execute_of_encodes h (by decide) (by decide) cpu) hplain]
  exact and_not_cut_iff _ _

end Handlers

/-- Each instruction of Zicsr leaves the old value in `rd` and the new value of the
specification in a plain control register, where its operands are among those the handler is
right about. -/
theorem csr_ops_follow_iff {i : Instr} {f : Word → Word → Word} (hf : i.csrOp = some f)
    {w : BitVec 32} (h : i.Encodes w) (hplain : PlainCsr (fieldCsr w)) (cpu : Cpu) :
    CsrSteps cpu w (f (cpu.csr (fieldCsr w)) (i.csrOperand w cpu.registers)) ↔
      CsrRight i w (cpu.csr (fieldCsr w)) (i.csrOperand w cpu.registers) := by
  cases i with
  | csrrw =>
    obtain rfl := Option.some.inj hf
    exact iff_of_true (csrrw_steps hplain cpu h) ⟨nofun, nofun, nofun, nofun⟩
  | csrrwi =>
    obtain rfl := Option.some.inj hf
    exact iff_of_true (csrrwi_steps hplain cpu h) ⟨nofun, nofun, nofun, nofun⟩
  | csrrs =>
    obtain rfl := Option.some.inj hf
    exact (csrrs_steps_iff hplain cpu h).trans
      ⟨fun hbits => ⟨fun _ => hbits, nofun, nofun, nofun⟩, fun hright => hright.1 rfl⟩
  | csrrc =>
    obtain rfl := Option.some.inj hf
    exact (csrrc_steps_iff hplain cpu h).trans
      ⟨fun hbits => ⟨nofun, fun _ => hbits, nofun, nofun⟩, fun hright => hright.2.1 rfl⟩
  | csrrsi =>
    obtain rfl := Option.some.inj hf
    exact (csrrsi_steps_iff hplain cpu h).trans
      ⟨fun hbits => ⟨nofun, nofun, fun _ => hbits, nofun⟩, fun hright => hright.2.2.1 rfl⟩
  | csrrci =>
    obtain rfl := Option.some.inj hf
    exact (csrrci_steps_iff hplain cpu h).trans
      ⟨fun hbits => ⟨nofun, nofun, nofun, fun _ => hbits⟩, fun hright => hright.2.2.2 rfl⟩
  | _ => cases hf

/-- `csrrw x1, 0x340, x2`. -/
theorem csr_ops_follow_csrrw : Instr.csrrw.Encodes 0x340110f3 ∧ PlainCsr (fieldCsr 0x340110f3) ∧
    CsrSteps default 0x340110f3 (Instr.csrrw.csrOperand 0x340110f3 (default : Cpu).registers) :=
  ⟨by decide, by decide, (@csr_ops_follow_iff .csrrw _ rfl _ (by decide) (by decide) default).mpr
    ⟨nofun, nofun, nofun, nofun⟩⟩

/-- A processor with `t` in every control register and `v` in every other one. -/
def filled (t v : Word) : Cpu := { (default : Cpu) with csr := fun _ => t, regs := fun _ => v }

/-- On the register 0x340: `csrrs x1, 0x340, x1` does not set bit 0, `csrrc x1, 0x340, x1`
clears bit 0 where `x1` has bit 1, `csrrsi x0, 0x340, 1` does not set bit 0, and
`csrrci x0, 0x340, 0` clears bit 32. -/
theorem csr_ops_go_wrong :
    (Instr.csrrs.Encodes 0x3400a0f3 ∧ ¬ CsrSteps (filled 0 1) 0x3400a0f3 (0 ||| 1)) ∧
    (Instr.csrrc.Encodes 0x3400b0f3 ∧ ¬ CsrSteps (filled 1 2) 0x3400b0f3 (1 &&& ~~~2)) ∧
    (Instr.csrrsi.Encodes 0x3400e073 ∧ ¬ CsrSteps (filled 0 0) 0x3400e073 (0 ||| 1)) ∧
    (Instr.csrrci.Encodes 0x34007073 ∧
      ¬ CsrSteps (filled 0x100000000 0) 0x34007073 (0x100000000 &&& ~~~0)) := by
  refine ⟨⟨by decide, fun hsteps => ?_⟩, ⟨by decide, fun hsteps => ?_⟩,
    ⟨by decide, fun hsteps => ?_⟩, by decide, fun hsteps => ?_⟩
  · exact absurd ((csrrs_steps_iff (by decide) _ (by decide)).mp hsteps rfl) (by decide)
  · exact absurd ((csrrc_steps_iff (by decide) _ (by decide)).mp hsteps rfl) (by decide)
  · exact absurd ((csrrsi_steps_iff (by decide) _ (by decide)).mp hsteps 0 (by decide) (by decide))
      (by decide)
  · exact absurd ((csrrci_steps_iff (by decide) _ (by decide)).mp hsteps) (by decide)

end MiniOs.Cemu
