import MiniOs.Proofs.Decode
import MiniOs.Spec.Rv64

/-!
# The integer instructions

A handler of an integer instruction writes `rd` and goes on, so that there is one thing to
compare: the value. The immediates are put together from the word with masks and shifts of
C++; each is the immediate of its format, sign-extended, and then the handlers do what the
specification says.

Two do not. `SLTI` compares without signs, and `SLTIU` cuts the immediate to 32 bits. Where
signs agree, and where the immediate is not negative, neither shows.

`x0` is a register like the others in the emulator. It is cleared before an instruction
runs, so what it holds between two of them is never read.
-/

namespace MiniOs.Cemu

open MiniOs.Spec Function

variable {w : BitVec 32} {i : Instr} {cpu : Cpu}

/-! ## Registers -/

/-- The registers as instructions read them. -/
def Cpu.registers (cpu : Cpu) : Registers where
  read r := if r = 0 then 0 else cpu.regs r
  zero := if_pos rfl

theorem regs_clear (cpu : Cpu) (r : BitVec 5) : (cpu.setReg 0 0).regs r = cpu.registers.read r := by
  change update cpu.regs 0 0 r = if r = 0 then 0 else cpu.regs r
  rw [update_apply]

theorem registers_clear (cpu : Cpu) : (cpu.setReg 0 0).registers = cpu.registers := by
  refine Registers.ext (funext fun r => ?_)
  change (if r = 0 then 0 else (cpu.setReg 0 0).regs r) = cpu.registers.read r
  rw [regs_clear]
  split
  · next hr => rw [hr, cpu.registers.zero]
  · rfl

theorem registers_setReg (cpu : Cpu) (rd : BitVec 5) (v : Word) :
    (cpu.setReg rd v).registers = cpu.registers.write rd v := by
  refine Registers.ext (funext fun r => ?_)
  change (if r = 0 then 0 else update cpu.regs rd v r) =
    if r = 0 then 0 else if r = rd then v else if r = 0 then 0 else cpu.regs r
  rw [update_apply]
  by_cases hr : r = 0
  · rw [if_pos hr, if_pos hr]
  · rw [if_neg hr, if_neg hr, if_neg hr]

/-- The instruction goes on at `pc` with the registers `x`, and nothing else is different. -/
def Steps (cpu : Cpu) (w : BitVec 32) (pc : Word) (x : Registers) : Prop :=
  ∃ cpu', execute cpu w = (.done pc, cpu') ∧ cpu'.registers = x ∧ cpu'.pc = cpu.pc ∧
    cpu'.csr = cpu.csr ∧ cpu'.bus = cpu.bus ∧ cpu'.mode = cpu.mode

theorem execute_of_encodes (h : i.Encodes w) (hebreak : i ≠ .ebreak) (hwfi : i ≠ .wfi)
    (cpu : Cpu) : execute cpu w = (opOf i).handler (cpu.setReg 0 0) w := by
  unfold execute
  rw [dispatch_of_encodes h hebreak hwfi]

/-- A handler that writes `rd` is right where the value is, or where the write is lost. -/
theorem writeRd_steps_iff {value : Cpu → BitVec 32 → Word}
    (h : execute cpu w = writeRd value (cpu.setReg 0 0) w) (v : Word) :
    Steps cpu w (cpu.pc + 4) (cpu.registers.write (fieldRd w) v) ↔
      fieldRd w = 0 ∨ value (cpu.setReg 0 0) w = v := by
  rw [← cpu.registers.write_eq_iff]
  have hregisters : ((cpu.setReg 0 0).setReg (rd w) (value (cpu.setReg 0 0) w)).registers =
      cpu.registers.write (fieldRd w) (value (cpu.setReg 0 0) w) := by
    rw [registers_setReg, registers_clear]
    rfl
  constructor
  · rintro ⟨cpu', hrun, hx, -⟩
    rw [h] at hrun
    obtain rfl := (Prod.mk.inj hrun).2
    exact hregisters.symm.trans hx
  · intro heq
    exact ⟨_, h, hregisters.trans heq, rfl, rfl, rfl, rfl⟩

/-! ## Immediates -/

theorem signExtend_signExtend {n : Nat} (x : BitVec n) (h : n ≤ 32) :
    (x.signExtend 32).signExtend 64 = x.signExtend 64 := by
  apply BitVec.eq_of_getLsbD_eq
  intro k hk
  simp only [BitVec.getLsbD_signExtend, BitVec.msb_signExtend]
  grind

theorem immI_eq (w : BitVec 32) : immI w = (immediateI w).signExtend 64 := by
  have hmask : ∀ k, k < 32 → (0xfff00000#32).getLsbD k = decide (20 ≤ k) := by decide
  refine (congrArg (BitVec.signExtend 64) ?_).trans (signExtend_signExtend _ (by decide))
  apply BitVec.eq_of_getLsbD_eq
  intro k hk
  simp only [immediateI, BitVec.getLsbD_sshiftRight, BitVec.getLsbD_signExtend,
    BitVec.msb_eq_getLsbD_last, BitVec.getLsbD_and, BitVec.getLsbD_extractLsb']
  grind

theorem low6_eq (a : Word) : low6 a = a.toNat % 64 := by
  unfold low6
  rw [BitVec.toNat_and]
  exact Nat.and_two_pow_sub_one_eq_mod _ 6

theorem low5_eq (a : BitVec 32) : low5 a = a.toNat % 32 := by
  unfold low5
  rw [BitVec.toNat_and]
  exact Nat.and_two_pow_sub_one_eq_mod _ 5

/-- The distance of a 64-bit shift is in the low bits of the immediate. -/
theorem low6_immI (w : BitVec 32) :
    low6 (immI w) = ((w.extractLsb' 20 6).setWidth 64).toNat % 64 := by
  have hlow : immI w &&& 0x3f = (w.extractLsb' 20 6).setWidth 64 := by
    have hmask : ∀ k, k < 64 → (0x3f#64).getLsbD k = decide (k < 6) := by decide
    apply BitVec.eq_of_getLsbD_eq
    intro k hk
    rw [immI_eq]
    simp only [immediateI, BitVec.getLsbD_and, BitVec.getLsbD_signExtend, BitVec.getLsbD_setWidth,
      BitVec.getLsbD_extractLsb']
    grind
  unfold low6
  rw [hlow, BitVec.toNat_setWidth]
  omega

/-! ## 64 bits -/

theorem flag_decide (p : Prop) [Decidable p] : flag (decide p) = if p then 1 else 0 := by
  unfold flag
  simp only [decide_eq_true_eq]

/-- The handlers of the instructions on 64 bits, but for two. -/
theorem handler_op64 {f : Word → Word → Word} (hf : i.op64 = some f) (hslti : i ≠ .slti)
    (hsltiu : i ≠ .sltiu) : ∃ value, (opOf i).handler = writeRd value ∧ value (cpu.setReg 0 0) w =
        f (cpu.registers.read (fieldRs1 w)) (i.operand w cpu.registers) := by
  cases i with
  | slti => exact absurd rfl hslti
  | sltiu => exact absurd rfl hsltiu
  | addi | xori | ori | andi =>
    obtain rfl := Option.some.inj hf
    refine ⟨_, rfl, ?_⟩
    rw [regs_clear, immI_eq]
    rfl
  | slli | srli | srai =>
    obtain rfl := Option.some.inj hf
    refine ⟨_, rfl, ?_⟩
    rw [regs_clear]
    dsimp only
    rw [low6_immI]
    rfl
  | add | sub | xor | or | and =>
    obtain rfl := Option.some.inj hf
    refine ⟨_, rfl, ?_⟩
    rw [regs_clear, regs_clear]
    rfl
  | sll | srl | sra =>
    obtain rfl := Option.some.inj hf
    refine ⟨_, rfl, ?_⟩
    rw [regs_clear, regs_clear]
    dsimp only
    rw [low6_eq]
    rfl
  | slt | sltu =>
    obtain rfl := Option.some.inj hf
    refine ⟨_, rfl, ?_⟩
    rw [regs_clear, regs_clear]
    exact flag_decide _
  | _ => cases hf

/-- A comparison without signs is right where the signs agree. -/
theorem lt_iff_toInt_lt (a b : Word) :
    (a < b ↔ a.toInt < b.toInt) ↔ (a.toInt < 0 ↔ b.toInt < 0) := by
  have ha := BitVec.toInt_eq_toNat_cond a
  have hb := BitVec.toInt_eq_toNat_cond b
  have hlta := a.isLt
  have hltb := b.isLt
  rw [BitVec.lt_def]
  split at ha <;> split at hb <;> omega

theorem ite_one_eq_iff (p q : Prop) [Decidable p] [Decidable q] :
    (if p then (1 : Word) else 0) = (if q then 1 else 0) ↔ (p ↔ q) := by
  by_cases hp : p <;> by_cases hq : q <;> simp [hp, hq]

theorem toInt_immI (w : BitVec 32) : (immI w).toInt = (immediateI w).toInt := by
  rw [immI_eq, BitVec.toInt_signExtend_of_le (by decide)]

/-- The immediate that is left of 64 bits in 32. -/
theorem toNat_cut (w : BitVec 32) : ((((immI w).setWidth 32).setWidth 64).toNat : Int) =
    if (immediateI w).toInt < 0 then 2 ^ 32 + (immediateI w).toInt else (immediateI w).toInt := by
  have hlo : -2048 ≤ (immediateI w).toInt := BitVec.le_toInt (immediateI w)
  have hhi : (immediateI w).toInt < 2048 := BitVec.toInt_lt
  have himm := toInt_immI w
  rw [BitVec.toInt_eq_toNat_cond] at himm
  have hlt := (immI w).isLt
  rw [BitVec.toNat_setWidth, BitVec.toNat_setWidth]
  split at himm <;> split <;> omega

/-- What `SLTI` and `SLTIU` need of their operands: the same sign, and an immediate that is
not negative or does not matter. -/
def ComparesRight (i : Instr) (w : BitVec 32) (a : Word) : Prop :=
  (i = .slti → (a.toInt < 0 ↔ (immediateI w).toInt < 0)) ∧
    (i = .sltiu → 0 ≤ (immediateI w).toInt ∨ (a.toNat : Int) < 2 ^ 32 + (immediateI w).toInt ∨
      2 ^ 64 + (immediateI w).toInt ≤ a.toNat)

theorem slti_steps_iff (h : Instr.slti.Encodes w) (cpu : Cpu) :
    Steps cpu w (cpu.pc + 4) (cpu.registers.write (fieldRd w)
        (if (cpu.registers.read (fieldRs1 w)).toInt < ((immediateI w).signExtend 64).toInt then 1
          else 0)) ↔
      fieldRd w = 0 ∨ ComparesRight .slti w (cpu.registers.read (fieldRs1 w)) := by
  rw [@writeRd_steps_iff w cpu (fun cpu w => flag (cpu.regs (rs1 w) < immI w))
      (execute_of_encodes h (by decide) (by decide) cpu),
    regs_clear, flag_decide, ← immI_eq, ite_one_eq_iff]
  refine or_congr_right ((lt_iff_toInt_lt _ _).trans ?_)
  rw [toInt_immI]
  exact ⟨fun hsign => ⟨fun _ => hsign, fun hne => absurd hne (by decide)⟩, fun hright => hright.1 rfl⟩

theorem sltiu_steps_iff (h : Instr.sltiu.Encodes w) (cpu : Cpu) :
    Steps cpu w (cpu.pc + 4) (cpu.registers.write (fieldRd w)
        (if (cpu.registers.read (fieldRs1 w)).toNat < ((immediateI w).signExtend 64).toNat then 1
          else 0)) ↔
      fieldRd w = 0 ∨ ComparesRight .sltiu w (cpu.registers.read (fieldRs1 w)) := by
  obtain ⟨a, ha⟩ : ∃ a, a = cpu.registers.read (fieldRs1 w) := ⟨_, rfl⟩
  have hcut := toNat_cut w
  have himm := toInt_immI w
  have hlo : -2048 ≤ (immediateI w).toInt := BitVec.le_toInt (immediateI w)
  have hhi : (immediateI w).toInt < 2048 := BitVec.toInt_lt
  have hlt := (immI w).isLt
  rw [BitVec.toInt_eq_toNat_cond] at himm
  rw [@writeRd_steps_iff w cpu
      (fun cpu w => flag (cpu.regs (rs1 w) < ((immI w).setWidth 32).setWidth 64))
      (execute_of_encodes h (by decide) (by decide) cpu),
    regs_clear, flag_decide, ← immI_eq, ite_one_eq_iff, BitVec.lt_def]
  change _ ∨ ((cpu.registers.read (fieldRs1 w)).toNat < _ ↔ _) ↔ _
  rw [← ha]
  have hright : ComparesRight .sltiu w a ↔ (0 ≤ (immediateI w).toInt ∨
      (a.toNat : Int) < 2 ^ 32 + (immediateI w).toInt ∨ 2 ^ 64 + (immediateI w).toInt ≤ a.toNat) :=
    ⟨fun hright => hright.2 rfl, fun hcond => ⟨fun hne => absurd hne (by decide), fun _ => hcond⟩⟩
  rw [hright]
  refine or_congr_right ?_
  split at hcut <;> split at himm <;> omega

/-- Each instruction on 64 bits goes on behind itself and writes to `rd` what the
specification has, and changes nothing else, but where a comparison sees the wrong
immediate. -/
theorem integer_ops_follow_iff {i : Instr} {f : Word → Word → Word} (hf : i.op64 = some f)
    {w : BitVec 32} (h : i.Encodes w) (cpu : Cpu) :
    Steps cpu w (cpu.pc + 4) (cpu.registers.write (fieldRd w)
        (f (cpu.registers.read (fieldRs1 w)) (i.operand w cpu.registers))) ↔
      fieldRd w = 0 ∨ ComparesRight i w (cpu.registers.read (fieldRs1 w)) := by
  by_cases hslti : i = .slti
  · subst hslti
    obtain rfl := Option.some.inj hf
    exact slti_steps_iff h cpu
  by_cases hsltiu : i = .sltiu
  · subst hsltiu
    obtain rfl := Option.some.inj hf
    exact sltiu_steps_iff h cpu
  · obtain ⟨value, hhandler, hvalue⟩ := @handler_op64 w i cpu f hf hslti hsltiu
    have hexecute : execute cpu w = writeRd value (cpu.setReg 0 0) w := by
      rw [execute_of_encodes h (by rintro rfl; cases hf) (by rintro rfl; cases hf), hhandler]
    refine iff_of_true ((writeRd_steps_iff hexecute _).mpr (Or.inr hvalue)) (Or.inr ?_)
    exact ⟨fun heq => absurd heq hslti, fun heq => absurd heq hsltiu⟩

/-- `addi x1, x0, -1` leaves -1 in `x1`. -/
theorem integer_ops_follow_addi : Instr.addi.Encodes 0xfff00093 ∧
    Steps default 0xfff00093 ((default : Cpu).pc + 4)
      ((default : Cpu).registers.write (fieldRd 0xfff00093)
        ((default : Cpu).registers.read (fieldRs1 0xfff00093) +
          Instr.addi.operand 0xfff00093 (default : Cpu).registers)) :=
  ⟨by decide, (integer_ops_follow_iff rfl (by decide) default).mpr
    (Or.inr ⟨fun h => absurd h (by decide), fun h => absurd h (by decide)⟩)⟩

/-- `slti x1, x0, -1` finds that 0 is less than -1, and `sltiu x1, x2, -1` that `2 ^ 32` in
`x2` is not less than `2 ^ 64 - 1`. -/
theorem slti_ignores_signs :
    (Instr.slti.Encodes 0xfff02093 ∧ ¬ Steps default 0xfff02093 ((default : Cpu).pc + 4)
      ((default : Cpu).registers.write 1 (if (0 : Word).toInt < (-1 : Word).toInt then 1 else 0))) ∧
    (Instr.sltiu.Encodes 0xfff13093 ∧ ∃ cpu : Cpu, cpu.regs 2 = 0x100000000 ∧
      ¬ Steps cpu 0xfff13093 (cpu.pc + 4) (cpu.registers.write 1
        (if (0x100000000 : Word).toNat < (-1 : Word).toNat then 1 else 0))) := by
  refine ⟨⟨by decide, fun hsteps => ?_⟩, by decide,
    { (default : Cpu) with regs := fun _ => 0x100000000 }, rfl, fun hsteps => ?_⟩
  · rcases (slti_steps_iff (by decide) default).mp hsteps with hrd | ⟨hright, -⟩
    · exact absurd hrd (by decide)
    · exact absurd (hright rfl) (by decide)
  · rcases (sltiu_steps_iff (by decide) _).mp hsteps with hrd | ⟨-, hright⟩
    · exact absurd hrd (by decide)
    · exact absurd (hright rfl) (by decide)

/-! ## 32 bits -/

/-- The distance of a 32-bit shift has a field of its own. -/
theorem shamt_eq (w : BitVec 32) :
    shamt w = (((w.extractLsb' 20 5).setWidth 64).setWidth 32).toNat % 32 := by
  have hlt := (w.extractLsb' 20 5).isLt
  unfold shamt
  rw [BitVec.toNat_setWidth, BitVec.toNat_setWidth]
  omega

/-- The handlers of the instructions on 32 bits. -/
theorem handler_op32 {f : BitVec 32 → BitVec 32 → BitVec 32} (hf : i.op32 = some f) :
    ∃ value, (opOf i).handler = writeRd value ∧ value (cpu.setReg 0 0) w =
        (f ((cpu.registers.read (fieldRs1 w)).setWidth 32)
          ((i.operand w cpu.registers).setWidth 32)).signExtend 64 := by
  cases i with
  | addiw =>
    obtain rfl := Option.some.inj hf
    refine ⟨_, rfl, ?_⟩
    rw [regs_clear, immI_eq]
    exact congrArg (BitVec.signExtend 64) (BitVec.setWidth_add _ _ (by decide))
  | slliw | srliw | sraiw =>
    obtain rfl := Option.some.inj hf
    refine ⟨_, rfl, ?_⟩
    rw [regs_clear, shamt_eq]
    rfl
  | addw | subw =>
    obtain rfl := Option.some.inj hf
    refine ⟨_, rfl, ?_⟩
    rw [regs_clear, regs_clear]
    rfl
  | sllw | srlw | sraw =>
    obtain rfl := Option.some.inj hf
    refine ⟨_, rfl, ?_⟩
    rw [regs_clear, regs_clear]
    dsimp only
    rw [low5_eq]
    rfl
  | _ => cases hf

/-- Each instruction on 32 bits goes on behind itself and writes to `rd` the sign extension
of what the specification computes from the low halves of its operands, and changes nothing
else. -/
theorem word_ops_follow {i : Instr} {f : BitVec 32 → BitVec 32 → BitVec 32} (hf : i.op32 = some f)
    {w : BitVec 32} (h : i.Encodes w) (cpu : Cpu) :
    Steps cpu w (cpu.pc + 4) (cpu.registers.write (fieldRd w)
      ((f ((cpu.registers.read (fieldRs1 w)).setWidth 32)
        ((i.operand w cpu.registers).setWidth 32)).signExtend 64)) := by
  obtain ⟨value, hhandler, hvalue⟩ := @handler_op32 w i cpu f hf
  have hexecute : execute cpu w = writeRd value (cpu.setReg 0 0) w := by
    rw [execute_of_encodes h (by rintro rfl; cases hf) (by rintro rfl; cases hf), hhandler]
  exact (writeRd_steps_iff hexecute _).mpr (Or.inr hvalue)

/-- `addiw x1, x0, -1` leaves -1 in `x1`. -/
theorem word_ops_follow_addiw : Instr.addiw.Encodes 0xfff0009b ∧
    Steps default 0xfff0009b ((default : Cpu).pc + 4)
      ((default : Cpu).registers.write (fieldRd 0xfff0009b)
        ((((default : Cpu).registers.read (fieldRs1 0xfff0009b)).setWidth 32 +
          (Instr.addiw.operand 0xfff0009b (default : Cpu).registers).setWidth 32).signExtend 64)) :=
  ⟨by decide, word_ops_follow rfl (by decide) default⟩

end MiniOs.Cemu
