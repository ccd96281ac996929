import MiniOs.Spec.Isa

/-!
# What the instructions do

RV64I and Zicsr as the RISC-V specification has them, as far as registers go: the operands
in a word, what an instruction computes from them, and where it goes on. Nothing here is
about the emulator.

Registers carry that `x0` is 0, so that no statement about them has to say it.
-/

namespace MiniOs.Spec

/-! ## Registers -/

/-- `x0` to `x31`. -/
@[ext] structure Registers where
  read : BitVec 5 → BitVec 64
  zero : read 0 = 0

namespace Registers

/-- The registers after a write to `rd`; a write to `x0` is lost. -/
def write (x : Registers) (rd : BitVec 5) (v : BitVec 64) : Registers where
  read r := if r = 0 then 0 else if r = rd then v else x.read r
  zero := if_pos rfl

variable (x : Registers) {rd r : BitVec 5} (v v' : BitVec 64)

theorem write_read : (x.write rd v).read r =
    if r = 0 then 0 else if r = rd then v else x.read r := rfl

/-- Two writes to a register differ where the values do, unless the register is `x0`. -/
theorem write_eq_iff : x.write rd v = x.write rd v' ↔ rd = 0 ∨ v = v' := by
  constructor
  · intro h
    by_cases hrd : rd = 0
    · exact Or.inl hrd
    · have hread := congrArg (Registers.read · rd) h
      simp only [write_read, if_neg hrd, if_true] at hread
      exact Or.inr hread
  · rintro (rfl | rfl)
    · refine Registers.ext (funext fun r => ?_)
      rw [write_read, write_read]
      by_cases hr : r = 0
      · rw [if_pos hr, if_pos hr]
      · rw [if_neg hr, if_neg hr, if_neg hr, if_neg hr]
    · rfl

end Registers

/-! ## Operands -/

section Operands

variable (w : BitVec 32)

/-- The fields `rd`, `rs1` and `rs2`. -/
def fieldRd : BitVec 5 := w.extractLsb' 7 5
def fieldRs1 : BitVec 5 := w.extractLsb' 15 5
def fieldRs2 : BitVec 5 := w.extractLsb' 20 5

/-- The immediates of the formats, as the bits of the word that are in them. -/
def immediateI : BitVec 12 := w.extractLsb' 20 12
def immediateB : BitVec 13 :=
  w.extractLsb' 31 1 ++ w.extractLsb' 7 1 ++ w.extractLsb' 25 6 ++ w.extractLsb' 8 4 ++ 0#1
def immediateU : BitVec 32 := w.extractLsb' 12 20 ++ 0#12
def immediateJ : BitVec 21 :=
  w.extractLsb' 31 1 ++ w.extractLsb' 12 8 ++ w.extractLsb' 20 1 ++ w.extractLsb' 21 10 ++ 0#1

end Operands

namespace Instr

/-- The second operand of an integer instruction: a distance, an immediate or `rs2`. -/
def operand (i : Instr) (w : BitVec 32) (x : Registers) : BitVec 64 :=
  match i with
  | slli | srli | srai => (w.extractLsb' 20 6).setWidth 64
  | slliw | srliw | sraiw => (w.extractLsb' 20 5).setWidth 64
  | addi | slti | sltiu | xori | ori | andi | addiw => (immediateI w).signExtend 64
  | _ => x.read (fieldRs2 w)

/-- What an instruction on 64 bits computes. Comparisons are signed or unsigned, and a
distance is taken modulo 64. -/
def op64 : Instr → Option (BitVec 64 → BitVec 64 → BitVec 64)
  | addi | add => some fun a b => a + b
  | sub => some fun a b => a - b
  | slti | slt => some fun a b => if a.toInt < b.toInt then 1 else 0
  | sltiu | sltu => some fun a b => if a.toNat < b.toNat then 1 else 0
  | xori | xor => some fun a b => a ^^^ b
  | ori | or => some fun a b => a ||| b
  | andi | and => some fun a b => a &&& b
  | slli | sll => some fun a b => a <<< (b.toNat % 64)
  | srli | srl => some fun a b => a >>> (b.toNat % 64)
  | srai | sra => some fun a b => a.sshiftRight (b.toNat % 64)
  | _ => none

/-- What an instruction on 32 bits computes. The result is sign-extended. -/
def op32 : Instr → Option (BitVec 32 → BitVec 32 → BitVec 32)
  | addiw | addw => some fun a b => a + b
  | subw => some fun a b => a - b
  | slliw | sllw => some fun a b => a <<< (b.toNat % 32)
  | srliw | srlw => some fun a b => a >>> (b.toNat % 32)
  | sraiw | sraw => some fun a b => a.sshiftRight (b.toNat % 32)
  | _ => none

end Instr

/-! ## Control registers -/

/-- The address of a control register in a word. -/
def fieldCsr (w : BitVec 32) : BitVec 12 := w.extractLsb' 20 12

namespace Instr

/-- The operand of an instruction of Zicsr: a register, or the field of it as a number. -/
def csrOperand (i : Instr) (w : BitVec 32) (x : Registers) : BitVec 64 :=
  match i with
  | csrrwi | csrrsi | csrrci => (fieldRs1 w).setWidth 64
  | _ => x.read (fieldRs1 w)

/-- What the control register becomes, of its value and the operand. -/
def csrOp : Instr → Option (BitVec 64 → BitVec 64 → BitVec 64)
  | csrrw | csrrwi => some fun _ v => v
  | csrrs | csrrsi => some fun t v => t ||| v
  | csrrc | csrrci => some fun t v => t &&& ~~~v
  | _ => none

end Instr

/-! ## Transfers of control -/

/-- An offset of a branch or a jump: the lowest bit is 0, and the encoding leaves it out. -/
structure Offset (n : Nat) where
  value : BitVec n
  even : value.getLsbD 0 = false

/-- The condition of a branch. -/
inductive Condition where
  | eq | ne | lt | ge | ltu | geu
  deriving DecidableEq, Repr

namespace Condition

/-- The branch instruction. -/
def instr : Condition → Instr
  | eq => .beq
  | ne => .bne
  | lt => .blt
  | ge => .bge
  | ltu => .bltu
  | geu => .bgeu

/-- Whether the branch is taken. -/
def holds : Condition → BitVec 64 → BitVec 64 → Bool
  | eq, a, b => a = b
  | ne, a, b => a ≠ b
  | lt, a, b => a.toInt < b.toInt
  | ge, a, b => b.toInt ≤ a.toInt
  | ltu, a, b => a.toNat < b.toNat
  | geu, a, b => b.toNat ≤ a.toNat

end Condition

/-- A branch, a jump or an upper immediate with its operands. -/
inductive Transfer where
  | branch (cond : Condition) (rs1 rs2 : BitVec 5) (offset : Offset 13)
  | jal (rd : BitVec 5) (offset : Offset 21)
  | jalr (rd rs1 : BitVec 5) (imm : BitVec 12)
  | lui (rd : BitVec 5) (imm : BitVec 20)
  | auipc (rd : BitVec 5) (imm : BitVec 20)

namespace Transfer

/-- The instruction. -/
def instr : Transfer → Instr
  | branch cond .. => cond.instr
  | jal .. => .jal
  | jalr .. => .jalr
  | lui .. => .lui
  | auipc .. => .auipc

/-- `opcode` and `funct3` of the instruction. -/
def opcode (t : Transfer) : BitVec 7 := t.instr.value.extractLsb' 0 7
def funct3 (t : Transfer) : BitVec 3 := t.instr.value.extractLsb' 12 3

/-- The word, field by field from the top. -/
def encode (t : Transfer) : BitVec 32 :=
  match t with
  | branch _ rs1 rs2 offset =>
    offset.value.extractLsb' 12 1 ++ offset.value.extractLsb' 5 6 ++ rs2 ++ rs1 ++ t.funct3 ++
      offset.value.extractLsb' 1 4 ++ offset.value.extractLsb' 11 1 ++ t.opcode
  | jal rd offset =>
    offset.value.extractLsb' 20 1 ++ offset.value.extractLsb' 1 10 ++
      offset.value.extractLsb' 11 1 ++ offset.value.extractLsb' 12 8 ++ rd ++ t.opcode
  | jalr rd rs1 imm => imm ++ rs1 ++ t.funct3 ++ rd ++ t.opcode
  | lui rd imm | auipc rd imm => imm ++ rd ++ t.opcode

/-- Where the instruction goes on. -/
def nextPc (t : Transfer) (x : Registers) (pc : BitVec 64) : BitVec 64 :=
  match t with
  | branch cond rs1 rs2 offset =>
    if cond.holds (x.read rs1) (x.read rs2) then pc + offset.value.signExtend 64 else pc + 4
  | jal _ offset => pc + offset.value.signExtend 64
  | jalr _ rs1 imm => (x.read rs1 + imm.signExtend 64) &&& ~~~1
  | lui .. | auipc .. => pc + 4

/-- The registers after it. -/
def registers (t : Transfer) (x : Registers) (pc : BitVec 64) : Registers :=
  match t with
  | branch .. => x
  | jal rd _ | jalr rd _ _ => x.write rd (pc + 4)
  | lui rd imm => x.write rd ((imm ++ 0#12).signExtend 64)
  | auipc rd imm => x.write rd (pc + (imm ++ 0#12).signExtend 64)

end Transfer

/-! ## Encodings -/

theorem Instr.value_and_mask (i : Instr) : i.value &&& i.mask = i.value := by
  cases i <;> decide

/-- A word with the `opcode` and the `funct3` of an instruction that has no more in its
mask. -/
theorem encodes_of_fields {w : BitVec 32} {i : Instr} (hmask : i.mask = 0x707f)
    (hopcode : w.extractLsb' 0 7 = i.value.extractLsb' 0 7)
    (h3 : w.extractLsb' 12 3 = i.value.extractLsb' 12 3) : i.Encodes w := by
  have hbits : ∀ k, k < 32 → (0x707f : BitVec 32).getLsbD k = decide (k < 7 ∨ 12 ≤ k ∧ k < 15) := by
    decide
  unfold Instr.Encodes
  rw [← i.value_and_mask, hmask]
  apply BitVec.eq_of_getLsbD_eq
  intro k hk
  rw [BitVec.getLsbD_and, BitVec.getLsbD_and, hbits k hk]
  have hlow := congrArg (BitVec.getLsbD · k) hopcode
  have hmid := congrArg (BitVec.getLsbD · (k - 12)) h3
  simp only [BitVec.getLsbD_extractLsb'] at hlow hmid
  grind

/-- The same for an instruction that has the `opcode` alone. -/
theorem encodes_of_opcode {w : BitVec 32} {i : Instr} (hmask : i.mask = 0x7f)
    (hopcode : w.extractLsb' 0 7 = i.value.extractLsb' 0 7) : i.Encodes w := by
  have hbits : ∀ k, k < 32 → (0x7f : BitVec 32).getLsbD k = decide (k < 7) := by decide
  unfold Instr.Encodes
  rw [← i.value_and_mask, hmask]
  apply BitVec.eq_of_getLsbD_eq
  intro k hk
  rw [BitVec.getLsbD_and, BitVec.getLsbD_and, hbits k hk]
  have hlow := congrArg (BitVec.getLsbD · k) hopcode
  simp only [BitVec.getLsbD_extractLsb'] at hlow
  grind

section Formats

variable {w : BitVec 32} (rd rs1 rs2 : BitVec 5) (opcode : BitVec 7) (funct3 : BitVec 3)

/-- A word of the format B, field by field. -/
theorem fields_branch (o : BitVec 13) (heven : o.getLsbD 0 = false)
    (h : w = o.extractLsb' 12 1 ++ o.extractLsb' 5 6 ++ rs2 ++ rs1 ++ funct3 ++
      o.extractLsb' 1 4 ++ o.extractLsb' 11 1 ++ opcode) :
    w.extractLsb' 0 7 = opcode ∧ w.extractLsb' 12 3 = funct3 ∧ fieldRs1 w = rs1 ∧
      fieldRs2 w = rs2 ∧ immediateB w = o := by
  subst h
  refine ⟨?_, ?_, ?_, ?_, ?_⟩ <;> apply BitVec.eq_of_getLsbD_eq <;> intro k hk <;>
    simp only [fieldRs1, fieldRs2, immediateB, BitVec.getLsbD_extractLsb', BitVec.getLsbD_append] <;>
    grind

theorem fields_jump (o : BitVec 21) (heven : o.getLsbD 0 = false)
    (h : w = o.extractLsb' 20 1 ++ o.extractLsb' 1 10 ++ o.extractLsb' 11 1 ++
      o.extractLsb' 12 8 ++ rd ++ opcode) :
    w.extractLsb' 0 7 = opcode ∧ fieldRd w = rd ∧ immediateJ w = o := by
  subst h
  refine ⟨?_, ?_, ?_⟩ <;> apply BitVec.eq_of_getLsbD_eq <;> intro k hk <;>
    simp only [fieldRd, immediateJ, BitVec.getLsbD_extractLsb', BitVec.getLsbD_append] <;>
    grind

theorem fields_immediate (imm : BitVec 12) (h : w = imm ++ rs1 ++ funct3 ++ rd ++ opcode) :
    w.extractLsb' 0 7 = opcode ∧ w.extractLsb' 12 3 = funct3 ∧ fieldRd w = rd ∧
      fieldRs1 w = rs1 ∧ immediateI w = imm := by
  subst h
  refine ⟨?_, ?_, ?_, ?_, ?_⟩ <;> apply BitVec.eq_of_getLsbD_eq <;> intro k hk <;>
    simp only [fieldRd, fieldRs1, immediateI, BitVec.getLsbD_extractLsb', BitVec.getLsbD_append] <;>
    grind

theorem fields_upper (imm : BitVec 20) (h : w = imm ++ rd ++ opcode) :
    w.extractLsb' 0 7 = opcode ∧ fieldRd w = rd ∧ immediateU w = imm ++ 0#12 := by
  subst h
  refine ⟨?_, ?_, ?_⟩ <;> apply BitVec.eq_of_getLsbD_eq <;> intro k hk <;>
    simp only [fieldRd, immediateU, BitVec.getLsbD_extractLsb', BitVec.getLsbD_append] <;>
    grind

end Formats

theorem Transfer.encodes (t : Transfer) : t.instr.Encodes t.encode := by
  cases t with
  | branch cond rs1 rs2 offset =>
    obtain ⟨hopcode, h3, -⟩ := fields_branch rs1 rs2 _ _ offset.value offset.even rfl
    exact encodes_of_fields (by cases cond <;> rfl) hopcode h3
  | jal rd offset =>
    exact encodes_of_opcode rfl (fields_jump rd _ offset.value offset.even rfl).1
  | jalr rd rs1 imm =>
    obtain ⟨hopcode, h3, -⟩ := fields_immediate rd rs1 _ _ imm rfl
    exact encodes_of_fields rfl hopcode h3
  | lui rd imm => exact encodes_of_opcode rfl (fields_upper rd _ imm rfl).1
  | auipc rd imm => exact encodes_of_opcode rfl (fields_upper rd _ imm rfl).1

end MiniOs.Spec
