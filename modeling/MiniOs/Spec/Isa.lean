import Mathlib.Algebra.BigOperators.Fin
import Mathlib.Tactic.Common

/-!
# The instruction set

RV64I and Zicsr with the privileged instructions MiniOS needs, as the RISC-V
specification encodes them. An encoding is a mask and a value: the word has the
value in the bits of the mask, and the others are the operands.
-/

namespace MiniOs.Spec

/-- An instruction, without operands. -/
inductive Instr where
  | lui | auipc | jal | jalr
  | beq | bne | blt | bge | bltu | bgeu
  | lb | lh | lw | ld | lbu | lhu | lwu
  | sb | sh | sw | sd
  | addi | slti | sltiu | xori | ori | andi | slli | srli | srai
  | add | sub | sll | slt | sltu | xor | srl | sra | or | and
  | addiw | slliw | srliw | sraiw | addw | subw | sllw | srlw | sraw
  | fence | ecall | ebreak
  | csrrw | csrrs | csrrc | csrrwi | csrrsi | csrrci
  | sret | mret | wfi | sfenceVma
  deriving DecidableEq, Repr

namespace Instr

/-- The bits that tell an instruction from the others. -/
def mask : Instr → BitVec 32
  | lui | auipc | jal => 0x7f
  | slli | srli | srai => 0xfc00707f
  | add | sub | sll | slt | sltu | xor | srl | sra | or | and
  | slliw | srliw | sraiw | addw | subw | sllw | srlw | sraw => 0xfe00707f
  | ecall | ebreak | sret | mret | wfi => 0xffffffff
  | sfenceVma => 0xfe007fff
  | _ => 0x707f

/-- Their value. -/
def value : Instr → BitVec 32
  | lui => 0x37
  | auipc => 0x17
  | jal => 0x6f
  | jalr => 0x67
  | beq => 0x63
  | bne => 0x1063
  | blt => 0x4063
  | bge => 0x5063
  | bltu => 0x6063
  | bgeu => 0x7063
  | lb => 0x3
  | lh => 0x1003
  | lw => 0x2003
  | ld => 0x3003
  | lbu => 0x4003
  | lhu => 0x5003
  | lwu => 0x6003
  | sb => 0x23
  | sh => 0x1023
  | sw => 0x2023
  | sd => 0x3023
  | addi => 0x13
  | slti => 0x2013
  | sltiu => 0x3013
  | xori => 0x4013
  | ori => 0x6013
  | andi => 0x7013
  | slli => 0x1013
  | srli => 0x5013
  | srai => 0x40005013
  | add => 0x33
  | sub => 0x40000033
  | sll => 0x1033
  | slt => 0x2033
  | sltu => 0x3033
  | xor => 0x4033
  | srl => 0x5033
  | sra => 0x40005033
  | or => 0x6033
  | and => 0x7033
  | addiw => 0x1b
  | slliw => 0x101b
  | srliw => 0x501b
  | sraiw => 0x4000501b
  | addw => 0x3b
  | subw => 0x4000003b
  | sllw => 0x103b
  | srlw => 0x503b
  | sraw => 0x4000503b
  | fence => 0xf
  | ecall => 0x73
  | ebreak => 0x00100073
  | csrrw => 0x1073
  | csrrs => 0x2073
  | csrrc => 0x3073
  | csrrwi => 0x5073
  | csrrsi => 0x6073
  | csrrci => 0x7073
  | sret => 0x10200073
  | mret => 0x30200073
  | wfi => 0x10500073
  | sfenceVma => 0x12000073

/-- The word is an encoding of the instruction. -/
def Encodes (i : Instr) (w : BitVec 32) : Prop := w &&& i.mask = i.value

instance (i : Instr) (w : BitVec 32) : Decidable (i.Encodes w) :=
  inferInstanceAs (Decidable (_ = _))

/-- All instructions. -/
def all : List Instr :=
  [lui, auipc, jal, jalr, beq, bne, blt, bge, bltu, bgeu, lb, lh, lw, ld, lbu, lhu, lwu, sb, sh,
    sw, sd, addi, slti, sltiu, xori, ori, andi, slli, srli, srai, add, sub, sll, slt, sltu, xor,
    srl, sra, or, and, addiw, slliw, srliw, sraiw, addw, subw, sllw, srlw, sraw, fence, ecall,
    ebreak, csrrw, csrrs, csrrc, csrrwi, csrrsi, csrrci, sret, mret, wfi, sfenceVma]

theorem mem_all (i : Instr) : i ∈ all := by cases i <;> decide

/-- Two instructions differ in a bit that both masks have. -/
theorem disjoint : ∀ i ∈ all, ∀ j ∈ all, i ≠ j →
    (i.value ^^^ j.value) &&& (i.mask &&& j.mask) ≠ 0 := by
  decide +kernel

/-- A word encodes one instruction at most. -/
theorem Encodes.unique {i j : Instr} {w : BitVec 32} (hi : i.Encodes w) (hj : j.Encodes w) :
    i = j := by
  by_contra hne
  refine disjoint i (mem_all i) j (mem_all j) hne ?_
  rw [← hi, ← hj]
  ext k hk
  simp
  grind

end Instr

end MiniOs.Spec
