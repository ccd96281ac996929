import MiniOs.Cemu.Instructions
import MiniOs.Spec.Isa

/-!
# What the dispatcher takes for an instruction

The dispatcher compares fields of a word with keys, and a key has no more than
`opcode`, `funct3` and `funct7`. For most instructions these fields are all the mask
has, and the dispatcher finds the handler of whatever is an encoding. The privileged
instructions differ in the field of `rs2`, which no key has: `ebreak` is taken for
`ecall`, and `wfi` for `sret`.

In the other direction nothing is right. Words that encode no instruction find a
handler, because keys are too coarse and because of the second look with six bits of
`funct7`, under which a multiplication is an addition. Where no handler is found the
emulator aborts.
-/

namespace MiniOs.Cemu

open MiniOs.Spec

variable {w : BitVec 32} {i : Instr}

/-- The instruction a handler is for. `executeSb` does what `executeStoreByte` does. -/
def Op.instr : Op → Instr
  | .auipc => .auipc
  | .lui => .lui
  | .jalr => .jalr
  | .jal => .jal
  | .lb => .lb
  | .lh => .lh
  | .lw => .lw
  | .ld => .ld
  | .lbu => .lbu
  | .lhu => .lhu
  | .lwu => .lwu
  | .fence => .fence
  | .addi => .addi
  | .slli => .slli
  | .slti => .slti
  | .sltiu => .sltiu
  | .xori => .xori
  | .ori => .ori
  | .andi => .andi
  | .addiw => .addiw
  | .slliw => .slliw
  | .sb => .sb
  | .storeByte => .sb
  | .storeHalf => .sh
  | .storeWord => .sw
  | .storeDouble => .sd
  | .beq => .beq
  | .bne => .bne
  | .blt => .blt
  | .bge => .bge
  | .bltu => .bltu
  | .bgeu => .bgeu
  | .csrRw => .csrrw
  | .csrRs => .csrrs
  | .csrRc => .csrrc
  | .csrRwi => .csrrwi
  | .csrRsi => .csrrsi
  | .csrRci => .csrrci
  | .srli => .srli
  | .srai => .srai
  | .add => .add
  | .sub => .sub
  | .sll => .sll
  | .slt => .slt
  | .sltu => .sltu
  | .xor => .xor
  | .srl => .srl
  | .sra => .sra
  | .or => .or
  | .and => .and
  | .srliw => .srliw
  | .sraiw => .sraiw
  | .addw => .addw
  | .subw => .subw
  | .sllw => .sllw
  | .srlw => .srlw
  | .sraw => .sraw
  | .ecall => .ecall
  | .ebreak => .ebreak
  | .wfi => .wfi
  | .sfenceVma => .sfenceVma
  | .sret => .sret
  | .mret => .mret

/-- The handler that the dispatcher finds for an instruction when every field that the
mask leaves open is zero. -/
def opOf (i : Instr) : Op := (dispatch i.value).getD .ebreak

theorem instr_opOf (hebreak : i ≠ .ebreak) (hwfi : i ≠ .wfi) : (opOf i).instr = i := by
  cases i with
  | ebreak => exact absurd rfl hebreak
  | wfi => exact absurd rfl hwfi
  | _ => rfl

/-- The dispatcher treats a word as the specification has it: it calls the handler of
the instruction the word encodes, and throws where there is none. -/
def DecodesExactly (w : BitVec 32) : Prop :=
  (∀ i : Instr, (∃ op, dispatch w = some op ∧ op.instr = i) ↔ i.Encodes w) ∧
    ((∀ i : Instr, ¬ i.Encodes w) → ∀ cpu, ∃ cpu',
      execute cpu w = (.thrown ⟨.illegalInstruction, w.setWidth 64⟩, cpu'))

/-- A field that the mask covers is that of the value. -/
theorem field_eq {m v : BitVec 32} (h : w &&& m = v) (s n : Nat)
    (hm : m.extractLsb' s n = BitVec.allOnes n) : w.extractLsb' s n = v.extractLsb' s n := by
  rw [← h, BitVec.extractLsb'_and, hm, BitVec.and_allOnes]

theorem opcode_eq (h : i.Encodes w) : opcode w = opcode i.value :=
  field_eq h 0 7 (by cases i <;> rfl)

theorem funct3_eq (h : i.Encodes w) (hm : i.mask.extractLsb' 12 3 = BitVec.allOnes 3) :
    funct3 w = funct3 i.value := field_eq h 12 3 hm

theorem funct7_eq (h : i.Encodes w) (hm : i.mask.extractLsb' 25 7 = BitVec.allOnes 7) :
    funct7 w = funct7 i.value := field_eq h 25 7 hm

theorem funct6_eq (w : BitVec 32) : funct6 w = funct7 w >>> 1 := by
  ext k hk
  simp only [funct6, funct7, BitVec.getElem_setWidth, BitVec.getLsbD_extractLsb',
    BitVec.getElem_ushiftRight]
  grind

/-- The shifts of RV64I have six bits of `funct7`, and are found by them. -/
theorem lookup_shift : ∀ f : BitVec 7,
    (f >>> 1 = 0x00 → lookup 0x13 5 f (f >>> 1) = some .srli) ∧
      (f >>> 1 = 0x10 → lookup 0x13 5 f (f >>> 1) = some .srai) := by
  decide

theorem funct6_of_encodes (h : i.Encodes w) (hm : i.mask.extractLsb' 26 6 = BitVec.allOnes 6) :
    funct7 w >>> 1 = funct6 i.value := by
  rw [← funct6_eq]
  exact congrArg (BitVec.setWidth 7) (field_eq h 26 6 hm)

/-- An instruction of which the fields say all there is to say. -/
theorem dispatch_of_encodes (h : i.Encodes w) (hebreak : i ≠ .ebreak) (hwfi : i ≠ .wfi) :
    dispatch w = some (opOf i) := by
  have hopcode := opcode_eq h
  have h3 := @funct3_eq w i h
  have h7 := @funct7_eq w i h
  rw [dispatch, hopcode]
  cases i with
  | ebreak => exact absurd rfl hebreak
  | wfi => exact absurd rfl hwfi
  | lui | auipc | jal => rfl
  | srli =>
    rw [h3 rfl, funct6_eq]
    exact (lookup_shift (funct7 w)).1 (funct6_of_encodes h rfl)
  | srai =>
    rw [h3 rfl, funct6_eq]
    exact (lookup_shift (funct7 w)).2 (funct6_of_encodes h rfl)
  | add | sub | sll | slt | sltu | xor | srl | sra | or | and | srliw | sraiw | addw | subw
  | sllw | srlw | sraw | ecall | sret | mret | sfenceVma =>
    rw [h3 rfl, h7 rfl]
    rfl
  | _ =>
    rw [h3 rfl]
    rfl

/-- The dispatcher is right about the words that encode an instruction, but for two,
and about no other. -/
theorem decodes_exactly_iff (w : BitVec 32) :
    DecodesExactly w ↔ (∃ i : Instr, i.Encodes w) ∧ w ≠ 0x00100073 ∧ w ≠ 0x10500073 := by
  constructor
  · rintro ⟨hdispatch, hthrows⟩
    refine ⟨?_, ?_, ?_⟩
    · by_contra hnone
      push Not at hnone
      have hfound : dispatch w = none := by
        rw [Option.eq_none_iff_forall_ne_some]
        intro op hop
        exact hnone op.instr ((hdispatch op.instr).mp ⟨op, hop, rfl⟩)
      obtain ⟨cpu', heq⟩ := hthrows hnone default
      rw [execute, hfound] at heq
      cases heq
    · rintro rfl
      exact absurd ((hdispatch .ecall).mp ⟨.ecall, by decide, rfl⟩) (by decide)
    · rintro rfl
      exact absurd ((hdispatch .sret).mp ⟨.sret, by decide, rfl⟩) (by decide)
  · rintro ⟨⟨i, hi⟩, hebreak, hwfi⟩
    have hword : ∀ j : Instr, j.mask = 0xffffffff → j.Encodes w → w = j.value := by
      intro j hmask hj
      rwa [Instr.Encodes, hmask, show (0xffffffff : BitVec 32) = BitVec.allOnes 32 from rfl,
        BitVec.and_allOnes] at hj
    have hi₁ : i ≠ .ebreak := fun heq => hebreak (hword .ebreak rfl (heq ▸ hi))
    have hi₂ : i ≠ .wfi := fun heq => hwfi (hword .wfi rfl (heq ▸ hi))
    have hop := dispatch_of_encodes hi hi₁ hi₂
    refine ⟨fun j => ⟨?_, fun hj => ⟨opOf i, hop, (instr_opOf hi₁ hi₂).trans (hi.unique hj)⟩⟩,
      fun hnone => absurd hi (hnone i)⟩
    rintro ⟨op, hop', rfl⟩
    rw [hop, Option.some.injEq] at hop'
    subst hop'
    rwa [instr_opOf hi₁ hi₂]

/-- `mul x3, x1, x2` encodes no instruction of the set, and is dispatched to the handler
of `add`. -/
theorem mul_decodes_as_add :
    (∀ i : Instr, ¬ i.Encodes 0x022081b3) ∧ dispatch 0x022081b3 = some .add ∧
      ¬ DecodesExactly 0x022081b3 := by
  have hnone : ∀ i : Instr, ¬ i.Encodes 0x022081b3 := by
    intro i
    cases i <;> decide
  have hadd : dispatch 0x022081b3 = some .add := by decide
  exact ⟨hnone, hadd, fun h => hnone .add ((h.1 .add).mp ⟨.add, hadd, rfl⟩)⟩

end MiniOs.Cemu
