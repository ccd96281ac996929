import MiniOs.Cemu.Cpu

/-!
# Instructions

`instructions.cpp`: a handler for every instruction, and the dispatcher that looks
for it in three tables. Handlers that differ in a width, an operator or a condition
are one definition with that as a parameter. What a handler returns is the next pc.

C++ leaves a shift by 64 or more and the overflow of an `int` undefined. Here they
are what the processor the emulator runs on does: the distance is taken modulo 64
and the sum modulo `2 ^ 32`.

A handler of a load ends in `LOG(ERROR, …)` where `Cpu::load` has no value, which
does not happen. The dispatcher ends in it where no table has the instruction, and
does not get to the `throw` behind it.
-/

namespace MiniOs.Cemu

open MiniOs.Lib

/-- A function that executes an instruction. -/
abbrev Handler := Cpu → BitVec 32 → Outcome Word × Cpu

/-! ## Fields -/

/-- `unpackInstruction`. -/
def rd (inst : BitVec 32) : BitVec 5 := inst.extractLsb' 7 5
def rs1 (inst : BitVec 32) : BitVec 5 := inst.extractLsb' 15 5
def rs2 (inst : BitVec 32) : BitVec 5 := inst.extractLsb' 20 5

/-- The immediates of the formats I, S, B, U and J. -/
def immI (inst : BitVec 32) : Word := ((inst &&& 0xfff00000).sshiftRight 20).signExtend 64

def immS (inst : BitVec 32) : Word :=
  ((inst &&& 0xfe000000).sshiftRight 20).signExtend 64 &&& 0xffffffffffffffe0 |||
    (inst >>> 7 &&& 0x1f).setWidth 64

def immB (inst : BitVec 32) : Word :=
  ((if inst &&& 0x80000000 ≠ 0 then 0xfffff000 else 0) ||| (inst &&& 0x80) <<< 4 |||
    (inst >>> 20 &&& 0x7e0) ||| (inst >>> 7 &&& 0x1e)).signExtend 64

def immU (inst : BitVec 32) : Word := (inst &&& 0xfffff000).signExtend 64

def immJ (inst : BitVec 32) : Word :=
  ((if inst &&& 0x80000000 ≠ 0 then 0xfff00000 else 0) ||| (inst >>> 12 &&& 0xff) <<< 12 |||
    (inst >>> 9 &&& 0x800) ||| (inst >>> 20 &&& 0x7fe)).signExtend 64

/-- The address of a control register, and the distance of a 32-bit shift. -/
def csrAddr (inst : BitVec 32) : CsrAddr := inst.extractLsb' 20 12
def shamt (inst : BitVec 32) : Nat := (inst.extractLsb' 20 5).toNat

def Cpu.updatePc (cpu : Cpu) : Word := cpu.pc + 4

/-! ## Registers -/

/-- A handler that writes `rd` and goes on. -/
def writeRd (value : Cpu → BitVec 32 → Word) : Handler := fun cpu inst =>
  (.done cpu.updatePc, cpu.setReg (rd inst) (value cpu inst))

/-- `rs1` with an immediate, and `rs1` with `rs2`. -/
def aluImm (f : Word → Word → Word) : Handler :=
  writeRd fun cpu inst => f (cpu.regs (rs1 inst)) (immI inst)

def aluReg (f : Word → Word → Word) : Handler :=
  writeRd fun cpu inst => f (cpu.regs (rs1 inst)) (cpu.regs (rs2 inst))

/-- The same on 32 bits: the result is sign-extended. -/
def aluRegW (f : BitVec 32 → BitVec 32 → BitVec 32) : Handler :=
  aluReg fun a b => (f (a.setWidth 32) (b.setWidth 32)).signExtend 64

/-- `rs1` shifted by the distance in the instruction, on 32 bits. -/
def shiftImmW (f : BitVec 32 → Nat → BitVec 32) : Handler :=
  writeRd fun cpu inst =>
    (f ((cpu.regs (rs1 inst)).setWidth 32) (shamt inst)).signExtend 64

/-- The result of a comparison. -/
def flag (b : Bool) : Word := if b then 1 else 0

/-- The distances of 64-bit and 32-bit shifts. -/
def low6 (a : Word) : Nat := (a &&& 0x3f).toNat
def low5 (a : BitVec 32) : Nat := (a &&& 0x1f).toNat

def executeAddi : Handler := aluImm fun a b => a + b
def executeSlli : Handler := aluImm fun a b => a <<< low6 b
-- not a signed comparison
def executeSlti : Handler := aluImm fun a b => flag (a < b)
-- the immediate is cut to 32 bits
def executeSltiu : Handler := aluImm fun a b => flag (a < (b.setWidth 32).setWidth 64)
def executeXori : Handler := aluImm fun a b => a ^^^ b
def executeSrli : Handler := aluImm fun a b => a >>> low6 b
def executeSrai : Handler := aluImm fun a b => a.sshiftRight (low6 b)
def executeOri : Handler := aluImm fun a b => a ||| b
def executeAndi : Handler := aluImm fun a b => a &&& b
def executeADDIW : Handler := aluImm fun a b => ((a + b).setWidth 32).signExtend 64

def executeAdd : Handler := aluReg fun a b => a + b
def executeSUB : Handler := aluReg fun a b => a - b
def executeSll : Handler := aluReg fun a b => a <<< low6 b
def executeSlt : Handler := aluReg fun a b => flag (a.slt b)
def executeSLTU : Handler := aluReg fun a b => flag (a < b)
def executeXor : Handler := aluReg fun a b => a ^^^ b
def executeSrl : Handler := aluReg fun a b => a >>> low6 b
def executeSra : Handler := aluReg fun a b => a.sshiftRight (low6 b)
def executeOr : Handler := aluReg fun a b => a ||| b
def executeAnd : Handler := aluReg fun a b => a &&& b

def executeAddw : Handler := aluRegW fun a b => a + b
def executeSUBW : Handler := aluRegW fun a b => a - b
def executeSLLW : Handler := aluRegW fun a b => a <<< low5 b
def executeSRLW : Handler := aluRegW fun a b => a >>> low5 b
def executeSRAW : Handler := aluRegW fun a b => a.sshiftRight (low5 b)
def executeSLLIW : Handler := shiftImmW fun a n => a <<< n
def executeSRLIW : Handler := shiftImmW fun a n => a >>> n
def executeSRAIW : Handler := shiftImmW fun a n => a.sshiftRight n

def executeLui : Handler := writeRd fun _ inst => immU inst
def executeAUIPC : Handler := writeRd fun cpu inst => cpu.pc + immU inst

/-! ## Memory -/

/-- A handler of a load. -/
def loadWith (size : Nat) (extend : Word → Word) : Handler := fun cpu inst =>
  match cpu.load (cpu.regs (rs1 inst) + immI inst) size with
  | (.done value, cpu) => (.done cpu.updatePc, cpu.setReg (rd inst) (extend value))
  | (.thrown e, cpu) => (.thrown e, cpu)
  | (.aborted, cpu) => (.aborted, cpu)

/-- A handler of a store. -/
def storeWith (size : Nat) : Handler := fun cpu inst =>
  match cpu.store (cpu.regs (rs1 inst) + immS inst) size (cpu.regs (rs2 inst)) with
  | (.done _, cpu) => (.done cpu.updatePc, cpu)
  | (.thrown e, cpu) => (.thrown e, cpu)
  | (.aborted, cpu) => (.aborted, cpu)

def executeLb : Handler := loadWith 8 fun v => (v.setWidth 8).signExtend 64
def executeLh : Handler := loadWith 16 fun v => (v.setWidth 16).signExtend 64
def executeLw : Handler := loadWith 32 fun v => (v.setWidth 32).signExtend 64
def executeLd : Handler := loadWith 64 fun v => v
def executeLbu : Handler := loadWith 8 fun v => v &&& 0xff
def executeLhu : Handler := loadWith 16 fun v => v &&& 0xffff
def executeLwu : Handler := loadWith 32 fun v => v &&& 0xffffffff

def executeSb : Handler := storeWith 8
def executeStoreByte : Handler := storeWith 8
def executeStoreHalf : Handler := storeWith 16
def executeStoreWord : Handler := storeWith 32
def executeStoreDouble : Handler := storeWith 64

/-! ## Jumps -/

/-- A handler of a branch. -/
def branchIf (cond : Word → Word → Bool) : Handler := fun cpu inst =>
  (.done (if cond (cpu.regs (rs1 inst)) (cpu.regs (rs2 inst)) then cpu.pc + immB inst
    else cpu.updatePc), cpu)

def executeBEQ : Handler := branchIf fun a b => a = b
def executeBNE : Handler := branchIf fun a b => a ≠ b
def executeBLT : Handler := branchIf fun a b => a.slt b
def executeBGE : Handler := branchIf fun a b => !a.slt b
def executeBLTU : Handler := branchIf fun a b => a < b
def executeBGEU : Handler := branchIf fun a b => b ≤ a

def executeJAL : Handler := fun cpu inst =>
  (.done (cpu.pc + immJ inst), cpu.setReg (rd inst) (cpu.pc + 4))

def executeJALR : Handler := fun cpu inst =>
  (.done ((cpu.regs (rs1 inst) + immI inst) &&& ~~~1), cpu.setReg (rd inst) (cpu.pc + 4))

/-! ## Control registers -/

/-- The register is written before `rd`. -/
def executeCSR_RW : Handler := fun cpu inst =>
  let t := cpu.csr.load (csrAddr inst)
  let cpu := cpu.csrStore (csrAddr inst) (cpu.regs (rs1 inst))
  (.done cpu.updatePc, cpu.setReg (rd inst) t)

/-- `rd` is written first, and the value to write is made from the registers after
that. -/
def csrAfterRd (value : Word → Cpu → BitVec 32 → Word) : Handler := fun cpu inst =>
  let t := cpu.csr.load (csrAddr inst)
  let cpu := cpu.setReg (rd inst) t
  (.done cpu.updatePc, cpu.csrStore (csrAddr inst) (value t cpu inst))

/-- The field `rs1` as a number. -/
def uimm (inst : BitVec 32) : BitVec 32 := (rs1 inst).setWidth 32

def executeCSR_RS : Handler := csrAfterRd fun t cpu inst => t ||| cpu.regs (rs1 inst)
def executeCSR_RC : Handler := csrAfterRd fun t cpu inst => t &&& ~~~cpu.regs (rs1 inst)
def executeCSR_RWI : Handler := csrAfterRd fun _ _ inst => (uimm inst).setWidth 64
-- `1 << rs1` is an `int`
def executeCSR_RSI : Handler := csrAfterRd fun t _ inst =>
  t ||| ((1 : BitVec 32) <<< (uimm inst).toNat).signExtend 64
-- `~rs1` has 32 bits
def executeCSR_RCI : Handler := csrAfterRd fun t _ inst => t &&& (~~~uimm inst).setWidth 64

/-! ## System -/

/-- A handler that does nothing. -/
def skip : Handler := fun cpu _ => (.done cpu.updatePc, cpu)

def executeFence : Handler := skip
def executeSFENCE_VMA : Handler := skip
def executeWFI : Handler := skip

def executeSRET : Handler := fun cpu _ =>
  let sstatus := cpu.csr.load SSTATUS
  let mode := (sstatus &&& maskSpp) >>> 8
  let spie := (sstatus &&& maskSpie) >>> 5
  let sstatus := (sstatus &&& ~~~maskSie) ||| spie <<< 1
  let sstatus := sstatus ||| maskSpie
  let sstatus := sstatus &&& ~~~maskSpp
  let cpu := { cpu with mode := mode }.csrStore SSTATUS sstatus
  (.done (cpu.csr.load SEPC &&& ~~~3), cpu)

def executeMRET : Handler := fun cpu _ =>
  let mstatus := cpu.csr.load MSTATUS
  let mode := (mstatus &&& maskMpp) >>> 11
  let mpie := (mstatus &&& maskMpie) >>> 7
  let mstatus := (mstatus &&& ~~~maskMie) ||| mpie <<< 3
  let mstatus := mstatus ||| maskMpie
  let mstatus := mstatus &&& ~~~maskMpp
  let mstatus :=
    if mstatus &&& maskMpp ≠ modeMachine then mstatus &&& ~~~maskMprv else mstatus
  let cpu := { cpu with mode := mode }.csrStore MSTATUS mstatus
  (.done (cpu.csr.load MEPC &&& ~~~3), cpu)

def executeECALL : Handler := fun cpu inst =>
  let type : ExceptionType :=
    if cpu.mode = modeMachine then .environmentCallFromMMode
    else if cpu.mode = modeSupervisor then .environmentCallFromSMode
    else if cpu.mode = modeUser then .environmentCallFromUMode
    else .environmentCallFromMMode
  (.thrown ⟨type, inst.setWidth 64⟩, cpu)

def executeEBREAK : Handler := fun cpu inst => (.thrown ⟨.breakpoint, inst.setWidth 64⟩, cpu)

/-! ## The dispatcher -/

/-- The handlers, by name. -/
inductive Op where
  | auipc | lui | jalr | jal
  | lb | lh | lw | ld | lbu | lhu | lwu | fence
  | addi | slli | slti | sltiu | xori | ori | andi | addiw | slliw
  | sb | storeByte | storeHalf | storeWord | storeDouble
  | beq | bne | blt | bge | bltu | bgeu
  | csrRw | csrRs | csrRc | csrRwi | csrRsi | csrRci
  | srli | srai | add | sub | sll | slt | sltu | xor | srl | sra | or | and
  | srliw | sraiw | addw | subw | sllw | srlw | sraw
  | ecall | ebreak | wfi | sfenceVma | sret | mret
  deriving DecidableEq, Repr

def Op.handler : Op → Handler
  | .auipc => executeAUIPC
  | .lui => executeLui
  | .jalr => executeJALR
  | .jal => executeJAL
  | .lb => executeLb
  | .lh => executeLh
  | .lw => executeLw
  | .ld => executeLd
  | .lbu => executeLbu
  | .lhu => executeLhu
  | .lwu => executeLwu
  | .fence => executeFence
  | .addi => executeAddi
  | .slli => executeSlli
  | .slti => executeSlti
  | .sltiu => executeSltiu
  | .xori => executeXori
  | .ori => executeOri
  | .andi => executeAndi
  | .addiw => executeADDIW
  | .slliw => executeSLLIW
  | .sb => executeSb
  | .storeByte => executeStoreByte
  | .storeHalf => executeStoreHalf
  | .storeWord => executeStoreWord
  | .storeDouble => executeStoreDouble
  | .beq => executeBEQ
  | .bne => executeBNE
  | .blt => executeBLT
  | .bge => executeBGE
  | .bltu => executeBLTU
  | .bgeu => executeBGEU
  | .csrRw => executeCSR_RW
  | .csrRs => executeCSR_RS
  | .csrRc => executeCSR_RC
  | .csrRwi => executeCSR_RWI
  | .csrRsi => executeCSR_RSI
  | .csrRci => executeCSR_RCI
  | .srli => executeSrli
  | .srai => executeSrai
  | .add => executeAdd
  | .sub => executeSUB
  | .sll => executeSll
  | .slt => executeSlt
  | .sltu => executeSLTU
  | .xor => executeXor
  | .srl => executeSrl
  | .sra => executeSra
  | .or => executeOr
  | .and => executeAnd
  | .srliw => executeSRLIW
  | .sraiw => executeSRAIW
  | .addw => executeAddw
  | .subw => executeSUBW
  | .sllw => executeSLLW
  | .srlw => executeSRLW
  | .sraw => executeSRAW
  | .ecall => executeECALL
  | .ebreak => executeEBREAK
  | .wfi => executeWFI
  | .sfenceVma => executeSFENCE_VMA
  | .sret => executeSRET
  | .mret => executeMRET

/-- The fields the tables are about. -/
def opcode (inst : BitVec 32) : BitVec 7 := inst.extractLsb' 0 7
def funct3 (inst : BitVec 32) : BitVec 3 := inst.extractLsb' 12 3
def funct7 (inst : BitVec 32) : BitVec 7 := inst.extractLsb' 25 7
def funct6 (inst : BitVec 32) : BitVec 7 := (inst.extractLsb' 26 6).setWidth 7

def opcodeTable : List (BitVec 7 × Op) :=
  [(0x17, .auipc), (0x37, .lui), (0x67, .jalr), (0x6f, .jal)]

def instructionMap : List ((BitVec 7 × BitVec 3) × Op) :=
  [((0x03, 0), .lb), ((0x03, 1), .lh), ((0x03, 2), .lw), ((0x03, 3), .ld), ((0x03, 4), .lbu),
    ((0x03, 5), .lhu), ((0x03, 6), .lwu), ((0x0f, 0), .fence), ((0x13, 0), .addi),
    ((0x13, 1), .slli), ((0x13, 2), .slti), ((0x13, 3), .sltiu), ((0x13, 4), .xori),
    ((0x13, 6), .ori), ((0x13, 7), .andi), ((0x1b, 0), .addiw), ((0x1b, 1), .slliw),
    ((0x19, 7), .sb), ((0x23, 0), .storeByte), ((0x23, 1), .storeHalf), ((0x23, 2), .storeWord),
    ((0x23, 3), .storeDouble), ((0x63, 0), .beq), ((0x63, 1), .bne), ((0x63, 4), .blt),
    ((0x63, 5), .bge), ((0x63, 6), .bltu), ((0x63, 7), .bgeu), ((0x73, 1), .csrRw),
    ((0x73, 2), .csrRs), ((0x73, 3), .csrRc), ((0x73, 5), .csrRwi), ((0x73, 6), .csrRsi),
    ((0x73, 7), .csrRci)]

def instruction2Map : List ((BitVec 7 × BitVec 3 × BitVec 7) × Op) :=
  [((0x13, 5, 0x00), .srli), ((0x13, 5, 0x10), .srai), ((0x33, 0, 0x00), .add),
    ((0x33, 0, 0x20), .sub), ((0x33, 1, 0x00), .sll), ((0x33, 2, 0x00), .slt),
    ((0x33, 3, 0x00), .sltu), ((0x33, 4, 0x00), .xor), ((0x33, 5, 0x00), .srl),
    ((0x33, 5, 0x20), .sra), ((0x33, 6, 0x00), .or), ((0x33, 7, 0x00), .and),
    ((0x1b, 5, 0x00), .srliw), ((0x1b, 5, 0x20), .sraiw), ((0x3b, 0, 0x00), .addw),
    ((0x3b, 0, 0x20), .subw), ((0x3b, 1, 0x00), .sllw), ((0x3b, 5, 0x00), .srlw),
    ((0x3b, 5, 0x20), .sraw), ((0x73, 0, 0x00), .ecall), ((0x73, 0, 0x01), .ebreak),
    ((0x73, 0, 0x10), .wfi), ((0x73, 0, 0x09), .sfenceVma), ((0x73, 0, 0x08), .sret),
    ((0x73, 0, 0x18), .mret)]

/-- The tables, in turn; the last one is tried a second time with six bits in the
place of seven. -/
def lookup (opcode : BitVec 7) (funct3 : BitVec 3) (funct7 funct6 : BitVec 7) : Option Op :=
  (opcodeTable.lookup opcode).or
    ((instructionMap.lookup (opcode, funct3)).or
      ((instruction2Map.lookup (opcode, funct3, funct7)).or
        (instruction2Map.lookup (opcode, funct3, funct6))))

/-- The handler an instruction is dispatched to. -/
def dispatch (inst : BitVec 32) : Option Op :=
  lookup (opcode inst) (funct3 inst) (funct7 inst) (funct6 inst)

def execute (cpu : Cpu) (inst : BitVec 32) : Outcome Word × Cpu :=
  let cpu := cpu.setReg 0 0
  match dispatch inst with
  | some op => op.handler cpu inst
  | none => (.aborted, cpu)

/-! ## The main loop -/

/-- The timer of a round of the loop of `main`. -/
def Cpu.tick (cpu : Cpu) : Cpu :=
  match cpu.bus.clint.tick with
  | (clint, due) =>
    { cpu with bus := { cpu.bus with clint := clint } }.csrStore MIP
      (if due then cpu.csr.load MIP ||| Cpu.maskMtip else cpu.csr.load MIP &&& ~~~Cpu.maskMtip)

/-- The exceptions the emulator stops at. -/
def ExceptionType.isFatal : ExceptionType → Bool
  | .instructionAddrMisaligned | .instructionAccessFault | .loadAccessFault
  | .storeAMOAddrMisaligned | .storeAMOAccessFault | .illegalInstruction => true
  | _ => false

/-- What `main` does with an exception; the loop ends where it is fatal. -/
def Cpu.caught (cpu : Cpu) (e : Exception) : Cpu × Bool :=
  (cpu.handleException e, !e.type.isFatal)

/-- Fetching and executing an instruction. -/
def Cpu.instruction (cpu : Cpu) : Cpu × Bool :=
  match cpu.fetch with
  | (.thrown e, cpu) => cpu.caught e
  | (.aborted, cpu) => (cpu, false)
  | (.done inst, cpu) =>
    match execute cpu inst with
    | (.thrown e, cpu) => cpu.caught e
    | (.aborted, cpu) => (cpu, false)
    | (.done pc, cpu) => ({ cpu with pc := pc }, true)

/-- A round of the loop of `main`, and whether there is another. -/
def Cpu.round (cpu : Cpu) : Cpu × Bool :=
  if cpu.bus.halted then (cpu, false)
  else
    let cpu := cpu.tick
    match cpu.checkPendingInterrupts with
    | some cause => (cpu.handleInterrupt cause, true)
    | none => cpu.instruction

end MiniOs.Cemu
