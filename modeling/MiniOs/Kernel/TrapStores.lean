import MiniOs.Cemu.Cpu
import MiniOs.Kernel.TrapEntry

/-!
# The way into a trap, on the emulator

`trap_entry` again, up to the call of `trap_handler`, where memory is behind the MMU:
an instruction loads and stores as the emulator does, and may fault. A fault ends the
run, since what the processor does next is another trap. Beside the processor the run
has the physical addresses of the doublewords it has stored.
-/

namespace MiniOs.Kernel

open MiniOs.Cemu (Cpu Outcome)

/-- The number of `sscratch`. -/
def SSCRATCH : Cemu.CsrAddr := 0x140

def CsrName.addr : CsrName → Cemu.CsrAddr
  | .sstatus => Cemu.SSTATUS
  | .sscratch => SSCRATCH

/-- The number of a register, as instructions have it. -/
def regNumber (i : Fin 32) : BitVec 5 := BitVec.ofNat 5 i.val

namespace TrapEntry

/-- One instruction. -/
def step (cpu : Cpu) : Instr → Outcome PUnit × Cpu
  | .addi rd rs imm => (.done ⟨⟩, cpu.setReg (regNumber rd) (cpu.regs (regNumber rs) + imm))
  | .andi rd rs imm => (.done ⟨⟩, cpu.setReg (regNumber rd) (cpu.regs (regNumber rs) &&& imm))
  | .ld rd offset base =>
    match cpu.load (cpu.regs (regNumber base) + offset) 64 with
    | (.done value, cpu) => (.done ⟨⟩, cpu.setReg (regNumber rd) value)
    | (.thrown e, cpu) => (.thrown e, cpu)
    | (.aborted, cpu) => (.aborted, cpu)
  | .sd rs offset base =>
    cpu.store (cpu.regs (regNumber base) + offset) 64 (cpu.regs (regNumber rs))
  | .csrr rd csr => (.done ⟨⟩, cpu.setReg (regNumber rd) (cpu.csr.load csr.addr))
  | .csrrw rd csr rs =>
    (.done ⟨⟩, (cpu.csrStore csr.addr (cpu.regs (regNumber rs))).setReg (regNumber rd)
      (cpu.csr.load csr.addr))

/-- Where an instruction stores, if it is carried out. -/
def target (cpu : Cpu) : Instr → List Word
  | .sd _ offset base =>
    ((cpu.translate (cpu.regs (regNumber base) + offset) .store).1.toOption).toList
  | _ => []

/-- Code without jumps, up to its end or to a fault. -/
def runOn (cpu : Cpu) : List Instr → Outcome PUnit × Cpu × List Word
  | [] => (.done ⟨⟩, cpu, [])
  | i :: rest =>
    match step cpu i with
    | (.done _, cpu') =>
      match runOn cpu' rest with
      | (outcome, cpu'', stores) => (outcome, cpu'', target cpu i ++ stores)
    | (outcome, cpu') => (outcome, cpu', [])

/-- The doublewords `trap_entry` stores before the call of `trap_handler`. -/
def storesUpToCall (cpu : Cpu) : List Word :=
  match runOn cpu entry with
  | (.done _, cpu, stores) =>
    let code := if cpu.regs (regNumber 5) = 0 then fromUser else fromKernel
    stores ++ (runOn cpu (code ++ saveRemaining)).2.2
  | (_, _, stores) => stores

end TrapEntry
end MiniOs.Kernel
