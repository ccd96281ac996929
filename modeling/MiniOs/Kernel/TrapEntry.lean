import MiniOs.Kernel.Machine
import MiniOs.Lib.Dwords

/-!
# The way into a trap and out of it

`trap_entry` of `trap.S`, instruction by instruction, on a processor that has what
the code touches: the registers, the memory and two control registers. The code is
a list of instructions between its jumps. `trap_handler` is whatever function it
calls; by the calling convention it may change every register but `sp`.

Addresses are the processor's. The kernel is mapped in the same place in every
address space, so that the frame is where it was when `trap_handler` has changed
`satp`.
-/

namespace MiniOs.Kernel

open MiniOs.Lib

/-- What `trap_entry` touches of the processor. -/
structure Hart where
  regs : Fin 32 → Word
  mem : Ram
  sstatus : Word
  sscratch : Word

inductive CsrName where
  | sstatus
  | sscratch
  deriving DecidableEq, Repr

/-- The instructions of `trap.S`, but for its jumps. -/
inductive Instr where
  | addi (rd rs : Fin 32) (imm : Word)
  | andi (rd rs : Fin 32) (imm : Word)
  | ld (rd : Fin 32) (offset : Word) (base : Fin 32)
  | sd (rs : Fin 32) (offset : Word) (base : Fin 32)
  | csrr (rd : Fin 32) (csr : CsrName)
  | csrrw (rd : Fin 32) (csr : CsrName) (rs : Fin 32)

namespace Hart

/-- A write to a register; `x0` stays zero. -/
def setReg (h : Hart) (rd : Fin 32) (v : Word) : Hart :=
  if rd = 0 then h else { h with regs := Function.update h.regs rd v }

def readCsr (h : Hart) : CsrName → Word
  | .sstatus => h.sstatus
  | .sscratch => h.sscratch

def writeCsr (h : Hart) (csr : CsrName) (v : Word) : Hart :=
  match csr with
  | .sstatus => { h with sstatus := v }
  | .sscratch => { h with sscratch := v }

/-- One instruction. -/
def exec (h : Hart) : Instr → Hart
  | .addi rd rs imm => h.setReg rd (h.regs rs + imm)
  | .andi rd rs imm => h.setReg rd (h.regs rs &&& imm)
  | .ld rd offset base => h.setReg rd (h.mem.load (h.regs base + offset))
  | .sd rs offset base => { h with mem := h.mem.store (h.regs base + offset) (h.regs rs) }
  | .csrr rd csr => h.setReg rd (h.readCsr csr)
  | .csrrw rd csr rs => (h.writeCsr csr (h.regs rs)).setReg rd (h.readCsr csr)

/-- Code without jumps. -/
def run (h : Hart) (code : List Instr) : Hart := code.foldl exec h

end Hart

/-! ## The code -/

namespace TrapEntry

/-- From `trap_entry` to the branch. Register 2 is `sp` and register 5 is `t0`. -/
def entry : List Instr :=
  [.addi 2 2 (-16), .sd 5 0 2, .csrr 5 .sstatus, .andi 5 5 0x100]

/-- A trap from S-mode: the stack in use is the kernel's. -/
def fromKernel : List Instr :=
  [.ld 5 0 2, .addi 2 2 16, .addi 2 2 (-256), .sd 5 40 2, .addi 5 2 256, .sd 5 16 2, .ld 5 40 2]

/-- `trap_from_user`: the stack of the kernel is in `sscratch`. -/
def fromUser : List Instr :=
  [.csrrw 2 .sscratch 2, .addi 2 2 (-256), .csrr 5 .sscratch, .ld 5 0 5, .sd 5 40 2,
    .csrr 5 .sscratch, .addi 5 5 16, .sd 5 16 2, .ld 5 40 2]

/-- The place of a register in the frame. -/
def saveReg (i : Fin 32) : Instr := .sd i (BitVec.ofNat 64 (8 * i.val)) 2
def loadReg (i : Fin 32) : Instr := .ld i (BitVec.ofNat 64 (8 * i.val)) 2

/-- `save_remaining_registers`, up to the call. -/
def saveRemaining : List Instr :=
  [1, 3, 4, 6, 7, 8, 9, 10, 11, 12, 13, 14, 15, 16, 17, 18, 19, 20, 21, 22, 23, 24, 25, 26, 27,
    28, 29, 30, 31].map saveReg ++ [.addi 10 2 0]

/-- From the return of `trap_handler` to `sret`. -/
def restore : List Instr :=
  [1, 3, 4, 5, 6, 7, 8, 9, 10, 11, 12, 13, 14, 15, 16, 17, 18, 19, 20, 21, 22, 23, 24, 25, 26, 27,
    28, 29, 30, 31].map loadReg ++ [.ld 2 16 2]

/-- The processor when `trap_handler` is called. -/
def atCall (h : Hart) : Hart :=
  let h := h.run entry
  let h := if h.regs 5 = 0 then h.run fromUser else h.run fromKernel
  h.run saveRemaining

end TrapEntry

/-- `trap_entry`, with the function it calls. -/
def trapEntry (trapHandler : Hart → Hart) (h : Hart) : Hart :=
  (trapHandler (TrapEntry.atCall h)).run TrapEntry.restore

/-- Element `i` of the frame that `sp` points to: `tf[i]`. -/
def Hart.frame (h : Hart) (i : Fin 32) : Word := h.mem.load (Ram.place (h.regs 2) i)

end MiniOs.Kernel
