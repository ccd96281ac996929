import MiniOs.Cemu.Mmu

/-!
# The processor

`cpu.cpp`. A function that can throw has run up to that point by then, so what it
leaves comes beside how it ended. There is a third end: `LOG(ERROR, …)` prints and
calls `std::abort`, and the emulator is gone.
-/

namespace MiniOs.Cemu

open MiniOs.Lib

/-- How a function ends. -/
inductive Outcome (α : Type) where
  | done (a : α)
  | thrown (e : Exception)
  | aborted
  deriving DecidableEq

structure Cpu where
  pc : Word
  regs : BitVec 5 → Word
  bus : Bus
  mode : Word
  csr : Csr
  deriving Inhabited

namespace Cpu

/-- `Mmu::translate` where the processor is at hand. -/
def translate (cpu : Cpu) (addr : Word) (type : AccessType) : Except Exception Word × Cpu :=
  match Mmu.translate cpu.csr cpu.bus.dram addr type cpu.mode with
  | (result, dram) => (result, { cpu with bus := { cpu.bus with dram := dram } })

/-- `Bus::load` at a physical address. -/
def busLoad (cpu : Cpu) (paddr : Word) (size : Nat) : Outcome Word × Cpu :=
  match cpu.bus.load paddr size with
  | .error e => (.thrown e, cpu)
  | .ok (value, bus) => (.done value, { cpu with bus := bus })

def load (cpu : Cpu) (addr : Word) (size : Nat) : Outcome Word × Cpu :=
  match cpu.translate addr .load with
  | (.error e, cpu) => (.thrown e, cpu)
  | (.ok paddr, cpu) => cpu.busLoad paddr size

def store (cpu : Cpu) (addr : Word) (size : Nat) (value : Word) : Outcome PUnit × Cpu :=
  match cpu.translate addr .store with
  | (.error e, cpu) => (.thrown e, cpu)
  | (.ok paddr, cpu) =>
    match cpu.bus.store paddr size value with
    | .error e => (.thrown e, cpu)
    | .ok bus => (.done ⟨⟩, { cpu with bus := bus })

def fetch (cpu : Cpu) : Outcome (BitVec 32) × Cpu :=
  match cpu.translate cpu.pc .instruction with
  | (.error e, cpu) => (.thrown e, cpu)
  | (.ok paddr, cpu) =>
    match cpu.busLoad paddr 32 with
    | (.done inst, cpu) => (.done (inst.setWidth 32), cpu)
    | (.thrown e, cpu) => (.thrown e, cpu)
    | (.aborted, cpu) => (.aborted, cpu)

/-- A write to a register. -/
def setReg (cpu : Cpu) (rd : BitVec 5) (value : Word) : Cpu :=
  { cpu with regs := Function.update cpu.regs rd value }

/-- `Csr::store`. -/
def csrStore (cpu : Cpu) (addr : CsrAddr) (value : Word) : Cpu :=
  { cpu with csr := cpu.csr.store addr value }

/-! ## Traps -/

/-- The registers and fields a trap uses, in supervisor or in machine mode. -/
structure TrapRegs where
  mode : Word
  status : CsrAddr
  tvec : CsrAddr
  cause : CsrAddr
  tval : CsrAddr
  epc : CsrAddr
  maskPie : Word
  pieI : Nat
  maskIe : Word
  ieI : Nat
  maskPp : Word
  ppI : Nat

def supervisorTrap : TrapRegs :=
  ⟨modeSupervisor, SSTATUS, STVEC, SCAUSE, STVAL, SEPC, maskSpie, 5, maskSie, 1, maskSpp, 8⟩

def machineTrap : TrapRegs :=
  ⟨modeMachine, MSTATUS, MTVEC, MCAUSE, MTVAL, MEPC, maskMpie, 7, maskMie, 3, maskMpp, 11⟩

/-- The part `handle_exception` and `handle_interrupt` share. -/
def enterTrap (cpu : Cpu) (r : TrapRegs) (cause value : Word) : Cpu :=
  let csr := ((cpu.csr.store r.epc cpu.pc).store r.cause cause).store r.tval value
  let status := csr.load r.status
  let ie := (status &&& r.maskIe) >>> r.ieI
  let status := (status &&& ~~~r.maskPie) ||| ie <<< r.pieI
  let status := status &&& ~~~r.maskIe
  let status := (status &&& ~~~r.maskPp) ||| cpu.mode <<< r.ppI
  { cpu with
    mode := r.mode, pc := cpu.csr.load r.tvec &&& ~~~3, csr := csr.store r.status status }

def handleException (cpu : Cpu) (e : Exception) : Cpu :=
  let r :=
    if cpu.mode ≤ modeSupervisor ∧ cpu.csr.isMedelegated e.type.cause then supervisorTrap
    else machineTrap
  cpu.enterTrap r e.type.cause e.value

def handleInterrupt (cpu : Cpu) (cause : Word) : Cpu :=
  let r :=
    if cpu.mode ≤ modeSupervisor ∧ cpu.csr.isMidelegated (cause &&& 0x7fffffffffffffff) then
      supervisorTrap
    else machineTrap
  cpu.enterTrap r cause 0

/-- An interrupt cause. -/
def interrupt (code : Word) : Word := code ||| 0x8000000000000000

/-- The fields of `mip` and `sip`. -/
def maskSsip : Word := 0x2
def maskMsip : Word := 0x8
def maskStip : Word := 0x20
def maskMtip : Word := 0x80
def maskSeip : Word := 0x200
def maskMeip : Word := 0x800

/-- The first of three pending interrupts. -/
def pick (pending external software timer : Word) (causes : Word × Word × Word) : Option Word :=
  if pending &&& external ≠ 0 then some (interrupt causes.1)
  else if pending &&& software ≠ 0 then some (interrupt causes.2.1)
  else if pending &&& timer ≠ 0 then some (interrupt causes.2.2)
  else none

def checkPendingInterrupts (cpu : Cpu) : Option Word :=
  let mip := cpu.csr.load MIP
  let mie := cpu.csr.load MIE
  let mstatus := cpu.csr.load MSTATUS
  if cpu.mode = modeMachine then
    if mstatus &&& maskMie = 0 then none
    else pick (mip &&& mie) maskMeip maskMsip maskMtip (11, 3, 7)
  else
    let machine :=
      if mstatus &&& maskMie ≠ 0 then
        pick (mip &&& mie &&& ~~~(cpu.csr.load MIDELEG)) maskMeip maskMsip maskMtip (11, 3, 7)
      else none
    machine.or
      (if cpu.csr.load SSTATUS &&& maskSie ≠ 0 then
        pick (cpu.csr.load SIP &&& cpu.csr.load SIE) maskSeip maskSsip maskStip (9, 1, 5)
      else none)

end Cpu

end MiniOs.Cemu
