import MiniOs.Cemu.Bus

/-!
# Control registers and address translation

`csr.cpp` and `mmu.cpp`. `SIE`, `SIP` and `SSTATUS` have no place of their own: they
are views of the registers of machine mode.

`Mmu::translate` is a walk through the tables, which only reads, and what it does
with the entry at the end of it: the checks, and the bits A and D. The source has
the second part twice, for pages and for 2 MiB pages.
-/

namespace MiniOs.Cemu

open MiniOs.Lib

/-! ## Control registers -/

/-- The address of a control register. -/
abbrev CsrAddr := BitVec 12

/-- The names of `param.h`. -/
def MSTATUS : CsrAddr := 0x300
def MEDELEG : CsrAddr := 0x302
def MIDELEG : CsrAddr := 0x303
def MIE : CsrAddr := 0x304
def MTVEC : CsrAddr := 0x305
def MEPC : CsrAddr := 0x341
def MCAUSE : CsrAddr := 0x342
def MTVAL : CsrAddr := 0x343
def MIP : CsrAddr := 0x344
def SSTATUS : CsrAddr := 0x100
def SIE : CsrAddr := 0x104
def STVEC : CsrAddr := 0x105
def SEPC : CsrAddr := 0x141
def SCAUSE : CsrAddr := 0x142
def STVAL : CsrAddr := 0x143
def SIP : CsrAddr := 0x144
def SATP : CsrAddr := 0x180

/-- The fields of `mstatus`. -/
def maskSie : Word := 0x2
def maskMie : Word := 0x8
def maskSpie : Word := 0x20
def maskUbe : Word := 0x40
def maskMpie : Word := 0x80
def maskSpp : Word := 0x100
def maskMpp : Word := 0x1800
def maskFs : Word := 0x6000
def maskXs : Word := 0x18000
def maskMprv : Word := 0x20000
def maskSum : Word := 0x40000
def maskMxr : Word := 0x80000
def maskUxl : Word := 0x300000000
def maskSd : Word := 0x8000000000000000
def maskSstatus : Word :=
  maskSie ||| maskSpie ||| maskUbe ||| maskSpp ||| maskFs ||| maskXs ||| maskSum ||| maskMxr |||
    maskUxl ||| maskSd

/-- `Csr`: the array. -/
abbrev Csr := CsrAddr → Word

namespace Csr

variable (csrs : Csr)

/-- A bit of `sip`: it shows a bit of `mip` where the interrupt is delegated. -/
def sipBit (delegated pending : Nat) : Word :=
  if (csrs MIDELEG).getLsbD delegated ∧ (csrs MIP).getLsbD pending then 1 <<< delegated else 0

def load (addr : CsrAddr) : Word :=
  if addr = SIE then csrs MIE &&& csrs MIDELEG
  else if addr = SIP then sipBit csrs 1 3 ||| sipBit csrs 5 7 ||| sipBit csrs 9 11
  else if addr = SSTATUS then csrs MSTATUS &&& maskSstatus
  else csrs addr

/-- A register of machine mode with the bits of `mask` taken from a value. -/
def merge (addr : CsrAddr) (mask value : Word) : Csr :=
  Function.update csrs addr (csrs addr &&& ~~~mask ||| value &&& mask)

def store (addr : CsrAddr) (value : Word) : Csr :=
  if addr = SIE then merge csrs MIE (csrs MIDELEG) value
  else if addr = SIP then merge csrs MIP (csrs MIDELEG) value
  else if addr = SSTATUS then merge csrs MSTATUS maskSstatus value
  else Function.update csrs addr value

/-- `is_medelegated` and `is_midelegated`. -/
def isMedelegated (cause : Word) : Bool := (csrs MEDELEG).getLsbD cause.toNat
def isMidelegated (cause : Word) : Bool := (csrs MIDELEG).getLsbD cause.toNat

end Csr

/-! ## Translation -/

/-- `User`, `Supervisor` and `Machine`. -/
def modeUser : Word := 0
def modeSupervisor : Word := 1
def modeMachine : Word := 3

inductive AccessType where
  | instruction
  | load
  | store
  deriving DecidableEq, Repr

/-- The flags of an entry. -/
def pteV : Word := 0x1
def pteR : Word := 0x2
def pteW : Word := 0x4
def pteX : Word := 0x8
def pteU : Word := 0x10
def pteA : Word := 0x40
def pteD : Word := 0x80

/-- The flag an access needs, and the page fault it ends in. -/
def AccessType.flag : AccessType → Word
  | .instruction => pteX
  | .load => pteR
  | .store => pteW

def AccessType.pageFault : AccessType → ExceptionType
  | .instruction => .instructionPageFault
  | .load => .loadPageFault
  | .store => .storeAMOPageFault

namespace Mmu

/-- `SATP_MODE_SV39`. -/
def satpModeSv39 : Word := 0x8000000000000000

def isEnabled (satp : Word) : Bool := satp &&& satpModeSv39 = satpModeSv39

/-- The three parts of a page number, and the offset. -/
def vpn2 (vaddr : Word) : Word := vaddr >>> 30 &&& 0x1ff
def vpn1 (vaddr : Word) : Word := vaddr >>> 21 &&& 0x1ff
def vpn0 (vaddr : Word) : Word := vaddr >>> 12 &&& 0x1ff
def offset (vaddr : Word) : Word := vaddr &&& 0xfff

/-- The entry at the end of a walk: where it is, what it says, and the page number. -/
structure Leaf where
  addr : Word
  pte : Word
  ppn : Word

/-- An entry of a table, if it is valid. -/
def entry (dram : Ram) (vaddr addr : Word) : Except Exception Word :=
  match Dram.load dram addr 64 with
  | .error e => .error e
  | .ok pte => if pte &&& pteV = 0 then .error ⟨.loadPageFault, vaddr⟩ else .ok pte

/-- The entry leads to another table. -/
def isTable (pte : Word) : Bool := pte &&& (pteR ||| pteW ||| pteX) = 0

/-- The table an entry leads to. -/
def tableOf (pte : Word) : Word := (pte >>> 10) * 4096

/-- `Mmu::translate` down to the leaf. -/
def walk (satp : Word) (dram : Ram) (vaddr : Word) : Except Exception Leaf :=
  match entry dram vaddr ((satp &&& 0xfffffffffff) * 4096 + vpn2 vaddr * 8) with
  | .error e => .error e
  | .ok pte =>
    if isTable pte = false then .error ⟨.loadPageFault, vaddr⟩
    else
      let addr := tableOf pte + vpn1 vaddr * 8
      match entry dram vaddr addr with
      | .error e => .error e
      | .ok pte =>
        if isTable pte = false then
          .ok ⟨addr, pte, (pte >>> 10 &&& ~~~0x1ff) ||| vpn0 vaddr⟩
        else
          let addr := tableOf pte + vpn0 vaddr * 8
          match entry dram vaddr addr with
          | .error e => .error e
          | .ok pte => .ok ⟨addr, pte, pte >>> 10⟩

/-- The entry lets the access through. -/
def permits (pte : Word) (type : AccessType) (mode : Word) : Bool :=
  pte &&& type.flag ≠ 0 ∧ (mode = modeUser → pte &&& pteU ≠ 0)

/-- The entry after the access: A, and D for a store. -/
def mark (pte : Word) (type : AccessType) : Word :=
  if type = .store then pte ||| pteA ||| pteD else pte ||| pteA

/-- `Mmu::translate`, with the memory after it. -/
def translate (csrs : Csr) (dram : Ram) (vaddr : Word) (type : AccessType) (mode : Word) :
    Except Exception Word × Ram :=
  if isEnabled (csrs.load SATP) = false then (.ok vaddr, dram)
  else
    match walk (csrs.load SATP) dram vaddr with
    | .error e => (.error e, dram)
    | .ok leaf =>
      if permits leaf.pte type mode = false then (.error ⟨type.pageFault, vaddr⟩, dram)
      else
        match Dram.store dram leaf.addr 64 (mark leaf.pte type) with
        | .error e => (.error e, dram)
        | .ok dram => (.ok (leaf.ppn * 4096 ||| offset vaddr), dram)

end Mmu

end MiniOs.Cemu
