import MiniOs.Lib.LittleEndian

/-!
# The bus of the emulator

`dram.cpp`, `clint.cpp`, `plic.cpp`, `uart.cpp`, `block_device.cpp` and `bus.cpp`:
what a load and a store at a physical address do. An access that throws leaves
everything as it was, so a store returns the device it leaves or the exception.

Sizes are in bits, as in the source. DRAM is bytes by physical address, of all
addresses: `Dram::load` and `Dram::store` check the end of an access modulo
`2 ^ 64`, and what they do not refuse they carry out, within the vector or not.

Reading and writing the host's disk image succeeds. What a UART prints is kept;
characters that arrive change its registers behind the processor's back and are
not part of this.
-/

namespace MiniOs.Cemu

open MiniOs.Lib

/-- A register, a CSR or an address. -/
abbrev Word := BitVec 64

/-- `ExceptionType`, in the order of the source, which is where the causes come
from. -/
inductive ExceptionType where
  | instructionAddrMisaligned
  | instructionAccessFault
  | illegalInstruction
  | breakpoint
  | loadAccessMisaligned
  | loadAccessFault
  | storeAMOAddrMisaligned
  | storeAMOAccessFault
  | environmentCallFromUMode
  | environmentCallFromSMode
  | environmentCallFromMMode
  | instructionPageFault
  | loadPageFault
  | storeAMOPageFault
  deriving DecidableEq, Repr

/-- The cause of an exception: `static_cast<uint64_t>(e.getType())`. -/
def ExceptionType.cause (type : ExceptionType) : Word := BitVec.ofNat 64 type.ctorIdx

structure Exception where
  type : ExceptionType
  value : Word
  deriving DecidableEq, Repr

/-- The sizes an access can have. -/
def sizeOk (size : Nat) : Bool := size = 8 ∨ size = 16 ∨ size = 32 ∨ size = 64

/-! ## Memory -/

/-- `DRAM_BASE`, `DRAM_SIZE` and `DRAM_END`. -/
def dramBase : Word := 0x80000000
def dramSize : Word := 0x8000000
def dramEnd : Word := 0x87ffffff

namespace Dram

def load (dram : Ram) (addr : Word) (size : Nat) : Except Exception Word :=
  if sizeOk size = false then .error ⟨.loadAccessFault, addr⟩
  else if addr - dramBase + BitVec.ofNat 64 (size / 8) > dramSize then
    .error ⟨.loadAccessFault, addr⟩
  else .ok (dram.loadLe addr (size / 8))

def store (dram : Ram) (addr : Word) (size : Nat) (value : Word) : Except Exception Ram :=
  if sizeOk size = false then .error ⟨.storeAMOAccessFault, addr⟩
  else if addr - dramBase + BitVec.ofNat 64 (size / 8) > dramSize then
    .error ⟨.storeAMOAccessFault, addr⟩
  else .ok (dram.storeLe addr (size / 8) value)

end Dram

/-! ## Timer and interrupt controller -/

structure Clint where
  mtime : Word
  mtimecmp : Word
  deriving Inhabited

/-- `CLINT_MTIMECMP` and `CLINT_MTIME`. -/
def clintMtimecmp : Word := 0x2004000
def clintMtime : Word := 0x200bff8

namespace Clint

def load (c : Clint) (addr : Word) (size : Nat) : Except Exception Word :=
  if size ≠ 64 then .error ⟨.loadAccessFault, addr⟩
  else if addr = clintMtimecmp then .ok c.mtimecmp
  else if addr = clintMtime then .ok c.mtime
  else .error ⟨.loadAccessFault, addr⟩

def store (c : Clint) (addr : Word) (size : Nat) (value : Word) : Except Exception Clint :=
  if size ≠ 64 then .error ⟨.storeAMOAccessFault, addr⟩
  else if addr = clintMtimecmp then .ok { c with mtimecmp := value }
  else if addr = clintMtime then .ok { c with mtime := value }
  else .error ⟨.storeAMOAccessFault, addr⟩

/-- `Clint::tick`, by one. -/
def tick (c : Clint) : Clint × Bool :=
  ({ c with mtime := c.mtime + 1 }, c.mtimecmp ≤ c.mtime + 1)

end Clint

structure Plic where
  pending : Word
  senable : Word
  spriority : Word
  sclaim : Word
  deriving Inhabited

/-- `PLIC_PENDING`, `PLIC_SENABLE`, `PLIC_SPRIORITY` and `PLIC_SCLAIM`. -/
def plicPending : Word := 0xc001000
def plicSenable : Word := 0xc002000
def plicSpriority : Word := 0xc201000
def plicSclaim : Word := 0xc201004

namespace Plic

def load (p : Plic) (addr : Word) (size : Nat) : Except Exception Word :=
  if size ≠ 32 then .error ⟨.loadAccessFault, addr⟩
  else if addr = plicPending then .ok p.pending
  else if addr = plicSenable then .ok p.senable
  else if addr = plicSpriority then .ok p.spriority
  else if addr = plicSclaim then .ok p.sclaim
  else .ok 0

def store (p : Plic) (addr : Word) (size : Nat) (value : Word) : Except Exception Plic :=
  if size ≠ 32 then .error ⟨.storeAMOAccessFault, addr⟩
  else if addr = plicPending then .ok { p with pending := value }
  else if addr = plicSenable then .ok { p with senable := value }
  else if addr = plicSpriority then .ok { p with spriority := value }
  else if addr = plicSclaim then .ok { p with sclaim := value }
  else .ok p

end Plic

/-! ## UART -/

/-- `Uart`: its registers, and what it has printed. -/
structure Uart where
  uart : Region
  printed : List UInt8
  deriving Inhabited

/-- `UART_BASE`. -/
def uartBase : Word := 0x10000000

namespace Uart

/-- `Uart::load`. Reading `UART_RHR` clears `MASK_UART_LSR_RX` of `UART_LSR`. -/
def load (u : Uart) (addr : Word) (size : Nat) : Except Exception (Word × Uart) :=
  if size ≠ 8 then .error ⟨.loadAccessFault, addr⟩
  else
    let index := (addr - uartBase).toNat
    let value := (u.uart index).toBitVec.setWidth 64
    if index = 0 then .ok (value, { u with uart := Function.update u.uart 5 (u.uart 5 &&& ~~~1) })
    else .ok (value, u)

def store (u : Uart) (addr : Word) (size : Nat) (value : Word) : Except Exception Uart :=
  if size ≠ 8 then .error ⟨.storeAMOAccessFault, addr⟩
  else
    let index := (addr - uartBase).toNat
    if index = 0 then .ok { u with printed := u.printed ++ [byte value 0] }
    else .ok { u with uart := Function.update u.uart index (byte value 0) }

end Uart

/-! ## Block device -/

/-- `BlockDevice`. `image` is the file of the host, where there is one. -/
structure BlockDevice where
  storage : Region
  window : Region
  image : Option Region
  sector : Word
  status : BitVec 32
  deriving Inhabited

/-- `BLOCK_BASE`, `BLOCK_SECTOR_SIZE` and `BLOCK_SECTOR_COUNT`. -/
def blockBase : Word := 0x10001000
def sectorSize : Nat := 512
def sectorCount : Nat := 16384

/-- `REG_SECTOR`, `REG_COMMAND`, `REG_STATUS` and `DATA_WINDOW`. -/
def regSector : Word := 0x00
def regCommand : Word := 0x08
def regStatus : Word := 0x0c
def dataWindow : Word := 0x100

namespace BlockDevice

/-- The constructor, on a file that is there. -/
def ofImage (file : List UInt8) : Option BlockDevice :=
  if file.length ≠ sectorSize * sectorCount then none
  else some ⟨fun i => file.getD i 0, Region.zero, some fun i => file.getD i 0, 0, 0⟩

def flushSector (d : BlockDevice) (offset : Nat) : BlockDevice :=
  { d with
    image := d.image.map fun image =>
      image.blit offset (fun i => d.storage (offset + i)) sectorSize }

def execute (d : BlockDevice) (command : BitVec 32) : BlockDevice :=
  if d.sector.toNat ≥ sectorCount then { d with status := 1 }
  else
    let offset := d.sector.toNat * sectorSize
    if command = 1 then
      { d with
        window := d.window.blit 0 (fun i => d.storage (offset + i)) sectorSize, status := 0 }
    else if command = 2 then
      { { d with storage := d.storage.blit offset d.window sectorSize }.flushSector offset with
        status := 0 }
    else { d with status := 1 }

def load (d : BlockDevice) (addr : Word) (size : Nat) : Except Exception Word :=
  let offset := addr - blockBase
  let index := offset - dataWindow
  if sizeOk size = false then .error ⟨.loadAccessFault, addr⟩
  else if offset = regSector ∧ size = 64 then .ok d.sector
  else if offset = regStatus ∧ size = 32 then .ok (d.status.setWidth 64)
  else if offset ≥ dataWindow ∧ index + BitVec.ofNat 64 (size / 8) ≤ 512 then
    .ok (ofBytes (fun i => d.window (index.toNat + i)) (size / 8))
  else .error ⟨.loadAccessFault, addr⟩

def store (d : BlockDevice) (addr : Word) (size : Nat) (value : Word) :
    Except Exception BlockDevice :=
  let offset := addr - blockBase
  let index := offset - dataWindow
  if sizeOk size = false then .error ⟨.storeAMOAccessFault, addr⟩
  else if offset = regSector ∧ size = 64 then .ok { d with sector := value }
  else if offset = regCommand ∧ size = 32 then .ok (d.execute (value.setWidth 32))
  else if offset ≥ dataWindow ∧ index + BitVec.ofNat 64 (size / 8) ≤ 512 then
    .ok { d with window := d.window.blit index.toNat (byte value) (size / 8) }
  else .error ⟨.storeAMOAccessFault, addr⟩

end BlockDevice

/-! ## The bus -/

structure Bus where
  dram : Ram
  uart : Uart
  clint : Clint
  plic : Plic
  block : BlockDevice
  halted : Bool
  deriving Inhabited

/-- What answers at a physical address. -/
inductive Target where
  | dram | uart | clint | plic | testFinish | block
  deriving DecidableEq, Repr

/-- The ranges of `bus.cpp`, in the order they are tried. -/
def targetAt (addr : Word) : Option Target :=
  if addr ≥ dramBase ∧ addr ≤ dramEnd then some .dram
  else if addr ≥ uartBase ∧ addr ≤ 0x100000ff then some .uart
  else if addr ≥ 0x2000000 ∧ addr ≤ 0x200ffff then some .clint
  else if addr ≥ 0xc000000 ∧ addr ≤ 0xfffffff then some .plic
  else if addr ≥ 0x100000 ∧ addr ≤ 0x1000ff then some .testFinish
  else if addr ≥ blockBase ∧ addr ≤ 0x100012ff then some .block
  else none

namespace Bus

/-- `Bus::load`, with the bus after it. -/
def load (b : Bus) (addr : Word) (size : Nat) : Except Exception (Word × Bus) :=
  match targetAt addr with
  | some .dram => (Dram.load b.dram addr size).map fun v => (v, b)
  | some .uart => (b.uart.load addr size).map fun (v, uart) => (v, { b with uart := uart })
  | some .clint => (b.clint.load addr size).map fun v => (v, b)
  | some .plic => (b.plic.load addr size).map fun v => (v, b)
  | some .testFinish => .ok (if b.halted then 1 else 0, b)
  | some .block => (b.block.load addr size).map fun v => (v, b)
  | none => .error ⟨.loadAccessFault, addr⟩

def store (b : Bus) (addr : Word) (size : Nat) (value : Word) : Except Exception Bus :=
  match targetAt addr with
  | some .dram => (Dram.store b.dram addr size value).map fun dram => { b with dram := dram }
  | some .uart => (b.uart.store addr size value).map fun uart => { b with uart := uart }
  | some .clint => (b.clint.store addr size value).map fun clint => { b with clint := clint }
  | some .plic => (b.plic.store addr size value).map fun plic => { b with plic := plic }
  | some .testFinish => .ok { b with halted := true }
  | some .block => (b.block.store addr size value).map fun block => { b with block := block }
  | none => .error ⟨.storeAMOAccessFault, addr⟩

end Bus

end MiniOs.Cemu
