import MiniOs.Cemu.Bus

/-!
# The block driver

`block.c` on the bus of the emulator. The registers of the device are where
`vm_init` maps them, so a physical address is the address the driver uses. An
access can throw, and the driver ends there.

A buffer is 512 bytes, and `none` is a null pointer. The result of a call is what
it returns, with the buffer it leaves and the bus.
-/

namespace MiniOs.Kernel.Block

open MiniOs.Lib MiniOs.Cemu

/-- `BLOCK_REG_SECTOR`, `BLOCK_REG_CMD` and `BLOCK_REG_STATUS`. -/
def blockRegSector : Cemu.Word := 0x10001000
def blockRegCmd : Cemu.Word := 0x10001008
def blockRegStatus : Cemu.Word := 0x1000100c

/-- `BLOCK_DATA`, doubleword `i` of it. -/
def blockData (i : Nat) : Cemu.Word := 0x10001100 + BitVec.ofNat 64 (8 * i)

/-- The loop of `block_read`, at doubleword `i` with `left` to go. -/
def readWindow : Nat → Nat → Bus → Region → Except Exception (Region × Bus)
  | 0, _, b, buffer => .ok (buffer, b)
  | left + 1, i, b, buffer => do
      let (v, b) ← b.load (blockData i) 64
      readWindow left (i + 1) b (buffer.blit (8 * i) (byte v) 8)

/-- The loop of `block_write`. -/
def writeWindow (buffer : Region) : Nat → Nat → Bus → Except Exception Bus
  | 0, _, b => .ok b
  | left + 1, i, b => do
      let b ← b.store (blockData i) 64 (ofBytes (fun k => buffer (8 * i + k)) 8)
      writeWindow buffer left (i + 1) b

def blockRead (b : Bus) (sector : BitVec 32) (buffer : Option Region) :
    Except Exception (Int × Option Region × Bus) :=
  match buffer with
  | none => .ok (-1, none, b)
  | some buffer =>
    if sector.toNat ≥ sectorCount then .ok (-1, some buffer, b)
    else do
      let b ← b.store blockRegSector 64 (sector.setWidth 64)
      let b ← b.store blockRegCmd 32 1
      let (status, b) ← b.load blockRegStatus 32
      if status ≠ 0 then return (-1, some buffer, b)
      let (buffer, b) ← readWindow 64 0 b buffer
      return (0, some buffer, b)

def blockWrite (b : Bus) (sector : BitVec 32) (buffer : Option Region) :
    Except Exception (Int × Bus) :=
  match buffer with
  | none => .ok (-1, b)
  | some buffer =>
    if sector.toNat ≥ sectorCount then .ok (-1, b)
    else do
      let b ← writeWindow buffer 64 0 b
      let b ← b.store blockRegSector 64 (sector.setWidth 64)
      let b ← b.store blockRegCmd 32 2
      let (status, b) ← b.load blockRegStatus 32
      return (if status = 0 then 0 else -1, b)

/-- A call of the driver. -/
inductive Call where
  | read (sector : BitVec 32) (buffer : Region)
  | write (sector : BitVec 32) (buffer : Region)

/-- The bus after a call; one that throws changes nothing more. -/
def serve (b : Bus) : Call → Bus
  | .read sector buffer =>
    match blockRead b sector (some buffer) with
    | .ok (_, _, b) => b
    | .error _ => b
  | .write sector buffer =>
    match blockWrite b sector (some buffer) with
    | .ok (_, b) => b
    | .error _ => b

/-! ## What it is for -/

/-- Byte `i` of a sector, as the device has it. -/
def sectorByte (b : Bus) (sector i : Nat) : UInt8 := b.block.storage (sector * sectorSize + i)

/-- What was last written to a sector, or what it had in the beginning. -/
def latest (initial : Nat → Region) (sector : Nat) : List Call → Region
  | [] => initial sector
  | .read _ _ :: rest => latest initial sector rest
  | .write s buffer :: rest =>
    latest (if s.toNat < sectorCount then Function.update initial s.toNat buffer else initial)
      sector rest

/-- The file of the host has what the device has. -/
def Mirrored (b : Bus) : Prop :=
  ∀ image, b.block.image = some image →
    ∀ i, i < sectorCount * sectorSize → image i = b.block.storage i

end MiniOs.Kernel.Block
