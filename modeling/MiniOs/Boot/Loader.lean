import MiniOs.Kernel.Block

/-!
# The boot loader

`os/boot/loader.c`, on the bus of the emulator: it reads the header of the kernel slot,
copies the kernel to its load address and adds up its bytes, and jumps.

The loader has the first two megabytes of memory to itself, with the stack at their end,
and a kernel is loaded behind them. `sector_buffer` and the locals are values here. What it
prints is left out.
-/

namespace MiniOs.Boot

open MiniOs.Lib MiniOs.Cemu

/-- `KERNEL_SLOT_START`, `KERNEL_LOAD_ADDRESS` and `KERNEL_SLOT_PAYLOAD_MAX`. -/
def kernelSlotStart : Nat := 15360
def kernelLoadAddress : Nat := 0x80200000
def kernelSlotPayloadMax : Nat := (1024 - 1) * 512

/-- `BOOT_IMAGE_VERSION` and `BOOT_IMAGE_HEADER_SIZE`. -/
def bootImageVersion : Nat := 1
def bootImageHeaderSize : Nat := 64

def expectedMagic : List UInt8 := [77, 73, 78, 73, 75, 82, 78, 76]

/-- `struct boot_image_header`. -/
structure Header where
  magic : List UInt8
  version : Nat
  headerSize : Nat
  loadAddress : Nat
  entry : Nat
  imageSize : Nat
  checksum : Nat

/-- The header a sector begins with. -/
def Header.decode (r : Region) : Header where
  magic := (List.range 8).map r
  version := r.word 8
  headerSize := r.word 12
  loadAddress := r.dword 16
  entry := r.dword 24
  imageSize := r.word 32
  checksum := r.word 36

/-- How the loader ends: in the loop of `boot_fail`, or in the kernel. -/
inductive Outcome where
  | fail (message : String)
  | jump (entry : Nat)
  deriving DecidableEq

def bytesEqual (left right : List UInt8) (length : Nat) : Bool :=
  (List.range length).all fun i => left.getD i 0 == right.getD i 0

/-- `block_read`. Unlike that of the kernel it leaves it to the device to refuse a
sector. -/
def blockRead (b : Bus) (sector : BitVec 32) (buffer : Region) :
    Except Exception (Int × Region × Bus) := do
  let b ← b.store Kernel.Block.blockRegSector 64 (sector.setWidth 64)
  let b ← b.store Kernel.Block.blockRegCmd 32 1
  let (status, b) ← b.load Kernel.Block.blockRegStatus 32
  if status ≠ 0 then return (-1, buffer, b)
  let (buffer, b) ← Kernel.Block.readWindow 64 0 b buffer
  return (0, buffer, b)

/-- The checks of `boot_main` on the header, in their order; a message where one fails. -/
def checkHeader (header : Header) : Option String :=
  if bytesEqual header.magic expectedMagic 8 = false then some "bad kernel magic"
  else if header.version ≠ bootImageVersion ∨ header.headerSize ≠ bootImageHeaderSize then
    some "unsupported kernel image"
  else if header.loadAddress ≠ kernelLoadAddress then some "unexpected load address"
  else if header.imageSize = 0 ∨ header.imageSize > kernelSlotPayloadMax then
    some "invalid kernel size"
  else if header.entry < header.loadAddress ∨
      header.entry ≥ (header.loadAddress + header.imageSize) % 2 ^ 64 then
    some "invalid kernel entry"
  else none

/-- The loop over the bytes of a sector, at byte `i` with `left` to go: the byte goes to
`destination[copied + i]` and into the checksum. -/
def copyChunk (destination : Nat) (buffer : Region) (copied : Nat) :
    Nat → Nat → Bus → Nat → Except Exception (Bus × Nat)
  | 0, _, b, checksum => .ok (b, checksum)
  | left + 1, i, b, checksum => do
      let b ← b.store (BitVec.ofNat 64 (destination + copied + i)) 8
        (BitVec.ofNat 64 (buffer i).toNat)
      copyChunk destination buffer copied left (i + 1) b ((checksum + (buffer i).toNat) % 2 ^ 32)

/-- The loop over the sectors, with the checksum where every read goes through. A round
copies a byte at least, so that the size of the kernel is fuel enough. -/
def loadKernel (imageSize destination : Nat) :
    Nat → Bus → Region → Nat → Nat → Nat → Except Exception (Bus × Option Nat)
  | 0, b, _, checksum, _, _ => .ok (b, some checksum)
  | fuel + 1, b, buffer, checksum, copied, sector =>
    if copied < imageSize then do
      let (status, buffer, b) ← blockRead b (BitVec.ofNat 32 sector) buffer
      if status < 0 then return (b, none)
      let chunk := min (imageSize - copied) 512
      let (b, checksum) ← copyChunk destination buffer copied chunk 0 b checksum
      loadKernel imageSize destination fuel b buffer checksum (copied + chunk) (sector + 1)
    else .ok (b, some checksum)

def bootMain (b : Bus) : Except Exception (Outcome × Bus) := do
  let (status, buffer, b) ← blockRead b (BitVec.ofNat 32 kernelSlotStart) Region.zero
  if status < 0 then return (.fail "cannot read kernel header", b)
  let header := Header.decode buffer
  match checkHeader header with
  | some message => return (.fail message, b)
  | none =>
    let (b, checksum) ← loadKernel header.imageSize header.loadAddress header.imageSize b buffer
      0 0 (kernelSlotStart + 1)
    match checksum with
    | none => return (.fail "kernel read failed", b)
    | some checksum =>
      if checksum ≠ header.checksum then return (.fail "checksum mismatch", b)
      return (.jump header.entry, b)

end MiniOs.Boot
