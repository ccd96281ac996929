import MiniOs.Tools.Mkfs

/-!
# The kernel installer

`tools/install_kernel.py`, which puts a kernel behind the file system of a disk image.
An image of the first layout used the whole device; it is migrated on the way, where the
file system has nothing in the sectors the kernel needs.

A file of the host is its bytes. While the tool works on the image it is a `bytearray`,
and a `Region` here. What the host makes of the four accesses to files is an argument:
each can fail, and a write that fails has written some of its bytes.
-/

namespace MiniOs.Tools

open MiniOs.Lib MiniOs.Fs

/-- `DEVICE_BLOCK_COUNT` and `IMAGE_SIZE`. -/
def deviceBlockCount : Nat := 16384
def imageSize : Nat := 512 * deviceBlockCount

/-- `MINIFS_MAGIC`, `MINIFS_VERSION` and `MINIFS_BLOCK_COUNT`. -/
def minifsMagic : Nat := 0x4d465332
def minifsVersion : Nat := 2
def minifsBlockCount : Nat := 15360

/-- `KERNEL_SLOT_START`, `KERNEL_SLOT_SECTORS` and `KERNEL_LOAD_ADDRESS`. -/
def kernelSlotStart : Nat := minifsBlockCount
def kernelSlotSectors : Nat := deviceBlockCount - kernelSlotStart
def kernelLoadAddress : Nat := 0x80200000

/-- `KERNEL_MAGIC`, which spells MINIKRNL, and `KERNEL_VERSION`. -/
def kernelMagic : List UInt8 := [77, 73, 78, 73, 75, 82, 78, 76]
def kernelVersion : Nat := 1

/-- `HEADER.size`, and the byte where `DATA_BITMAP_START` begins. -/
def headerSize : Nat := 64
def dataBitmap : Nat := 2 * 512

/-- The exceptions of the tool; each is a `ValueError` but the last. -/
inductive InstallError where
  /-- "disk image must be exactly 8 MiB" -/
  | imageSize
  /-- "kernel image is empty" -/
  | kernelEmpty
  /-- "kernel is too large: ... bytes, limit ..." -/
  | kernelTooLarge (size limit : Nat)
  /-- "disk does not contain MiniFS v2" -/
  | notMinifs
  /-- "unsupported MiniFS block count: ..." -/
  | blockCount (blocks : Nat)
  /-- "cannot reserve kernel slot: MiniFS uses tail sectors (first used sector ...)" -/
  | tailUsed (first : Nat)
  /-- An `OSError` of the host. -/
  | host
  deriving DecidableEq

/-- The bytes of a file as a `bytearray`, and the first `size` bytes of one as a file. -/
def bytesOf (file : List UInt8) : Region := fun i => file.getD i 0
def fileOf (size : Nat) (image : Region) : List UInt8 := (List.range size).map image

def checksum32 (data : List UInt8) : Nat := (data.map UInt8.toNat).sum % 2 ^ 32

/-! ## Migration -/

def bitIsSet (image : Region) (bit : Nat) : Bool :=
  (image (dataBitmap + bit / 8)).toNat.testBit (bit % 8)

def setBit (image : Region) (bit : Nat) : Region := Builder.orBit image dataBitmap bit

/-- `range(KERNEL_SLOT_START, DEVICE_BLOCK_COUNT)`. -/
def slotBlocks : List Nat := (List.range kernelSlotSectors).map (kernelSlotStart + ·)

def migrateMinifs (image : Region) : Except InstallError Region :=
  if image.word 0 ≠ minifsMagic ∨ image.word 4 ≠ minifsVersion then .error .notMinifs
  else if image.word 8 = minifsBlockCount then .ok image
  else if image.word 8 ≠ deviceBlockCount then .error (.blockCount (image.word 8))
  else
    match slotBlocks.filter (bitIsSet image) with
    | first :: _ => .error (.tailUsed first)
    | [] =>
      let values (k : Nat) : Nat := if k = 2 then minifsBlockCount else image.word (4 * k)
      .ok (slotBlocks.foldl setBit (image.putWords 0 12 values))

/-! ## Installation -/

/-- `HEADER.pack`, of the fields of a kernel. -/
def packHeader (kernel : List UInt8) : Region :=
  let r := Region.zero.blit 0 (bytesOf kernelMagic) 8
  let r := r.putWord 8 kernelVersion
  let r := r.putWord 12 headerSize
  let r := r.putDword 16 kernelLoadAddress
  let r := r.putDword 24 kernelLoadAddress
  let r := r.putWord 32 kernel.length
  r.putWord 36 (checksum32 kernel)

/-- The image with the kernel in its slot. -/
def fillSlot (image : Region) (kernel : List UInt8) : Region :=
  let slotOffset := kernelSlotStart * 512
  let slotSize := kernelSlotSectors * 512
  let image := image.blit slotOffset Region.zero slotSize
  let image := image.blit slotOffset (packHeader kernel) headerSize
  image.blit (slotOffset + 512) (bytesOf kernel) kernel.length

/-- The files the tool is concerned with. -/
structure HostFiles where
  image : Option (List UInt8)
  kernel : Option (List UInt8)
  temporary : Option (List UInt8)

/-- What the host does: whether the two files can be read and the new one renamed, and
where writing it ends, if it does not go through. -/
structure HostIo where
  readImage : Bool
  readKernel : Bool
  writeEnds : Option Nat
  replaces : Bool

/-- `path.read_bytes()`. -/
def readBytes (file : Option (List UInt8)) (goesThrough : Bool) :
    Except InstallError (List UInt8) :=
  match file with
  | some bytes => if goesThrough then .ok bytes else .error .host
  | none => .error .host

/-- The end of `install_kernel`: the new image is written beside the old one and takes its
place. -/
def replaceImage (files : HostFiles) (io : HostIo) (image : List UInt8) :
    HostFiles × Except InstallError Unit :=
  match io.writeEnds with
  | some n => ({ files with temporary := some (image.take n) }, .error .host)
  | none =>
    if io.replaces then ({ files with image := some image, temporary := none }, .ok ())
    else ({ files with temporary := some image }, .error .host)

def installKernel (files : HostFiles) (io : HostIo) : HostFiles × Except InstallError Unit :=
  match readBytes files.image io.readImage with
  | .error e => (files, .error e)
  | .ok image =>
    if image.length ≠ imageSize then (files, .error .imageSize)
    else
      match readBytes files.kernel io.readKernel with
      | .error e => (files, .error e)
      | .ok kernel =>
        let payloadLimit := (kernelSlotSectors - 1) * 512
        if kernel = [] then (files, .error .kernelEmpty)
        else if kernel.length > payloadLimit then
          (files, .error (.kernelTooLarge kernel.length payloadLimit))
        else
          match migrateMinifs (bytesOf image) with
          | .error e => (files, .error e)
          | .ok migrated =>
            replaceImage files io (fileOf imageSize (fillSlot migrated kernel))

end MiniOs.Tools
