import MiniOs.Fs.State

/-!
# Inodes, bitmaps and blocks

The lower half of `minifs.c`, from `bitmap_test` to `truncate_inode`: reading
and writing the inode table, the two allocators, and the map from the logical
blocks of an inode to sectors.

A function returns the state beside its result, also where it fails, because
the buffers and sometimes the disk have changed by then. Where the source
updates an inode through a pointer, the updated inode is returned too, and that
matters on the failure path: `ensureInodeBlock` may hand back an inode that
already owns a fresh indirect block together with the answer that it could not
map the block asked for.
-/

namespace MiniOs.Fs

open MiniOs.Lib

def bitmapTest (bitmap : Region) (bit : Nat) : Bool := bitmap.testBit bit

def bitmapSet (bitmap : Region) (bit : Nat) (value : Bool) : Region :=
  bitmap.setBit bit value

def readInode (s : FsSt) (number : Nat) : FsSt × Option Inode :=
  if number ≥ 256 then (s, none)
  else
    match s.readBlock (6 + number / 8) with
    | none => (s, none)
    | some s => (s, some (Inode.decode s.blockBuffer (number % 8 * 64)))

def writeInode (s : FsSt) (number : Nat) (inode : Inode) : FsSt × Bool :=
  if number ≥ 256 then (s, false)
  else
    match s.readBlock (6 + number / 8) with
    | none => (s, false)
    | some s =>
      let s := { s with
        blockBuffer := Inode.encode s.blockBuffer (number % 8 * 64) inode }
      match s.writeBlock (6 + number / 8) s.blockBuffer with
      | none => (s, false)
      | some s => (s, true)

/-- `alloc_inode`: the lowest clear bit above 0. -/
def allocInode (s : FsSt) : FsSt × Option Nat :=
  match s.readBlock 1 with
  | none => (s, none)
  | some s =>
    match (List.range' 1 255).find? fun i => !bitmapTest s.blockBuffer i with
    | none => (s, none)
    | some i =>
      let s := { s with blockBuffer := bitmapSet s.blockBuffer i true }
      match s.writeBlock 1 s.blockBuffer with
      | none => (s, none)
      | some s => (s, some i)

def freeInodeNumber (s : FsSt) (inode : Nat) : FsSt :=
  if inode = 0 ∨ inode ≥ 256 then s
  else
    match s.readBlock 1 with
    | none => s
    | some s =>
      let s := { s with blockBuffer := bitmapSet s.blockBuffer inode false }
      (s.writeBlock 1 s.blockBuffer).getD s

/-- The sector of `bitmap_buffer` that holds a block's bit, as it is handed to
`block_write`. -/
def bitmapSector (bitmap : Region) (block : Nat) : Region :=
  fun i => bitmap (block / 4096 * 512 + i)

/-- `alloc_data_block`: the lowest clear bit of the data area. The bit goes to
disk first, then the block is zeroed. -/
def allocDataBlock (s : FsSt) : FsSt × Option Nat :=
  match (List.range' 38 15322).find? fun i => !bitmapTest s.bitmapBuffer i with
  | none => (s, none)
  | some i =>
    let s := { s with bitmapBuffer := bitmapSet s.bitmapBuffer i true }
    match s.writeBlock (2 + i / 4096) (bitmapSector s.bitmapBuffer i) with
    | none => (s, none)
    | some s =>
      let s := { s with blockBuffer := Region.zero }
      match s.writeBlock i s.blockBuffer with
      | none => (s, none)
      | some s => (s, some i)

/-- `free_data_block`: a number outside the data area is ignored. -/
def freeDataBlock (s : FsSt) (block : Nat) : FsSt :=
  if block < 38 ∨ block ≥ 15360 then s
  else
    let s := { s with bitmapBuffer := bitmapSet s.bitmapBuffer block false }
    (s.writeBlock (2 + block / 4096) (bitmapSector s.bitmapBuffer block)).getD s

/-- Word `slot` of an indirect block, `((uint32_t *)buffer)[slot]`. -/
def tableEntry (buffer : Region) (slot : Nat) : Nat := buffer.word (4 * slot)

/-- `inode_block`: the sector of a logical block, 0 where there is none. -/
def inodeBlock (s : FsSt) (inode : Inode) (index : Nat) : FsSt × Nat :=
  if h : index < 10 then (s, inode.direct ⟨index, h⟩)
  else if index ≥ 138 ∨ inode.indirect = 0 then (s, 0)
  else
    match s.readBlock inode.indirect with
    | none => (s, 0)
    | some s => (s, tableEntry s.blockBuffer (index - 10))

/-- The part of `ensure_inode_block` that works on the indirect table once the
inode has one. -/
def ensureTableEntry (s : FsSt) (inode : Inode) (slot : Nat) :
    FsSt × Inode × Option Nat :=
  match s.readIndirect inode.indirect with
  | none => (s, inode, none)
  | some s =>
    if tableEntry s.indirectBuffer slot = 0 then
      match allocDataBlock s with
      | (s, none) => (s, inode, none)
      | (s, some block) =>
        let s := { s with
          indirectBuffer := s.indirectBuffer.putWord (4 * slot) block }
        match s.writeBlock inode.indirect s.indirectBuffer with
        | none => (s, inode, none)
        | some s => (s, inode, some (tableEntry s.indirectBuffer slot))
    else (s, inode, some (tableEntry s.indirectBuffer slot))

/-- `ensure_inode_block`: the sector of a logical block, allocated on demand,
with the indirect block allocated first where it is missing. -/
def ensureInodeBlock (s : FsSt) (inode : Inode) (index : Nat) :
    FsSt × Inode × Option Nat :=
  if index ≥ 138 then (s, inode, none)
  else if h : index < 10 then
    if inode.direct ⟨index, h⟩ = 0 then
      match allocDataBlock s with
      | (s, none) => (s, inode, none)
      | (s, some block) =>
        (s, { inode with direct := Function.update inode.direct ⟨index, h⟩ block },
          some block)
    else (s, inode, some (inode.direct ⟨index, h⟩))
  else if inode.indirect = 0 then
    match allocDataBlock s with
    | (s, none) => (s, inode, none)
    | (s, some block) =>
      ensureTableEntry s { inode with indirect := block } (index - 10)
  else ensureTableEntry s inode (index - 10)

/-- The loops of `truncate_inode` over block numbers. -/
def freeDataBlocks (s : FsSt) (blocks : List Nat) : FsSt :=
  blocks.foldl freeDataBlock s

/-- `truncate_inode`: the direct blocks, then the entries of the indirect table
and the table itself. -/
def truncateInode (s : FsSt) (inode : Inode) : FsSt × Inode :=
  let s := freeDataBlocks s ((List.finRange 10).map inode.direct)
  let s :=
    if inode.indirect ≠ 0 then
      let s :=
        match s.readIndirect inode.indirect with
        | none => s
        | some s =>
          freeDataBlocks s ((List.range 128).map (tableEntry s.indirectBuffer))
      freeDataBlock s inode.indirect
    else s
  (s, { inode with direct := fun _ => 0, indirect := 0, size := 0 })

end MiniOs.Fs
