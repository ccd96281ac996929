import MiniOs.Fs.Layout

/-!
# The image builder

`tools/mkfs_minifs.py`, which lays out a MiniFS volume on the host. It shares no
code with the kernel, only the format, so it is modelled on its own: the image is
one flat byte array, the bitmaps and the inode table are Python lists until
`finish` packs them, and an inode is a dictionary that `file_block` updates in
place.

A staging directory is a `HostDir`: its entries in the order the host lists
them, which is any order, each with a name and what is behind it. A name is a
string of bytes to the host; Python can turn it into UTF-8 again or raises, and
`utf8` says which. `StagedTree` adds what a host guarantees about names.

An exception ends the build and no image is written, so a function here returns
the error alone.
-/

namespace MiniOs.Tools

open MiniOs.Lib MiniOs.Fs

/-! ## The staging directory -/

/-- A name in a host directory. -/
structure HostName where
  bytes : List UInt8
  /-- `name.encode("utf-8")` does not raise. -/
  utf8 : Bool

mutual
/-- What a path of the staging directory is, in the order `import_tree` asks. -/
inductive HostNode where
  | symlink
  | dir (children : HostDir)
  | other
  /-- A regular file; `exec` is `os.access(path, os.X_OK)`. -/
  | file (data : List UInt8) (exec : Bool)
/-- The entries of a directory. -/
inductive HostDir where
  | nil
  | cons (name : HostName) (node : HostNode) (rest : HostDir)
end

/-- The order of `sorted(..., key=lambda item: item.name)`. Python compares code
points; for UTF-8 that is the order of the bytes. -/
def nameLe : List UInt8 → List UInt8 → Bool
  | [], _ => true
  | _ :: _, [] => false
  | a :: as, b :: bs => if a = b then nameLe as bs else a < b

/-- Put an entry before the first one that is not smaller. -/
def HostDir.insert (name : HostName) (node : HostNode) : HostDir → HostDir
  | .nil => .cons name node .nil
  | .cons name' node' rest =>
    if nameLe name.bytes name'.bytes then .cons name node (.cons name' node' rest)
    else .cons name' node' (HostDir.insert name node rest)

mutual
/-- The tree with every directory in the order it is imported. -/
def HostNode.sort : HostNode → HostNode
  | .symlink => .symlink
  | .dir children => .dir children.sort
  | .other => .other
  | .file data exec => .file data exec
/-- `sorted` at every level. -/
def HostDir.sort : HostDir → HostDir
  | .nil => .nil
  | .cons name node rest => HostDir.insert name node.sort rest.sort
end

/-- The names of a directory. -/
def HostDir.names : HostDir → List (List UInt8)
  | .nil => []
  | .cons name _ rest => name.bytes :: rest.names

/-- What a host allows as a name of a directory entry. -/
def HostName.Legal (name : HostName) : Prop :=
  name.bytes ≠ [] ∧ 0 ∉ name.bytes ∧ slash ∉ name.bytes ∧ name.bytes ≠ [dot] ∧
    name.bytes ≠ [dot, dot]

mutual
def HostNode.Legal : HostNode → Prop
  | .symlink => True
  | .dir children => children.Legal
  | .other => True
  | .file _ _ => True
/-- Legal names, no two of them the same, all the way down. -/
def HostDir.Legal : HostDir → Prop
  | .nil => True
  | .cons name node rest =>
    name.Legal ∧ name.bytes ∉ rest.names ∧ node.Legal ∧ rest.Legal
end

/-- A staging directory as a host can hold it. -/
structure StagedTree where
  root : HostDir
  legal : root.Legal

/-! ## The builder -/

/-- `MiniFSBuilder`. -/
structure Builder where
  image : Region
  inodeUsed : Nat → Bool
  blockUsed : Nat → Bool
  inodes : Nat → Option Inode

/-- The exceptions of the tool; each is a `ValueError` but the last. -/
inductive MkfsError where
  /-- "MiniFS inode table is full" -/
  | inodesFull
  /-- "MiniFS data area is full" -/
  | dataFull
  /-- "file exceeds MiniFS block mapping" -/
  | blockMapping
  /-- "file exceeds 64 KiB: inode ..." -/
  | tooLarge (inode : Nat)
  /-- "invalid MiniFS name: ..." -/
  | invalidName (name : HostName)
  /-- "symbolic links are not supported: ..." -/
  | symlink (name : HostName)
  /-- "unsupported file type: ..." -/
  | unsupported (name : HostName)
  /-- The `UnicodeEncodeError` of `name.encode`. -/
  | encoding (name : HostName)

namespace Builder

def newInode (mode parent : Nat) : Inode :=
  { mode := mode, size := 0, parent := parent, links := 1, direct := fun _ => 0
    indirect := 0, reserved := 0 }

/-- `__init__`. -/
def new : Builder where
  image := Region.zero
  inodeUsed n := n = 0
  blockUsed block := block < 38 ∨ 15360 ≤ block
  inodes := Function.update (fun _ => none) 0 (some (newInode 2 0))

/-- The dictionary of an inode that exists. -/
def inode (b : Builder) (n : Nat) : Inode := (b.inodes n).getD Inode.zero

/-- An update of that dictionary. -/
def setInode (b : Builder) (n : Nat) (inode : Inode) : Builder :=
  { b with inodes := Function.update b.inodes n (some inode) }

def allocInode (b : Builder) (mode parent : Nat) : Except MkfsError (Builder × Nat) :=
  match (List.range' 1 255).find? fun n => !b.inodeUsed n with
  | none => .error .inodesFull
  | some n =>
    let b := { b with inodeUsed := Function.update b.inodeUsed n true }
    .ok (b.setInode n (newInode mode parent), n)

def allocBlock (b : Builder) : Except MkfsError (Builder × Nat) :=
  match (List.range' 38 15322).find? fun block => !b.blockUsed block with
  | none => .error .dataFull
  | some block =>
    .ok ({ b with blockUsed := Function.update b.blockUsed block true }, block)

/-- The end of `file_block`: the entry of the indirect table. -/
def tableBlock (b : Builder) (n slot : Nat) (allocate : Bool) :
    Except MkfsError (Builder × Nat) :=
  let offset := (b.inode n).indirect * 512 + slot * 4
  let block := b.image.word offset
  if block = 0 ∧ allocate then
    match b.allocBlock with
    | .error e => .error e
    | .ok (b, block) => .ok ({ b with image := b.image.putWord offset block }, block)
  else .ok (b, block)

def fileBlock (b : Builder) (n logical : Nat) (allocate : Bool) :
    Except MkfsError (Builder × Nat) :=
  if h : logical < 10 then
    if (b.inode n).direct ⟨logical, h⟩ = 0 ∧ allocate then
      match b.allocBlock with
      | .error e => .error e
      | .ok (b, block) =>
        .ok (b.setInode n
          { b.inode n with
            direct := Function.update (b.inode n).direct ⟨logical, h⟩ block }, block)
    else .ok (b, (b.inode n).direct ⟨logical, h⟩)
  else if logical - 10 ≥ 128 then .error .blockMapping
  else if (b.inode n).indirect = 0 then
    if allocate then
      match b.allocBlock with
      | .error e => .error e
      | .ok (b, block) =>
        (b.setInode n { b.inode n with indirect := block }).tableBlock n (logical - 10)
          allocate
    else .ok (b, 0)
  else b.tableBlock n (logical - 10) allocate

/-- The loop of `write_file`, at block `logical` with `left` blocks to go. -/
def writeLoop (n : Nat) (data : List UInt8) :
    Nat → Nat → Builder → Except MkfsError Builder
  | 0, _, b => .ok b
  | left + 1, logical, b =>
    match b.fileBlock n logical true with
    | .error e => .error e
    | .ok (b, block) =>
      let chunk := (data.drop (logical * 512)).take 512
      writeLoop n data left (logical + 1)
        { b with
          image := b.image.blit (block * 512) (fun i => chunk.getD i 0) chunk.length }

def writeFile (b : Builder) (n : Nat) (data : List UInt8) : Except MkfsError Builder :=
  if data.length > 65536 then .error (.tooLarge n)
  else
    match writeLoop n data ((data.length + 511) / 512) 0 b with
    | .error e => .error e
    | .ok b => .ok (b.setInode n { b.inode n with size := data.length })

/-- `DIRENT.pack_into`: two words and the name, padded with zeros to 56 bytes. -/
def packDirent (image : Region) (offset child mode : Nat) (encoded : List UInt8) : Region :=
  let image := image.putWord offset child
  let image := image.putWord (offset + 4) mode
  image.blit (offset + 8) (fun i => encoded.getD i 0) 56

def addDirent (b : Builder) (parent : Nat) (name : HostName) (child mode : Nat) :
    Except MkfsError Builder :=
  if name.utf8 = false then .error (.encoding name)
  else if name.bytes = [] ∨ name.bytes.length > 55 ∨ slash ∈ name.bytes then
    .error (.invalidName name)
  else
    let index := (b.inode parent).size / 64
    match b.fileBlock parent (index / 8) true with
    | .error e => .error e
    | .ok (b, block) =>
      let b := { b with
        image := packDirent b.image (block * 512 + index % 8 * 64) child mode name.bytes }
      .ok (b.setInode parent
        { b.inode parent with size := (b.inode parent).size + 64 })

mutual
/-- One round of the loop of `import_tree`. -/
def importNode (b : Builder) (parent : Nat) (name : HostName) :
    HostNode → Except MkfsError Builder
  | .symlink => .error (.symlink name)
  | .dir children =>
    match b.allocInode 2 parent with
    | .error e => .error e
    | .ok (b, child) =>
      match b.addDirent parent name child 2 with
      | .error e => .error e
      | .ok b => importDir b child children
  | .other => .error (.unsupported name)
  | .file data exec =>
    let mode := if exec then 0x101 else 1
    match b.allocInode mode parent with
    | .error e => .error e
    | .ok (b, child) =>
      match b.addDirent parent name child mode with
      | .error e => .error e
      | .ok b => b.writeFile child data
/-- The loop of `import_tree` over a sorted directory. -/
def importDir (b : Builder) (parent : Nat) : HostDir → Except MkfsError Builder
  | .nil => .ok b
  | .cons name node rest =>
    match importNode b parent name node with
    | .error e => .error e
    | .ok b => importDir b parent rest
end

def importTree (b : Builder) (root : HostDir) : Except MkfsError Builder :=
  importDir b 0 root.sort

/-- The fields of the superblock, in the order they are packed. -/
def superWords : List Nat := [0x4d465332, 2, 15360, 256, 1, 1, 2, 4, 6, 32, 38, 65536]

/-- `image[start + number // 8] |= 1 << (number % 8)`. -/
def orBit (image : Region) (start number : Nat) : Region :=
  Function.update image (start + number / 8)
    (image (start + number / 8) ||| UInt8.ofNat (2 ^ (number % 8)))

/-- The loop of `finish` over one of the two lists of flags. -/
def packBits (image : Region) (start count : Nat) (used : Nat → Bool) : Region :=
  (List.range count).foldl
    (fun image number => if used number then orBit image start number else image) image

/-- The loop of `finish` over the inodes. -/
def packInodes (image : Region) (count : Nat) (inodes : Nat → Option Inode) : Region :=
  (List.range count).foldl
    (fun image number =>
      match inodes number with
      | none => image
      | some inode => Inode.encode image (6 * 512 + number * 64) inode) image

def finish (b : Builder) : Region :=
  let image := (b.image.blit 0 Region.zero 512).putWords 0 12 fun k => superWords.getD k 0
  let image := packBits image 512 256 b.inodeUsed
  let image := packBits image 1024 16384 b.blockUsed
  packInodes image 256 b.inodes

end Builder

/-! ## Images -/

/-- The sectors of a flat image. -/
def sectors (image : Region) : Disk := fun c i => if i < 512 then image (512 * c + i) else 0

/-- A staging directory that imports without an error, with what the builder
holds at the end. -/
structure Image where
  tree : StagedTree
  builder : Builder
  built : Builder.importTree Builder.new tree.root = .ok builder

/-- The bytes `finish` returns. -/
def Image.bytes (img : Image) : Region := img.builder.finish

/-- A device with the image on it. The kernel slot behind the file system is
zero in a fresh image and holds a kernel once one is installed. -/
def Image.disk (img : Image) (slot : Disk) : Disk :=
  fun c => if c < 15360 then sectors img.bytes c else slot c

end MiniOs.Tools
