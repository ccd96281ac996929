import MiniOs.Fs.Blocks

/-!
# Directories and paths

The middle of `minifs.c`, from `dir_lookup` to `create_node`. A directory is a
file of 64-byte entries; a removed entry keeps its slot, marked with an inode
word of all ones, and the next name added takes the first such slot.

The scans over a directory are loops over its entries that read one block per
entry through `block_buffer`. They recurse on the number of entries left. The
path walk of `resolve` consumes at least one byte a round, so the length of the
path is fuel enough; `resolveFrom` answers a failure on fuel 0, and
`resolveFrom_eq` in `Proofs/Readers.lean` shows that this answer is never reached.
-/

namespace MiniOs.Fs

open MiniOs.Lib

/-- The entry of `block_buffer` a scan is looking at. -/
def bufferEntry (s : FsSt) (i : Nat) : Dirent := Dirent.decode s.blockBuffer (i % 8 * 64)

/-- Bring the block with entry `i` of a directory into `block_buffer`, as every
scan does; `none` where the block is unmapped or cannot be read. -/
def loadEntryBlock (s : FsSt) (inode : Inode) (i : Nat) : FsSt × Option Nat :=
  match inodeBlock s inode (i / 8) with
  | (s, block) =>
    if block = 0 then (s, none)
    else
      match s.readBlock block with
      | none => (s, none)
      | some s => (s, some block)

/-- The loop of `dir_lookup`, at entry `i` with `left` entries to go. -/
def dirLookupLoop (inode : Inode) (name : List UInt8) :
    Nat → Nat → FsSt → FsSt × Option Nat
  | 0, _, s => (s, none)
  | left + 1, i, s =>
    match loadEntryBlock s inode i with
    | (s, none) => (s, none)
    | (s, some _) =>
      if (bufferEntry s i).Live ∧ strEqual (bufferEntry s i).name name = true then
        (s, asInt (bufferEntry s i).inode)
      else dirLookupLoop inode name left (i + 1) s

def dirLookup (s : FsSt) (directory : Nat) (name : List UInt8) : FsSt × Option Nat :=
  match readInode s directory with
  | (s, none) => (s, none)
  | (s, some inode) =>
    if inode.mode &&& 0xff ≠ 2 then (s, none)
    else dirLookupLoop inode name (inode.size / 64) 0 s

/-- The loop of `dir_add` that looks for a slot to reuse; it ends at `count`
when every entry is live. -/
def dirSlotLoop (inode : Inode) : Nat → Nat → FsSt → FsSt × Option Nat
  | 0, i, s => (s, some i)
  | left + 1, i, s =>
    match loadEntryBlock s inode i with
    | (s, none) => (s, none)
    | (s, some _) =>
      if (bufferEntry s i).Live then dirSlotLoop inode left (i + 1) s
      else (s, some i)

/-- The end of `dir_add`: bring in the block of the slot that was found, mapping
it if need be, write the entry, and store the inode. -/
def dirInsert (s : FsSt) (directory : Nat) (inode : Inode) (index : Nat)
    (name : List UInt8) (child mode : Nat) : FsSt × Bool :=
  match ensureInodeBlock s inode (index / 8) with
  | (s, _, none) => (s, false)
  | (s, inode', some block) =>
    match s.readBlock block with
    | none => (s, false)
    | some s =>
      let s := { s with
        blockBuffer := Dirent.put s.blockBuffer (index % 8 * 64) child mode name }
      match s.writeBlock block s.blockBuffer with
      | none => (s, false)
      | some s =>
        writeInode s directory
          (if index = inode.size / 64 then { inode' with size := inode'.size + 64 }
          else inode')

def dirAdd (s : FsSt) (directory : Nat) (name : List UInt8) (child mode : Nat) :
    FsSt × Bool :=
  match dirLookup s directory name with
  | (s, some _) => (s, false)
  | (s, none) =>
    if name.length = 0 ∨ name.length > 55 then (s, false)
    else
      match readInode s directory with
      | (s, none) => (s, false)
      | (s, some inode) =>
        if inode.mode &&& 0xff ≠ 2 then (s, false)
        else
          match dirSlotLoop inode (inode.size / 64) 0 s with
          | (s, none) => (s, false)
          | (s, some index) => dirInsert s directory inode index name child mode

/-- The loop of `dir_remove`. -/
def dirRemoveLoop (inode : Inode) (name : List UInt8) :
    Nat → Nat → FsSt → FsSt × Bool
  | 0, _, s => (s, false)
  | left + 1, i, s =>
    match loadEntryBlock s inode i with
    | (s, none) => (s, false)
    | (s, some block) =>
      if (bufferEntry s i).Live ∧ strEqual (bufferEntry s i).name name = true then
        let s := { s with blockBuffer := Dirent.bury s.blockBuffer (i % 8 * 64) }
        match s.writeBlock block s.blockBuffer with
        | none => (s, false)
        | some s => (s, true)
      else dirRemoveLoop inode name left (i + 1) s

def dirRemove (s : FsSt) (directory : Nat) (name : List UInt8) : FsSt × Bool :=
  match readInode s directory with
  | (s, none) => (s, false)
  | (s, some inode) => dirRemoveLoop inode name (inode.size / 64) 0 s

/-! ## Paths -/

/-- What `next_component` finds at the cursor. -/
inductive Component where
  /-- A component of more than 55 bytes. -/
  | tooLong
  /-- Nothing but slashes. -/
  | done
  /-- A component, and the cursor behind it. -/
  | name (component rest : List UInt8)
  deriving DecidableEq

def nextComponent (path : List UInt8) : Component :=
  let p := path.dropWhile (· == slash)
  if p = [] then .done
  else if (p.takeWhile (· != slash)).length > 55 then .tooLong
  else .name (p.takeWhile (· != slash)) (p.dropWhile (· != slash))

/-- The loop of `resolve`. -/
def resolveFrom : Nat → FsSt → Nat → List UInt8 → FsSt × Option Nat
  | 0, s, _, _ => (s, none)
  | fuel + 1, s, current, cursor =>
    match nextComponent cursor with
    | .tooLong => (s, none)
    | .done => (s, asInt current)
    | .name component rest =>
      if strEqual component [dot] then resolveFrom fuel s current rest
      else if strEqual component [dot, dot] then
        match readInode s current with
        | (s, none) => (s, none)
        | (s, some inode) => resolveFrom fuel s inode.parent rest
      else
        match dirLookup s current component with
        | (s, none) => (s, none)
        | (s, some child) => resolveFrom fuel s child rest

def resolve (s : FsSt) (cwd : Nat) (path : List UInt8) : FsSt × Option Nat :=
  if path = [] ∨ path.length ≥ 256 then (s, none)
  else resolveFrom (path.length + 1) s (if path.head? = some slash then 0 else cwd) path

/-- The path of `resolve_parent` without its trailing slashes; the first byte
always stays. -/
def stripSlashes : List UInt8 → List UInt8
  | [] => []
  | c :: rest => c :: rest.rdropWhile (· == slash)

/-- `resolve_parent`: the inode of the directory and the last component. -/
def resolveParent (s : FsSt) (cwd : Nat) (path : List UInt8) :
    FsSt × Option (Nat × List UInt8) :=
  if path.length = 0 ∨ path.length ≥ 256 then (s, none)
  else
    let path := stripSlashes path
    let name := path.rtakeWhile (· != slash)
    -- everything up to and including the last slash
    let head := path.rdropWhile (· != slash)
    if name.length = 0 ∨ name.length > 55 then (s, none)
    else if strEqual name [dot] ∨ strEqual name [dot, dot] then (s, none)
    else if head = [] then (s, (asInt cwd).map fun cwd => (cwd, name))
    else if head.length = 1 then (s, some (0, name))
    else
      match resolve s cwd head.dropLast with
      | (s, parent) => (s, parent.map fun parent => (parent, name))

/-- The inode `create_node` starts from. -/
def freshInode (mode parent : Nat) : Inode :=
  { Inode.zero with mode := mode, parent := parent, links := 1 }

/-- `create_node`: on a failure after the allocation the bit is cleared again,
and the table keeps the inode that was written. -/
def createNode (s : FsSt) (parent : Nat) (name : List UInt8) (mode : Nat) :
    FsSt × Option Nat :=
  match allocInode s with
  | (s, none) => (s, none)
  | (s, some number) =>
    match writeInode s number (freshInode mode parent) with
    | (s, false) => (freeInodeNumber s number, none)
    | (s, true) =>
      match dirAdd s parent name number mode with
      | (s, false) => (freeInodeNumber s number, none)
      | (s, true) => (s, some number)

end MiniOs.Fs
