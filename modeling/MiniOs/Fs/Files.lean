import MiniOs.Fs.Descriptors
import MiniOs.Fs.Names

/-!
# Files and the calls on paths

The upper half of `minifs.c`: mounting, `open`, the read and write paths, and
the calls that take a path. `minifsOpen` is cut into the three things it does
in a row, finding or creating the inode, truncating it, and installing a
descriptor, because each of them can fail on its own and leave the effects of
the ones before it behind.

Offsets and lengths are `uint32_t` in the source. None of the sums below can
wrap: `minifsPread` clips the length to the size of the file before it adds, and
`writeAt` clips it to the file size limit. The one sum that can wrap is the
64-bit one of `minifsLseek`, and it does.
-/

namespace MiniOs.Fs

open MiniOs.Lib

/-! ## Mounting -/

/-- The superblock fields `minifs_init` insists on, by word of the record. -/
def superOk (block : Region) : Bool :=
  block.word 0 == 0x4d465332 && block.word 4 == 2 && block.word 8 == 15360 &&
    block.word 12 == 256 && block.word 40 == 38 && block.word 44 == 65536

def loadBitmap (d : Disk) (start count : Nat) (buffer : Region) : Option Region :=
  (List.range count).foldlM
    (fun buffer i =>
      (blockRead d (start + i)).map fun b => buffer.blit (i * 512) b 512) buffer

/-- The tables after `zero_bytes`. -/
def FdTables.zero : FdTables :=
  ⟨fun _ => ⟨false, 0, .none, 0, 0, 0⟩, fun _ => ⟨false, 0, fun _ => some 0, 0⟩⟩

def minifsInit (s : FsSt) : FsSt × Bool :=
  let s := { s with toFdTables := FdTables.zero }
  match s.readBlock 0 with
  | none => (s, false)
  | some s =>
    if superOk s.blockBuffer then
      match loadBitmap s.disk 2 4 s.bitmapBuffer with
      | none => (s, false)
      | some b => ({ s with bitmapBuffer := b }, true)
    else (s, false)

/-! ## Opening -/

/-- The flag words `minifs_open` refuses: both access bits, an unknown flag, or
`O_TRUNC` or `O_APPEND` without write access. -/
def badFlags (flags : BitVec 32) : Bool :=
  flags &&& 3 == 3 || flags &&& ~~~0x643 != 0 ||
    (flags &&& 3 == 0 && flags &&& 0x600 != 0)

/-- The flag words as `open` sees them: `O_CREATE`, `O_TRUNC`, `O_APPEND`. -/
def wantsCreate (flags : BitVec 32) : Bool := flags &&& 0x40 != 0
def wantsTrunc (flags : BitVec 32) : Bool := flags &&& 0x200 != 0
def wantsAppend (flags : BitVec 32) : Bool := flags &&& 0x400 != 0

/-- First third of `minifs_open`: the inode the path names, created where it is
missing and `O_CREATE` is given. -/
def openTarget (s : FsSt) (cwd : Nat) (path : List UInt8) (flags : BitVec 32) :
    FsSt × Option Nat :=
  match resolve s cwd path with
  | (s, some number) => (s, some number)
  | (s, none) =>
    if wantsCreate flags then
      match resolveParent s cwd path with
      | (s, none) => (s, none)
      | (s, some (parent, name)) => createNode s parent name 1
    else (s, none)

/-- Second third: the inode must be a regular file, and is truncated for
`O_TRUNC`. -/
def openTruncate (s : FsSt) (number : Nat) (flags : BitVec 32) :
    FsSt × Option Inode :=
  match readInode s number with
  | (s, none) => (s, none)
  | (s, some inode) =>
    if inode.mode &&& 0xff ≠ 1 then (s, none)
    else if wantsTrunc flags then
      match truncateInode s inode with
      | (s, inode) =>
        match writeInode s number inode with
        | (s, false) => (s, none)
        | (s, true) => (s, some inode)
    else (s, some inode)

/-- Last third: an open file and a descriptor for it. -/
def openInstall (t : FdTables) (process : Fin 16) (number size : Nat)
    (flags : BitVec 32) : FdTables × Option (Fin 16) :=
  match allocOfd t .file flags number with
  | (t, none) => (t, none)
  | (t, some ofd) =>
    let t :=
      if wantsAppend flags then
        t.setFile ofd { t.openFiles ofd with offset := size }
      else t
    match installFd t process ofd with
    | (t, none) => (putOfd t (some ofd), none)
    | (t, some fd) => (t, some fd)

def minifsOpen (s : FsSt) (pid : Int) (cwd : Nat) (path : Option CStr)
    (flags : BitVec 32) : FsSt × Option (Fin 16) :=
  match findProcess s.toFdTables pid with
  | none => (s, none)
  | some process =>
    if badFlags flags then (s, none)
    else
      match openTarget s cwd (pathBytes path) flags with
      | (s, none) => (s, none)
      | (s, some number) =>
        match openTruncate s number flags with
        | (s, none) => (s, none)
        | (s, some inode) =>
          match openInstall s.toFdTables process number inode.size flags with
          | (t, fd) => ({ s with toFdTables := t }, fd)

/-! ## Reading and writing -/

/-- `file->offset = offset`. -/
def FsSt.setOffset (s : FsSt) (i : Fin 64) (offset : Nat) : FsSt :=
  let file := { s.openFiles i with offset := offset }
  { s with toFdTables := s.toFdTables.setFile i file }

/-- The loop of `minifs_pread`: the bytes of the rounds to come. A round takes
at least one byte, so `left` rounds are enough. -/
def preadLoop (inode : Inode) : Nat → FsSt → Nat → Nat → FsSt × Option (List UInt8)
  | 0, s, _, left => (s, if left = 0 then some [] else none)
  | fuel + 1, s, offset, left =>
    if left = 0 then (s, some [])
    else
      match inodeBlock s inode (offset / 512) with
      | (s, block) =>
        if block = 0 then (s, none)
        else
          match s.readBlock block with
          | none => (s, none)
          | some s =>
            let chunk := min left (512 - offset % 512)
            let bytes := (List.range chunk).map fun i =>
              s.blockBuffer (offset % 512 + i)
            match preadLoop inode fuel s (offset + chunk) (left - chunk) with
            | (s, rest) => (s, rest.map (bytes ++ ·))

/-- `minifs_pread`, with the bytes it leaves in the caller's buffer. -/
def minifsPread (s : FsSt) (inodeNumber offset length : Nat) :
    FsSt × Option (List UInt8) :=
  match readInode s inodeNumber with
  | (s, none) => (s, none)
  | (s, some inode) =>
    if inode.mode &&& 0xff ≠ 1 then (s, none)
    else if offset ≥ inode.size then (s, some [])
    else
      let length := min length (inode.size - offset)
      preadLoop inode length s offset length

/-- `uart_getc` up to `length` times, up to and including a newline. -/
def consoleRead : Nat → Uart → Uart × List UInt8
  | 0, u => (u, [])
  | left + 1, u =>
    let c := u.input u.taken
    let u := { u with taken := u.taken + 1 }
    if c = 10 then (u, [c])
    else
      match consoleRead left u with
      | (u, rest) => (u, c :: rest)

/-- `minifs_read`, with the bytes read; `none` is -1. -/
def minifsRead (s : FsSt) (pid fd : Int) (length : Nat) : FsSt × Option (List UInt8) :=
  match getOpenFile s.toFdTables pid fd with
  | none => (s, none)
  | some i =>
    let file := s.openFiles i
    if file.type = .consoleIn then
      match consoleRead length s.uart with
      | (u, bytes) => ({ s with uart := u }, some bytes)
    else if file.type ≠ .file ∨ file.flags &&& 3 = 1 then (s, none)
    else
      match minifsPread s file.inode file.offset (min length 0xffffffff) with
      | (s, none) => (s, none)
      | (s, some bytes) =>
        (s.setOffset i (file.offset + bytes.length), some bytes)

/-- The loop of `write_at`. It ends early where a block cannot be had; `none`
stands for the return of -1 in the middle. -/
def writeLoop (source : Region) :
    Nat → FsSt → Inode → Nat → Nat → Nat → FsSt × Inode × Option Nat
  | 0, s, inode, _, _, done => (s, inode, some done)
  | fuel + 1, s, inode, offset, left, done =>
    if left = 0 then (s, inode, some done)
    else
      match ensureInodeBlock s inode (offset / 512) with
      | (s, inode, none) => (s, inode, some done)
      | (s, inode, some block) =>
        match s.readBlock block with
        | none => (s, inode, some done)
        | some s =>
          let chunk := min left (512 - offset % 512)
          let s := { s with
            blockBuffer := s.blockBuffer.blit (offset % 512)
              (fun i => source (done + i)) chunk }
          match s.writeBlock block s.blockBuffer with
          | none => (s, inode, none)
          | some s =>
            writeLoop source fuel s inode (offset + chunk) (left - chunk)
              (done + chunk)

/-- `write_at`. The inode is written back also after a short write. -/
def writeAt (s : FsSt) (inodeNumber offset : Nat) (buffer : Region) (length : Nat) :
    FsSt × Option Nat :=
  if offset ≥ 65536 then (s, some 0)
  else
    let length := min length (65536 - offset)
    match readInode s inodeNumber with
    | (s, none) => (s, none)
    | (s, some inode) =>
      if inode.mode &&& 0xff ≠ 1 then (s, none)
      else
        match writeLoop buffer length s inode offset length 0 with
        | (s, _, none) => (s, none)
        | (s, inode, some done) =>
          match writeInode s inodeNumber
            (if offset + done > inode.size then { inode with size := offset + done }
            else inode) with
          | (s, false) => (s, none)
          | (s, true) => (s, some done)

/-- The file branch of `minifs_write`: an append first moves the offset to the
end of the file. -/
def fileWrite (s : FsSt) (i : Fin 64) (buffer : Region) (length : Nat) :
    FsSt × Option Nat :=
  let moved : FsSt × Option Nat :=
    if wantsAppend (s.openFiles i).flags then
      match readInode s (s.openFiles i).inode with
      | (s, none) => (s, none)
      | (s, some inode) =>
        (s.setOffset i inode.size, some inode.size)
    else (s, some (s.openFiles i).offset)
  match moved with
  | (s, none) => (s, none)
  | (s, some offset) =>
    match writeAt s (s.openFiles i).inode offset buffer (min length 0xffffffff) with
    | (s, none) => (s, none)
    | (s, some n) =>
      (s.setOffset i ((s.openFiles i).offset + n), some n)

/-- `minifs_write`. The console answers `(int)length`. -/
def minifsWrite (s : FsSt) (pid fd : Int) (buffer : Option Region) (length : Nat) :
    FsSt × Int :=
  match getOpenFile s.toFdTables pid fd, buffer with
  | some i, some buffer =>
    if (s.openFiles i).type = .consoleOut then
      ({ s with uart := { s.uart with
          sent := s.uart.sent ++ (List.range length).map buffer } },
        (BitVec.ofNat 32 length).toInt)
    else if (s.openFiles i).type ≠ .file ∨ (s.openFiles i).flags &&& 3 = 0 then
      (s, -1)
    else
      match fileWrite s i buffer length with
      | (s, none) => (s, -1)
      | (s, some n) => (s, n)
  | _, _ => (s, -1)

/-- The base of `minifs_lseek` for a whence, after the reads it does. -/
def seekBase (s : FsSt) (file : OpenFile) (whence : Int) : FsSt × Option Nat :=
  if whence = 1 then (s, some file.offset)
  else if whence = 2 then
    match readInode s file.inode with
    | (s, none) => (s, none)
    | (s, some inode) => (s, some inode.size)
  else if whence ≠ 0 then (s, none)
  else (s, some 0)

/-- `minifs_lseek`. The position is an `int64_t` sum. -/
def minifsLseek (s : FsSt) (pid fd offset whence : Int) : FsSt × Option Nat :=
  match getOpenFile s.toFdTables pid fd with
  | none => (s, none)
  | some i =>
    if (s.openFiles i).type ≠ .file then (s, none)
    else
      match seekBase s (s.openFiles i) whence with
      | (s, none) => (s, none)
      | (s, some base) =>
        let position := (base + offset).bmod (2 ^ 64)
        if position < 0 ∨ position > 65536 then (s, none)
        else
          (s.setOffset i position.toNat, some position.toNat)

/-! ## Calls on paths -/

def minifsMkdir (s : FsSt) (cwd : Nat) (path : Option CStr) : FsSt × Bool :=
  match resolveParent s cwd (pathBytes path) with
  | (s, none) => (s, false)
  | (s, some (parent, name)) =>
    match createNode s parent name 2 with
    | (s, number) => (s, number.isSome)

def inodeIsOpen (t : FdTables) (inode : Nat) : Bool :=
  (List.finRange 64).any fun i =>
    (t.openFiles i).used && (t.openFiles i).type == .file &&
      (t.openFiles i).inode == inode

/-- The loop of `minifs_unlink` over the entries of a directory: `true` when
none of them is live. -/
def dirEmptyLoop (inode : Inode) : Nat → Nat → FsSt → FsSt × Bool
  | 0, _, s => (s, true)
  | left + 1, i, s =>
    match loadEntryBlock s inode i with
    | (s, none) => (s, false)
    | (s, some _) =>
      if (bufferEntry s i).Live then (s, false)
      else dirEmptyLoop inode left (i + 1) s

/-- The end of `minifs_unlink`, once the inode may go: its blocks, its record,
its name, its number, in that order. -/
def unlinkInode (s : FsSt) (parent : Nat) (name : List UInt8) (number : Nat)
    (inode : Inode) : FsSt × Bool :=
  match truncateInode s inode with
  | (s, _) =>
    match writeInode s number Inode.zero with
    | (s, false) => (s, false)
    | (s, true) =>
      match dirRemove s parent name with
      | (s, false) => (s, false)
      | (s, true) => (freeInodeNumber s number, true)

def minifsUnlink (s : FsSt) (cwd : Nat) (path : Option CStr) : FsSt × Bool :=
  match resolveParent s cwd (pathBytes path) with
  | (s, none) => (s, false)
  | (s, some (parent, name)) =>
    match dirLookup s parent name with
    | (s, none) => (s, false)
    | (s, some number) =>
      if number = 0 ∨ inodeIsOpen s.toFdTables number then (s, false)
      else
        match readInode s number with
        | (s, none) => (s, false)
        | (s, some inode) =>
          if inode.mode &&& 0xff = 2 then
            match dirEmptyLoop inode (inode.size / 64) 0 s with
            | (s, false) => (s, false)
            | (s, true) => unlinkInode s parent name number inode
          else unlinkInode s parent name number inode

/-- `minifs_chdir`, with the value of `*new_cwd`. -/
def minifsChdir (s : FsSt) (cwd : Nat) (path : Option CStr) : FsSt × Option Nat :=
  match resolve s cwd (pathBytes path) with
  | (s, none) => (s, none)
  | (s, some number) =>
    match readInode s number with
    | (s, none) => (s, none)
    | (s, some inode) =>
      if inode.mode &&& 0xff ≠ 2 then (s, none) else (s, some number)

/-- The loop of `minifs_getdents` over a directory. -/
def getdentsLoop (inode : Inode) (capacity : Nat) :
    Nat → Nat → Nat → FsSt → FsSt × Option (List Dirent)
  | 0, _, _, s => (s, some [])
  | left + 1, i, written, s =>
    if written ≥ capacity then (s, some [])
    else
      match loadEntryBlock s inode i with
      | (s, none) => (s, none)
      | (s, some _) =>
        let entry := bufferEntry s i
        if entry.Live then
          match getdentsLoop inode capacity left (i + 1) (written + 1) s with
          | (s, rest) => (s, rest.map (entry :: ·))
        else getdentsLoop inode capacity left (i + 1) written s

/-- `minifs_getdents`, with the entries it writes. A file is listed as itself,
under the last component of the path. -/
def minifsGetdents (s : FsSt) (cwd : Nat) (path : Option CStr) (capacity : Int) :
    FsSt × Option (List Dirent) :=
  let found :=
    if pathBytes path = [] then (s, asInt cwd) else resolve s cwd (pathBytes path)
  match found with
  | (s, none) => (s, none)
  | (s, some number) =>
    if capacity < 0 then (s, none)
    else
      match readInode s number with
      | (s, none) => (s, none)
      | (s, some inode) =>
        if inode.mode &&& 0xff = 1 then
          if capacity = 0 then (s, some [])
          else
            (s, some [⟨number, inode.mode,
              ((pathBytes path).rtakeWhile (· != slash)).take 55⟩])
        else getdentsLoop inode capacity.toNat (inode.size / 64) 0 0 s

/-- The loop of `minifs_getcwd` over a parent directory: the name of the first
entry for an inode, live or not, and the empty name where there is none. -/
def entryNameLoop (parent : Inode) (current : Nat) :
    Nat → Nat → FsSt → FsSt × Option (List UInt8)
  | 0, _, s => (s, some [])
  | left + 1, i, s =>
    match loadEntryBlock s parent i with
    | (s, none) => (s, none)
    | (s, some _) =>
      if (bufferEntry s i).inode = current then (s, some (cstr (bufferEntry s i).name))
      else entryNameLoop parent current left (i + 1) s

/-- The way up of `minifs_getcwd`, with the path below `current`. A round adds
two bytes at least to a path of less than 256, so the fuel does not run out. -/
def getcwdLoop : Nat → FsSt → Nat → List UInt8 → FsSt × Option (List UInt8)
  | 0, s, _, _ => (s, none)
  | fuel + 1, s, current, path =>
    if current = 0 then (s, some path)
    else
      match readInode s current with
      | (s, none) => (s, none)
      | (s, some inode) =>
        match readInode s inode.parent with
        | (s, none) => (s, none)
        | (s, some parent) =>
          match entryNameLoop parent current (parent.size / 64) 0 s with
          | (s, none) => (s, none)
          | (s, some name) =>
            if name.length = 0 ∨ path.length + name.length + 1 ≥ 256 then (s, none)
            else getcwdLoop fuel s inode.parent (slash :: name ++ path)

/-- `minifs_getcwd`, with the path it leaves in a buffer of `length` bytes. -/
def minifsGetcwd (s : FsSt) (cwd length : Nat) : FsSt × Option (List UInt8) :=
  if length < 2 then (s, none)
  else if cwd = 0 then (s, some [slash])
  else
    match getcwdLoop 256 s cwd [] with
    | (s, none) => (s, none)
    | (s, some path) => (s, if path.length + 1 > length then none else some path)

/-! ## What the loader asks -/

/-- `minifs_resolve_file`, with the value of `*inode_out`. -/
def minifsResolveFile (s : FsSt) (cwd : Nat) (path : Option CStr) : FsSt × Option Nat :=
  match resolve s cwd (pathBytes path) with
  | (s, none) => (s, none)
  | (s, some number) =>
    match readInode s number with
    | (s, none) => (s, none)
    | (s, some inode) =>
      if inode.mode &&& 0xff ≠ 1 then (s, none) else (s, some number)

def minifsInodeSize (s : FsSt) (inodeNumber : Nat) : FsSt × Option Nat :=
  match readInode s inodeNumber with
  | (s, inode) => (s, inode.map (·.size))

def minifsInodeMode (s : FsSt) (inodeNumber : Nat) : FsSt × Option Nat :=
  match readInode s inodeNumber with
  | (s, inode) => (s, inode.map (·.mode))

end MiniOs.Fs
