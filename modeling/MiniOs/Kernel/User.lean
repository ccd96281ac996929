import MiniOs.Fs.Files
import MiniOs.Kernel.Memory

/-!
# Address spaces and the program loader

`user.c`: the pages a process owns, how a program gets from the file system into
them, and how they are copied and given back. A function here works on `Memory`,
and the loader also on the file system it reads from.

A function that fails gives back what it took before it answers, and the state
it returns shows it: the failures are branches with a `Memory` of their own.

Virtual addresses are `uint64_t`. Sums that can pass `2 ^ 64` on some input are
taken modulo it; the others are bounded by the checks in front of them.
-/

namespace MiniOs.Kernel

open MiniOs.Lib MiniOs.Fs

/-- `USER_MIN_VA`, `USER_STACK_TOP` and `USER_STACK_BOTTOM`. -/
def userMinVa : Nat := 0x10000
def userStackTop : Nat := 0x200000
def userStackBottom : Nat := userStackTop - 4 * pageSize

/-- `struct user_page_mapping`. -/
structure Mapping where
  va : Nat
  page : Nat
  flags : Nat
  deriving DecidableEq

/-- `struct task_address_space`: `pages` has the first `page_count` entries. -/
structure AddressSpace where
  root : Nat
  l1Mmio : Nat
  l0User : Nat
  pages : List Mapping
  satp : BitVec 64

/-- `zero_space`. -/
def AddressSpace.zero : AddressSpace := ⟨0, 0, 0, [], 0⟩

/-- `user_space_destroy`, as far as memory goes. -/
def userSpaceDestroy (m : Memory) (space : AddressSpace) : Memory :=
  let m := space.pages.foldl (fun m mapping => m.kfree mapping.page) m
  ((m.kfree space.l0User).kfree space.l1Mmio).kfree space.root

def createEmptySpace (m : Memory) : Memory × Option AddressSpace :=
  if m.kernelL2 = 0 ∨ m.kernelL1Mmio = 0 then (m, none)
  else
    match m.kalloc with
    | (m, root) =>
      match m.kalloc with
      | (m, l1Mmio) =>
        match m.kalloc with
        | (m, l0User) =>
          match root, l1Mmio, l0User with
          | some root, some l1Mmio, some l0User =>
            let m := m.copyPage root m.kernelL2
            let m := m.copyPage l1Mmio m.kernelL1Mmio
            let m := m.zeroPage l0User
            let m := m.setEntry root 0 (pte l1Mmio pteV)
            let m := m.setEntry l1Mmio 0 (pte l0User (pteV ||| pteU))
            (m, some ⟨root, l1Mmio, l0User, [], satpOf root⟩)
          | _, _, _ =>
            (userSpaceDestroy m
              ⟨root.getD 0, l1Mmio.getD 0, l0User.getD 0, [], 0⟩, none)

/-- `find_mapping`, by the index of the entry. -/
def findMapping (space : AddressSpace) (va : Nat) : Option Nat :=
  space.pages.findIdx? fun mapping => mapping.va = va / pageSize * pageSize

/-- The mapping `find_mapping` points to. -/
def mappingAt (space : AddressSpace) (va : Nat) : Option Mapping :=
  (findMapping space va).bind fun i => space.pages[i]?

/-- The entry of the leaf table for a page. -/
def leafIndex (va : Nat) : Nat := (va >>> 12) &&& 0x1ff

def mapUserPage (m : Memory) (space : AddressSpace) (va flags : Nat) :
    Memory × AddressSpace × Bool :=
  if va < userMinVa ∨ va ≥ userStackTop ∨ va % pageSize ≠ 0 then (m, space, false)
  else
    match mappingAt space va with
    | some existing =>
      let flags := existing.flags ||| flags
      (m.setEntry space.l0User (leafIndex va) (pte existing.page (flags ||| pteU ||| pteV)),
        { space with
          pages := space.pages.modify ((findMapping space va).getD 0) fun mapping =>
            { mapping with flags := flags } },
        true)
    | none =>
      if space.pages.length ≥ 64 then (m, space, false)
      else
        match m.kalloc with
        | (m, none) => (m, space, false)
        | (m, some page) =>
          let m := m.zeroPage page
          (m.setEntry space.l0User (leafIndex va) (pte page (flags ||| pteU ||| pteV)),
            { space with pages := space.pages ++ [⟨va, page, flags⟩] }, true)

/-- A run of `map_user_page` over `count` pages from `va` on, up to the first that
fails. -/
def mapPages (flags : Nat) : Nat → Memory → AddressSpace → Nat → Memory × AddressSpace × Bool
  | 0, m, space, _ => (m, space, true)
  | count + 1, m, space, va =>
    match mapUserPage m space va flags with
    | (m, space, false) => (m, space, false)
    | (m, space, true) => mapPages flags count m space (va + pageSize)

/-- `copy_to_space`. A round ends at a page boundary or at the end, so the number
of bytes is fuel enough; the bytes copied before a failure stay. -/
def copyToSpace (space : AddressSpace) :
    Nat → Memory → Nat → List UInt8 → Memory × Bool
  | 0, m, _, source => (m, source.isEmpty)
  | fuel + 1, m, destination, source =>
    if source = [] then (m, true)
    else
      match mappingAt space destination with
      | none => (m, false)
      | some mapping =>
        let within := destination % pageSize
        let chunk := min source.length (pageSize - within)
        let m := { m with
          ram := m.ram.blit (mapping.page + within) (fun i => source.getD i 0) chunk }
        copyToSpace space fuel m ((destination + chunk) % 2 ^ 64) (source.drop chunk)

/-! ## Executables -/

/-- `struct elf64_header`, as far as it is read. -/
structure ElfHeader where
  ident : List UInt8
  type : Nat
  machine : Nat
  version : Nat
  entry : Nat
  phoff : Nat
  ehsize : Nat
  phentsize : Nat
  phnum : Nat

/-- The header the first 64 bytes of a file spell. -/
def ElfHeader.decode (bytes : List UInt8) : ElfHeader :=
  let r : Region := fun i => bytes.getD i 0
  { ident := bytes.take 16
    type := r.half 16
    machine := r.half 18
    version := r.word 20
    entry := r.dword 24
    phoff := r.dword 32
    ehsize := r.half 52
    phentsize := r.half 54
    phnum := r.half 56 }

/-- `struct elf64_program_header`, as far as it is read. -/
structure ProgramHeader where
  type : Nat
  flags : Nat
  offset : Nat
  vaddr : Nat
  filesz : Nat
  memsz : Nat

/-- The record 56 bytes spell. -/
def ProgramHeader.decode (bytes : List UInt8) : ProgramHeader :=
  let r : Region := fun i => bytes.getD i 0
  { type := r.word 0
    flags := r.word 4
    offset := r.dword 8
    vaddr := r.dword 16
    filesz := r.dword 32
    memsz := r.dword 40 }

def validElfHeader (header : ElfHeader) (fileSize : Nat) : Bool :=
  header.ident.take 7 = [0x7f, 69, 76, 70, 2, 1, 1] ∧
    header.type = 2 ∧ header.machine = 243 ∧ header.version = 1 ∧
    header.ehsize = 64 ∧ header.phentsize = 56 ∧
    header.phnum > 0 ∧ header.phnum ≤ 16 ∧
    header.phoff ≤ fileSize ∧ header.phoff + header.phnum * header.phentsize ≤ fileSize ∧
    header.entry ≥ userMinVa ∧ header.entry < userStackBottom

/-- The checks of `load_elf` on a segment that is loaded. -/
def validSegment (segment : ProgramHeader) (fileSize : Nat) : Bool :=
  segment.filesz ≤ segment.memsz ∧ segment.offset ≤ fileSize ∧
    segment.filesz ≤ fileSize - segment.offset ∧ segment.vaddr ≥ userMinVa ∧
    segment.vaddr ≤ (segment.vaddr + segment.memsz) % 2 ^ 64 ∧
    (segment.vaddr + segment.memsz) % 2 ^ 64 ≤ userStackBottom

/-- The page flags of a segment: `PF_R`, `PF_W` and `PF_X`. -/
def segmentFlags (segment : ProgramHeader) : Nat :=
  (if segment.flags &&& 4 ≠ 0 then pteR else 0) ||| (if segment.flags &&& 2 ≠ 0 then pteW else 0) |||
    (if segment.flags &&& 1 ≠ 0 then pteX else 0)

/-- Some access, and no write access alone. -/
def validFlags (flags : Nat) : Bool :=
  flags &&& (pteR ||| pteW ||| pteX) ≠ 0 ∧ ¬(flags &&& pteW ≠ 0 ∧ flags &&& pteR = 0)

/-- The loop of `load_elf` that copies a segment, 512 bytes a round. -/
def copySegment (inode : Nat) (segment : ProgramHeader) (space : AddressSpace) :
    Nat → FsSt → Memory → Nat → FsSt × Memory × Bool
  | 0, s, m, copied => (s, m, segment.filesz ≤ copied)
  | fuel + 1, s, m, copied =>
    if segment.filesz ≤ copied then (s, m, true)
    else
      let chunk := min (segment.filesz - copied) 512
      match minifsPread s inode ((segment.offset + copied) % 2 ^ 32) chunk with
      | (s, none) => (s, m, false)
      | (s, some scratch) =>
        if scratch.length ≠ chunk then (s, m, false)
        else
          match copyToSpace space chunk m (segment.vaddr + copied) scratch with
          | (m, false) => (s, m, false)
          | (m, true) => copySegment inode segment space fuel s m (copied + chunk)

/-- One round of the loop of `load_elf`, from the segment that was read on. -/
def loadSegment (inode fileSize : Nat) (s : FsSt) (m : Memory) (space : AddressSpace)
    (segment : ProgramHeader) : FsSt × Memory × AddressSpace × Bool :=
  if segment.type ≠ 1 then (s, m, space, true)
  else if segment.memsz = 0 then (s, m, space, segment.filesz = 0)
  else if validSegment segment fileSize = false then (s, m, space, false)
  else if validFlags (segmentFlags segment) = false then (s, m, space, false)
  else
    let start := segment.vaddr / pageSize * pageSize
    let last := (segment.vaddr + segment.memsz + pageSize - 1) / pageSize * pageSize
    match mapPages (segmentFlags segment) ((last - start) / pageSize) m space start with
    | (m, space, false) => (s, m, space, false)
    | (m, space, true) =>
      match copySegment inode segment space segment.filesz s m 0 with
      | (s, m, ok) => (s, m, space, ok)

/-- The loop of `load_elf` over the program headers, at header `i` with `left` to
go. -/
def loadSegments (inode fileSize : Nat) (header : ElfHeader) :
    Nat → Nat → FsSt → Memory → AddressSpace → FsSt × Memory × AddressSpace × Bool
  | 0, _, s, m, space => (s, m, space, true)
  | left + 1, i, s, m, space =>
    match minifsPread s inode ((header.phoff + i * header.phentsize) % 2 ^ 32) 56 with
    | (s, none) => (s, m, space, false)
    | (s, some bytes) =>
      if bytes.length ≠ 56 then (s, m, space, false)
      else
        match loadSegment inode fileSize s m space (ProgramHeader.decode bytes) with
        | (s, m, space, false) => (s, m, space, false)
        | (s, m, space, true) => loadSegments inode fileSize header left (i + 1) s m space

/-- The entry point lies in an executable page. -/
def entryMapped (space : AddressSpace) (entry : Nat) : Bool :=
  match mappingAt space entry with
  | none => false
  | some mapping => mapping.flags &&& pteX ≠ 0

/-- `load_elf` after the header: the segments, the entry point and the stack. -/
def loadImage (s : FsSt) (m : Memory) (inode fileSize : Nat) (header : ElfHeader)
    (space : AddressSpace) : FsSt × Memory × AddressSpace × Bool :=
  match loadSegments inode fileSize header header.phnum 0 s m space with
  | (s, m, space, false) => (s, m, space, false)
  | (s, m, space, true) =>
    if entryMapped space header.entry = false then (s, m, space, false)
    else
      match mapPages (pteR ||| pteW) 4 m space userStackBottom with
      | (m, space, ok) => (s, m, space, ok)

/-- The header of an executable file, with its size, where `load_elf` accepts
it. -/
def readElfHeader (s : FsSt) (inode : Nat) : FsSt × Option (Nat × ElfHeader) :=
  match minifsInodeSize s inode with
  | (s, none) => (s, none)
  | (s, some fileSize) =>
    match minifsInodeMode s inode with
    | (s, none) => (s, none)
    | (s, some mode) =>
      if mode &&& 0x100 = 0 then (s, none)
      else
        match minifsPread s inode 0 64 with
        | (s, none) => (s, none)
        | (s, some bytes) =>
          if bytes.length = 64 ∧ validElfHeader (ElfHeader.decode bytes) fileSize = true then
            (s, some (fileSize, ElfHeader.decode bytes))
          else (s, none)

/-- `load_elf`: the space and the entry point. -/
def loadElf (s : FsSt) (m : Memory) (inode : Nat) :
    FsSt × Memory × Option (AddressSpace × Nat) :=
  match readElfHeader s inode with
  | (s, none) => (s, m, none)
  | (s, some (fileSize, header)) =>
    match createEmptySpace m with
    | (m, none) => (s, m, none)
    | (m, some space) =>
      match loadImage s m inode fileSize header space with
      | (s, m, space, true) => (s, m, some (space, header.entry))
      | (s, m, space, false) => (s, userSpaceDestroy m space, none)

/-! ## The initial stack -/

/-- The bytes of a 64-bit number. -/
def dwordBytes (v : Nat) : List UInt8 := (List.range 8).map (Region.wordByte v)

/-- `USER_ARG_MAX`, `USER_ENV_MAX` and `USER_STRINGS_MAX`. -/
def userArgMax : Nat := 16
def userEnvMax : Nat := 8
def userStringsMax : Nat := 2048

/-- The loops of `build_initial_stack` that measure `argv` and `envp`: at most
`maximum` strings, and `string_bytes` after them. -/
def measureStrings (maximum : Nat) : List CStr → Nat → Nat → Option Nat
  | [], _, bytes => some bytes
  | string :: rest, count, bytes =>
    if count = maximum then none
    else if string.bytes.length ≥ userStringsMax ∨
        bytes + string.bytes.length + 1 > userStringsMax then none
    else measureStrings maximum rest (count + 1) (bytes + string.bytes.length + 1)

/-- The loops that push strings, the last one first; the addresses are returned in
the order of the strings. -/
def pushStrings (space : AddressSpace) : List CStr → Memory → Nat → Memory × Nat × Option (List Nat)
  | [], m, stack => (m, stack, some [])
  | string :: rest, m, stack =>
    match pushStrings space rest m stack with
    | (m, stack, none) => (m, stack, none)
    | (m, stack, some addresses) =>
      let stack := stack - (string.bytes.length + 1)
      match copyToSpace space (string.bytes.length + 1) m stack (string.bytes ++ [0]) with
      | (m, false) => (m, stack, none)
      | (m, true) => (m, stack, some (stack :: addresses))

/-- What `build_initial_stack` leaves in `struct loaded_program`. -/
structure InitialStack where
  stackPointer : Nat
  argc : Nat
  argvPointer : Nat
  envpPointer : Nat

/-- The end of `build_initial_stack`: `argc`, the two vectors with their
terminators, in the order they are written. -/
def pushVectors (m : Memory) (space : AddressSpace) (stack : Nat) (argv envp : List Nat) :
    Memory × Option InitialStack :=
  let stack := (stack - (1 + argv.length + 1 + envp.length + 1) * 8) / 16 * 16
  let argvPointer := stack + 8
  let envpPointer := argvPointer + (argv.length + 1) * 8
  let put (m : Memory) (destination : Nat) (values : List Nat) : Memory × Bool :=
    copyToSpace space (8 * values.length) m destination (values.flatMap dwordBytes)
  match put m stack [argv.length] with
  | (m, false) => (m, none)
  | (m, true) =>
    match put m argvPointer argv with
    | (m, false) => (m, none)
    | (m, true) =>
      match put m (argvPointer + argv.length * 8) [0] with
      | (m, false) => (m, none)
      | (m, true) =>
        match put m envpPointer envp with
        | (m, false) => (m, none)
        | (m, true) =>
          match put m (envpPointer + envp.length * 8) [0] with
          | (m, false) => (m, none)
          | (m, true) =>
            (m, if stack < userStackBottom then none
              else some ⟨stack, argv.length, argvPointer, envpPointer⟩)

def buildInitialStack (m : Memory) (space : AddressSpace) (argv envp : List CStr) :
    Memory × Option InitialStack :=
  match (measureStrings userArgMax argv 0 0).bind (measureStrings userEnvMax envp 0) with
  | none => (m, none)
  | some _ =>
    match pushStrings space envp m userStackTop with
    | (m, _, none) => (m, none)
    | (m, stack, some envAddresses) =>
      match pushStrings space argv m stack with
      | (m, _, none) => (m, none)
      | (m, stack, some argvAddresses) => pushVectors m space stack argvAddresses envAddresses

/-! ## Programs and copies -/

/-- `struct loaded_program`. -/
structure LoadedProgram extends InitialStack where
  space : AddressSpace
  entry : Nat

def prepareProgram (s : FsSt) (m : Memory) (cwd : Nat) (path : CStr) (argv envp : List CStr) :
    FsSt × Memory × Option LoadedProgram :=
  match minifsResolveFile s cwd (some path) with
  | (s, none) => (s, m, none)
  | (s, some inode) =>
    match loadElf s m inode with
    | (s, m, none) => (s, m, none)
    | (s, m, some (space, entry)) =>
      match buildInitialStack m space argv envp with
      | (m, none) => (s, userSpaceDestroy m space, none)
      | (m, some stack) => (s, m, some ⟨stack, space, entry⟩)

/-- The loop of `user_space_clone`: a page of its own for every page of the
source, with the same bytes. -/
def clonePages : List Mapping → Memory → AddressSpace → Memory × AddressSpace × Bool
  | [], m, space => (m, space, true)
  | source :: rest, m, space =>
    match mapUserPage m space source.va source.flags with
    | (m, space, false) => (m, space, false)
    | (m, space, true) =>
      let m := m.copyPage (((mappingAt space source.va).map (·.page)).getD 0) source.page
      clonePages rest m space

def userSpaceClone (m : Memory) (source : AddressSpace) : Memory × Option AddressSpace :=
  match createEmptySpace m with
  | (m, none) => (m, none)
  | (m, some space) =>
    match clonePages source.pages m space with
    | (m, space, true) => (m, some space)
    | (m, space, false) => (userSpaceDestroy m space, none)

end MiniOs.Kernel
