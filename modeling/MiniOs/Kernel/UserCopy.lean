import MiniOs.Kernel.Syscall
import MiniOs.Kernel.User
import MiniOs.Lib.Splice

/-!
# Copies to and from user memory

`copy_to_user` and `copy_from_user` of `user.c` on the pages of a process, and what
`sys_read` leaves in the caller's buffer. `UserMemory` says of an address only what it
holds and whether it may be written; here it is read off an address space. `sys_read`
stands here twice, on the pages and on the bytes at their addresses.

The kernel's side of a copy is a list of bytes where it is read and a region where it is
written. Neither is `NULL`, and the caller has an address space.
-/

namespace MiniOs.Kernel

open MiniOs.Lib MiniOs.Fs

/-- The flags of the page at a virtual address. -/
def flagsAt (space : AddressSpace) (va : Nat) : Option Nat := (mappingAt space va).map Mapping.flags

/-- The byte at a virtual address, whatever the flags of its page. -/
def peek (m : Memory) (space : AddressSpace) (va : Nat) : Option UInt8 :=
  (mappingAt space va).map fun mapping => m.ram (mapping.page + va % pageSize)

/-- The page at an address allows an access. -/
def pageAllows (space : AddressSpace) (flag va : Nat) : Bool :=
  match mappingAt space va with
  | none => false
  | some mapping => mapping.flags &&& flag ≠ 0

/-- What the kernel sees of the memory of a process. -/
def userMemory (m : Memory) (space : AddressSpace) : UserMemory where
  read va := if pageAllows space pteR va then peek m space va else none
  writable := pageAllows space pteW

/-- The loop of `copy_from_user` and `copy_to_user` that looks at the pages from `address`
on. A round ends at a page boundary, and one more page was mapped where there is another
round; behind the last page of all the address is 0. -/
def pagesAllow (space : AddressSpace) (flag last : Nat) : Nat → Nat → Bool
  | 0, _ => true
  | fuel + 1, address =>
    if last ≤ address then true
    else if pageAllows space flag address = false then false
    else
      pagesAllow space flag last fuel ((address / pageSize * pageSize + pageSize) % 2 ^ 64)

/-- The fuel of `pagesAllow`: no more rounds than bytes, or than mapped pages and a last one. -/
def pagesFuel (space : AddressSpace) (length : Nat) : Nat := length + space.pages.length + 1

/-- `copy_to_user`, in the space of the caller. -/
def copyToUserPages (m : Memory) (space : AddressSpace) (destination : Nat)
    (source : List UInt8) : Memory × Bool :=
  if source.length = 0 then (m, true)
  else if (destination + source.length) % 2 ^ 64 < destination then (m, false)
  else if pagesAllow space pteW ((destination + source.length) % 2 ^ 64)
      (pagesFuel space source.length) destination = false then
    (m, false)
  else copyToSpace space source.length m destination source

/-- `copy_from_space`, with the bytes from `done` on to come. A round ends at a page boundary
or at the end, so the number of bytes is fuel enough. -/
def copyFromSpace (m : Memory) (space : AddressSpace) :
    Nat → Region → Nat → Nat → Nat → Region × Bool
  | 0, destination, _, _, length => (destination, length = 0)
  | fuel + 1, destination, done, source, length =>
    if length = 0 then (destination, true)
    else
      match mappingAt space source with
      | none => (destination, false)
      | some mapping =>
        let within := source % pageSize
        let chunk := min length (pageSize - within)
        let destination :=
          destination.blit done (fun i => m.ram (mapping.page + within + i)) chunk
        copyFromSpace m space fuel destination (done + chunk) ((source + chunk) % 2 ^ 64)
          (length - chunk)

/-- `copy_from_user`, in the space of the caller. -/
def copyFromUserPages (m : Memory) (space : AddressSpace) (destination : Region)
    (source length : Nat) : Region × Bool :=
  if length = 0 then (destination, true)
  else if (source + length) % 2 ^ 64 < source then (destination, false)
  else if pagesAllow space pteR ((source + length) % 2 ^ 64) (pagesFuel space length) source =
      false then
    (destination, false)
  else copyFromSpace m space length destination 0 source length

/-- The loop of `sys_read` in the pages of the caller. -/
def sysReadPagesLoop (space : AddressSpace) (pid fd : Int) (userBuffer length : Nat) :
    Nat → FsSt → Memory → Nat → FsSt × Memory × Int
  | 0, s, m, done => (s, m, done)
  | fuel + 1, s, m, done =>
    if length ≤ done then (s, m, done)
    else
      let chunk := min (length - done) 512
      match minifsRead s pid fd chunk with
      | (s, none) => (s, m, if done = 0 then -1 else done)
      | (s, some bytes) =>
        if bytes.length = 0 then (s, m, done)
        else
          match copyToUserPages m space ((userBuffer + done) % 2 ^ 64) bytes with
          | (m, false) => (s, m, if done = 0 then -1 else done)
          | (m, true) =>
            if bytes.length < chunk then (s, m, (done + bytes.length : Nat))
            else
              sysReadPagesLoop space pid fd userBuffer length fuel s m (done + bytes.length)

/-- The same loop without the pages: what `copy_to_user` stores is laid over `contents`,
which has a byte for every address. -/
def sysReadIntoLoop (mem : UserMemory) (pid fd : Int) (userBuffer length : Nat) :
    Nat → FsSt → (Nat → Option UInt8) → Nat → FsSt × (Nat → Option UInt8) × Int
  | 0, s, contents, done => (s, contents, done)
  | fuel + 1, s, contents, done =>
    if length ≤ done then (s, contents, done)
    else
      let chunk := min (length - done) 512
      match minifsRead s pid fd chunk with
      | (s, none) => (s, contents, if done = 0 then -1 else done)
      | (s, some bytes) =>
        if bytes.length = 0 then (s, contents, done)
        else if copyToUser mem ((userBuffer + done) % 2 ^ 64) bytes.length = false then
          (s, contents, if done = 0 then -1 else done)
        else
          let contents := overlay contents ((userBuffer + done) % 2 ^ 64) bytes
          if bytes.length < chunk then (s, contents, (done + bytes.length : Nat))
          else
            sysReadIntoLoop mem pid fd userBuffer length fuel s contents (done + bytes.length)

/-- `sys_read` with the memory of the caller. -/
def sysReadInto (k : System) (current : Fin 16) (mem : UserMemory) (fd userBuffer length : Nat)
    (contents : Nat → Option UInt8) : System × (Nat → Option UInt8) × Int :=
  if length = 0 then (k, contents, 0)
  else if userBuffer = 0 then (k, contents, -1)
  else
    match sysReadIntoLoop mem (currentPid k current) (toInt fd) userBuffer length length k.fs
      contents 0 with
    | (s, contents, r) => ({ k with fs := s }, contents, r)

end MiniOs.Kernel
