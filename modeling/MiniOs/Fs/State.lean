import MiniOs.Fs.Layout

/-!
# The state of the file system module

`minifs.c` keeps its state in statics: the open-file table, the descriptor
tables, and three buffers. One of the buffers, `bitmap_buffer`, is a cache of
the data bitmap and lives from mount to shutdown. The other two are scratch
space that nearly every function overwrites, and they are part of the state
here because functions hand each other sectors through them: a caller that
reads `block_buffer` after a call sees whatever the call left there.

The record is put together from the part that survives a reboot and its cache
(`Store`), the descriptor tables (`FdTables`), the scratch buffers and the
console, so that a function that leaves one of them alone can say so in one
equation.
-/

namespace MiniOs.Fs

open MiniOs.Lib

/-- The disk and `bitmap_buffer`. -/
structure Store where
  disk : Disk
  bitmapBuffer : Region

/-- The `type` of an open file; `none` is the zero of a slot never used. -/
inductive OfdType where
  | none
  | consoleIn
  | consoleOut
  | file
  deriving DecidableEq, Repr

/-- `struct open_file`. -/
structure OpenFile where
  used : Bool
  refs : Int
  type : OfdType
  flags : BitVec 32
  inode : Nat
  offset : Nat
  deriving DecidableEq

/-- `struct process_fds`. A descriptor slot is `none` where the source has a
negative index; every other value the source stores is an index of
`open_files`. -/
structure ProcessFds where
  used : Bool
  pid : Int
  fd : Fin 16 → Option (Fin 64)
  cloexec : BitVec 16

/-- `open_files` and `process_fds`. -/
structure FdTables where
  openFiles : Fin 64 → OpenFile
  processFds : Fin 16 → ProcessFds

/-- The UART as the file system uses it: the characters it will deliver, in
order, how many were taken, and what was sent. `uart_getc` waits for the next
character. -/
structure Uart where
  input : Nat → UInt8
  taken : Nat
  sent : List UInt8

/-- Everything `minifs.c` reads or writes. -/
structure FsSt extends Store, FdTables where
  blockBuffer : Region
  indirectBuffer : Region
  uart : Uart

/-- `block_read(sector, block_buffer)`. -/
def FsSt.readBlock (s : FsSt) (sector : Nat) : Option FsSt :=
  (blockRead s.disk sector).map fun b => { s with blockBuffer := b }

/-- `block_read(sector, indirect_buffer)`. -/
def FsSt.readIndirect (s : FsSt) (sector : Nat) : Option FsSt :=
  (blockRead s.disk sector).map fun b => { s with indirectBuffer := b }

/-- `block_write(sector, buffer)`. -/
def FsSt.writeBlock (s : FsSt) (sector : Nat) (buffer : Region) : Option FsSt :=
  (blockWrite s.disk sector buffer).map fun d => { s with disk := d }

theorem FsSt.readBlock_of_lt {s : FsSt} {sector : Nat} (h : sector < 16384) :
    s.readBlock sector = some { s with blockBuffer := s.disk sector } := by
  unfold FsSt.readBlock
  rw [blockRead_of_lt h, Option.map_some]

theorem FsSt.readIndirect_of_lt {s : FsSt} {sector : Nat} (h : sector < 16384) :
    s.readIndirect sector = some { s with indirectBuffer := s.disk sector } := by
  unfold FsSt.readIndirect
  rw [blockRead_of_lt h, Option.map_some]

theorem FsSt.writeBlock_of_lt {s : FsSt} {sector : Nat} {buffer : Region}
    (h : sector < 16384) :
    s.writeBlock sector buffer =
      some { s with disk := Function.update s.disk sector buffer } := by
  unfold FsSt.writeBlock
  rw [blockWrite_of_lt h, Option.map_some]

/-- A number a function hands back as an `int`. From `2 ^ 31` on it is negative
there, which every caller takes for a failure. -/
def asInt (n : Nat) : Option Nat := if n < 2 ^ 31 then some n else none

theorem asInt_of_lt {n : Nat} (h : n < 2 ^ 31) : asInt n = some n := if_pos h

end MiniOs.Fs
