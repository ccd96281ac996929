import MiniOs.Kernel.User
import MiniOs.Proofs.Readers

/-!
# The loader

The loader only reads: of the file system, it changes the sector in `block_buffer`.
-/

namespace MiniOs.Fs

open MiniOs.Lib

/-- The state of the file system without the sector in `block_buffer`. -/
def FsSt.lasting (s : FsSt) : FsSt := s.withBuffer Region.zero

theorem FsSt.eq_of_lasting {s s' : FsSt} (h : s'.lasting = s.lasting) :
    s' = s.withBuffer s'.blockBuffer := by
  have hback := congrArg (fun r : FsSt => r.withBuffer s'.blockBuffer) h
  exact hback

section Lasting

variable (s : FsSt) (inode : Nat)

@[grind =] theorem readInode_lasting : (readInode s inode).1.lasting = s.lasting := by
  obtain ⟨b, hb⟩ := readInode_eq s inode
  rw [hb]
  rfl

@[grind =] theorem resolve_lasting (cwd : Nat) (path : List UInt8) :
    (resolve s cwd path).1.lasting = s.lasting := by
  obtain ⟨b, hb⟩ := resolve_eq s cwd path
  rw [hb]
  rfl

@[grind =] theorem minifsPread_lasting (offset length : Nat) :
    (minifsPread s inode offset length).1.lasting = s.lasting := by
  obtain ⟨b, hb⟩ := minifsPread_eq s inode offset length
  rw [hb]
  rfl

@[grind =] theorem minifsResolveFile_lasting (cwd : Nat) (path : Option CStr) :
    (minifsResolveFile s cwd path).1.lasting = s.lasting := by
  grind [minifsResolveFile]

@[grind =] theorem minifsInodeSize_lasting :
    (minifsInodeSize s inode).1.lasting = s.lasting := readInode_lasting s inode

@[grind =] theorem minifsInodeMode_lasting :
    (minifsInodeMode s inode).1.lasting = s.lasting := readInode_lasting s inode

end Lasting

end MiniOs.Fs

namespace MiniOs.Kernel

open MiniOs.Lib MiniOs.Fs

section Lasting

variable (s : FsSt) (m : Memory) (space : AddressSpace) (inode fileSize : Nat)

@[grind =] theorem copySegment_lasting (segment : ProgramHeader) (fuel copied : Nat) :
    (copySegment inode segment space fuel s m copied).1.lasting = s.lasting := by
  induction fuel generalizing s m copied with
  | zero => rfl
  | succ fuel ih => grind [copySegment]

@[grind =] theorem loadSegment_lasting (segment : ProgramHeader) :
    (loadSegment inode fileSize s m space segment).1.lasting = s.lasting := by
  grind [loadSegment]

@[grind =] theorem loadSegments_lasting (header : ElfHeader) (left i : Nat) :
    (loadSegments inode fileSize header left i s m space).1.lasting = s.lasting := by
  induction left generalizing s m space i with
  | zero => rfl
  | succ left ih => grind [loadSegments]

@[grind =] theorem loadImage_lasting (header : ElfHeader) :
    (loadImage s m inode fileSize header space).1.lasting = s.lasting := by
  grind [loadImage]

@[grind =] theorem readElfHeader_lasting : (readElfHeader s inode).1.lasting = s.lasting := by
  grind [readElfHeader]

@[grind =] theorem loadElf_lasting : (loadElf s m inode).1.lasting = s.lasting := by
  grind [loadElf]

/-- The loader only reads. -/
theorem prepareProgram_lasting (cwd : Nat) (path : CStr) (argv envp : List CStr) :
    (prepareProgram s m cwd path argv envp).1.lasting = s.lasting := by
  grind [prepareProgram]

theorem prepareProgram_tables (cwd : Nat) (path : CStr) (argv envp : List CStr) :
    (prepareProgram s m cwd path argv envp).1.toFdTables = s.toFdTables := by
  have htables := congrArg (fun r : FsSt => r.toFdTables)
    (FsSt.eq_of_lasting (prepareProgram_lasting s m cwd path argv envp))
  exact htables

end Lasting

end MiniOs.Kernel
