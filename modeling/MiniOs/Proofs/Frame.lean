import MiniOs.Fs.Calls

/-!
# What does not touch the descriptors

The functions of `minifs.c` that work on the disk leave `open_files` and
`process_fds` alone, on whatever disk and also where they fail. There is one lemma
for each, in the order of the source; a lemma unfolds its own function only and takes
the others from the set.

`minifs_open`, the read and write paths and `minifs_lseek` are different: they install
a descriptor or move an offset.
-/

namespace MiniOs.Fs

open MiniOs.Lib

variable {s' : FsSt} (s : FsSt) (inode : Inode) (name : List UInt8) (number : Nat)

/-! ## Sectors -/

@[grind →] theorem readBlock_tables {s : FsSt} {sector : Nat} (h : s.readBlock sector = some s') :
    s'.toFdTables = s.toFdTables := by
  obtain ⟨b, -, rfl⟩ := Option.map_eq_some_iff.mp h
  rfl

@[grind →] theorem readIndirect_tables {s : FsSt} {sector : Nat}
    (h : s.readIndirect sector = some s') : s'.toFdTables = s.toFdTables := by
  obtain ⟨b, -, rfl⟩ := Option.map_eq_some_iff.mp h
  rfl

@[grind →] theorem writeBlock_tables {s : FsSt} {sector : Nat} {buffer : Region}
    (h : s.writeBlock sector buffer = some s') : s'.toFdTables = s.toFdTables := by
  obtain ⟨d, -, rfl⟩ := Option.map_eq_some_iff.mp h
  rfl

@[grind =] theorem writeBlock_getD_tables (sector : Nat) (buffer : Region) :
    ((s.writeBlock sector buffer).getD s).toFdTables = s.toFdTables := by
  cases h : s.writeBlock sector buffer with
  | none => rfl
  | some s' => exact writeBlock_tables h

/-! ## Inodes and blocks -/

@[grind =] theorem readInode_tables : (readInode s number).1.toFdTables = s.toFdTables := by
  grind [readInode]

@[grind =] theorem writeInode_tables :
    (writeInode s number inode).1.toFdTables = s.toFdTables := by
  grind [writeInode]

@[grind =] theorem allocInode_tables : (allocInode s).1.toFdTables = s.toFdTables := by
  grind [allocInode]

@[grind =] theorem freeInodeNumber_tables :
    (freeInodeNumber s number).toFdTables = s.toFdTables := by
  grind [freeInodeNumber]

@[grind =] theorem allocDataBlock_tables : (allocDataBlock s).1.toFdTables = s.toFdTables := by
  grind [allocDataBlock]

@[grind =] theorem freeDataBlock_tables (block : Nat) :
    (freeDataBlock s block).toFdTables = s.toFdTables := by
  grind [freeDataBlock]

@[grind =] theorem freeDataBlocks_tables (blocks : List Nat) :
    (freeDataBlocks s blocks).toFdTables = s.toFdTables := by
  induction blocks generalizing s with
  | nil => rfl
  | cons block rest ih => exact (ih _).trans (freeDataBlock_tables s block)

@[grind =] theorem inodeBlock_tables (index : Nat) :
    (inodeBlock s inode index).1.toFdTables = s.toFdTables := by
  grind [inodeBlock]

@[grind =] theorem ensureTableEntry_tables (slot : Nat) :
    (ensureTableEntry s inode slot).1.toFdTables = s.toFdTables := by
  grind [ensureTableEntry]

@[grind =] theorem ensureInodeBlock_tables (index : Nat) :
    (ensureInodeBlock s inode index).1.toFdTables = s.toFdTables := by
  grind [ensureInodeBlock]

@[grind =] theorem truncateInode_tables :
    (truncateInode s inode).1.toFdTables = s.toFdTables := by
  grind [truncateInode]

/-! ## Directories and paths -/

@[grind =] theorem loadEntryBlock_tables (i : Nat) :
    (loadEntryBlock s inode i).1.toFdTables = s.toFdTables := by
  grind [loadEntryBlock]

@[grind =] theorem dirLookupLoop_tables (left i : Nat) :
    (dirLookupLoop inode name left i s).1.toFdTables = s.toFdTables := by
  induction left generalizing s i with
  | zero => rfl
  | succ left ih => grind [dirLookupLoop]

@[grind =] theorem dirLookup_tables (directory : Nat) :
    (dirLookup s directory name).1.toFdTables = s.toFdTables := by
  grind [dirLookup]

@[grind =] theorem dirSlotLoop_tables (left i : Nat) :
    (dirSlotLoop inode left i s).1.toFdTables = s.toFdTables := by
  induction left generalizing s i with
  | zero => rfl
  | succ left ih => grind [dirSlotLoop]

@[grind =] theorem dirInsert_tables (directory index child mode : Nat) :
    (dirInsert s directory inode index name child mode).1.toFdTables = s.toFdTables := by
  grind [dirInsert]

@[grind =] theorem dirAdd_tables (directory child mode : Nat) :
    (dirAdd s directory name child mode).1.toFdTables = s.toFdTables := by
  have hlookup := dirLookup_tables s name directory
  rw [dirAdd]
  split
  · grind
  · next s1 heq =>
    rw [heq] at hlookup
    grind

@[grind =] theorem dirRemoveLoop_tables (left i : Nat) :
    (dirRemoveLoop inode name left i s).1.toFdTables = s.toFdTables := by
  induction left generalizing s i with
  | zero => rfl
  | succ left ih => grind [dirRemoveLoop]

@[grind =] theorem dirRemove_tables (directory : Nat) :
    (dirRemove s directory name).1.toFdTables = s.toFdTables := by
  grind [dirRemove]

@[grind =] theorem resolveFrom_tables (fuel current : Nat) (cursor : List UInt8) :
    (resolveFrom fuel s current cursor).1.toFdTables = s.toFdTables := by
  induction fuel generalizing s current cursor with
  | zero => rfl
  | succ fuel ih => grind [resolveFrom]

@[grind =] theorem resolve_tables (cwd : Nat) (path : List UInt8) :
    (resolve s cwd path).1.toFdTables = s.toFdTables := by
  grind [resolve]

@[grind =] theorem resolveParent_tables (cwd : Nat) (path : List UInt8) :
    (resolveParent s cwd path).1.toFdTables = s.toFdTables := by
  grind [resolveParent]

@[grind =] theorem createNode_tables (parent mode : Nat) :
    (createNode s parent name mode).1.toFdTables = s.toFdTables := by
  have halloc := allocInode_tables s
  rw [createNode]
  split
  · grind
  · next s1 number heq =>
    rw [heq] at halloc
    grind

/-! ## Files -/

@[grind =] theorem openTarget_tables (cwd : Nat) (path : List UInt8) (flags : BitVec 32) :
    (openTarget s cwd path flags).1.toFdTables = s.toFdTables := by
  grind [openTarget]

@[grind =] theorem openTruncate_tables (flags : BitVec 32) :
    (openTruncate s number flags).1.toFdTables = s.toFdTables := by
  grind [openTruncate]

@[grind =] theorem preadLoop_tables (fuel offset left : Nat) :
    (preadLoop inode fuel s offset left).1.toFdTables = s.toFdTables := by
  induction fuel generalizing s offset left with
  | zero => rfl
  | succ fuel ih => grind [preadLoop]

@[grind =] theorem minifsPread_tables (offset length : Nat) :
    (minifsPread s number offset length).1.toFdTables = s.toFdTables := by
  grind [minifsPread]

@[grind =] theorem writeLoop_tables (source : Region) (fuel offset left done : Nat) :
    (writeLoop source fuel s inode offset left done).1.toFdTables = s.toFdTables := by
  induction fuel generalizing s inode offset left done with
  | zero => rfl
  | succ fuel ih => grind [writeLoop]

@[grind =] theorem writeAt_tables (offset : Nat) (buffer : Region) (length : Nat) :
    (writeAt s number offset buffer length).1.toFdTables = s.toFdTables := by
  grind [writeAt]

/-! ## Calls on paths -/

section Calls

variable (cwd : Nat) (path : Option CStr)

theorem minifsMkdir_tables : (minifsMkdir s cwd path).1.toFdTables = s.toFdTables := by
  grind [minifsMkdir]

@[grind =] theorem dirEmptyLoop_tables (left i : Nat) :
    (dirEmptyLoop inode left i s).1.toFdTables = s.toFdTables := by
  induction left generalizing s i with
  | zero => rfl
  | succ left ih => grind [dirEmptyLoop]

@[grind =] theorem unlinkInode_tables (parent : Nat) :
    (unlinkInode s parent name number inode).1.toFdTables = s.toFdTables := by
  grind [unlinkInode]

theorem minifsUnlink_tables : (minifsUnlink s cwd path).1.toFdTables = s.toFdTables := by
  have hparent := resolveParent_tables s cwd (pathBytes path)
  rw [minifsUnlink]
  split
  · grind
  next s1 parent name heq =>
    rw [heq] at hparent
    have hlookup := dirLookup_tables s1 name parent
    split
    · grind
    · next s2 number heq2 =>
      rw [heq2] at hlookup
      grind

theorem minifsChdir_tables : (minifsChdir s cwd path).1.toFdTables = s.toFdTables := by
  grind [minifsChdir]

@[grind =] theorem getdentsLoop_tables (capacity left i written : Nat) :
    (getdentsLoop inode capacity left i written s).1.toFdTables = s.toFdTables := by
  induction left generalizing s i written with
  | zero => rfl
  | succ left ih => grind [getdentsLoop]

theorem minifsGetdents_tables (capacity : Int) :
    (minifsGetdents s cwd path capacity).1.toFdTables = s.toFdTables := by
  grind [minifsGetdents]

@[grind =] theorem entryNameLoop_tables (current left i : Nat) :
    (entryNameLoop inode current left i s).1.toFdTables = s.toFdTables := by
  induction left generalizing s i with
  | zero => rfl
  | succ left ih => grind [entryNameLoop]

@[grind =] theorem getcwdLoop_tables (fuel current : Nat) (below : List UInt8) :
    (getcwdLoop fuel s current below).1.toFdTables = s.toFdTables := by
  induction fuel generalizing s current below with
  | zero => rfl
  | succ fuel ih =>
    have hread := readInode_tables s current
    rw [getcwdLoop]
    split
    · rfl
    · split
      · grind
      · next s1 inode heq =>
        rw [heq] at hread
        grind

theorem minifsGetcwd_tables (length : Nat) :
    (minifsGetcwd s cwd length).1.toFdTables = s.toFdTables := by
  grind [minifsGetcwd]

end Calls

/-! ## Mounting -/

/-- `minifs_init` leaves nobody in the table, whatever it finds on the disk. -/
theorem minifsInit_tables (s : FsSt) : (minifsInit s).1.toFdTables = FdTables.zero := by
  unfold minifsInit
  dsimp only
  split
  · rfl
  · next s1 hread =>
    have htables := readBlock_tables hread
    split
    · split <;> exact htables
    · exact htables

end MiniOs.Fs
