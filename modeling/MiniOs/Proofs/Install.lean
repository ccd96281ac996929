import MiniOs.Proofs.BootLoader
import MiniOs.Proofs.ByteStrings
import MiniOs.Tools.InstallKernel

/-!
# From the installer to the kernel

The installer writes behind the file system, and the loader reads there: a header, and the
bytes of the kernel from the next sector on. Two programs that share nothing but a layout
meet in the image, so there is one lemma for each part of it, and what either program does
with the part is about that lemma.

The file system gets by with less than the whole device. An image of the first layout is
cut down to it, in one word of the superblock and 128 bytes of the bitmap. That touches no
file, because nothing of a file lies in those sectors or behind the cut.
-/

namespace MiniOs.Tools

open MiniOs.Lib MiniOs.Fs MiniOs.Cemu

variable {image migrated : Region} {kernel : List UInt8} {i : Nat}

/-! ## The parts of the slot -/

theorem bytesOf_fileOf {size : Nat} (h : i < size) (r : Region) :
    bytesOf (fileOf size r) i = r i := by
  simp [bytesOf, fileOf, h]

theorem fillSlot_below (h : i < kernelSlotStart * 512) : fillSlot image kernel i = image i := by
  unfold fillSlot
  rw [Region.blit_out (by omega), Region.blit_out (by omega), Region.blit_out (by omega)]

theorem fillSlot_header (h : i < headerSize) :
    fillSlot image kernel (kernelSlotStart * 512 + i) = packHeader kernel i := by
  unfold headerSize at h
  unfold fillSlot headerSize
  rw [Region.blit_out (by omega), Region.blit_in (by omega) (by omega), Nat.add_sub_cancel_left]

theorem fillSlot_payload (h : i < kernel.length) :
    fillSlot image kernel ((kernelSlotStart + 1) * 512 + i) = bytesOf kernel i := by
  unfold fillSlot
  rw [Nat.add_mul, Nat.one_mul, Region.blit_in (by omega) (by omega), Nat.add_sub_cancel_left]

/-! ## The header -/

/-- The header of a kernel, as the loader has it. -/
def headerOf (kernel : List UInt8) : Boot.Header where
  magic := kernelMagic
  version := kernelVersion
  headerSize := headerSize
  loadAddress := kernelLoadAddress
  entry := kernelLoadAddress
  imageSize := kernel.length
  checksum := checksum32 kernel

theorem decode_packHeader (hsize : kernel.length < 2 ^ 32) :
    Boot.Header.decode (packHeader kernel) = headerOf kernel := by
  have hmagic : (List.range 8).map (packHeader kernel) = kernelMagic := rfl
  have hsum : checksum32 kernel % 2 ^ 32 = checksum32 kernel := Nat.mod_mod _ _
  unfold Boot.Header.decode headerOf
  rw [hmagic]
  unfold packHeader
  simp (disch := omega) only [Region.word_putWord, Region.word_putWord_ne, Region.word_putDword_ne,
    Region.dword_putDword, Region.dword_putDword_ne, Region.dword_putWord_ne, hsum,
    Nat.mod_eq_of_lt hsize]
  rfl

theorem decode_congr {r r' : Region} (h : ∀ i, i < 40 → r i = r' i) :
    Boot.Header.decode r = Boot.Header.decode r' := by
  have hword : ∀ off, off + 4 ≤ 40 → r.word off = r'.word off := fun off hoff =>
    Region.word_congr fun i _ hi => h i (by omega)
  have hdword : ∀ off, off + 8 ≤ 40 → r.dword off = r'.dword off := fun off hoff =>
    Region.dword_congr fun i _ hi => h i (by omega)
  have hmagic : (List.range 8).map r = (List.range 8).map r' :=
    List.map_congr_left fun i hi => h i (by have := List.mem_range.mp hi; omega)
  unfold Boot.Header.decode
  rw [hmagic, hword 8 (by omega), hword 12 (by omega), hdword 16 (by omega), hdword 24 (by omega),
    hword 32 (by omega), hword 36 (by omega)]

theorem checkHeader_headerOf (hpos : 0 < kernel.length)
    (hmax : kernel.length ≤ (kernelSlotSectors - 1) * 512) :
    Boot.checkHeader (headerOf kernel) = none := by
  have hmagic : ¬ Boot.bytesEqual kernelMagic Boot.expectedMagic 8 = false := by decide
  have hsize : ¬ (kernel.length = 0 ∨ kernel.length > Boot.kernelSlotPayloadMax) := by
    unfold kernelSlotSectors deviceBlockCount kernelSlotStart minifsBlockCount at hmax
    unfold Boot.kernelSlotPayloadMax
    omega
  have hentry : ¬ (kernelLoadAddress < kernelLoadAddress ∨
      kernelLoadAddress ≥ (kernelLoadAddress + kernel.length) % 2 ^ 64) := by
    unfold Boot.kernelSlotPayloadMax at hsize
    unfold kernelLoadAddress
    omega
  unfold Boot.checkHeader headerOf
  dsimp only
  rw [if_neg hmagic, if_neg (by decide), if_neg (by decide), if_neg hsize, if_neg hentry]

theorem byteSum_bytesOf (kernel : List UInt8) :
    Boot.byteSum (bytesOf kernel) 0 kernel.length = (kernel.map UInt8.toNat).sum := by
  refine congrArg List.sum (List.ext_getElem (by simp) fun k hk _ => ?_)
  have hlt : k < kernel.length := by simpa using hk
  simp [bytesOf, hlt]

/-- A device with a kernel in its slot boots it. -/
theorem boots_fillSlot (b : Bus) (hpos : 0 < kernel.length)
    (hmax : kernel.length ≤ (kernelSlotSectors - 1) * 512)
    (hstorage : ∀ i, i < imageSize → b.block.storage i = fillSlot image kernel i) :
    ∃ b', Boot.bootMain b = .ok (.jump kernelLoadAddress, b') ∧ ∀ i, i < kernel.length →
        b'.dram (BitVec.ofNat 64 (kernelLoadAddress + i)) = bytesOf kernel i := by
  have hslot : (kernelSlotStart + 1) * 512 + kernel.length ≤ imageSize := by
    unfold kernelSlotSectors at hmax
    unfold imageSize
    omega
  have hpayload : ∀ k, k < kernel.length →
      b.block.storage (Boot.payloadStart + k) = bytesOf kernel k := by
    intro k hk
    exact (hstorage _ (show (kernelSlotStart + 1) * 512 + k < imageSize by omega)).trans
      (fillSlot_payload hk)
  have hheader : ∀ buffer : Region,
      (∀ i, i < 512 → buffer i = b.block.storage (Boot.kernelSlotStart * 512 + i)) →
        Boot.Header.decode buffer = headerOf kernel := by
    intro buffer hbuffer
    rw [← decode_packHeader (show kernel.length < 2 ^ 32 by
      unfold imageSize deviceBlockCount at hslot
      omega)]
    refine decode_congr fun i hi => ?_
    rw [hbuffer i (by omega)]
    refine (hstorage _ (show kernelSlotStart * 512 + i < imageSize by omega)).trans ?_
    exact fillSlot_header (show i < 64 by omega)
  have hsum : Boot.byteSum b.block.storage Boot.payloadStart (headerOf kernel).imageSize % 2 ^ 32 =
      (headerOf kernel).checksum := by
    show _ = (kernel.map UInt8.toNat).sum % 2 ^ 32
    rw [← byteSum_bytesOf]
    exact congrArg (· % 2 ^ 32) (Boot.byteSum_congr fun k hk => by rw [hpayload k hk, Nat.zero_add])
  obtain ⟨b', hboot, hdram⟩ := Boot.bootMain_jumps b hheader (checkHeader_headerOf hpos hmax) hsum
  exact ⟨b', hboot, fun i hi => (hdram i hi).trans (hpayload i hi)⟩

/-! ## Migration -/

theorem migrateMinifs_cases (h : migrateMinifs image = .ok migrated) :
    image.word 8 = minifsBlockCount ∧ migrated = image ∨
      image.word 8 = deviceBlockCount ∧ (∀ block ∈ slotBlocks, bitIsSet image block = false) ∧
        migrated = slotBlocks.foldl setBit (image.putWords 0 12 fun k =>
          if k = 2 then minifsBlockCount else image.word (4 * k)) := by
  unfold migrateMinifs at h
  split at h
  · cases h
  split at h
  · next hcount => exact Or.inl ⟨hcount, (Except.ok.inj h).symm⟩
  split at h
  · cases h
  · next hcount =>
    split at h
    · cases h
    · next hnone =>
      refine Or.inr ⟨not_ne_iff.mp hcount, fun block hblock => ?_, (Except.ok.inj h).symm⟩
      exact Bool.eq_false_iff.mpr (List.filter_eq_nil_iff.mp hnone block hblock)

theorem mem_slotBlocks {block : Nat} :
    block ∈ slotBlocks ↔ kernelSlotStart ≤ block ∧ block < deviceBlockCount := by
  unfold slotBlocks kernelSlotSectors
  rw [List.mem_map]
  constructor
  · rintro ⟨k, hk, rfl⟩
    rw [List.mem_range] at hk
    omega
  · rintro ⟨hlo, hhi⟩
    exact ⟨block - kernelSlotStart, List.mem_range.mpr (by omega), by omega⟩

theorem bitIsSet_setBit (image : Region) (a b : Nat) :
    bitIsSet (setBit image a) b = (decide (b = a) || bitIsSet image b) := by
  have htail := congrArg (Region.testBit · b) (Builder.tail_orBit image dataBitmap a)
  refine htail.trans ?_
  rw [Region.testBit_setBit]
  by_cases hab : b = a
  · rw [if_pos hab, decide_eq_true hab, Bool.true_or]
  · rw [if_neg hab, decide_eq_false hab, Bool.false_or]
    rfl

theorem bitIsSet_foldl (l : List Nat) (image : Region) (b : Nat) :
    bitIsSet (l.foldl setBit image) b = (decide (b ∈ l) || bitIsSet image b) := by
  induction l generalizing image with
  | nil => simp
  | cons a rest ih =>
    rw [List.foldl_cons, ih, bitIsSet_setBit]
    simp only [List.mem_cons, Bool.decide_or]
    cases decide (b = a) <;> cases decide (b ∈ rest) <;> rfl

/-- The bytes of the bitmap that belong to the slot. -/
theorem foldl_setBit_out (h : i < dataBitmap + kernelSlotStart / 8 ∨
      dataBitmap + deviceBlockCount / 8 ≤ i) (image : Region) :
    slotBlocks.foldl setBit image i = image i := by
  have hall : ∀ l : List Nat, (∀ b ∈ l, b ∈ slotBlocks) → ∀ image : Region,
      l.foldl setBit image i = image i := by
    intro l
    induction l with
    | nil => exact fun _ _ => rfl
    | cons b rest ih =>
      intro hl image
      have hb := mem_slotBlocks.mp (hl b List.mem_cons_self)
      rw [List.foldl_cons, ih (fun a ha => hl a (List.mem_cons_of_mem _ ha))]
      refine Function.update_of_ne ?_ _ _
      unfold kernelSlotStart minifsBlockCount deviceBlockCount at *
      omega
  exact hall slotBlocks (fun _ hb => hb) image

/-- Writing the words back changes the one that is different. -/
theorem putWords_back (h : ¬ (8 ≤ i ∧ i < 12)) (image : Region) :
    image.putWords 0 12 (fun k => if k = 2 then minifsBlockCount else image.word (4 * k)) i =
      image i := by
  unfold Region.putWords
  split
  · dsimp only
    rw [if_neg (by omega), Region.wordByte_word _ _ (Nat.mod_lt _ (by decide))]
    congr 1
    omega
  · rfl

/-- What `migrate_minifs` makes of an image of the first layout. -/
structure Cut (image migrated : Region) : Prop where
  count : migrated.word 8 = minifsBlockCount
  marked : ∀ block, kernelSlotStart ≤ block → block < deviceBlockCount →
    bitIsSet migrated block = true
  kept : ∀ i, ¬ (8 ≤ i ∧ i < 12) →
    ¬ (dataBitmap + kernelSlotStart / 8 ≤ i ∧ i < dataBitmap + deviceBlockCount / 8) →
      migrated i = image i

theorem migrateMinifs_cut (h : migrated = slotBlocks.foldl setBit (image.putWords 0 12 fun k =>
    if k = 2 then minifsBlockCount else image.word (4 * k))) : Cut image migrated := by
  obtain ⟨words, hwords⟩ : ∃ words, words = image.putWords 0 12 fun k =>
    if k = 2 then minifsBlockCount else image.word (4 * k) := ⟨_, rfl⟩
  have hcount : words.word 8 = minifsBlockCount := by
    rw [hwords]
    exact @Region.word_putWords image 0 12 2 _ (by omega)
  rw [← hwords] at h
  have hout : ∀ i, i < dataBitmap + kernelSlotStart / 8 ∨
      dataBitmap + deviceBlockCount / 8 ≤ i → migrated i = words i := fun i hi => by
    rw [h, foldl_setBit_out hi]
  refine ⟨?_, fun block hlo hhi => ?_, fun i hword hbits => ?_⟩
  · rw [← hcount]
    exact Region.word_congr fun i _ hi => hout i (Or.inl (by unfold dataBitmap; omega))
  · rw [h, bitIsSet_foldl, decide_eq_true (mem_slotBlocks.mpr ⟨hlo, hhi⟩), Bool.true_or]
  · rw [hout i (by omega), hwords, putWords_back hword]

/-! ## Files -/

/-- Two disks show the same volume where they agree on the inodes and on the blocks the
inodes name. -/
theorem volume_congr {st st' : Store} (hbits : st'.disk 1 = st.disk 1)
    (htable : ∀ c, 6 ≤ c → c < 38 → st'.disk c = st.disk c)
    (hblocks : ∀ n slot, slotPtr st.disk (inodeAt st.disk n) slot ≠ 0 →
      st'.disk (slotPtr st.disk (inodeAt st.disk n) slot) =
        st.disk (slotPtr st.disk (inodeAt st.disk n) slot)) : st'.volume = st.volume := by
  have hinode : ∀ n, inodeAt st'.disk n = inodeAt st.disk n := by
    intro n
    unfold inodeAt
    split
    · rw [htable _ (by omega) (by omega)]
    · rfl
  have hslot : ∀ n slot, slotPtr st'.disk (inodeAt st.disk n) slot =
      slotPtr st.disk (inodeAt st.disk n) slot := by
    intro n slot
    cases slot with
    | direct i => rfl
    | indirect => rfl
    | entry j =>
      by_cases hnull : (inodeAt st.disk n).indirect = 0
      · exact (if_pos (Or.inl hnull)).trans (if_pos (Or.inl hnull)).symm
      · have htables : st'.disk (inodeAt st.disk n).indirect =
            st.disk (inodeAt st.disk n).indirect := hblocks n .indirect hnull
        unfold slotPtr
        rw [htables]
  have hblock : ∀ n i, (let b := leaf st'.disk (inodeAt st.disk n) i
        if b = 0 ∨ b ≥ 16384 then none else some (st'.disk b)) =
      (let b := leaf st.disk (inodeAt st.disk n) i
        if b = 0 ∨ b ≥ 16384 then none else some (st.disk b)) := by
    intro n i
    unfold leaf
    cases leafSlot i with
    | none => rfl
    | some slot =>
      dsimp only
      rw [hslot]
      split
      · rfl
      · next hnull => rw [hblocks n slot (not_or.mp hnull).1]
  unfold Store.volume view
  simp only [hbits, hinode, hblock]

/-- A file system of the second version: the superblock says so, and a block an inode names
is one of its data blocks, in use. -/
structure MinifsV2 (image : Region) : Prop where
  magic : image.word 0 = minifsMagic
  version : image.word 4 = minifsVersion
  inodes : image.word 12 = 256
  dataStart : image.word 40 = 38
  maxFileSize : image.word 44 = 65536
  used : ∀ n slot, slotPtr (sectors image) (inodeAt (sectors image) n) slot ≠ 0 →
    38 ≤ slotPtr (sectors image) (inodeAt (sectors image) n) slot ∧
    slotPtr (sectors image) (inodeAt (sectors image) n) slot < image.word 8 ∧
    bitIsSet image (slotPtr (sectors image) (inodeAt (sectors image) n) slot) = true

theorem sectors_congr {r r' : Region} {c : Nat}
    (h : ∀ i, 512 * c ≤ i → i < 512 * c + 512 → r i = r' i) : sectors r c = sectors r' c := by
  funext i
  unfold sectors
  split
  · rw [h _ (by omega) (by omega)]
  · rfl

/-- Where two disks show one volume, a path leads to the same file, and a file is read the
same. -/
theorem minifsResolveFile_congr {s s' : FsSt} (h : s'.volume = s.volume) (cwd : Nat)
    (path : Option CStr) :
    (minifsResolveFile s' cwd path).2 = (minifsResolveFile s cwd path).2 := by
  have hfile : ∀ s : FsSt, (minifsResolveFile s cwd path).2 =
      (s.volume.resolve cwd (pathBytes path)).filter fun n =>
        decide (n < 256 ∧ (s.volume.node n).IsFile) := by
    intro s
    obtain ⟨b, hb⟩ := resolve_eq s cwd (pathBytes path)
    unfold minifsResolveFile
    rw [hb]
    cases s.volume.resolve cwd (pathBytes path) with
    | none => rfl
    | some n =>
      obtain ⟨c, hc⟩ := readInode_eq (s.withBuffer b) n
      dsimp only
      rw [hc, Option.filter_some]
      by_cases hn : n < 256
      · rw [if_pos hn]
        by_cases hmode : (s.volume.node n).IsFile
        · rw [decide_eq_true ⟨hn, hmode⟩, if_pos rfl]
          exact congrArg Prod.snd (if_neg (not_not_intro hmode))
        · rw [decide_eq_false fun hand => hmode hand.2, if_neg Bool.false_ne_true]
          exact congrArg Prod.snd (if_pos hmode)
      · rw [if_neg hn, decide_eq_false fun hand => hn hand.1, if_neg Bool.false_ne_true]
  rw [hfile, hfile, h]

section Migrated

variable (h : migrateMinifs image = .ok migrated)
include h

theorem migrateMinifs_kept (hword : ¬ (8 ≤ i ∧ i < 12))
    (hbits : ¬ (dataBitmap + kernelSlotStart / 8 ≤ i ∧ i < dataBitmap + deviceBlockCount / 8)) :
    migrated i = image i := by
  rcases migrateMinifs_cases h with ⟨-, rfl⟩ | ⟨-, -, hcut⟩
  · rfl
  · exact (migrateMinifs_cut hcut).kept i hword hbits

theorem migrateMinifs_count : migrated.word 8 = minifsBlockCount := by
  rcases migrateMinifs_cases h with ⟨hcount, rfl⟩ | ⟨-, -, hcut⟩
  · exact hcount
  · exact (migrateMinifs_cut hcut).count

variable (hfs : MinifsV2 image)
include hfs

/-- No file has a block in the slot. -/
theorem MinifsV2.block_lt {n : Nat} {slot : Fs.Slot}
    (hused : slotPtr (sectors image) (inodeAt (sectors image) n) slot ≠ 0) :
    slotPtr (sectors image) (inodeAt (sectors image) n) slot < kernelSlotStart := by
  obtain ⟨-, hlt, hbit⟩ := hfs.used n slot hused
  rcases migrateMinifs_cases h with ⟨hcount, -⟩ | ⟨hcount, hfree, -⟩
  · rwa [hcount] at hlt
  · by_contra hge
    rw [hcount] at hlt
    have hclear := hfree _ (mem_slotBlocks.mpr ⟨Nat.not_lt.mp hge, hlt⟩)
    rw [hbit] at hclear
    cases hclear

variable {after : Region} (hafter : ∀ i, i < kernelSlotStart * 512 → after i = migrated i)
include hafter

theorem MinifsV2.volume_eq {st st' : Store} (hst : st.disk = sectors image)
    (hst' : st'.disk = sectors after) :
    st'.volume = st.volume := by
  have hsector : ∀ c, c ≠ 0 → c ≠ 5 → c < kernelSlotStart → sectors after c = sectors image c := by
    intro c h0 h5 hlt
    refine sectors_congr fun i hlo hhi => ?_
    rw [hafter i (by omega)]
    refine migrateMinifs_kept h (by omega) ?_
    unfold dataBitmap kernelSlotStart minifsBlockCount deviceBlockCount
    omega
  have hlow : 38 < kernelSlotStart := by decide
  refine volume_congr ?_ (fun c hlo hhi => ?_) fun n slot hused => ?_
  · rw [hst, hst', hsector 1 (by omega) (by omega) (by omega)]
  · rw [hst, hst', hsector c (by omega) (by omega) (by omega)]
  · rw [hst] at hused ⊢
    rw [hst']
    have hdata := (hfs.used n slot hused).1
    exact hsector _ (by omega) (by omega) (hfs.block_lt h hused)

theorem MinifsV2.mounts (s : FsSt) : (minifsInit { s with disk := sectors after }).2 = true := by
  have hword : ∀ o, o + 4 ≤ 48 → (sectors after 0).word o = migrated.word o := by
    intro o ho
    rw [Builder.word_sectors _ (by omega), Nat.zero_mul, Nat.zero_add]
    exact Region.word_congr fun i _ hi => hafter i (by unfold kernelSlotStart minifsBlockCount; omega)
  have hkept : ∀ o, o + 4 ≤ 48 → o + 4 ≤ 8 ∨ 12 ≤ o → (sectors after 0).word o = image.word o := by
    intro o ho hcount
    rw [hword o ho]
    refine Region.word_congr fun i hlo hhi => migrateMinifs_kept h (by omega) ?_
    unfold dataBitmap
    omega
  have hsuper : superOk (sectors after 0) = true := by
    unfold superOk
    rw [hkept 0 (by omega) (by omega), hkept 4 (by omega) (by omega), hword 8 (by omega),
      hkept 12 (by omega) (by omega), hkept 40 (by omega) (by omega), hkept 44 (by omega) (by omega),
      hfs.magic, hfs.version, migrateMinifs_count h, hfs.inodes, hfs.dataStart, hfs.maxFileSize]
    decide
  obtain ⟨r, hr, -⟩ := loadBitmap_eq (sectors after) 2 s.bitmapBuffer (show 2 + 4 ≤ 16384 by omega)
  unfold minifsInit
  dsimp only
  rw [FsSt.readBlock_of_lt (by omega)]
  dsimp only
  rw [if_pos hsuper, hr]

end Migrated

/-! ## The whole way -/

/-- What is to be said of an installation that went through. The sectors of the file system
are the same but for what the migration does; a file system that was there is mounted, and
has the files it had; and a machine with the new image boots the kernel. -/
structure Installed (image kernel after : List UInt8) : Prop where
  size : image.length = imageSize ∧ after.length = imageSize
  layout : (bytesOf image).word 8 = minifsBlockCount ∨ (bytesOf image).word 8 = deviceBlockCount
  kept : (bytesOf image).word 8 = minifsBlockCount →
    ∀ i, i < kernelSlotStart * 512 → bytesOf after i = bytesOf image i
  migrated : (bytesOf image).word 8 = deviceBlockCount → (bytesOf after).word 8 = minifsBlockCount ∧
    (∀ block, kernelSlotStart ≤ block → block < deviceBlockCount →
      bitIsSet (bytesOf after) block = true) ∧
    ∀ i, i < kernelSlotStart * 512 → ¬ (8 ≤ i ∧ i < 12) →
      ¬ (dataBitmap + kernelSlotStart / 8 ≤ i ∧ i < dataBitmap + deviceBlockCount / 8) →
        bytesOf after i = bytesOf image i
  mounts : MinifsV2 (bytesOf image) →
    ∀ s : FsSt, (minifsInit { s with disk := sectors (bytesOf after) }).2 = true
  files : MinifsV2 (bytesOf image) →
    ∀ s s' : FsSt, s.disk = sectors (bytesOf image) → s'.disk = sectors (bytesOf after) →
      (∀ cwd path, (minifsResolveFile s' cwd path).2 = (minifsResolveFile s cwd path).2) ∧
      ∀ n offset length, (minifsPread s' n offset length).2 = (minifsPread s n offset length).2
  boots : ∃ device, BlockDevice.ofImage after = some device ∧
    ∀ b : Bus, ∃ b', Boot.bootMain { b with block := device } = .ok (.jump 0x80200000, b') ∧
      ∀ i, i < kernel.length → b'.dram (BitVec.ofNat 64 (0x80200000 + i)) = kernel.getD i 0

theorem installed_fillSlot {image : List UInt8} (hsize : image.length = imageSize)
    (hpos : 0 < kernel.length) (hmax : kernel.length ≤ (kernelSlotSectors - 1) * 512)
    (h : migrateMinifs (bytesOf image) = .ok migrated) :
    Installed image kernel (fileOf imageSize (fillSlot migrated kernel)) := by
  generalize hafter : fileOf imageSize (fillSlot migrated kernel) = after
  have hlength : after.length = imageSize := by
    rw [← hafter]
    simp [fileOf]
  have hslot : kernelSlotStart * 512 ≤ imageSize := by decide
  have hbytes : ∀ i, i < imageSize → bytesOf after i = fillSlot migrated kernel i := fun i hi => by
    rw [← hafter, bytesOf_fileOf hi]
  have hbelow : ∀ i, i < kernelSlotStart * 512 → bytesOf after i = migrated i := fun i hi =>
    (hbytes i (Nat.lt_of_lt_of_le hi hslot)).trans (fillSlot_below hi)
  refine ⟨⟨hsize, hlength⟩, ?_, fun hcount i hi => ?_, fun hcount => ?_,
    fun hfs s => hfs.mounts h hbelow s, fun hfs s s' hs hs' => ?_, ?_⟩
  · exact (migrateMinifs_cases h).imp (·.1) (·.1)
  · rcases migrateMinifs_cases h with ⟨-, heq⟩ | ⟨hlegacy, -⟩
    · rw [hbelow i hi, heq]
    · exact absurd (hcount.symm.trans hlegacy) (by decide)
  · rcases migrateMinifs_cases h with ⟨hnew, -⟩ | ⟨-, -, hcut⟩
    · exact absurd (hnew.symm.trans hcount) (by decide)
    · have cut := migrateMinifs_cut hcut
      refine ⟨?_, fun block hlo hhi => ?_, fun i hi hword hbits => ?_⟩
      · rw [← cut.count]
        exact Region.word_congr fun i _ hi =>
          hbelow i (by unfold kernelSlotStart minifsBlockCount; omega)
      · rw [← cut.marked block hlo hhi]
        unfold bitIsSet
        rw [hbelow _ (by
          unfold dataBitmap kernelSlotStart minifsBlockCount deviceBlockCount at *
          omega)]
      · rw [hbelow i hi, cut.kept i hword hbits]
  · have hvolume := hfs.volume_eq h hbelow hs hs'
    exact ⟨fun cwd path => minifsResolveFile_congr hvolume cwd path,
      fun n offset length => minifsPread_congr hvolume n offset length⟩
  · refine ⟨_, if_neg (not_not_intro hlength), fun b => ?_⟩
    exact boots_fillSlot _ hpos hmax hbytes

/-- The end of `install_kernel`, whatever the host makes of it. -/
theorem replaceImage_cases (files : HostFiles) (io : HostIo) (after : List UInt8) :
    ((replaceImage files io after).2 = .error .host ∧
      (replaceImage files io after).1.image = files.image) ∨
    ((replaceImage files io after).2 = .ok () ∧
      (replaceImage files io after).1.image = some after) := by
  unfold replaceImage
  split
  · exact Or.inl ⟨rfl, rfl⟩
  · split
    · exact Or.inr ⟨rfl, rfl⟩
    · exact Or.inl ⟨rfl, rfl⟩

/-- How `install_kernel` ends: with an error and the image that was there, or with a new
image behind every check. -/
theorem installKernel_cases (files : HostFiles) (io : HostIo) :
    (∃ e, (installKernel files io).2 = .error e ∧ (installKernel files io).1.image = files.image) ∨
    ∃ image kernel migrated, files.image = some image ∧ files.kernel = some kernel ∧
      image.length = imageSize ∧ 0 < kernel.length ∧
      kernel.length ≤ (kernelSlotSectors - 1) * 512 ∧
      migrateMinifs (bytesOf image) = .ok migrated ∧
      (installKernel files io).2 = .ok () ∧
      (installKernel files io).1.image = some (fileOf imageSize (fillSlot migrated kernel)) := by
  have hread : ∀ {file goesThrough bytes}, readBytes file goesThrough = .ok bytes →
      file = some bytes := by
    intro file goesThrough bytes h
    unfold readBytes at h
    split at h
    · split at h
      · rw [Except.ok.inj h]
      · cases h
    · cases h
  unfold installKernel
  split
  · exact Or.inl ⟨_, rfl, rfl⟩
  next image himage =>
    split
    · exact Or.inl ⟨_, rfl, rfl⟩
    next hsize =>
      split
      · exact Or.inl ⟨_, rfl, rfl⟩
      next kernel hkernel =>
        dsimp only
        split
        · exact Or.inl ⟨_, rfl, rfl⟩
        next hempty =>
          split
          · exact Or.inl ⟨_, rfl, rfl⟩
          next hmax =>
            split
            · exact Or.inl ⟨_, rfl, rfl⟩
            next migrated hmigrate =>
              rcases replaceImage_cases files io (fileOf imageSize (fillSlot migrated kernel)) with
                  ⟨herr, hsame⟩ | ⟨hok, hnew⟩
              · exact Or.inl ⟨_, herr, hsame⟩
              · exact Or.inr ⟨image, kernel, migrated, hread himage, hread hkernel,
                  not_not.mp hsize, List.length_pos_of_ne_nil hempty,
                  Nat.not_lt.mp hmax, hmigrate, hok, hnew⟩

/-- From the tool to the kernel: where `install_kernel` raises, the image is what it was; and
where it does not, the image it leaves has the files it had and boots the kernel. -/
theorem install_then_boot (files : HostFiles) (io : HostIo) :
    (∀ e, (installKernel files io).2 = .error e → (installKernel files io).1.image = files.image) ∧
    ((installKernel files io).2 = .ok () →
      ∃ image kernel after, files.image = some image ∧ files.kernel = some kernel ∧
        (installKernel files io).1.image = some after ∧ Installed image kernel after) := by
  rcases installKernel_cases files io with ⟨e, herr, hsame⟩ |
    ⟨image, kernel, migrated, himage, hkernel, hsize, hpos, hmax, hmigrate, hok, hnew⟩
  · exact ⟨fun _ _ => hsame, fun hok => by rw [herr] at hok; cases hok⟩
  · refine ⟨fun e herr => (by rw [hok] at herr; cases herr), fun _ => ?_⟩
    exact ⟨image, kernel, _, himage, hkernel, hnew, installed_fillSlot hsize hpos hmax hmigrate⟩

/-! ## Images of the builder -/

/-- The file the tool writes the image to. -/
def Image.file (img : Image) : List UInt8 := fileOf imageSize img.builder.finish

section Finish

variable (img : Image)

theorem bytesOf_finish {i : Nat} (h : i < 512 * 16384) :
    bytesOf img.file i = img.builder.finish i :=
  bytesOf_fileOf h _

theorem word_bytesOf_finish {k : Nat} (hk : k < 12) :
    (bytesOf img.file).word (4 * k) =
      Builder.superWords.getD k 0 % 2 ^ 32 := by
  rw [← img.builder.word_finish hk]
  exact Region.word_congr fun i _ hi => bytesOf_finish img (by omega)

/-- What the builder writes is a file system of the second version. -/
theorem minifsV2_finish : MinifsV2 (bytesOf img.file) := by
  have hok := img.builder_ok
  have hword := @word_bytesOf_finish img
  have hbytes := @bytesOf_finish img
  generalize bytesOf img.file = image at hword hbytes ⊢
  have hsector : ∀ c, c < 16384 → sectors image c = sectors img.builder.finish c := fun c hc =>
    sectors_congr fun i _ hi => hbytes (by omega)
  have hinode : inodeAt (sectors image) = img.builder.inode := by
    rw [← Builder.inode_sectors hok]
    exact inodeAt_congr fun c _ hc => hsector c (by omega)
  have howner : owner img.builder.inode (sectors image) =
      owner img.builder.inode img.builder.disk :=
    hok.owned.owner_congr fun c hc _ =>
      (hsector c (Nat.lt_trans hc.2 (by decide))).trans (img.builder.data_sectors hc.1)
  refine ⟨hword (k := 0) (by omega), hword (k := 1) (by omega), hword (k := 3) (by omega),
    hword (k := 10) (by omega), hword (k := 11) (by omega), fun n slot hused => ?_⟩
  rw [hinode] at hused ⊢
  have hown := owner_of_ne hused
  rw [howner] at hown
  have hdata := hok.owned.real hown
  refine ⟨hdata.1, hdata.2.trans_eq (hword (k := 2) (by omega)).symm, ?_⟩
  rw [← hok.owned.marked hown, ← Builder.data_bitmap hok (Nat.lt_trans hdata.2 (by decide))]
  unfold bitIsSet
  rw [hbytes (by unfold DataBlock at hdata; unfold dataBitmap; omega)]
  rfl

theorem migrateMinifs_finish :
    migrateMinifs (bytesOf img.file) =
      .ok (bytesOf img.file) := by
  have hfs := minifsV2_finish img
  have hcount : (bytesOf img.file).word 8 = minifsBlockCount :=
    @word_bytesOf_finish img 2 (by omega)
  unfold migrateMinifs
  rw [if_neg (not_or.mpr ⟨not_not_intro hfs.magic, not_not_intro hfs.version⟩), if_pos hcount]

/-- Any kernel that is not empty and fits into the slot can be installed there. -/
theorem installKernel_finish (hpos : 0 < kernel.length)
    (hmax : kernel.length ≤ (kernelSlotSectors - 1) * 512) :
    (installKernel ⟨some img.file, some kernel, none⟩
      ⟨true, true, none, true⟩).2 = .ok () := by
  have hsize : img.file.length = imageSize := by
    unfold Image.file fileOf
    rw [List.length_map, List.length_range]
  have hmigrate := migrateMinifs_finish img
  generalize img.file = image at hsize hmigrate ⊢
  unfold installKernel
  simp only [readBytes, if_true]
  rw [if_neg (not_not_intro hsize), if_neg (List.ne_nil_of_length_pos hpos),
    if_neg (Nat.not_lt.mpr hmax), hmigrate]
  rfl

end Finish

end MiniOs.Tools
