import MiniOs.Fs.Calls
import MiniOs.Proofs.Import

/-!
# Mounting a built image

`finish` packs the lists of the builder into the first 38 sectors, and
`minifs_init` and the readers of the kernel take them out again. Here the two
meet: what the kernel reads as the inode bitmap, the data bitmap and the inode
table is what the builder held, and the data area is where it was. The volume of
the mounted file system is the volume of the builder, and with it everything
that `Import.lean` says about it.
-/

namespace MiniOs.Tools

open MiniOs.Lib MiniOs.Fs MiniOs.Spec Function

/-! ## The loops of `finish` -/

namespace Builder

/-- The region from an offset on. -/
def tail (image : Region) (start : Nat) : Region := fun i => image (start + i)

theorem tail_orBit (image : Region) (start number : Nat) :
    tail (orBit image start number) start = (tail image start).setBit number true := by
  funext i
  unfold tail orBit Region.setBit
  by_cases hi : i = number / 8
  · rw [hi, update_self, update_self, if_pos rfl]
  · rw [update_of_ne hi, update_of_ne (by omega)]

theorem packBits_succ (image : Region) (start count : Nat) (used : Nat → Bool) :
    packBits image start (count + 1) used =
      if used count then orBit (packBits image start count used) start count
      else packBits image start count used := by
  unfold packBits
  rw [List.range_succ, List.foldl_append]
  rfl

/-- The loop sets the bits of the numbers in use. -/
theorem testBit_packBits (image : Region) (start count : Nat) (used : Nat → Bool) (j : Nat) :
    (tail (packBits image start count used) start).testBit j =
      (decide (j < count) && used j || (tail image start).testBit j) := by
  induction count with
  | zero => simp [packBits]
  | succ count ih =>
    rw [packBits_succ]
    by_cases hj : j = count
    · subst hj
      cases hu : used j with
      | false => simp [ih, hu]
      | true => simp [tail_orBit, Region.testBit_setBit]
    · have hlt : decide (j < count + 1) = decide (j < count) :=
        decide_eq_decide.mpr (by omega)
      rw [hlt, ← ih]
      split
      · rw [tail_orBit, Region.testBit_setBit, if_neg hj]
      · rfl

theorem packBits_out {image : Region} {start count i : Nat} {used : Nat → Bool}
    (h : i < start ∨ start + (count + 7) / 8 ≤ i) :
    packBits image start count used i = image i := by
  induction count with
  | zero => rfl
  | succ count ih =>
    rw [packBits_succ]
    split
    · unfold orBit
      rw [update_of_ne (by omega)]
      exact ih (by omega)
    · exact ih (by omega)

theorem packInodes_succ (image : Region) (inodes : Nat → Option Inode) (count : Nat) :
    packInodes image (count + 1) inodes =
      match inodes count with
      | none => packInodes image count inodes
      | some inode =>
        Inode.encode (packInodes image count inodes) (6 * 512 + count * 64) inode := by
  unfold packInodes
  rw [List.range_succ, List.foldl_append]
  rfl

theorem packInodes_out {image : Region} {inodes : Nat → Option Inode} {count i : Nat}
    (h : i < 3072 ∨ 3072 + count * 64 ≤ i) : packInodes image count inodes i = image i := by
  induction count with
  | zero => rfl
  | succ count ih =>
    rw [packInodes_succ]
    split
    · exact ih (by omega)
    · refine Eq.trans (if_neg ?_) (ih (by omega))
      omega

theorem decode_packInodes {image : Region} {inodes : Nat → Option Inode}
    (hfits : ∀ n x, inodes n = some x → x.Fits) (count n : Nat) (hn : n < count) :
    Inode.decode (packInodes image count inodes) (3072 + n * 64) =
      (inodes n).getD (Inode.decode image (3072 + n * 64)) := by
  induction count with
  | zero => omega
  | succ count ih =>
    rw [packInodes_succ]
    by_cases heq : n = count
    · subst heq
      have hout : Inode.decode (packInodes image n inodes) (3072 + n * 64) =
          Inode.decode image (3072 + n * 64) := by
        refine Inode.ofWords_congr fun k hk => Region.word_congr fun i h1 h2 => ?_
        exact packInodes_out (by omega)
      cases hx : inodes n with
      | none => exact hout
      | some x => exact Inode.decode_encode (hfits n x hx)
    · have hlt := ih (by omega)
      split
      · exact hlt
      · rw [← hlt]
        exact Inode.decode_encode_ne (by omega)

/-! ## The first sectors of the image -/

section Finish

variable {b : Builder}

/-- The image with its superblock, -/
def withSuper (b : Builder) : Region :=
  (b.image.blit 0 Region.zero 512).putWords 0 12 fun k => superWords.getD k 0

/-- with the bitmap of the inodes, -/
def withInodeBits (b : Builder) : Region := packBits b.withSuper 512 256 b.inodeUsed

/-- and with that of the blocks. -/
def withBits (b : Builder) : Region := packBits b.withInodeBits 1024 16384 b.blockUsed

theorem finish_eq (b : Builder) : b.finish = packInodes b.withBits 256 b.inodes := rfl

/-- `finish` only writes below the data area. -/
theorem finish_out (b : Builder) {i : Nat} (h : 19456 ≤ i) : b.finish i = b.image i := by
  rw [finish_eq, packInodes_out (by omega), withBits, packBits_out (by omega), withInodeBits,
    packBits_out (by omega)]
  exact (if_neg (by omega)).trans (Region.blit_out (by omega))

/-- The image before the inodes are packed, above the superblock. -/
theorem withSuper_zero (h : b.Ok) {i : Nat} (h1 : 512 ≤ i) (h2 : i < 19456) : b.withSuper i = 0 :=
  ((if_neg (by omega)).trans (Region.blit_out (by omega))).trans (h.low i h2)

theorem sector_one (h : b.Ok) : bitmapTest (sectors b.finish 1) = b.inodeUsed := by
  funext n
  unfold bitmapTest
  by_cases hn : n < 4096
  · have hbyte : sectors b.finish 1 (n / 8) = tail b.withInodeBits 512 (n / 8) := by
      unfold sectors tail
      rw [if_pos (by omega), finish_eq, packInodes_out (by omega), withBits,
        packBits_out (by omega)]
    have hzero : tail b.withSuper 512 (n / 8) = Region.zero (n / 8) :=
      withSuper_zero h (by omega) (by omega)
    rw [Region.testBit_congr hbyte, withInodeBits, testBit_packBits, Region.testBit_congr hzero,
      Region.testBit_zero, Bool.or_false]
    obtain ⟨m, -, hm, hnext⟩ := h.next
    rw [hnext, ← Bool.decide_and, decide_eq_decide]
    omega
  · have hbyte : sectors b.finish 1 (n / 8) = Region.zero (n / 8) := if_neg (by omega)
    obtain ⟨m, -, hm, hnext⟩ := h.next
    rw [Region.testBit_congr hbyte, Region.testBit_zero, hnext]
    exact (decide_eq_false (by omega)).symm

theorem data_bitmap (h : b.Ok) {c : Nat} (hc : c < 16384) :
    (tail b.finish 1024).testBit c = b.blockUsed c := by
  have hbyte : tail b.finish 1024 (c / 8) = tail b.withBits 1024 (c / 8) := by
    unfold tail
    rw [finish_eq, packInodes_out (by omega)]
  have hzero : tail b.withInodeBits 1024 (c / 8) = Region.zero (c / 8) := by
    unfold tail withInodeBits
    rw [packBits_out (by omega)]
    exact withSuper_zero h (by omega) (by omega)
  rw [Region.testBit_congr hbyte, withBits, testBit_packBits, Region.testBit_congr hzero,
    Region.testBit_zero, Bool.or_false, decide_eq_true hc, Bool.true_and]

theorem inode_sectors (h : b.Ok) : inodeAt (sectors b.finish) = b.inode := by
  funext n
  unfold inodeAt
  split
  · next hn =>
    have hfits : ∀ m x, b.inodes m = some x → x.Fits := by
      intro m x hx
      have hf := h.fits m
      unfold inode at hf
      rwa [hx] at hf
    have hdecode : Inode.decode (sectors b.finish (6 + n / 8)) (n % 8 * 64) =
        Inode.decode b.finish (3072 + n * 64) := by
      refine Inode.ofWords_congr fun k hk => ?_
      rw [word_sectors _ (by omega)]
      congr 1
      omega
    rw [hdecode, finish_eq, decode_packInodes hfits 256 n hn]
    have hblank : Inode.decode b.withBits (3072 + n * 64) = Inode.zero := by
      refine (Inode.ofWords_congr fun k hk => ?_ : _ = Inode.ofWords fun _ => 0)
      refine Eq.trans (Region.word_congr fun i h1 h2 => ?_) (Region.word_zero _)
      rw [withBits, packBits_out (by omega), withInodeBits, packBits_out (by omega)]
      exact withSuper_zero h (by omega) (by omega)
    rw [hblank]
    rfl
  · next hn =>
    obtain ⟨m, -, hm, hnext⟩ := h.next
    have hnone := h.exists_iff n
    rw [hnext, decide_eq_false (by omega)] at hnone
    unfold inode
    rw [Option.isNone_iff_eq_none.mp (Option.isSome_eq_false_iff.mp hnone.symm)]
    rfl

theorem data_sectors (b : Builder) {c : Nat} (hc : 38 ≤ c) :
    sectors b.finish c = b.disk c := by
  funext i
  unfold disk sectors
  split
  · exact b.finish_out (by omega)
  · rfl

theorem word_finish (b : Builder) {k : Nat} (hk : k < 12) :
    b.finish.word (4 * k) = superWords.getD k 0 % 2 ^ 32 := by
  have hput := @Region.word_putWords (b.image.blit 0 Region.zero 512) 0 12 k
    (fun k => superWords.getD k 0) hk
  rw [Nat.zero_add] at hput
  rw [← hput, finish_eq]
  refine Region.word_congr fun i h1 h2 => ?_
  rw [packInodes_out (by omega), withBits, packBits_out (by omega), withInodeBits,
    packBits_out (by omega), withSuper]

theorem superOk_sectors (b : Builder) : superOk (sectors b.finish 0) = true := by
  have hword : ∀ k, k < 12 → (sectors b.finish 0).word (4 * k) = superWords.getD k 0 % 2 ^ 32 := by
    intro k hk
    rw [word_sectors _ (by omega), Nat.zero_mul, Nat.zero_add, b.word_finish hk]
  unfold superOk
  rw [hword 0 (by omega), hword 1 (by omega), hword 2 (by omega), hword 3 (by omega),
    hword 10 (by omega), hword 11 (by omega)]
  decide

end Finish

/-! ## The empty volume -/

theorem bare_newInode (mode parent : Nat) : (newInode mode parent).Bare :=
  freshInode_bare mode parent

theorem new_inode_bare (n : Nat) : (new.inode n).Bare := by
  unfold inode new
  dsimp only
  by_cases hn : n = 0
  · rw [hn, update_self]
    exact bare_newInode 2 0
  · rw [update_of_ne hn]
    exact Inode.bare_zero

theorem new_owner (k : Nat × Fs.Slot) : owner new.inode new.disk k = none :=
  owner_eq_none.mpr (new_inode_bare k.1 new.disk k.2)

theorem new_ok : new.Ok where
  owned := by
    refine ⟨fun {k _} hk => ?_, fun {k _} hk => ?_, fun {k _ _} hk => ?_⟩ <;>
    · rw [new_owner k] at hk
      cases hk
  exact c hc hm := by
    unfold DataBlock at hc
    have hm := of_decide_eq_true hm
    omega
  blank c _ _ := by
    funext i
    unfold disk sectors
    split <;> rfl
  low _ _ := rfl
  fits n := by
    unfold inode new
    dsimp only
    by_cases hn : n = 0
    · rw [hn, update_self]
      exact freshInode_fits (by decide) (by decide)
    · rw [update_of_ne hn]
      exact Inode.fits_zero
  exists_iff n := by
    unfold new
    dsimp only
    by_cases hn : n = 0
    · rw [hn, update_self]
      rfl
    · rw [update_of_ne hn, decide_eq_false hn]
      rfl
  next := ⟨1, by omega, by omega, fun n => decide_eq_decide.mpr (by omega)⟩
  reserved c hc := decide_eq_true hc

theorem new_node_root : new.volume.node 0 = ⟨2, 0, 0, 1⟩ := rfl

theorem new_used {n : Nat} (h : new.volume.ibit n = true) : n = 0 := of_decide_eq_true h

theorem new_names {d i : Nat} {e : Dirent} : ¬ new.volume.Names d i e := by
  intro h
  have hlt := h.lt
  unfold Volume.count at hlt
  rw [new_used h.used, new_node_root] at hlt
  exact absurd hlt (by simp)

theorem new_tree : new.volume.Tree where
  rootUsed := rfl
  rootDir := by rw [new_node_root]; exact (by decide : 2 &&& 0xff = 2)
  rootParent := by rw [new_node_root]
  bound n hn := by rw [new_used hn]; decide
  mapped d hd _ i hi := by
    unfold Volume.count at hi
    rw [new_used hd, new_node_root] at hi
    exact absurd hi (by simp)
  pos h := absurd h new_names
  childUsed h := absurd h new_names
  childMode h := absurd h new_names
  childParent h := absurd h new_names
  name h := absurd h new_names
  unique h := absurd h new_names
  distinct h := absurd h new_names
  reach n hn := by rw [new_used hn]; exact .root

theorem new_snug : new.Snug := by
  intro n
  obtain ⟨hsize, hind⟩ : (new.inode n).size = 0 ∧ (new.inode n).indirect = 0 := by
    simp only [inode, new]
    by_cases hn : n = 0
    · rw [hn, update_self]
      exact ⟨rfl, rfl⟩
    · rw [update_of_ne hn]
      exact ⟨rfl, rfl⟩
  rw [hsize]
  refine ⟨fun j => ⟨fun hsome => ?_, fun hj => absurd hj (Nat.not_lt_zero j)⟩, ?_⟩
  · unfold volume at hsome
    rw [new_ok.owned.view_block] at hsome
    by_cases hz : leaf new.disk (new.inode n) j = 0
    · exact absurd (if_pos hz) hsome
    · obtain ⟨slot, -, ho⟩ := owner_leaf hz
      rw [new_owner] at ho
      cases ho
  · exact ⟨fun _ => Nat.zero_le _, fun _ => hind⟩

theorem new_free : new.free = 15322 := by
  have hall : (Finset.Ico 38 15360).filter (fun c => new.blockUsed c = false) =
      Finset.Ico 38 15360 := by
    refine Finset.filter_true_of_mem fun c hc => decide_eq_false ?_
    have := Finset.mem_Ico.mp hc
    omega
  rw [free, freeCount, hall, Nat.card_Ico]

theorem new_ready : new.Ready 0 0 1 :=
  ⟨new_ok, new_tree, new_snug, rfl, new_tree.rootDir, fun _ => decide_eq_decide.mpr (by omega), rfl,
    Nat.zero_le 1⟩

end Builder

/-! ## Sorting a staging directory -/

theorem mem_names_insert {name : HostName} {node : HostNode} {dir : HostDir}
    {x : List UInt8} :
    x ∈ (HostDir.insert name node dir).names ↔ x = name.bytes ∨ x ∈ dir.names := by
  match dir with
  | .nil => simp [HostDir.insert, HostDir.names]
  | .cons name' node' rest =>
    unfold HostDir.insert
    split
    · simp [HostDir.names]
    · have ih := @mem_names_insert name node rest x
      simp only [HostDir.names, List.mem_cons, ih]
      exact or_left_comm

theorem legal_insert {name : HostName} {node : HostNode} {dir : HostDir}
    (hname : name.Legal) (hnode : node.Legal) (hnot : name.bytes ∉ dir.names)
    (hdir : dir.Legal) : (HostDir.insert name node dir).Legal := by
  match dir with
  | .nil => exact ⟨hname, hnot, hnode, trivial⟩
  | .cons name' node' rest =>
    unfold HostDir.insert
    split
    · exact ⟨hname, hnot, hnode, hdir⟩
    · obtain ⟨hname', hnot', hnode', hrest⟩ := hdir
      have hne : name.bytes ≠ name'.bytes ∧ name.bytes ∉ rest.names := by
        simpa [HostDir.names] using hnot
      refine ⟨hname', ?_, hnode', legal_insert hname hnode hne.2 hrest⟩
      rw [mem_names_insert]
      exact fun h => h.elim (fun heq => hne.1 heq.symm) hnot'

theorem mem_names_sort {x : List UInt8} : ∀ {dir : HostDir}, x ∈ dir.sort.names ↔ x ∈ dir.names
  | .nil => by simp [HostDir.sort, HostDir.names]
  | .cons name node rest => by
      unfold HostDir.sort
      rw [mem_names_insert, mem_names_sort]
      exact List.mem_cons.symm

mutual
theorem HostNode.Legal.sort : ∀ {node : HostNode}, node.Legal → node.sort.Legal
  | .symlink, h => h
  | .dir children, h => by
      exact HostDir.Legal.sort h
  | .other, h => h
  | .file _ _, h => h
theorem HostDir.Legal.sort : ∀ {dir : HostDir}, dir.Legal → dir.sort.Legal
  | .nil, h => h
  | .cons name node rest, ⟨hname, hnot, hnode, hrest⟩ => by
      exact legal_insert hname hnode.sort (by rwa [mem_names_sort]) hrest.sort
end

/-! ## The mounted file system -/

theorem Image.imported (img : Image) :
    Builder.Imported Builder.new img.builder 0 img.tree.root.sort.names.length ∧
      HoldsDir img.builder.volume 0 0 img.tree.root.sort := by
  rcases Builder.importDir_cases Builder.new_ready img.tree.legal.sort
    (fun _ _ h => absurd h Builder.new_names) with ⟨e, hrun, -⟩ | ⟨b, hrun, ha, -, hholds⟩
  · cases img.built.symm.trans hrun
  · cases img.built.symm.trans hrun
    exact ⟨ha.toImported, hholds⟩

theorem Image.builder_ok (img : Image) : img.builder.Ok := img.imported.1.ok

/-- The file system once `minifs_init` has run on a device with the image. -/
def Image.mount (img : Image) (slot : Disk) (s₀ : FsSt) : FsSt :=
  (minifsInit { s₀ with disk := img.disk slot }).1

/-- The sectors of the bitmap one behind the other. -/
theorem loadBitmap_eq (d : Disk) (start : Nat) (buffer : Region) {count : Nat}
    (h : start + count ≤ 16384) :
    ∃ r, loadBitmap d start count buffer = some r ∧
      ∀ k, k < 512 * count → r k = d (start + k / 512) (k % 512) := by
  induction count with
  | zero => exact ⟨buffer, rfl, fun k hk => by omega⟩
  | succ count ih =>
    obtain ⟨r, hr, hbytes⟩ := ih (by omega)
    refine ⟨r.blit (count * 512) (d (start + count)) 512, ?_, fun k hk => ?_⟩
    · unfold loadBitmap at hr ⊢
      rw [List.range_succ, List.foldlM_append, hr]
      simp [blockRead_of_lt (show start + count < 16384 by omega)]
    · by_cases hlast : count * 512 ≤ k
      · rw [Region.blit_in hlast (by omega), show k / 512 = count by omega,
          show k - count * 512 = k % 512 by omega]
      · rw [Region.blit_out (by omega)]
        exact hbytes k (by omega)

/-- The statics of `minifs.c` at boot, and a device nobody has written to. -/
def boot : FsSt where
  disk _ := Region.zero
  bitmapBuffer := Region.zero
  toFdTables := FdTables.zero
  blockBuffer := Region.zero
  indirectBuffer := Region.zero
  uart := ⟨fun _ => 0, 0, []⟩

/-- A kernel slot that nothing was installed in. -/
def bareSlot : Disk := fun _ => Region.zero

/-- The image of an empty staging directory. -/
def Image.empty : Image := ⟨⟨.nil, trivial⟩, Builder.new, rfl⟩

/-- A device with a superblock is mounted, with empty tables and a cache of the bitmap. -/
theorem minifsInit_eq {d : Disk} (hsuper : superOk (d 0) = true) (s₀ : FsSt) :
    ∃ r, (∀ k, k < 2048 → r k = d (2 + k / 512) (k % 512)) ∧
      minifsInit { s₀ with disk := d } =
        ({ disk := d, bitmapBuffer := r, toFdTables := FdTables.zero, blockBuffer := d 0
           indirectBuffer := s₀.indirectBuffer, uart := s₀.uart }, true) := by
  obtain ⟨r, hr, hbytes⟩ := loadBitmap_eq d 2 s₀.bitmapBuffer (show 2 + 4 ≤ 16384 by omega)
  refine ⟨r, hbytes, ?_⟩
  unfold minifsInit
  dsimp only
  rw [FsSt.readBlock_of_lt (by omega)]
  dsimp only
  rw [if_pos hsuper, hr]

section Mount

variable (img : Image) (slot : Disk) (s₀ : FsSt)

theorem Image.mount_accepted :
    (minifsInit { s₀ with disk := img.disk slot }).2 = true := by
  obtain ⟨r, -, hmount⟩ := @minifsInit_eq (img.disk slot) img.builder.superOk_sectors s₀
  rw [hmount]

theorem Image.mount_disk : (img.mount slot s₀).disk = img.disk slot := by
  obtain ⟨r, -, hmount⟩ := @minifsInit_eq (img.disk slot) img.builder.superOk_sectors s₀
  unfold Image.mount
  rw [hmount]

theorem Image.mount_tables : (img.mount slot s₀).toFdTables = FdTables.zero := by
  obtain ⟨r, -, hmount⟩ := @minifsInit_eq (img.disk slot) img.builder.superOk_sectors s₀
  unfold Image.mount
  rw [hmount]

theorem Image.mount_coherent : (img.mount slot s₀).Coherent := by
  obtain ⟨r, hbytes, hmount⟩ := @minifsInit_eq (img.disk slot) img.builder.superOk_sectors s₀
  unfold Image.mount
  rw [hmount]
  exact hbytes

theorem Image.disk_low {c : Nat} (hc : c < 15360) :
    img.disk slot c = sectors img.builder.finish c := if_pos hc

theorem Image.mount_table : (img.mount slot s₀).table = img.builder.inode := by
  rw [← Builder.inode_sectors img.builder_ok]
  unfold Store.table
  rw [img.mount_disk]
  exact inodeAt_congr fun c _ hc => img.disk_low slot (by omega)

theorem Image.mount_ibit : (img.mount slot s₀).ibit = img.builder.inodeUsed := by
  unfold Store.ibit
  rw [img.mount_disk, img.disk_low slot (by omega)]
  exact Builder.sector_one img.builder_ok

theorem Image.mount_bit {c : Nat} (hc : DataBlock c) :
    (img.mount slot s₀).bit c = img.builder.blockUsed c := by
  unfold DataBlock at hc
  rw [← Builder.data_bitmap img.builder_ok (by omega)]
  refine Region.testBit_congr ?_
  rw [img.mount_coherent slot s₀ (c / 8) (by omega), img.mount_disk, img.disk_low slot (by omega)]
  unfold sectors Builder.tail
  rw [if_pos (by omega)]
  congr 1
  omega

theorem Image.mount_data {c : Nat} (hc : DataBlock c) :
    (img.mount slot s₀).disk c = img.builder.disk c := by
  rw [img.mount_disk, img.disk_low slot hc.2]
  exact img.builder.data_sectors hc.1

theorem Image.mount_owner : owner (img.mount slot s₀).table (img.mount slot s₀).disk =
    owner img.builder.inode img.builder.disk := by
  rw [img.mount_table]
  exact img.builder_ok.owned.owner_congr fun c hc _ => img.mount_data slot s₀ hc

theorem Image.mount_sound : (img.mount slot s₀).Sound where
  owned := by
    have howned := img.builder_ok.owned
    unfold Owned
    rw [img.mount_owner]
    exact ⟨howned.real, fun hk => by
      rw [img.mount_bit slot s₀ (howned.real hk)]
      exact howned.marked hk, howned.unique⟩
  coherent := img.mount_coherent slot s₀

theorem Image.mount_volume : (img.mount slot s₀).volume = img.builder.volume := by
  rw [Store.volume_eq, img.mount_ibit, img.mount_table]
  exact img.builder_ok.owned.view_congr (fun c hc _ => img.mount_data slot s₀ hc) _

theorem Image.mount_free : (img.mount slot s₀).free = img.builder.free := by
  unfold Store.free Builder.free freeCount
  congr 1
  refine Finset.filter_congr fun c hc => ?_
  rw [img.mount_bit slot s₀ (Finset.mem_Ico.mp hc)]

theorem Image.mount_tidy : (img.mount slot s₀).Tidy where
  tight := by
    unfold Store.Tight
    rw [img.mount_owner]
    intro c hc hm
    rw [img.mount_bit slot s₀ hc] at hm
    exact img.builder_ok.exact c hc hm
  bare n hn := by
    rw [img.mount_ibit, img.builder_ok.exists_iff] at hn
    rw [img.mount_table]
    unfold Builder.inode
    rw [Option.isNone_iff_eq_none.mp (Option.isSome_eq_false_iff.mp hn)]
    exact Inode.bare_zero

theorem Image.mount_tree : (img.mount slot s₀).volume.Tree := by
  rw [img.mount_volume]
  exact img.imported.1.tree

end Mount

end MiniOs.Tools
