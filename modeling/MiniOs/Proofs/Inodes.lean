import MiniOs.Proofs.Ownership

/-!
# The inode table, the inode bitmap, and truncation

The remaining functions of `Fs/Blocks.lean`. Writing an inode back stores the
caller's copy, and with it the state that `Grown` was about becomes the state on
disk. The inode bitmap is a sector of its own. Truncation is the one place where
blocks are given back: it frees exactly what the inode owned, so nobody else
loses anything and nothing of it stays marked.

`Store.Sound` is the invariant all of them keep, and `Store.Tight` the property
that no block is marked in vain.
-/

namespace MiniOs.Fs

open MiniOs.Lib MiniOs.Spec Function

/-- The stored inode table. -/
def Store.table (st : Store) : Nat → Inode := inodeAt st.disk

/-- The inode bitmap. -/
def Store.ibit (st : Store) : Nat → Bool := bitmapTest (st.disk 1)

/-- One owner per block, and a bitmap cache that agrees with the disk. -/
structure Store.Sound (st : Store) : Prop where
  owned : Owned st.table st.disk st.bit
  coherent : st.Coherent

/-- Every marked block has an owner. -/
def Store.Tight (st : Store) : Prop :=
  Exact DataBlock (owner st.table st.disk) st.bit

theorem Store.volume_eq (st : Store) :
    st.volume = view st.ibit st.table st.disk := rfl

theorem Inode.fits_inodeAt (d : Disk) (n : Nat) : (inodeAt d n).Fits := by
  unfold inodeAt
  split
  · exact Inode.fits_decode _ _
  · exact Inode.fits_zero

variable {d : Disk} {n : Nat} {inode : Inode}

theorem inodeAt_congr {d' : Disk} (h : ∀ c, 6 ≤ c → c < 38 → d' c = d c) :
    inodeAt d' = inodeAt d := by
  funext n
  unfold inodeAt
  split
  · rw [h _ (by omega) (by omega)]
  · rfl

/-! ## Writing an inode -/

/-- The disk after `write_inode`. -/
def Store.putInode (st : Store) (n : Nat) (inode : Inode) : Store :=
  { st with
    disk := update st.disk (6 + n / 8)
      (Inode.encode (st.disk (6 + n / 8)) (n % 8 * 64) inode) }

theorem writeInode_eq (s : FsSt) (hn : n < 256) (inode : Inode) :
    ∃ b, writeInode s n inode =
      ({ s with toStore := s.toStore.putInode n inode, blockBuffer := b }, true) := by
  unfold writeInode
  rw [if_neg (by omega), FsSt.readBlock_of_lt (by omega)]
  dsimp only
  rw [FsSt.writeBlock_of_lt (by omega)]
  exact ⟨_, rfl⟩

section PutInode

variable {st : Store} {n : Nat} {inode : Inode}

theorem Store.disk_putInode (hn : n < 256) {c : Nat} (hc : c < 6 ∨ 38 ≤ c) :
    (st.putInode n inode).disk c = st.disk c := by
  unfold Store.putInode
  dsimp only
  rw [update_of_ne (by omega)]

theorem Store.table_putInode (hn : n < 256) (hf : inode.Fits) :
    (st.putInode n inode).table = update st.table n inode := by
  funext m
  unfold Store.table inodeAt Store.putInode
  dsimp only
  by_cases hm : m = n
  · subst hm
    rw [update_self, update_self, if_pos hn, Inode.decode_encode hf]
  · rw [update_of_ne hm]
    split
    · by_cases hsec : m / 8 = n / 8
      · rw [hsec, update_self, Inode.decode_encode_ne (by omega)]
      · rw [update_of_ne (by omega)]
    · rfl

theorem Store.bit_putInode : (st.putInode n inode).bit = st.bit := rfl

theorem Store.ibit_putInode (hn : n < 256) : (st.putInode n inode).ibit = st.ibit := by
  unfold Store.ibit
  rw [Store.disk_putInode hn (by omega)]

theorem Store.Coherent.putInode (h : st.Coherent) (hn : n < 256) :
    (st.putInode n inode).Coherent := by
  intro k hk
  rw [Store.disk_putInode hn (by omega)]
  exact h k hk

variable (hn : n < 256) (hf : inode.Fits) (h : Owned (update st.table n inode) st.disk st.bit)
include hn hf h

/-- Storing a copy: the state seen through the copy is the state on disk. -/
theorem Store.volume_putInode :
    (st.putInode n inode).volume =
      view st.ibit (update st.table n inode) st.disk := by
  rw [Store.volume_eq, Store.table_putInode hn hf, Store.ibit_putInode hn]
  refine h.view_congr (fun b hb _ => ?_) _
  exact Store.disk_putInode hn (Or.inr hb.1)

theorem Store.owner_putInode :
    owner (st.putInode n inode).table (st.putInode n inode).disk =
      owner (update st.table n inode) st.disk := by
  rw [Store.table_putInode hn hf]
  refine h.owner_congr fun b hb _ => ?_
  exact Store.disk_putInode hn (Or.inr hb.1)

theorem Store.sound_putInode (hc : st.Coherent) : (st.putInode n inode).Sound := by
  refine ⟨?_, hc.putInode hn⟩
  unfold Owned
  rw [Store.owner_putInode hn hf h]
  exact h

theorem Store.tight_putInode
    (he : Exact DataBlock (owner (update st.table n inode) st.disk) st.bit) :
    (st.putInode n inode).Tight := by
  unfold Store.Tight
  rw [Store.owner_putInode hn hf h]
  exact he

end PutInode

/-! ## The inode bitmap -/

/-- The disk after the bit of an inode number was changed. -/
def Store.setIbit (st : Store) (n : Nat) (v : Bool) : Store :=
  { st with disk := update st.disk 1 (bitmapSet (st.disk 1) n v) }

theorem allocInode_cases (s : FsSt) :
    (∃ b, allocInode s = (s.withBuffer b, none) ∧
      ∀ n, 1 ≤ n → n < 256 → s.ibit n = true) ∨
    ∃ b n, 1 ≤ n ∧ n < 256 ∧ s.ibit n = false ∧ (∀ m, 1 ≤ m → m < n → s.ibit m = true) ∧
      allocInode s =
        ({ s with toStore := s.toStore.setIbit n true, blockBuffer := b }, some n) := by
  unfold allocInode
  rw [FsSt.readBlock_of_lt (by omega)]
  dsimp only
  split
  · next h =>
    refine Or.inl ⟨s.disk 1, rfl, fun n h1 h2 => ?_⟩
    rw [List.find?_eq_none] at h
    have hset := h n (List.mem_range'_1.mpr (by omega))
    unfold Store.ibit
    simpa using hset
  · next n h =>
    obtain ⟨hfree, hmem, hleast⟩ := List.find?_range'_eq_some.mp h
    have hbound := List.mem_range'_1.mp hmem
    rw [FsSt.writeBlock_of_lt (by omega)]
    refine Or.inr ⟨_, n, by omega, by omega, ?_, fun m hm hlt => ?_, rfl⟩
    · unfold Store.ibit
      simpa using hfree
    · unfold Store.ibit
      simpa using hleast m hm hlt

theorem freeInodeNumber_eq (s : FsSt) (h1 : 1 ≤ n) (h2 : n < 256) :
    ∃ b, freeInodeNumber s n =
      { s with toStore := s.toStore.setIbit n false, blockBuffer := b } := by
  unfold freeInodeNumber
  rw [if_neg (by omega), FsSt.readBlock_of_lt (by omega)]
  dsimp only
  rw [FsSt.writeBlock_of_lt (by omega)]
  exact ⟨_, rfl⟩

section SetIbit

variable {st : Store} {n : Nat} {v : Bool}

theorem Store.disk_setIbit {c : Nat} (hc : c ≠ 1) :
    (st.setIbit n v).disk c = st.disk c := update_of_ne hc ..

theorem Store.table_setIbit : (st.setIbit n v).table = st.table :=
  inodeAt_congr fun _ _ _ => Store.disk_setIbit (by omega)

theorem Store.bit_setIbit : (st.setIbit n v).bit = st.bit := rfl

theorem Store.ibit_setIbit : (st.setIbit n v).ibit = update st.ibit n v := by
  funext m
  unfold Store.ibit Store.setIbit bitmapTest bitmapSet
  dsimp only
  rw [update_self, Region.testBit_setBit]
  by_cases hm : m = n
  · rw [if_pos hm, hm, update_self]
  · rw [if_neg hm, update_of_ne hm]

theorem Store.owner_setIbit (h : st.Sound) :
    owner (st.setIbit n v).table (st.setIbit n v).disk = owner st.table st.disk := by
  rw [Store.table_setIbit]
  refine h.owned.owner_congr fun b hb _ => ?_
  unfold DataBlock at hb
  exact Store.disk_setIbit (by omega)

theorem Store.Sound.setIbit (h : st.Sound) (n : Nat) (v : Bool) :
    (st.setIbit n v).Sound := by
  refine ⟨?_, fun k hk => ?_⟩
  · unfold Owned
    rw [Store.owner_setIbit h]
    exact h.owned
  · rw [Store.disk_setIbit (by omega)]
    exact h.coherent k hk

theorem Store.Tight.setIbit (ht : st.Tight) (h : st.Sound) (n : Nat) (v : Bool) :
    (st.setIbit n v).Tight := by
  unfold Store.Tight
  rw [Store.owner_setIbit h]
  exact ht

theorem Store.volume_setIbit (h : st.Sound) (n : Nat) (v : Bool) :
    (st.setIbit n v).volume = st.volume.setIbit n v := by
  have hagree : ∀ b, DataBlock b → st.bit b = true →
      (st.setIbit n v).disk b = st.disk b :=
    fun b hb _ => Store.disk_setIbit (by unfold DataBlock at hb; omega)
  rw [Store.volume_eq, Store.table_setIbit, h.owned.view_congr hagree, Store.ibit_setIbit]
  rfl

end SetIbit

/-! ## Writing a logical block -/

section WriteLeaf

variable {tbl : Nat → Inode} {d : Disk} {bit : Nat → Bool} {n i b : Nat}

variable (h : Owned tbl d bit) (hl : leaf d (tbl n) i = b) (hb : b ≠ 0)
include h hl hb

theorem slotPtr_update_leaf (r : Region) (m : Nat) (slot : Slot) :
    slotPtr (update d b r) (tbl m) slot = slotPtr d (tbl m) slot := by
  cases slot with
  | direct j => rfl
  | indirect => rfl
  | entry j =>
    unfold slotPtr
    rw [update_of_ne]
    exact fun heq => @Owned.leaf_ne_indirect _ _ _ n h m i (hl ▸ hb) (hl.trans heq.symm)

theorem owner_update_leaf (r : Region) : owner tbl (update d b r) = owner tbl d := by
  funext k
  unfold owner
  rw [slotPtr_update_leaf h hl hb]

theorem leaf_update_leaf (r : Region) (m j : Nat) :
    leaf (update d b r) (tbl m) j = leaf d (tbl m) j := by
  unfold leaf
  split
  · rfl
  · exact slotPtr_update_leaf h hl hb r m _

/-- Writing the sector of a logical block changes that block and no other. -/
theorem view_update_leaf (r : Region) (ibit : Nat → Bool) :
    view ibit tbl (update d b r) = (view ibit tbl d).setBlock n i r := by
  refine Volume.ext' (fun _ => rfl) (fun _ => rfl) fun m j => ?_
  have hreal := h.dataBlock_leaf (hl ▸ hb : leaf d (tbl n) i ≠ 0)
  rw [Volume.setBlock_block]
  unfold view
  dsimp only
  rw [leaf_update_leaf h hl hb]
  by_cases hk : m = n ∧ j = i
  · obtain ⟨rfl, rfl⟩ := hk
    unfold DataBlock at hreal
    rw [if_neg (by omega), if_pos ⟨rfl, rfl⟩, hl, update_self]
  · rw [if_neg hk]
    split
    · rfl
    · next hz =>
      rw [update_of_ne]
      intro heq
      exact hk (h.leaf_inj (by omega) (heq.trans hl.symm))

end WriteLeaf

/-! ## Truncation -/

/-- The disk and the bitmap after `free_data_block` went through a list. -/
def Store.dropAll (st : Store) (blocks : List Nat) : Store := blocks.foldl Store.drop st

theorem freeDataBlock_eq (s : FsSt) (b : Nat) :
    freeDataBlock s b = { s with toStore := s.toStore.drop b } := by
  unfold freeDataBlock
  split
  · next hb =>
    have hnot : ¬ DataBlock b := fun h => by unfold DataBlock at h; omega
    have hdrop : s.toStore.drop b = s.toStore := if_neg hnot
    rw [hdrop]
  · next hb =>
    have hreal : DataBlock b := ⟨by omega, by omega⟩
    dsimp only
    rw [FsSt.writeBlock_of_lt (by omega)]
    unfold Store.drop
    rw [if_pos hreal]
    rfl

theorem freeDataBlocks_eq (s : FsSt) (blocks : List Nat) :
    freeDataBlocks s blocks = { s with toStore := s.toStore.dropAll blocks } := by
  unfold freeDataBlocks Store.dropAll
  induction blocks generalizing s with
  | nil => rfl
  | cons b rest ih => rw [List.foldl_cons, freeDataBlock_eq, ih]; rfl

section DropAll

variable {st : Store} {blocks : List Nat}

theorem Store.bit_dropAll (c : Nat) :
    (st.dropAll blocks).bit c = true ↔
      st.bit c = true ∧ ¬ (c ∈ blocks ∧ DataBlock c) := by
  unfold Store.dropAll
  induction blocks generalizing st with
  | nil => simp
  | cons b rest ih =>
    rw [List.foldl_cons, ih, Store.bit_drop, List.mem_cons]
    by_cases hc : c = b ∧ DataBlock b
    · rw [if_pos hc]
      obtain ⟨rfl, hb⟩ := hc
      simp [hb]
    · rw [if_neg hc]
      refine and_congr_right fun _ => not_congr ⟨fun h => ⟨Or.inr h.1, h.2⟩, ?_⟩
      rintro ⟨rfl | hmem, hreal⟩
      · exact absurd ⟨rfl, hreal⟩ hc
      · exact ⟨hmem, hreal⟩

theorem Store.disk_dropAll {c : Nat} (hc : c < 2 ∨ 6 ≤ c) :
    (st.dropAll blocks).disk c = st.disk c := by
  unfold Store.dropAll
  induction blocks generalizing st with
  | nil => rfl
  | cons b rest ih => rw [List.foldl_cons, ih, Store.disk_drop hc]

theorem Store.Coherent.dropAll (h : st.Coherent) (blocks : List Nat) :
    (st.dropAll blocks).Coherent := by
  induction blocks generalizing st with
  | nil => exact h
  | cons b rest ih => exact ih (h.drop b)

theorem Store.table_dropAll : (st.dropAll blocks).table = st.table :=
  inodeAt_congr fun _ _ _ => Store.disk_dropAll (by omega)

theorem Store.ibit_dropAll : (st.dropAll blocks).ibit = st.ibit := by
  unfold Store.ibit
  rw [Store.disk_dropAll (by omega)]

end DropAll

/-- The inode `truncate_inode` leaves: the same node without blocks and size. -/
def Inode.truncated (inode : Inode) : Inode :=
  { inode with direct := fun _ => 0, indirect := 0, size := 0 }

/-- The block numbers `truncate_inode` frees, in its order. -/
def heldBlocks (d : Disk) (inode : Inode) : List Nat :=
  (List.finRange 10).map inode.direct ++
    if inode.indirect ≠ 0 then
      (List.range 128).map (tableEntry (d inode.indirect)) ++ [inode.indirect]
    else []

theorem truncateInode_eq (s : FsSt) (hp : inode.indirect = 0 ∨ DataBlock inode.indirect) :
    ∃ b, truncateInode s inode =
      ({ s with toStore := s.toStore.dropAll (heldBlocks s.disk inode)
                indirectBuffer := b }, inode.truncated) := by
  unfold truncateInode heldBlocks
  rw [freeDataBlocks_eq]
  dsimp only
  split
  · next hz =>
    have hreal := hp.resolve_left hz
    unfold DataBlock at hreal
    rw [FsSt.readIndirect_of_lt (by omega)]
    dsimp only
    rw [freeDataBlocks_eq, freeDataBlock_eq, Store.disk_dropAll (by omega)]
    unfold Store.dropAll
    rw [List.foldl_append, List.foldl_append]
    exact ⟨_, rfl⟩
  · rw [List.append_nil]
    exact ⟨s.indirectBuffer, rfl⟩

/-- What is freed is what the slots of the inode hold. -/
theorem mem_heldBlocks {b : Nat} (hb : b ≠ 0) (hp : inode.indirect = 0 ∨ DataBlock inode.indirect) :
    b ∈ heldBlocks d inode ↔ ∃ slot, slotPtr d inode slot = b := by
  unfold heldBlocks
  rw [List.mem_append, List.mem_map]
  constructor
  · rintro (⟨i, -, hi⟩ | htable)
    · exact ⟨.direct i, hi⟩
    · split at htable
      · next hz =>
        have hreal := hp.resolve_left hz
        unfold DataBlock at hreal
        rw [List.mem_append, List.mem_map, List.mem_singleton] at htable
        rcases htable with ⟨j, hj, hval⟩ | hval
        · rw [List.mem_range] at hj
          refine ⟨.entry ⟨j, hj⟩, ?_⟩
          unfold slotPtr
          dsimp only
          rw [if_neg (by omega)]
          exact hval
        · exact ⟨.indirect, hval.symm⟩
      · cases htable
  · rintro ⟨slot, hs⟩
    cases slot with
    | direct i => exact Or.inl ⟨i, List.mem_finRange i, hs⟩
    | indirect =>
      have hz : inode.indirect ≠ 0 := fun hz => hb (hs ▸ hz)
      rw [if_pos hz]
      exact Or.inr (List.mem_append_right _ (List.mem_singleton.mpr hs.symm))
    | entry j =>
      unfold slotPtr at hs
      dsimp only at hs
      split at hs
      · exact absurd hs.symm hb
      · next hz =>
        rw [if_pos (by omega), List.mem_append, List.mem_map]
        exact Or.inr (Or.inl ⟨j, List.mem_range.mpr j.isLt, hs⟩)

theorem slotPtr_truncated (d : Disk) (inode : Inode) (slot : Slot) :
    slotPtr d inode.truncated slot = 0 := by
  cases slot with
  | direct i => rfl
  | indirect => rfl
  | entry j =>
    unfold slotPtr Inode.truncated
    exact if_pos (Or.inl rfl)

/-- An inode that holds no block. -/
def Inode.Bare (inode : Inode) : Prop := ∀ d slot, slotPtr d inode slot = 0

theorem Inode.bare_truncated (inode : Inode) : inode.truncated.Bare :=
  fun d slot => slotPtr_truncated d inode slot

theorem Inode.bare_zero : Inode.zero.Bare := Inode.bare_truncated Inode.zero

theorem leaf_bare (h : inode.Bare) (d : Disk) (i : Nat) :
    leaf d inode i = 0 := by
  unfold leaf
  split
  · rfl
  · exact h d _

/-- Replacing an inode by a bare one unmaps its blocks. -/
theorem view_update_bare {tbl : Nat → Inode} (h : inode.Bare) (n : Nat) (ibit : Nat → Bool) :
    view ibit (update tbl n inode) d =
      ((view ibit tbl d).clear n).setNode n inode.node := by
  refine Volume.ext' (fun _ => rfl) (fun m => ?_) fun m j => ?_
  · unfold view
    dsimp only
    rw [Volume.setNode_node, Volume.clear_node]
    by_cases hm : m = n
    · subst hm
      rw [update_self, update_self]
    · rw [update_of_ne hm, update_of_ne hm]
  · rw [Volume.setNode_block, Volume.clear_block]
    unfold view
    dsimp only
    by_cases hm : m = n
    · subst hm
      rw [update_self, leaf_bare h, if_pos (Or.inl rfl), if_pos rfl]
    · rw [update_of_ne hm, if_neg hm]

theorem owner_update_bare {tbl : Nat → Inode} (h : inode.Bare) (n : Nat) :
    (∀ k, k.1 = n → owner (update tbl n inode) d k = none) ∧
      ∀ k, k.1 ≠ n → owner (update tbl n inode) d k = owner tbl d k := by
  refine ⟨fun k hk => ?_, fun k hk => ?_⟩
  · unfold owner
    rw [hk, update_self, h, if_pos rfl]
  · unfold owner
    rw [update_of_ne hk]

/-- Overwriting an inode with a bare one forgets what it held. -/
theorem Owned.update_bare {tbl : Nat → Inode} {bit : Nat → Bool} (h : Owned tbl d bit)
    (hbare : inode.Bare) :
    Owned (update tbl n inode) d bit := by
  obtain ⟨hgone, hkeep⟩ := @owner_update_bare d inode tbl hbare n
  refine h.forget fun k b hk => ?_
  by_cases hn : k.1 = n
  · rw [hgone k hn] at hk
    cases hk
  · rwa [hkeep k hn] at hk

section Free

variable {tbl : Nat → Inode} {st : Store} {inode : Inode} {n : Nat}

private theorem bit_freed (h : Owned tbl st.disk st.bit) :
    ∀ b, DataBlock b →
      ((st.dropAll (heldBlocks st.disk (tbl n))).bit b = true ↔
        st.bit b = true ∧ ∀ k : Nat × Slot, k.1 = n → owner tbl st.disk k ≠ some b) := by
  intro b hb
  have hp : (tbl n).indirect = 0 ∨ DataBlock (tbl n).indirect := by
    by_cases hz : (tbl n).indirect = 0
    · exact Or.inl hz
    · exact Or.inr (h.dataBlock_indirect hz)
  rw [Store.bit_dropAll, mem_heldBlocks hb.ne_zero hp]
  refine and_congr_right fun _ => ⟨?_, ?_⟩
  · rintro hnot ⟨m, slot⟩ rfl hown
    exact hnot ⟨⟨slot, (owner_eq_some.mp hown).1⟩, hb⟩
  · rintro hnone ⟨⟨slot, hslot⟩, -⟩
    exact hnone (n, slot) rfl (owner_eq_some.mpr ⟨hslot, hb.ne_zero⟩)

private theorem disk_freed (tbl : Nat → Inode) (n : Nat) (bit : Nat → Bool) :
    ∀ b, DataBlock b → bit b = true →
      (st.dropAll (heldBlocks st.disk (tbl n))).disk b = st.disk b := by
  intro b hb _
  unfold DataBlock at hb
  exact Store.disk_dropAll (by omega)

/-- After its blocks were freed, an inode replaced by a bare one leaves a sound
ledger, and an exact one where it was exact. -/
theorem Owned.freed (h : Owned tbl st.disk st.bit) (hbare : inode.Bare) :
    Owned (update tbl n inode)
      (st.dropAll (heldBlocks st.disk (tbl n))).disk
      (st.dropAll (heldBlocks st.disk (tbl n))).bit := by
  obtain ⟨hgone, hkeep⟩ := @owner_update_bare st.disk inode tbl hbare n
  unfold Owned
  rw [(h.update_bare hbare).owner_congr (disk_freed tbl n st.bit)]
  exact h.release hgone hkeep (bit_freed h)

theorem Owned.exact_freed (h : Owned tbl st.disk st.bit) (hbare : inode.Bare)
    (he : Exact DataBlock (owner tbl st.disk) st.bit) :
    Exact DataBlock
      (owner (update tbl n inode)
        (st.dropAll (heldBlocks st.disk (tbl n))).disk)
      (st.dropAll (heldBlocks st.disk (tbl n))).bit := by
  obtain ⟨hgone, hkeep⟩ := @owner_update_bare st.disk inode tbl hbare n
  rw [(h.update_bare hbare).owner_congr (disk_freed tbl n st.bit)]
  exact he.release hkeep (bit_freed h)

end Free

end MiniOs.Fs
