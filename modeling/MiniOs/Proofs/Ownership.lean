import Mathlib.Order.Interval.Finset.Nat
import MiniOs.Proofs.View

/-!
# The allocators and the block map keep one owner per block

One lemma per function of `Fs/Blocks.lean`, saying what it does to the volume
and to the ledger of block owners.

The readers come first and are easy: they change nothing but `block_buffer`.
`FsSt.withBuffer` is the state with another buffer, and a reader's lemma says
that its state is of that form and what its answer is.

`allocDataBlock` takes the lowest free block, marks it in the cached bitmap and
on disk, and zeroes it. Nothing that was in use is touched, so by
`Owned.view_congr` the volume does not change. The block is linked afterwards,
and the three linking lemmas of `View.lean` do the rest.

`Grown` collects what holds after `ensureInodeBlock`. It speaks about the table
with the caller's copy in it, since the copy is not stored yet. The two fields
`refused` and `leaked` are about the failure path: they say when the answer is
no, and that the copy comes back changed only when the last free block went
into an indirect table for which there was then no entry.
-/

namespace MiniOs.Fs

open MiniOs.Lib MiniOs.Spec Function

/-! ## Readers -/

/-- The state with another sector in `block_buffer`. -/
def FsSt.withBuffer (s : FsSt) (b : Region) : FsSt := { s with blockBuffer := b }

section WithBuffer

variable (s : FsSt) (b b' : Region)

@[simp] theorem FsSt.withBuffer_toStore : (s.withBuffer b).toStore = s.toStore := rfl
@[simp] theorem FsSt.withBuffer_toFdTables :
    (s.withBuffer b).toFdTables = s.toFdTables := rfl
@[simp] theorem FsSt.withBuffer_blockBuffer : (s.withBuffer b).blockBuffer = b := rfl
@[simp] theorem FsSt.withBuffer_withBuffer :
    (s.withBuffer b).withBuffer b' = s.withBuffer b' := rfl
end WithBuffer

theorem readBlock_eq {s : FsSt} {sector : Nat} (h : sector < 16384) :
    s.readBlock sector = some (s.withBuffer (s.disk sector)) :=
  FsSt.readBlock_of_lt h

theorem readInode_eq (s : FsSt) (n : Nat) :
    ∃ b, readInode s n =
      (s.withBuffer b, if n < 256 then some (inodeAt s.disk n) else none) := by
  unfold readInode
  split
  · next h => exact ⟨s.blockBuffer, by rw [if_neg (by omega)]; rfl⟩
  · next h =>
    rw [readBlock_eq (by omega), if_pos (by omega)]
    refine ⟨s.disk (6 + n / 8), ?_⟩
    unfold inodeAt
    rw [if_pos (by omega)]
    rfl

theorem inodeBlock_eq (s : FsSt) (inode : Inode) (i : Nat) :
    ∃ b, inodeBlock s inode i = (s.withBuffer b, leaf s.disk inode i) := by
  unfold inodeBlock
  split
  · next h =>
    refine ⟨s.blockBuffer, ?_⟩
    rw [leaf_of_slot (leafSlot_direct h)]
    rfl
  next h =>
    split
    · next hz =>
      refine ⟨s.blockBuffer, ?_⟩
      rcases Nat.lt_or_ge i 138 with hi | hi
      · rw [leaf_of_slot (leafSlot_entry (by omega) (by omega))]
        unfold slotPtr
        dsimp only
        rw [if_pos (by omega)]
        rfl
      · unfold leaf
        rw [leafSlot_none hi]
        rfl
    · next hz =>
      rw [leaf_of_slot (leafSlot_entry (by omega) (by omega))]
      unfold slotPtr
      dsimp only
      rcases Nat.lt_or_ge inode.indirect 16384 with hr | hr
      · rw [readBlock_eq hr, if_neg (by omega)]
        exact ⟨_, rfl⟩
      · refine ⟨s.blockBuffer, ?_⟩
        rw [if_pos (Or.inr hr)]
        unfold FsSt.readBlock blockRead
        rw [if_neg (by omega)]
        rfl

/-! ## The free blocks -/

/-- The number of data blocks a bitmap shows as free. -/
def freeCount (bit : Nat → Bool) : Nat :=
  ((Finset.Ico 38 15360).filter fun b => bit b = false).card

/-- The number of data blocks the bitmap on the disk shows as free. -/
def Store.free (st : Store) : Nat := freeCount st.bit

variable {bit : Nat → Bool} {b : Nat} {inode : Inode}

theorem freeCount_eq_zero (h : ∀ b, DataBlock b → bit b = true) :
    freeCount bit = 0 := by
  unfold freeCount
  rw [Finset.card_eq_zero, Finset.filter_eq_empty_iff]
  intro b hb
  rw [h b (Finset.mem_Ico.mp hb)]
  exact Bool.true_eq_false_eq_False

theorem freeCount_update (hb : DataBlock b) (hfree : bit b = false) :
    freeCount (update bit b true) + 1 = freeCount bit := by
  have hmem : b ∈ (Finset.Ico 38 15360).filter fun b => bit b = false := by
    rw [Finset.mem_filter, Finset.mem_Ico]
    exact ⟨hb, hfree⟩
  have herase : ((Finset.Ico 38 15360).filter fun c =>
        update bit b true c = false) =
      ((Finset.Ico 38 15360).filter fun c => bit c = false).erase b := by
    ext c
    rw [Finset.mem_erase, Finset.mem_filter, Finset.mem_filter]
    by_cases hc : c = b
    · subst hc
      simp
    · rw [update_of_ne hc]
      simp [hc]
  unfold freeCount
  rw [herase]
  exact Finset.card_erase_add_one hmem

theorem freeCount_mono {bit' : Nat → Bool} (h : ∀ b, bit b = true → bit' b = true) :
    freeCount bit' ≤ freeCount bit := by
  refine Finset.card_le_card fun b hb => ?_
  rw [Finset.mem_filter] at hb ⊢
  refine ⟨hb.1, Bool.eq_false_iff.mpr fun hset => ?_⟩
  exact Bool.false_ne_true (hb.2.symm.trans (h b hset))

/-- The disk and the bitmap after `alloc_data_block` took block `b`. -/
def Store.take (st : Store) (b : Nat) : Store where
  bitmapBuffer := bitmapSet st.bitmapBuffer b true
  disk := update
    (update st.disk (2 + b / 4096)
      (bitmapSector (bitmapSet st.bitmapBuffer b true) b)) b Region.zero

/-- The disk and the bitmap after `free_data_block` was handed `b`. -/
def Store.drop (st : Store) (b : Nat) : Store :=
  if DataBlock b then
    { bitmapBuffer := bitmapSet st.bitmapBuffer b false
      disk := update st.disk (2 + b / 4096)
        (bitmapSector (bitmapSet st.bitmapBuffer b false) b) }
  else st

theorem allocDataBlock_cases (s : FsSt) :
    (allocDataBlock s = (s, none) ∧ s.free = 0) ∨
    ∃ b, DataBlock b ∧ s.bit b = false ∧
      allocDataBlock s =
        ({ s with toStore := s.toStore.take b, blockBuffer := Region.zero },
          some b) := by
  unfold allocDataBlock
  split
  · next h =>
    refine Or.inl ⟨rfl, freeCount_eq_zero fun b hb => ?_⟩
    rw [List.find?_eq_none] at h
    unfold DataBlock at hb
    have hset := h b (List.mem_range'_1.mpr (by omega))
    unfold Store.bit
    simpa using hset
  · next b h =>
    have hfree := List.find?_some h
    have hmem := List.mem_range'_1.mp (List.mem_of_find?_eq_some h)
    refine Or.inr ⟨b, ⟨by omega, by omega⟩, ?_, ?_⟩
    · unfold Store.bit
      simpa using hfree
    · dsimp only
      rw [FsSt.writeBlock_of_lt (by omega)]
      dsimp only
      rw [FsSt.writeBlock_of_lt (by omega)]
      rfl

section Take

variable {st : Store} {b : Nat}

theorem Store.bit_take (st : Store) (b : Nat) :
    (st.take b).bit = update st.bit b true := by
  funext c
  unfold Store.bit Store.take bitmapTest bitmapSet
  rw [Region.testBit_setBit]
  by_cases hc : c = b
  · rw [if_pos hc, hc, update_self]
  · rw [if_neg hc, update_of_ne hc]

theorem Store.disk_take_self (st : Store) (b : Nat) : (st.take b).disk b = Region.zero :=
  update_self ..

theorem Store.disk_take_of_ne {c : Nat} (hb : DataBlock b) (hc : c ≠ b)
    (hbitmap : c < 2 ∨ 6 ≤ c) : (st.take b).disk c = st.disk c := by
  unfold DataBlock at hb
  unfold Store.take
  dsimp only
  rw [update_of_ne hc, update_of_ne (by omega)]

/-- A free block is in nobody's way: the blocks in use stay as they are. -/
theorem Store.disk_take_used (hb : DataBlock b) (hfree : st.bit b = false) :
    ∀ c, DataBlock c → st.bit c = true → (st.take b).disk c = st.disk c := by
  intro c hc hbit
  refine Store.disk_take_of_ne hb ?_ ?_
  · rintro rfl
    rw [hfree] at hbit
    cases hbit
  · unfold DataBlock at hc
    omega

/-- Writing the sector of the bitmap that holds a changed bit keeps the cache
and the disk the same. -/
private theorem coherent_setBit (hst : st.Coherent) (b : Nat) (v : Bool) :
    Store.Coherent
      { bitmapBuffer := bitmapSet st.bitmapBuffer b v
        disk := update st.disk (2 + b / 4096)
          (bitmapSector (bitmapSet st.bitmapBuffer b v) b) } := by
  intro k hk
  dsimp only
  by_cases hsec : k / 512 = b / 4096
  · rw [hsec, update_self]
    unfold bitmapSector
    rw [show b / 4096 * 512 + k % 512 = k by omega]
  · rw [update_of_ne (by omega), ← hst k hk]
    exact Region.setBit_of_ne (by omega)

theorem Store.Coherent.take (hst : st.Coherent) (hb : DataBlock b) :
    (st.take b).Coherent := by
  intro k hk
  have h := coherent_setBit hst b true k hk
  unfold DataBlock at hb
  unfold Store.take
  dsimp only at h ⊢
  rw [update_of_ne (by omega)]
  exact h

theorem Store.Coherent.drop (hst : st.Coherent) (b : Nat) : (st.drop b).Coherent := by
  unfold Store.drop
  split
  · exact coherent_setBit hst b false
  · exact hst

theorem Store.free_take (hb : DataBlock b) (hfree : st.bit b = false) :
    (st.take b).free + 1 = st.free := by
  unfold Store.free
  rw [Store.bit_take]
  exact freeCount_update hb hfree

theorem Store.bit_drop (st : Store) (b c : Nat) :
    (st.drop b).bit c = if c = b ∧ DataBlock b then false else st.bit c := by
  unfold Store.drop
  split
  · next hb =>
    unfold Store.bit bitmapTest bitmapSet
    rw [Region.testBit_setBit]
    by_cases hc : c = b
    · rw [if_pos hc, if_pos ⟨hc, hb⟩]
    · rw [if_neg hc, if_neg fun h => hc h.1]
  · next hb => rw [if_neg fun h => hb h.2]

theorem Store.disk_drop {c : Nat} (hc : c < 2 ∨ 6 ≤ c) :
    (st.drop b).disk c = st.disk c := by
  unfold Store.drop
  split
  · next hb =>
    unfold DataBlock at hb
    dsimp only
    rw [update_of_ne (by omega)]
  · rfl

end Take

/-! ## Growing an inode -/

/-- How many blocks a logical block still needs. -/
def need (inode : Inode) (i : Nat) : Nat :=
  if 10 ≤ i ∧ inode.indirect = 0 then 2 else 1

/-- The block an inode has besides those of its file. -/
def linked (inode : Inode) : Nat := if inode.indirect = 0 then 0 else 1

/-- The sectors the block map never writes: the superblock, the inode bitmap,
the inode table and what lies behind the file system. -/
def Untouched (sector : Nat) : Prop :=
  sector < 2 ∨ (6 ≤ sector ∧ sector < 38) ∨ 15360 ≤ sector

/-- What `ensureInodeBlock` did for block `i` of inode `n`, whose copy was
`tbl n` and is `inode` now, with answer `r`. -/
structure Grown (tbl : Nat → Inode) (n i : Nat) (s s' : FsSt) (inode : Inode)
    (r : Option Nat) : Prop where
  tables : s'.toFdTables = s.toFdTables
  uart : s'.uart = s.uart
  untouched : ∀ sector, Untouched sector → s'.disk sector = s.disk sector
  coherent : s.Coherent → s'.Coherent
  owned : Owned (update tbl n inode) s'.disk s'.bit
  exact : Exact DataBlock (owner tbl s.disk) s.bit →
    Exact DataBlock (owner (update tbl n inode) s'.disk) s'.bit
  node : inode.node = (tbl n).node
  fits : (tbl n).Fits → inode.Fits
  view : ∀ ibit, Fs.view ibit (update tbl n inode) s'.disk =
    if r.isSome then (Fs.view ibit tbl s.disk).ensureBlock n i
    else Fs.view ibit tbl s.disk
  mapped : ∀ b, r = some b → leaf s'.disk inode i = b ∧ DataBlock b
  /-- A refusal leaves every block in use alone, so the copy can be dropped. -/
  agree : r = none → ∀ b, DataBlock b → s.bit b = true → s'.disk b = s.disk b
  marked : ∀ b, s.bit b = true → s'.bit b = true
  refused : r = none →
    138 ≤ i ∨ (leaf s.disk (tbl n) i = 0 ∧ s.free < need (tbl n) i)
  granted : r ≠ none → leaf s.disk (tbl n) i = 0 → need (tbl n) i ≤ s.free
  /-- What is no longer free has gone into the file or is its table. -/
  balance : s'.free + linked inode + (if r ≠ none ∧ leaf s.disk (tbl n) i = 0 then 1 else 0) =
    s.free + linked (tbl n)
  kept : (tbl n).indirect ≠ 0 → inode.indirect ≠ 0
  low : i < 10 → inode.indirect = (tbl n).indirect
  leaked : r = none →
    inode = tbl n ∧ s'.toStore = s.toStore ∧ (138 ≤ i ∨ s.free = 0) ∨
    10 ≤ i ∧ i < 138 ∧ (tbl n).indirect = 0 ∧ s.free = 1 ∧
      ∃ b, DataBlock b ∧ s.bit b = false ∧ s'.bit b = true

/-- A refusal inside the block map leaves nothing free: where two blocks were
needed and one was left, that one went to the table of indirect blocks. -/
theorem Grown.exhausted {tbl : Nat → Inode} {n i : Nat} {s s' : FsSt}
    (h : Grown tbl n i s s' inode none) (hi : i < 138) : s'.free = 0 := by
  rcases h.leaked rfl with ⟨-, hstore, hor⟩ | ⟨-, -, -, hone, b, hb, hfree, hused⟩
  · rw [hstore]
    exact hor.resolve_left (by omega)
  have hrest := freeCount_update hb hfree
  have hle : s'.free ≤ freeCount (update s.bit b true) := by
    refine freeCount_mono fun c hc => ?_
    by_cases hcb : c = b
    · rw [hcb]
      exact hused
    · rw [update_of_ne hcb] at hc
      exact h.marked c hc
  unfold Store.free at hone hle ⊢
  omega

theorem DataBlock.lt (hb : DataBlock b) : b < 2 ^ 32 := by
  unfold DataBlock at hb
  omega

theorem DataBlock.ne_zero (hb : DataBlock b) : b ≠ 0 := by
  unfold DataBlock at hb
  omega

theorem Inode.Fits.setDirect (h : inode.Fits) (i : Fin 10) (hb : DataBlock b) :
    (inode.setDirect i b).Fits := by
  refine ⟨h.mode, h.size, h.parent, h.links, fun j => ?_, h.indirect, h.reserved⟩
  unfold Inode.setDirect
  dsimp only
  by_cases hj : j = i
  · rw [hj, update_self]
    exact hb.lt
  · rw [update_of_ne hj]
    exact h.direct j

theorem Inode.Fits.setIndirect (h : inode.Fits) (hb : DataBlock b) : (inode.setIndirect b).Fits :=
  ⟨h.mode, h.size, h.parent, h.links, h.direct, hb.lt, h.reserved⟩

section Grow

variable {tbl : Nat → Inode} {n i : Nat} {s : FsSt}

/-- Nothing to do: the block is there, or cannot be. -/
theorem Grown.refl (h : Owned tbl s.disk s.bit) {s' : FsSt}
    (hstore : s'.toStore = s.toStore) (htables : s'.toFdTables = s.toFdTables)
    (huart : s'.uart = s.uart) {r : Option Nat}
    (hmapped : ∀ b, r = some b → leaf s.disk (tbl n) i = b ∧ b ≠ 0)
    (hrefused : r = none → 138 ≤ i ∨ (leaf s.disk (tbl n) i = 0 ∧ s.free = 0)) :
    Grown tbl n i s s' (tbl n) r where
  tables := htables
  uart := huart
  untouched _ _ := by rw [hstore]
  coherent hc := by rw [hstore]; exact hc
  owned := by rw [hstore, update_eq_self]; exact h
  exact he := by rw [hstore, update_eq_self]; exact he
  node := rfl
  fits hf := hf
  view ibit := by
    rw [hstore, update_eq_self]
    cases r with
    | none => rfl
    | some b =>
      obtain ⟨hl, hb⟩ := hmapped b rfl
      have hsome : (Fs.view ibit tbl s.disk).block n i ≠ none := by
        rw [h.view_block, hl, if_neg hb]
        exact Option.some_ne_none _
      unfold Volume.ensureBlock
      rw [if_neg hsome]
      rfl
  mapped b hr := by
    obtain ⟨hl, hb⟩ := hmapped b hr
    rw [hstore]
    exact ⟨hl, hl ▸ h.dataBlock_leaf (hl ▸ hb)⟩
  agree _ _ _ _ := by rw [hstore]
  marked _ hb := by rw [hstore]; exact hb
  granted hr hz := by
    obtain ⟨b, hb⟩ := Option.ne_none_iff_exists'.mp hr
    obtain ⟨hl, hne⟩ := hmapped b hb
    exact absurd (hl.symm.trans hz) hne
  balance := by
    rw [hstore, if_neg]
    · rfl
    · rintro ⟨hr, hz⟩
      obtain ⟨b, hb⟩ := Option.ne_none_iff_exists'.mp hr
      obtain ⟨hl, hne⟩ := hmapped b hb
      exact hne (hl.symm.trans hz)
  kept := id
  low _ := rfl
  refused hr := by
    have hpos : 1 ≤ need (tbl n) i := by
      unfold need
      split <;> omega
    rcases hrefused hr with hbig | ⟨hz, hfree⟩
    · exact Or.inl hbig
    · exact Or.inr ⟨hz, by omega⟩
  leaked hr := Or.inl ⟨rfl, hstore, (hrefused hr).imp id And.right⟩

/-- The state after `allocDataBlock` took `b`. -/
def FsSt.take (s : FsSt) (b : Nat) : FsSt :=
  { s with toStore := s.toStore.take b, blockBuffer := Region.zero }

variable {b : Nat}

theorem untouched_take (hb : DataBlock b) {sector : Nat} (h : Untouched sector) :
    (s.take b).disk sector = s.disk sector := by
  unfold Untouched at h
  refine Store.disk_take_of_ne hb ?_ (by omega)
  unfold DataBlock at hb
  omega

theorem marked_take {c : Nat} (h : s.bit c = true) : (s.take b).bit c = true := by
  show (s.toStore.take b).bit c = true
  rw [Store.bit_take]
  by_cases hc : c = b
  · rw [hc, update_self]
  · rw [update_of_ne hc, h]

/-- The table entry case. The table is there already, so the copy of the inode
does not change. -/
theorem ensureTableEntry_grown (h : Owned tbl s.disk s.bit)
    (hp : (tbl n).indirect ≠ 0) (hi : 10 ≤ i) (hslot : i - 10 < 128) :
    (ensureTableEntry s (tbl n) (i - 10)).2.1 = tbl n ∧
    Grown tbl n i s (ensureTableEntry s (tbl n) (i - 10)).1 (tbl n)
      (ensureTableEntry s (tbl n) (i - 10)).2.2 := by
  have hreal := h.dataBlock_indirect hp
  have hrange : (tbl n).indirect < 16384 := by unfold DataBlock at hreal; omega
  have hleaf : leaf s.disk (tbl n) i = tableEntry (s.disk (tbl n).indirect) (i - 10) := by
    rw [leaf_of_slot (leafSlot_entry hi hslot)]
    unfold slotPtr
    dsimp only
    rw [if_neg (by omega)]
  have hneed : need (tbl n) i = 1 := by
    unfold need
    rw [if_neg fun hn => hp hn.2]
  unfold ensureTableEntry
  rw [FsSt.readIndirect_of_lt hrange]
  dsimp only
  split
  · next hz =>
    rcases allocDataBlock_cases { s with indirectBuffer := s.disk (tbl n).indirect } with
      ⟨heq, hfree⟩ | ⟨b, hb, hbit, heq⟩
    · rw [heq]
      dsimp only
      refine ⟨rfl, Grown.refl h ?_ ?_ ?_ ?_ ?_⟩
      · rfl
      · rfl
      · rfl
      · exact fun _ hr => absurd hr (by simp)
      · exact fun _ => Or.inr ⟨by rw [hleaf]; exact hz, hfree⟩
    · rw [heq]
      dsimp only
      rw [FsSt.writeBlock_of_lt hrange]
      have hused : ∀ c, DataBlock c → s.bit c = true →
          (s.toStore.take b).disk c = s.disk c := Store.disk_take_used hb hbit
      have hown : Owned tbl (s.toStore.take b).disk (s.toStore.take b).bit :=
        h.of_agree hused fun c hc => marked_take (s := s) hc
      have hfreeOwn : ∀ k, owner tbl (s.toStore.take b).disk k ≠ some b := by
        rw [h.owner_congr hused]
        exact fun k => h.not_own hbit
      -- the table in `indirect_buffer` is the one on disk: the allocation
      -- took a free block, and the table's block is in use
      have htable : (s.toStore.take b).disk (tbl n).indirect =
          s.disk (tbl n).indirect :=
        hused _ hreal (h.marked (owner_indirect hp))
      have hdisk : update (s.toStore.take b).disk (tbl n).indirect
          ((s.disk (tbl n).indirect).putWord (4 * (i - 10)) b) =
          putEntry (s.toStore.take b).disk (tbl n) (i - 10) b := by
        unfold putEntry
        rw [htable]
      have howner : owner tbl (putEntry (s.toStore.take b).disk (tbl n) (i - 10) b) =
          update (owner tbl s.disk) (n, .entry ⟨i - 10, hslot⟩) (some b) := by
        rw [owner_link_entry hown hb hp ⟨i - 10, hslot⟩, h.owner_congr hused]
      have hempty : owner tbl s.disk (n, .entry ⟨i - 10, hslot⟩) = none := by
        rw [owner_eq_none, ← leaf_of_slot (leafSlot_entry hi hslot), hleaf]
        exact hz
      have hmark : (s.toStore.take b).bit = update s.bit b true :=
        Store.bit_take _ _
      refine ⟨rfl, ?_⟩
      constructor
      case tables => rfl
      case uart => rfl
      case untouched =>
        intro sector hs
        show update _ _ _ sector = _
        rw [update_of_ne]
        · exact untouched_take (s := s) hb hs
        · unfold Untouched at hs
          unfold DataBlock at hreal
          omega
      case coherent =>
        intro hc k hk
        show (s.toStore.take b).bitmapBuffer k =
          (update _ _ _ : Disk) (2 + k / 512) (k % 512)
        rw [update_of_ne]
        · exact hc.take hb k hk
        · unfold DataBlock at hreal
          omega
      case owned =>
        rw [update_eq_self]
        show Owned tbl (update _ _ _) _
        rw [hdisk]
        exact Ledger.acquire h hb hbit howner hmark
      case exact =>
        intro he
        rw [update_eq_self]
        show Exact DataBlock (owner tbl (update _ _ _)) _
        rw [hdisk]
        exact Exact.acquire he hempty howner hmark
      case node => rfl
      case fits => exact fun hf => hf
      case view =>
        intro ibit
        rw [update_eq_self]
        show Fs.view ibit tbl (update _ _ _) = _
        rw [hdisk]
        have hview := view_link_entry hown hb hp hfreeOwn ⟨i - 10, hslot⟩ ibit
        rw [h.view_congr hused, Store.disk_take_self,
          show 10 + (⟨i - 10, hslot⟩ : Fin 128).val = i by simp; omega] at hview
        rw [hview]
        unfold Volume.ensureBlock
        rw [h.view_block, hleaf, if_pos hz, if_pos rfl]
        rfl
      case mapped =>
        intro c hc
        have hcb : c = b := by
          rw [← Option.some.inj hc]
          unfold tableEntry
          rw [Region.word_putWord, Nat.mod_eq_of_lt hb.lt]
        rw [hcb]
        show leaf (update _ _ _) (tbl n) i = _ ∧ _
        rw [hdisk, leaf_putEntry hown hb hp ⟨i - 10, hslot⟩ n i,
          if_pos ⟨rfl, by simp; omega⟩]
        exact ⟨rfl, hb⟩
      case agree => exact fun hr => absurd hr (by simp)
      case marked => exact fun c hc => marked_take (s := s) hc
      case refused => exact fun hr => absurd hr (by simp)
      case granted =>
        intro _ _
        have := Store.free_take hb hbit
        dsimp only at this
        omega
      case balance =>
        have hfree : (s.toStore.take b).free + 1 = s.free := Store.free_take hb hbit
        have hz' : leaf s.disk (tbl n) i = 0 := by rw [hleaf]; exact hz
        rw [if_pos ⟨Option.some_ne_none _, hz'⟩]
        show (s.toStore.take b).free + _ + 1 = _
        omega
      case kept => exact id
      case low => exact fun hlt => absurd hlt (by omega)
      case leaked => exact fun hr => absurd hr (by simp)
  · next hz =>
    refine ⟨rfl, Grown.refl h ?_ ?_ ?_ ?_ ?_⟩
    · rfl
    · rfl
    · rfl
    · intro b hr
      rw [← Option.some.inj hr]
      exact ⟨hleaf, hz⟩
    · exact fun hr => absurd hr (by simp)

/-- The direct case, once a block was found. -/
theorem Grown.direct (h : Owned tbl s.disk s.bit) {i : Fin 10} (hz : (tbl n).direct i = 0)
    (hb : DataBlock b) (hbit : s.bit b = false) :
    Grown tbl n i s (s.take b) ((tbl n).setDirect i b) (some b) := by
  have hused : ∀ c, DataBlock c → s.bit c = true →
      (s.toStore.take b).disk c = s.disk c := Store.disk_take_used hb hbit
  have hleaf : leaf s.disk (tbl n) i = 0 := by
    rw [leaf_of_slot (leafSlot_direct i.isLt)]
    exact hz
  have howner : owner (update tbl n ((tbl n).setDirect i b))
      (s.toStore.take b).disk =
      update (owner tbl s.disk) (n, .direct i) (some b) := by
    rw [owner_link_direct hb, h.owner_congr hused]
  have hempty : owner tbl s.disk (n, .direct i) = none := owner_eq_none.mpr hz
  have hmark : (s.toStore.take b).bit = update s.bit b true :=
    Store.bit_take _ _
  constructor
  case tables => rfl
  case uart => rfl
  case untouched => exact fun _ hs => untouched_take hb hs
  case coherent => exact fun hc => hc.take hb
  case owned => exact Ledger.acquire h hb hbit howner hmark
  case exact => exact fun he => Exact.acquire he hempty howner hmark
  case node => rfl
  case fits => exact fun hf => hf.setDirect i hb
  case view =>
    intro ibit
    have hview := @view_link_direct tbl (s.toStore.take b).disk n b hb i ibit
    rw [h.view_congr hused, Store.disk_take_self] at hview
    unfold Volume.ensureBlock
    rw [h.view_block, hleaf, if_pos rfl, if_pos rfl]
    exact hview
  case mapped =>
    intro c hc
    cases hc
    rw [leaf_setDirect, if_pos rfl]
    exact ⟨rfl, hb⟩
  case agree => exact fun hr => absurd hr (by simp)
  case marked => exact fun c hc => marked_take hc
  case refused => exact fun hr => absurd hr (by simp)
  case granted =>
    intro _ _
    have := Store.free_take hb hbit
    unfold need
    rw [if_neg (by omega)]
    omega
  case balance =>
    have hfree : (s.take b).free + 1 = s.free := Store.free_take hb hbit
    rw [if_pos ⟨Option.some_ne_none _, hleaf⟩]
    show (s.take b).free + linked (tbl n) + 1 = _
    omega
  case kept => exact id
  case low => exact fun _ => rfl
  case leaked => exact fun hr => absurd hr (by simp)

/-- A fresh indirect table, then whatever came of the entry. -/
theorem Grown.indirect (h : Owned tbl s.disk s.bit) (hz : (tbl n).indirect = 0) (hi : 10 ≤ i)
    (hi' : i < 138) (hb : DataBlock b) (hbit : s.bit b = false) {s' : FsSt}
    {r : Option Nat} (hrest : Owned (update tbl n ((tbl n).setIndirect b))
        (s.take b).disk (s.take b).bit →
      inode = (tbl n).setIndirect b ∧
      Grown (update tbl n ((tbl n).setIndirect b)) n i (s.take b) s'
        inode r) :
    Grown tbl n i s s' inode r := by
  have hused : ∀ c, DataBlock c → s.bit c = true →
      (s.toStore.take b).disk c = s.disk c := Store.disk_take_used hb hbit
  have hzero : (s.take b).disk b = Region.zero := Store.disk_take_self _ _
  have howner : owner (update tbl n ((tbl n).setIndirect b))
      (s.take b).disk =
      update (owner tbl s.disk) (n, .indirect) (some b) := by
    rw [owner_link_indirect hb hzero hz]
    congr 1
    exact h.owner_congr hused
  have hempty : owner tbl s.disk (n, .indirect) = none := owner_eq_none.mpr hz
  have hmark : (s.take b).bit = update s.bit b true := Store.bit_take _ _
  have hview : ∀ ibit, Fs.view ibit (update tbl n ((tbl n).setIndirect b))
      (s.take b).disk = Fs.view ibit tbl s.disk := by
    intro ibit
    rw [view_link_indirect hb hzero hz]
    exact h.view_congr hused ibit
  have hfree : (s.take b).free + 1 = s.free := Store.free_take hb hbit
  obtain ⟨hinode, hg⟩ := hrest (Ledger.acquire h hb hbit howner hmark)
  have hself : update tbl n ((tbl n).setIndirect b) n =
      (tbl n).setIndirect b := update_self ..
  have hown : Owned (update tbl n ((tbl n).setIndirect b)) (s.take b).disk
      (s.take b).bit := Ledger.acquire h hb hbit howner hmark
  have hleaf : leaf s.disk (tbl n) i = 0 := by
    rw [leaf_of_slot (leafSlot_entry hi (by omega))]
    unfold slotPtr
    dsimp only
    rw [if_pos (Or.inl hz)]
  have hleaf' : leaf (s.take b).disk ((tbl n).setIndirect b) i = 0 := by
    have hblock := congrFun (congrFun (congrArg Volume.block (hview fun _ => true)) n) i
    rw [hown.view_block, h.view_block, hleaf, if_pos rfl, hself] at hblock
    by_contra hne
    rw [if_neg hne] at hblock
    cases hblock
  -- the copy already has its table here, so one more block is enough
  have hspace : r = none → (s.take b).free = 0 := by
    intro hr
    rcases hg.refused hr with hbad | ⟨-, hlt⟩
    · omega
    · unfold need at hlt
      rw [hself, if_neg] at hlt
      · omega
      · intro hn
        exact hb.ne_zero hn.2
  constructor
  case tables => exact hg.tables
  case uart => exact hg.uart
  case untouched =>
    intro sector hs
    rw [hg.untouched sector hs]
    exact untouched_take hb hs
  case coherent => exact fun hc => hg.coherent (hc.take hb)
  case owned =>
    have := hg.owned
    rwa [update_idem] at this
  case exact =>
    intro he
    have := hg.exact (Exact.acquire he hempty howner hmark)
    rwa [update_idem] at this
  case node =>
    rw [hg.node, hself]
    rfl
  case fits =>
    intro hf
    refine hg.fits ?_
    rw [hself]
    exact hf.setIndirect hb
  case view =>
    intro ibit
    have := hg.view ibit
    rwa [update_idem, hview] at this
  case mapped => exact hg.mapped
  case agree =>
    intro hr c hc hcbit
    rw [hg.agree hr c hc (marked_take hcbit)]
    exact hused c hc hcbit
  case marked => exact fun c hc => hg.marked c (marked_take hc)
  case refused =>
    intro hr
    have h0 := hspace hr
    refine Or.inr ⟨hleaf, ?_⟩
    unfold need
    rw [if_pos ⟨hi, hz⟩]
    omega
  case granted =>
    intro hr _
    have hone := hg.granted hr (by rw [hself]; exact hleaf')
    unfold need at hone ⊢
    rw [hself, if_neg fun hn => hb.ne_zero hn.2] at hone
    rw [if_pos ⟨hi, hz⟩]
    omega
  case balance =>
    have hrest := hg.balance
    have htable : linked ((tbl n).setIndirect b) = 1 := if_neg hb.ne_zero
    have hnone : linked (tbl n) = 0 := if_pos hz
    rw [hself, htable] at hrest
    simp only [hleaf, hleaf', and_true] at hrest ⊢
    omega
  case kept => exact fun hne => absurd hz hne
  case low => exact fun hlt => absurd hlt (by omega)
  case leaked =>
    intro hr
    have h0 := hspace hr
    refine Or.inr ⟨hi, hi', hz, by omega, b, hb, hbit, hg.marked b ?_⟩
    rw [hmark, update_self]

theorem ensureInodeBlock_grown (h : Owned tbl s.disk s.bit) (n i : Nat) :
    Grown tbl n i s (ensureInodeBlock s (tbl n) i).1
      (ensureInodeBlock s (tbl n) i).2.1 (ensureInodeBlock s (tbl n) i).2.2 := by
  unfold ensureInodeBlock
  split
  · next hbig =>
    exact Grown.refl h rfl rfl rfl (fun _ hr => absurd hr (by simp)) fun _ => Or.inl hbig
  next hbig =>
    split
    · next hi =>
      have hleaf : leaf s.disk (tbl n) i = (tbl n).direct ⟨i, hi⟩ := by
        rw [leaf_of_slot (leafSlot_direct hi)]
        rfl
      split
      · next hz =>
        rcases allocDataBlock_cases s with ⟨heq, hfree⟩ | ⟨b, hb, hbit, heq⟩
        · rw [heq]
          exact Grown.refl h rfl rfl rfl (fun _ hr => absurd hr (by simp))
            fun _ => Or.inr ⟨by rw [hleaf, hz], hfree⟩
        · rw [heq]
          exact Grown.direct (i := ⟨i, hi⟩) h hz hb hbit
      · next hz =>
        refine Grown.refl h rfl rfl rfl (fun b hr => ?_) fun hr => absurd hr (by simp)
        cases hr
        exact ⟨hleaf, hz⟩
    · next hi =>
      split
      · next hz =>
        rcases allocDataBlock_cases s with ⟨heq, hfree⟩ | ⟨b, hb, hbit, heq⟩
        · rw [heq]
          refine Grown.refl h rfl rfl rfl (fun _ hr => absurd hr (by simp))
            fun _ => Or.inr ⟨?_, hfree⟩
          rw [leaf_of_slot (leafSlot_entry (by omega) (by omega))]
          unfold slotPtr
          dsimp only
          rw [if_pos (Or.inl hz)]
        · rw [heq]
          refine Grown.indirect h hz (by omega) (by omega) hb hbit fun hown => ?_
          have hself : update tbl n ((tbl n).setIndirect b) n =
              (tbl n).setIndirect b := update_self ..
          have hp : (update tbl n ((tbl n).setIndirect b) n).indirect ≠ 0 := by
            rw [hself]
            exact hb.ne_zero
          obtain ⟨h1, h2⟩ := ensureTableEntry_grown (i := i) hown hp (by omega)
            (by omega)
          rw [hself] at h1 h2
          refine ⟨h1, ?_⟩
          show Grown _ n i (s.take b) _
            (ensureTableEntry (s.take b) ((tbl n).setIndirect b) (i - 10)).2.1 _
          rw [h1]
          exact h2
      · next hz =>
        obtain ⟨h1, h2⟩ := ensureTableEntry_grown (i := i) h hz (by omega) (by omega)
        rw [h1]
        exact h2

end Grow

end MiniOs.Fs
