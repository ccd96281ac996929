import MiniOs.Fs.Blocks
import MiniOs.Lib.Ledger
import MiniOs.Spec.Volume

/-!
# Reading a volume off a disk

The abstraction function. A disk is read through a table of inodes that need
not be the one stored on it: while a function grows an inode it holds a local
copy, and until the copy is written back the state the rest of the code sees is
the stored table with one entry replaced. Everything here takes the table as an
argument for that reason, and `Store.volume` is the case where it is the stored
one.

A block pointer sits in one of 139 slots of an inode: ten direct slots, the
pointer to the indirect table, and the 128 entries of the table. `owner` says
which block a slot holds, and `Owned` that the slots of all inodes together form
a sound ledger of the data area under a bitmap.
-/

namespace MiniOs.Fs

open MiniOs.Lib MiniOs.Spec Function

/-- The part of an inode a volume keeps. -/
def Inode.node (inode : Inode) : Node :=
  ⟨inode.mode, inode.size, inode.parent, inode.links⟩

/-- An inode of the stored table; past the table there is none. -/
def inodeAt (d : Disk) (n : Nat) : Inode :=
  if n < 256 then Inode.decode (d (6 + n / 8)) (n % 8 * 64) else Inode.zero

/-- The slots of an inode that hold block numbers. -/
inductive Slot where
  | direct (i : Fin 10)
  | indirect
  | entry (j : Fin 128)
  deriving DecidableEq

/-- The block number in a slot. The entries of the table are on disk. -/
def slotPtr (d : Disk) (inode : Inode) : Slot → Nat
  | .direct i => inode.direct i
  | .indirect => inode.indirect
  | .entry j =>
    if inode.indirect = 0 ∨ inode.indirect ≥ 16384 then 0
    else tableEntry (d inode.indirect) j

/-- The slot of a logical block. -/
def leafSlot (index : Nat) : Option Slot :=
  if h : index < 10 then some (.direct ⟨index, h⟩)
  else if h : index - 10 < 128 then some (.entry ⟨index - 10, h⟩)
  else none

/-- The sector of a logical block, 0 where there is none. -/
def leaf (d : Disk) (inode : Inode) (index : Nat) : Nat :=
  match leafSlot index with
  | none => 0
  | some slot => slotPtr d inode slot

/-- The volume a disk shows through a table of inodes. -/
def view (ibit : Nat → Bool) (tbl : Nat → Inode) (d : Disk) : Volume where
  ibit := ibit
  node n := (tbl n).node
  block n i :=
    let b := leaf d (tbl n) i
    if b = 0 ∨ b ≥ 16384 then none else some (d b)

/-- The data bitmap, as the code consults it. -/
def Store.bit (st : Store) : Nat → Bool := bitmapTest st.bitmapBuffer

/-- The volume on the disk. -/
def Store.volume (st : Store) : Volume :=
  view (bitmapTest (st.disk 1)) (inodeAt st.disk) st.disk

/-- The blocks the file system hands out. -/
def DataBlock (b : Nat) : Prop := 38 ≤ b ∧ b < 15360

instance (b : Nat) : Decidable (DataBlock b) := inferInstanceAs (Decidable (_ ∧ _))

/-- The block a slot of an inode holds. -/
def owner (tbl : Nat → Inode) (d : Disk) (k : Nat × Slot) : Option Nat :=
  if slotPtr d (tbl k.1) k.2 = 0 then none else some (slotPtr d (tbl k.1) k.2)

/-- No block has two owners, and every block with an owner is a data block the
bitmap shows as used. -/
def Owned (tbl : Nat → Inode) (d : Disk) (bit : Nat → Bool) : Prop :=
  Ledger DataBlock (owner tbl d) bit

/-- `bitmap_buffer` is what sectors 2..5 hold. -/
def Store.Coherent (st : Store) : Prop :=
  ∀ k, k < 2048 → st.bitmapBuffer k = st.disk (2 + k / 512) (k % 512)

/-! ## Slots and owners -/

variable {tbl : Nat → Inode} {d : Disk} {n index : Nat} {slot : Slot}

theorem owner_eq_some {b : Nat} :
    owner tbl d (n, slot) = some b ↔ slotPtr d (tbl n) slot = b ∧ b ≠ 0 := by
  unfold owner
  dsimp only
  constructor
  · intro h
    split at h
    · cases h
    · next hz => exact ⟨Option.some.inj h, (Option.some.inj h) ▸ hz⟩
  · rintro ⟨rfl, hb⟩
    exact if_neg hb

theorem owner_eq_none :
    owner tbl d (n, slot) = none ↔ slotPtr d (tbl n) slot = 0 := by
  unfold owner
  dsimp only
  constructor
  · intro h
    split at h
    · next hz => exact hz
    · cases h
  · exact fun hz => if_pos hz

theorem owner_of_ne (h : slotPtr d (tbl n) slot ≠ 0) :
    owner tbl d (n, slot) = some (slotPtr d (tbl n) slot) :=
  owner_eq_some.mpr ⟨rfl, h⟩

theorem leafSlot_direct (h : index < 10) :
    leafSlot index = some (.direct ⟨index, h⟩) := dif_pos h

theorem leafSlot_entry (h : 10 ≤ index) (h' : index - 10 < 128) :
    leafSlot index = some (.entry ⟨index - 10, h'⟩) := by
  unfold leafSlot
  rw [dif_neg (by omega), dif_pos h']

theorem leafSlot_none (h : 138 ≤ index) : leafSlot index = none := by
  unfold leafSlot
  rw [dif_neg (by omega), dif_neg (by omega)]

/-- Two logical blocks never share a slot. -/
theorem leafSlot_inj {i j : Nat} (hi : leafSlot i = some slot) (hj : leafSlot j = some slot) :
    i = j := by
  unfold leafSlot at hi hj
  split at hi
  · cases hi
    split at hj
    · simp only [Option.some.injEq, Slot.direct.injEq, Fin.mk.injEq] at hj
      exact hj.symm
    · split at hj <;> cases hj
  · split at hi
    · cases hi
      split at hj
      · cases hj
      · split at hj
        · simp only [Option.some.injEq, Slot.entry.injEq, Fin.mk.injEq] at hj
          omega
        · cases hj
    · cases hi

theorem leafSlot_ne_indirect {i : Nat} : leafSlot i ≠ some .indirect := by
  unfold leafSlot
  split
  · exact fun h => by cases h
  · split <;> exact fun h => by cases h

theorem leaf_of_slot {inode : Inode} (h : leafSlot index = some slot) :
    leaf d inode index = slotPtr d inode slot := by
  unfold leaf
  rw [h]

theorem lt_of_leaf_ne_zero {inode : Inode} (h : leaf d inode index ≠ 0) : index < 138 := by
  by_contra hge
  unfold leaf at h
  rw [leafSlot_none (by omega)] at h
  exact h rfl

/-- A mapped logical block has a slot, and that slot owns its sector. -/
theorem owner_leaf (h : leaf d (tbl n) index ≠ 0) :
    ∃ slot, leafSlot index = some slot ∧ owner tbl d (n, slot) = some (leaf d (tbl n) index) := by
  cases hs : leafSlot index with
  | none =>
    unfold leaf at h
    rw [hs] at h
    exact absurd rfl h
  | some slot =>
    rw [leaf_of_slot hs] at h ⊢
    exact ⟨slot, rfl, owner_of_ne h⟩

theorem owner_indirect (h : (tbl n).indirect ≠ 0) :
    owner tbl d (n, .indirect) = some (tbl n).indirect := owner_of_ne h

section Sound

variable {tbl : Nat → Inode} {d : Disk} {bit : Nat → Bool}

variable {n : Nat} {d' : Disk}

variable (h : Owned tbl d bit)
include h

theorem Owned.dataBlock_leaf (hl : leaf d (tbl n) index ≠ 0) :
    DataBlock (leaf d (tbl n) index) := by
  obtain ⟨slot, -, ho⟩ := owner_leaf hl
  exact h.real ho

theorem Owned.dataBlock_indirect (hi : (tbl n).indirect ≠ 0) : DataBlock (tbl n).indirect :=
  h.real (owner_indirect hi)

/-- Under a sound ledger a block is missing from the volume only where its slot
is empty. -/
theorem Owned.view_block (ibit : Nat → Bool) (n index : Nat) :
    (view ibit tbl d).block n index =
      if leaf d (tbl n) index = 0 then none else some (d (leaf d (tbl n) index)) := by
  unfold view
  dsimp only
  by_cases hl : leaf d (tbl n) index = 0
  · rw [if_pos (Or.inl hl), if_pos hl]
  · have hb := h.dataBlock_leaf hl
    unfold DataBlock at hb
    rw [if_neg (by omega), if_neg hl]

/-- The sector of one logical block of one inode is that of no other. -/
theorem Owned.leaf_inj {m i j : Nat} (hne : leaf d (tbl n) i ≠ 0)
    (heq : leaf d (tbl n) i = leaf d (tbl m) j) :
    n = m ∧ i = j := by
  obtain ⟨slot, hs, ho⟩ := owner_leaf hne
  obtain ⟨slot', hs', ho'⟩ := owner_leaf (heq ▸ hne : leaf d (tbl m) j ≠ 0)
  rw [← heq] at ho'
  have hk := h.unique ho ho'
  simp only [Prod.mk.injEq] at hk
  obtain ⟨hn, rfl⟩ := hk
  exact ⟨hn, leafSlot_inj hs hs'⟩

/-- And it is no indirect table. -/
theorem Owned.leaf_ne_indirect {m i : Nat} (hne : leaf d (tbl n) i ≠ 0) :
    leaf d (tbl n) i ≠ (tbl m).indirect := by
  intro heq
  obtain ⟨slot, hs, ho⟩ := owner_leaf hne
  rw [heq] at ho
  have hk := h.unique ho (owner_indirect (heq ▸ hne))
  simp only [Prod.mk.injEq] at hk
  exact leafSlot_ne_indirect (hk.2 ▸ hs)

variable (hd : ∀ b, DataBlock b → bit b = true → d' b = d b)
include hd

/-- A disk that agrees on every block in use shows the same owners. -/
theorem Owned.slotPtr_congr (n : Nat) (slot : Slot) :
    slotPtr d' (tbl n) slot = slotPtr d (tbl n) slot := by
  cases slot with
  | direct i => rfl
  | indirect => rfl
  | entry j =>
    unfold slotPtr
    dsimp only
    split
    · rfl
    · next hz =>
      have ho := @owner_indirect tbl d n (by omega)
      rw [hd _ (h.real ho) (h.marked ho)]

theorem Owned.leaf_congr (n i : Nat) : leaf d' (tbl n) i = leaf d (tbl n) i := by
  unfold leaf
  split
  · rfl
  · exact h.slotPtr_congr hd n _

theorem Owned.owner_congr : owner tbl d' = owner tbl d := by
  funext k
  unfold owner
  rw [h.slotPtr_congr hd]

/-- And the same volume: everything a volume shows is a block in use. -/
theorem Owned.view_congr (ibit : Nat → Bool) : view ibit tbl d' = view ibit tbl d := by
  refine Volume.ext' (fun _ => rfl) (fun _ => rfl) fun n i => ?_
  unfold view
  dsimp only
  rw [h.leaf_congr hd]
  split
  · rfl
  · next hl =>
    obtain ⟨slot, -, ho⟩ := @owner_leaf tbl d n i (by omega)
    rw [hd _ (h.real ho) (h.marked ho)]

theorem Owned.of_agree {bit' : Nat → Bool} (hbit : ∀ b, bit b = true → bit' b = true) :
    Owned tbl d' bit' := by
  unfold Owned
  rw [h.owner_congr hd]
  exact ⟨h.real, fun ho => hbit _ (h.marked ho), h.unique⟩

end Sound

/-! ## Putting a block into a slot

The three ways `ensure_inode_block` files a fresh block: as a direct block, as
the indirect table, and as an entry of the table. Each is a single update of the
owners, and a logical block appears in the volume exactly in the first and the
last. -/

section Link

variable {tbl : Nat → Inode} {d : Disk} {bit : Nat → Bool} {n b : Nat}

/-- The inode after `inode->direct[i] = block`. -/
def Inode.setDirect (inode : Inode) (i : Fin 10) (block : Nat) : Inode :=
  { inode with direct := update inode.direct i block }

/-- The inode after `inode->indirect = block`. -/
def Inode.setIndirect (inode : Inode) (block : Nat) : Inode :=
  { inode with indirect := block }

theorem slotPtr_setDirect (inode : Inode) (i : Fin 10) (slot : Slot) :
    slotPtr d (inode.setDirect i b) slot =
      if slot = .direct i then b else slotPtr d inode slot := by
  cases slot with
  | direct j =>
    unfold slotPtr Inode.setDirect
    dsimp only
    by_cases hj : j = i
    · rw [hj, update_self, if_pos rfl]
    · rw [update_of_ne hj, if_neg (by simpa using hj)]
  | indirect => rw [if_neg (by simp)]; rfl
  | entry j => rw [if_neg (by simp)]; rfl

theorem owner_link_direct (hb : DataBlock b) (i : Fin 10) :
    owner (update tbl n ((tbl n).setDirect i b)) d =
      update (owner tbl d) (n, .direct i) (some b) := by
  funext ⟨m, slot⟩
  have hb0 : b ≠ 0 := by unfold DataBlock at hb; omega
  by_cases hm : m = n
  · subst hm
    unfold owner
    dsimp only
    rw [update_self, slotPtr_setDirect]
    by_cases hs : slot = .direct i
    · rw [if_pos hs, if_neg hb0, hs, update_self]
    · rw [if_neg hs, update_of_ne (by simpa using hs)]
  · rw [update_of_ne (by simp [hm])]
    unfold owner
    dsimp only
    rw [update_of_ne hm]

theorem leaf_setDirect (inode : Inode) (i : Fin 10) (j : Nat) :
    leaf d (inode.setDirect i b) j = if j = i then b else leaf d inode j := by
  unfold leaf
  split
  · next hs =>
    rw [if_neg]
    rintro rfl
    rw [leafSlot_direct i.isLt] at hs
    cases hs
  · next slot hs =>
    rw [slotPtr_setDirect]
    by_cases hj : j = i
    · subst hj
      rw [leafSlot_direct i.isLt] at hs
      cases hs
      rw [if_pos rfl, if_pos rfl]
    · rw [if_neg hj, if_neg]
      rintro rfl
      exact hj (leafSlot_inj hs (leafSlot_direct i.isLt))

theorem view_link_direct (hb : DataBlock b) (i : Fin 10) (ibit : Nat → Bool) :
    view ibit (update tbl n ((tbl n).setDirect i b)) d = (view ibit tbl d).setBlock n i (d b) := by
  have hb' : ¬ (b = 0 ∨ b ≥ 16384) := by unfold DataBlock at hb; omega
  refine Volume.ext' (fun _ => rfl) (fun m => ?_) fun m j => ?_
  · by_cases hm : m = n
    · subst hm
      unfold view
      dsimp only
      rw [update_self]
      rfl
    · unfold view
      dsimp only
      rw [update_of_ne hm]
      rfl
  · rw [Volume.setBlock_block]
    unfold view
    dsimp only
    by_cases hm : m = n
    · subst hm
      rw [update_self, leaf_setDirect]
      by_cases hj : j = i
      · rw [if_pos hj, if_neg hb', if_pos ⟨rfl, hj⟩]
      · rw [if_neg hj, if_neg (show ¬ (m = m ∧ j = i) from fun h => hj h.2)]
    · rw [update_of_ne hm, if_neg (show ¬ (m = n ∧ j = i) from fun h => hm h.1)]

/-- A fresh table is all zeros, so linking it shows no block. -/
theorem slotPtr_setIndirect (hb : DataBlock b) (hzero : d b = Region.zero)
    {inode : Inode} (hz : inode.indirect = 0) (slot : Slot) :
    slotPtr d (inode.setIndirect b) slot =
      if slot = .indirect then b else slotPtr d inode slot := by
  cases slot with
  | direct j => rw [if_neg (by simp)]; rfl
  | indirect => rw [if_pos rfl]; rfl
  | entry j =>
    unfold DataBlock at hb
    rw [if_neg (by simp)]
    unfold slotPtr Inode.setIndirect
    dsimp only
    rw [if_neg (by omega), if_pos (Or.inl hz), hzero]
    exact Region.word_zero _

theorem owner_link_indirect (hb : DataBlock b) (hzero : d b = Region.zero)
    (hz : (tbl n).indirect = 0) :
    owner (update tbl n ((tbl n).setIndirect b)) d =
      update (owner tbl d) (n, .indirect) (some b) := by
  funext ⟨m, slot⟩
  have hb0 : b ≠ 0 := by unfold DataBlock at hb; omega
  by_cases hm : m = n
  · subst hm
    unfold owner
    dsimp only
    rw [update_self, slotPtr_setIndirect hb hzero hz]
    by_cases hs : slot = .indirect
    · rw [if_pos hs, if_neg hb0, hs, update_self]
    · rw [if_neg hs, update_of_ne (by simpa using hs)]
  · rw [update_of_ne (by simp [hm])]
    unfold owner
    dsimp only
    rw [update_of_ne hm]

theorem view_link_indirect (hb : DataBlock b) (hzero : d b = Region.zero)
    (hz : (tbl n).indirect = 0) (ibit : Nat → Bool) :
    view ibit (update tbl n ((tbl n).setIndirect b)) d = view ibit tbl d := by
  have hleaf : ∀ j, leaf d ((tbl n).setIndirect b) j = leaf d (tbl n) j := by
    intro j
    unfold leaf
    split
    · rfl
    · next slot hs =>
      rw [slotPtr_setIndirect hb hzero hz, if_neg]
      rintro rfl
      exact leafSlot_ne_indirect hs
  refine Volume.ext' (fun _ => rfl) (fun m => ?_) fun m j => ?_
  all_goals
    unfold view
    dsimp only
    by_cases hm : m = n
  · subst hm
    rw [update_self]
    rfl
  · rw [update_of_ne hm]
  · subst hm
    rw [update_self, hleaf]
  · rw [update_of_ne hm]

/-- The disk after `entries[j] = block` was written to the table of `inode`. -/
def putEntry (d : Disk) (inode : Inode) (j block : Nat) : Disk :=
  update d inode.indirect ((d inode.indirect).putWord (4 * j) block)

section Entry

variable (h : Owned tbl d bit) (hb : DataBlock b) (hp : (tbl n).indirect ≠ 0)
include h hb hp

theorem slotPtr_putEntry (j : Fin 128) (m : Nat) (slot : Slot) :
    slotPtr (putEntry d (tbl n) j b) (tbl m) slot =
      if m = n ∧ slot = .entry j then b else slotPtr d (tbl m) slot := by
  have hreal := h.dataBlock_indirect hp
  unfold DataBlock at hreal hb
  cases slot with
  | direct i => rw [if_neg (by simp)]; rfl
  | indirect => rw [if_neg (by simp)]; rfl
  | entry i =>
    by_cases hm : m = n
    · subst hm
      have hrange : ¬ ((tbl m).indirect = 0 ∨ (tbl m).indirect ≥ 16384) := by omega
      unfold slotPtr
      dsimp only
      rw [if_neg hrange, if_neg hrange]
      unfold putEntry tableEntry
      rw [update_self]
      by_cases hi : i = j
      · subst hi
        rw [if_pos ⟨rfl, rfl⟩, Region.word_putWord, Nat.mod_eq_of_lt (by omega)]
      · have : i.val ≠ j.val := fun h => hi (Fin.ext h)
        rw [if_neg (by simpa using hi), Region.word_putWord_ne (by omega)]
    · rw [if_neg fun h => hm h.1]
      unfold slotPtr
      dsimp only
      split
      · rfl
      next hz =>
        have hne : (tbl m).indirect ≠ (tbl n).indirect := by
          intro heq
          have hown := @owner_indirect tbl d m (by omega)
          rw [heq] at hown
          have hk := h.unique hown (owner_indirect hp)
          simp only [Prod.mk.injEq] at hk
          exact hm hk.1
        unfold putEntry
        rw [update_of_ne hne]

theorem owner_link_entry (j : Fin 128) :
    owner tbl (putEntry d (tbl n) j b) = update (owner tbl d) (n, .entry j) (some b) := by
  funext ⟨m, slot⟩
  have hb0 : b ≠ 0 := by unfold DataBlock at hb; omega
  unfold owner
  dsimp only
  rw [slotPtr_putEntry h hb hp]
  by_cases hk : m = n ∧ slot = .entry j
  · rw [if_pos hk, if_neg hb0, hk.1, hk.2, update_self]
  · rw [if_neg hk, update_of_ne (by simpa using hk)]

theorem leaf_putEntry (j : Fin 128) (m i : Nat) :
    leaf (putEntry d (tbl n) j b) (tbl m) i =
      if m = n ∧ i = 10 + j then b else leaf d (tbl m) i := by
  have hj : leafSlot (10 + j) = some (.entry j) := by
    rw [leafSlot_entry (by omega) (by omega)]
    simp
  unfold leaf
  split
  · next hs =>
    rw [if_neg]
    rintro ⟨-, rfl⟩
    rw [hj] at hs
    cases hs
  · next slot hs =>
    rw [slotPtr_putEntry h hb hp]
    by_cases hk : m = n ∧ i = 10 + j
    · obtain ⟨rfl, rfl⟩ := hk
      rw [hj] at hs
      cases hs
      rw [if_pos ⟨rfl, rfl⟩, if_pos ⟨rfl, rfl⟩]
    · rw [if_neg hk, if_neg]
      rintro ⟨rfl, rfl⟩
      exact hk ⟨rfl, leafSlot_inj hs hj⟩

theorem view_link_entry (hfree : ∀ k, owner tbl d k ≠ some b) (j : Fin 128) (ibit : Nat → Bool) :
    view ibit tbl (putEntry d (tbl n) j b) = (view ibit tbl d).setBlock n (10 + j) (d b) := by
  have hb' : ¬ (b = 0 ∨ b ≥ 16384) := by unfold DataBlock at hb; omega
  have hbp : b ≠ (tbl n).indirect := by
    rintro rfl
    exact hfree _ (owner_indirect hp)
  refine Volume.ext' (fun _ => rfl) (fun _ => rfl) fun m i => ?_
  rw [Volume.setBlock_block]
  unfold view
  dsimp only
  rw [leaf_putEntry h hb hp]
  by_cases hk : m = n ∧ i = 10 + j
  · rw [if_pos hk, if_neg hb', if_pos hk]
    unfold putEntry
    rw [update_of_ne hbp]
  · rw [if_neg hk, if_neg hk]
    split
    · rfl
    · next hl =>
      have hne := @Owned.leaf_ne_indirect _ _ _ m h n i (by omega)
      unfold putEntry
      rw [update_of_ne hne]

end Entry

end Link

end MiniOs.Fs
