import MiniOs.Proofs.Readers

/-!
# What the updating functions do to the volume

One lemma per function that writes: which volume it leaves, that the store is
still sound, and that nothing outside the file system's own sectors, no
descriptor and no console character was touched. `Becomes` packs these together.

A function that grows an inode works on a copy and stores it last. `Dirty` is
the state in between: the disk has moved on, the stored table has not, and what
matters is the volume seen through the copy. Its rules follow the code: start
from a clean state, ensure a block, fill it, store the copy.

Space is accounted for on the side. `Store.Tidy` says that every marked block
has an owner and that unused inodes own nothing. All functions keep it when
they act on inodes in use, with one exception, which `dirAdd_leaks` states: a
directory whose next entry needs both an indirect table and a block, when one
block is left.
-/

namespace MiniOs.Fs

open MiniOs.Lib MiniOs.Spec Function

/-- Every marked block has an owner, and unused inodes own nothing. -/
structure Store.Tidy (st : Store) : Prop where
  tight : st.Tight
  bare : ∀ n, st.ibit n = false → (st.table n).Bare

/-- From `s` to `s'` the volume became `V`; space is still accounted for if `ok`
holds. -/
structure Becomes (s s' : FsSt) (V : Volume) (ok : Prop) : Prop where
  tables : s'.toFdTables = s.toFdTables
  uart : s'.uart = s.uart
  outside : ∀ c, c = 0 ∨ 15360 ≤ c → s'.disk c = s.disk c
  sound : s'.Sound
  volume : s'.volume = V
  tidy : ok → s.Tidy → s'.Tidy

section Becomes

variable {s s₁ s₂ : FsSt} {V V₁ : Volume} {ok ok₁ : Prop}

theorem Becomes.refl (h : s.Sound) (b : Region) (ok : Prop) :
    Becomes s (s.withBuffer b) s.volume ok :=
  ⟨rfl, rfl, fun _ _ => rfl, h, rfl, fun _ ht => ht⟩

theorem Becomes.trans (h1 : Becomes s s₁ V₁ ok₁) (h2 : Becomes s₁ s₂ V ok) :
    Becomes s s₂ V (ok₁ ∧ ok) where
  tables := h2.tables.trans h1.tables
  uart := h2.uart.trans h1.uart
  outside c hc := (h2.outside c hc).trans (h1.outside c hc)
  sound := h2.sound
  volume := h2.volume
  tidy hok ht := h2.tidy hok.2 (h1.tidy hok.1 ht)

theorem Becomes.mono (h : Becomes s s₁ V ok) (hok : ok₁ → ok) : Becomes s s₁ V ok₁ :=
  { h with tidy := fun h1 ht => h.tidy (hok h1) ht }

/-- The scratch buffers do not matter, at either end. -/
theorem Becomes.withBuffer {b : Region} (h : Becomes (s.withBuffer b) s₁ V ok) : Becomes s s₁ V ok :=
  ⟨h.tables, h.uart, h.outside, h.sound, h.volume, h.tidy⟩

end Becomes

/-! ## The inode bitmap -/

theorem Becomes.setIbit {s : FsSt} (h : s.Sound) (n : Nat) (v : Bool) (b : Region) :
    Becomes s { s with toStore := s.toStore.setIbit n v, blockBuffer := b }
      (s.volume.setIbit n v) (v = false → (s.table n).Bare) where
  tables := rfl
  uart := rfl
  outside _ hc := Store.disk_setIbit (by omega)
  sound := h.setIbit n v
  volume := Store.volume_setIbit h n v
  tidy hok ht := by
    refine ⟨ht.tight.setIbit h n v, fun m hm => ?_⟩
    rw [Store.ibit_setIbit] at hm
    rw [Store.table_setIbit]
    by_cases hmn : m = n
    · subst hmn
      rw [update_self] at hm
      exact hok hm
    · rw [update_of_ne hmn] at hm
      exact ht.bare m hm

/-! ## Storing a bare inode -/

theorem freshInode_bare (mode parent : Nat) : (freshInode mode parent).Bare :=
  fun d slot => slotPtr_truncated d (freshInode mode parent) slot

/-- Overwriting an inode with a bare one, whatever it held. -/
theorem Becomes.putBare {s : FsSt} (h : s.Sound) {n : Nat} (hn : n < 256)
    {inode : Inode} (hf : inode.Fits) (hbare : inode.Bare) (b : Region) :
    Becomes s { s with toStore := s.toStore.putInode n inode, blockBuffer := b }
      ((s.volume.clear n).setNode n inode.node) (s.table n).Bare where
  tables := rfl
  uart := rfl
  outside _ hc := Store.disk_putInode hn (by omega)
  sound := Store.sound_putInode hn hf (h.owned.update_bare hbare) h.coherent
  volume := by
    rw [Store.volume_putInode hn hf (h.owned.update_bare hbare), view_update_bare hbare]
    rfl
  tidy hold ht := by
    refine ⟨?_, fun m hm => ?_⟩
    · refine Store.tight_putInode hn hf (h.owned.update_bare hbare) fun c hc hm => ?_
      obtain ⟨k, hk⟩ := ht.tight c hc hm
      refine ⟨k, ?_⟩
      rw [(owner_update_bare hbare n).2 k, hk]
      -- the owner of a block is not the inode that held nothing
      rintro rfl
      have hz := owner_eq_none.mpr (hold s.disk k.2)
      rw [show owner s.table s.disk k = none from hz] at hk
      cases hk
    · dsimp only at hm ⊢
      rw [Store.ibit_putInode hn] at hm
      rw [Store.table_putInode hn hf]
      by_cases hmn : m = n
      · rw [hmn, update_self]
        exact hbare
      · rw [update_of_ne hmn]
        exact ht.bare m hm

/-- Overwriting an inode with a bare one after its blocks were freed. -/
theorem Becomes.erase {s : FsSt} (h : s.Sound) {n : Nat} (hn : n < 256)
    {inode : Inode} (hf : inode.Fits) (hbare : inode.Bare) (b b' : Region) :
    Becomes s { s with
        toStore := (s.toStore.dropAll (heldBlocks s.disk (s.table n))).putInode n inode
        blockBuffer := b
        indirectBuffer := b' }
      ((s.volume.clear n).setNode n inode.node) True := by
  obtain ⟨st, hst⟩ : ∃ st, st = s.toStore.dropAll (heldBlocks s.disk (s.table n)) :=
    ⟨_, rfl⟩
  have hdisk : ∀ c, c < 2 ∨ 6 ≤ c → st.disk c = s.disk c := fun c hc => by
    rw [hst, Store.disk_dropAll hc]
  have htable : st.table = s.table := by rw [hst, Store.table_dropAll]
  have hibit : st.ibit = s.ibit := by rw [hst, Store.ibit_dropAll]
  have howned : Owned (update st.table n inode) st.disk st.bit := by
    rw [htable, hst]
    exact h.owned.freed hbare
  rw [← hst]
  refine ⟨rfl, rfl, fun c hc => ?_, ?_, ?_, fun _ ht => ⟨?_, fun m hm => ?_⟩⟩
  · dsimp only
    rw [Store.disk_putInode hn (by omega), hdisk c (by omega)]
  · exact Store.sound_putInode hn hf howned (hst ▸ h.coherent.dropAll _)
  · have hagree : ∀ b, DataBlock b → s.bit b = true → st.disk b = s.disk b :=
      fun b hb _ => hdisk b (by unfold DataBlock at hb; omega)
    have hview := (h.owned.update_bare (n := n) hbare).view_congr hagree s.ibit
    rw [Store.volume_putInode hn hf howned, htable, hibit, hview, view_update_bare hbare]
    rfl
  · refine Store.tight_putInode hn hf howned ?_
    rw [htable, hst]
    exact h.owned.exact_freed hbare ht.tight
  · dsimp only at hm ⊢
    rw [Store.ibit_putInode hn, hibit] at hm
    rw [Store.table_putInode hn hf, htable]
    by_cases hmn : m = n
    · rw [hmn, update_self]
      exact hbare
    · rw [update_of_ne hmn]
      exact ht.bare m hm

/-! ## Growing a copy and storing it -/

/-- Two inodes that differ only in what they say besides their blocks. -/
def Inode.SameBlocks (a b : Inode) : Prop := a.direct = b.direct ∧ a.indirect = b.indirect

theorem Inode.SameBlocks.slotPtr {a b : Inode} (h : a.SameBlocks b) (d : Disk)
    (slot : Slot) : slotPtr d a slot = slotPtr d b slot := by
  obtain ⟨hd, hi⟩ := h
  cases slot <;> simp only [Fs.slotPtr, hd, hi]

theorem owner_sameBlocks {tbl : Nat → Inode} {d : Disk} {a b : Inode} {n : Nat}
    (h : a.SameBlocks b) :
    owner (update tbl n a) d = owner (update tbl n b) d := by
  funext k
  unfold owner
  by_cases hk : k.1 = n
  · rw [hk, update_self, update_self, h.slotPtr]
  · rw [update_of_ne hk, update_of_ne hk]

theorem view_sameBlocks {tbl : Nat → Inode} {d : Disk} {a b : Inode} {n : Nat}
    (h : a.SameBlocks b) (ibit : Nat → Bool) :
    view ibit (update tbl n a) d = (view ibit (update tbl n b) d).setNode n a.node := by
  have hleaf : ∀ i, leaf d a i = leaf d b i := by
    intro i
    unfold leaf
    split
    · rfl
    · exact h.slotPtr d _
  refine Volume.ext' (fun _ => rfl) (fun m => ?_) fun m j => ?_
  · rw [Volume.setNode_node]
    unfold view
    dsimp only
    by_cases hm : m = n
    · rw [hm, update_self, update_self]
    · rw [update_of_ne hm, update_of_ne hm, update_of_ne hm]
  · rw [Volume.setNode_block]
    unfold view
    dsimp only
    by_cases hm : m = n
    · rw [hm, update_self, update_self, hleaf]
    · rw [update_of_ne hm, update_of_ne hm]

/-- The disk moved from `s` to `s'` on behalf of inode `n`, whose copy is now
`inode`; seen through the copy the volume is `V`. -/
structure Dirty (s s' : FsSt) (n : Nat) (inode : Inode) (V : Volume) : Prop where
  tables : s'.toFdTables = s.toFdTables
  uart : s'.uart = s.uart
  untouched : ∀ c, Untouched c → s'.disk c = s.disk c
  coherent : s'.Coherent
  owned : Owned (update s.table n inode) s'.disk s'.bit
  tight : s.Tight → Exact DataBlock (owner (update s.table n inode) s'.disk) s'.bit
  node : inode.node = (s.table n).node
  fits : inode.Fits
  view : Fs.view s.ibit (update s.table n inode) s'.disk = V

section Dirty

variable {s s' s₁ : FsSt} {n i : Nat} {inode inode1 : Inode} {V : Volume} {r : Option Nat}

theorem Dirty.refl (h : s.Sound) (n : Nat) (b : Region) :
    Dirty s (s.withBuffer b) n (s.table n) s.volume where
  tables := rfl
  uart := rfl
  untouched _ _ := rfl
  coherent := h.coherent
  owned := by rw [update_eq_self]; exact h.owned
  tight ht := by rw [update_eq_self]; exact ht
  node := rfl
  fits := Inode.fits_inodeAt _ _
  view := by rw [update_eq_self]; rfl

/-- The sector of a block that was ensured is what the volume has there. -/
theorem Dirty.sector (h : Dirty s s' n inode (V.ensureBlock n i)) {b : Nat}
    (hl : leaf s'.disk inode i = b) (hb : DataBlock b) :
    s'.disk b = (V.block n i).getD Region.zero := by
  have hself := V.ensureBlock_block_self n i
  rw [← h.view, h.owned.view_block, update_self, hl, if_neg hb.ne_zero] at hself
  exact Option.some.inj hself

variable (h : Dirty s s' n inode V)
include h

theorem Dirty.table : s'.table = s.table :=
  inodeAt_congr fun c h1 h2 => h.untouched c (Or.inr (Or.inl ⟨h1, h2⟩))

theorem Dirty.ibit : s'.ibit = s.ibit := by
  unfold Store.ibit
  rw [h.untouched 1 (Or.inl (by omega))]

/-- `ensure_inode_block` on the copy. A refusal may have changed the copy, but
the volume seen through it is the same. -/
theorem Dirty.grow (he : ensureInodeBlock s' inode i = (s₁, inode1, r)) :
    Dirty s s₁ n inode1 (if r.isSome then V.ensureBlock n i else V) ∧
      (∀ b, r = some b → leaf s₁.disk inode1 i = b ∧ DataBlock b) ∧
      (r = none → 138 ≤ i ∨ (leaf s'.disk inode i = 0 ∧ s'.free < need inode i)) ∧
      (r ≠ none → leaf s'.disk inode i = 0 → need inode i ≤ s'.free) := by
  have hg := ensureInodeBlock_grown h.owned n i
  rw [update_self, he] at hg
  have hidem : ∀ x, update (update s.table n inode) n x =
      update s.table n x := fun x => update_idem ..
  have hnode := hg.node
  have hfits := hg.fits
  have hview := hg.view s.ibit
  have hrefused := hg.refused
  have hgranted := hg.granted
  rw [update_self] at hnode hfits hrefused hgranted
  rw [hidem, h.view] at hview
  exact ⟨⟨hg.tables.trans h.tables, hg.uart.trans h.uart,
    fun c hc => (hg.untouched c hc).trans (h.untouched c hc), hg.coherent h.coherent,
    hidem inode1 ▸ hg.owned, fun ht => hidem inode1 ▸ hg.exact (h.tight ht),
    hnode.trans h.node, hfits h.fits, hview⟩, hg.mapped, hrefused, hgranted⟩

theorem Dirty.exhausted (he : ensureInodeBlock s' inode i = (s₁, inode1, none)) (hi : i < 138) :
    s₁.free = 0 := by
  have hg := ensureInodeBlock_grown h.owned n i
  rw [update_self, he] at hg
  exact hg.exhausted hi

/-- A block is missing in the volume where the copy has no pointer to it. -/
theorem Dirty.block_eq_none (i : Nat) : V.block n i = none ↔ leaf s'.disk inode i = 0 := by
  rw [← h.view, h.owned.view_block, update_self]
  split
  · next hz => exact iff_of_true rfl hz
  · next hne => exact iff_of_false (Option.some_ne_none _) hne

/-- What growing the copy by a block has cost. -/
theorem Dirty.spent (he : ensureInodeBlock s' inode i = (s₁, inode1, r)) :
    s₁.free + linked inode1 + (if r ≠ none ∧ V.block n i = none then 1 else 0) =
        s'.free + linked inode ∧
      (inode.indirect ≠ 0 → inode1.indirect ≠ 0) ∧
      (i < 10 → inode1.indirect = inode.indirect) := by
  have hg := ensureInodeBlock_grown h.owned n i
  rw [update_self, he] at hg
  have hbalance := hg.balance
  have hkept := hg.kept
  have hlow := hg.low
  rw [update_self] at hbalance hkept hlow
  simp only [h.block_eq_none]
  exact ⟨hbalance, hkept, hlow⟩

theorem Dirty.ensure {b : Nat} (he : ensureInodeBlock s' inode i = (s₁, inode1, some b)) :
    Dirty s s₁ n inode1 (V.ensureBlock n i) ∧ leaf s₁.disk inode1 i = b ∧ DataBlock b := by
  obtain ⟨hd, hmapped, -⟩ := h.grow he
  exact ⟨hd, hmapped b rfl⟩

theorem Dirty.fill {b : Nat} (hb : DataBlock b) (hl : leaf s'.disk inode i = b) (r c : Region) :
    Dirty s { s' with disk := update s'.disk b r, blockBuffer := c } n inode
      (V.setBlock n i r) := by
  have hl' : leaf s'.disk (update s.table n inode n) i = b := by
    rw [update_self]
    exact hl
  have hown := owner_update_leaf h.owned hl' hb.ne_zero r
  have hout : ∀ k, Untouched k ∨ k < 38 → update s'.disk b r k = s'.disk k := by
    intro k hk
    unfold DataBlock at hb
    unfold Untouched at hk
    exact update_of_ne (by omega) ..
  refine ⟨h.tables, h.uart, fun k hk => ?_, fun k hk => ?_, ?_, fun ht => ?_, h.node, h.fits, ?_⟩
  · exact (hout k (Or.inl hk)).trans (h.untouched k hk)
  · dsimp only
    rw [hout _ (Or.inr (by omega))]
    exact h.coherent k hk
  · unfold Owned
    rw [hown]
    exact h.owned
  · dsimp only
    rw [hown]
    exact h.tight ht
  · dsimp only
    rw [view_update_leaf h.owned hl' hb.ne_zero, h.view]

theorem Dirty.store (hn : n < 256) (hsame : inode1.SameBlocks inode) (hf : inode1.Fits)
    (b : Region) :
    Becomes s { s' with toStore := s'.toStore.putInode n inode1, blockBuffer := b }
      (V.setNode n inode1.node) (s.ibit n = true) := by
  have howned : Owned (update s'.table n inode1) s'.disk s'.bit := by
    unfold Owned
    rw [h.table, owner_sameBlocks hsame]
    exact h.owned
  refine ⟨h.tables, h.uart, fun c hc => ?_, ?_, ?_, fun hused ht => ⟨?_, fun m hm => ?_⟩⟩
  · dsimp only
    rw [Store.disk_putInode hn (by omega)]
    exact h.untouched c (by unfold Untouched; omega)
  · exact Store.sound_putInode hn hf howned h.coherent
  · dsimp only
    rw [Store.volume_putInode hn hf howned, h.table, h.ibit, view_sameBlocks hsame, h.view]
  · refine Store.tight_putInode hn hf howned ?_
    rw [h.table, owner_sameBlocks hsame]
    exact h.tight ht.tight
  · dsimp only at hm ⊢
    rw [Store.ibit_putInode hn, h.ibit] at hm
    rw [Store.table_putInode hn hf, h.table]
    have hmn : m ≠ n := by
      rintro rfl
      rw [hused] at hm
      cases hm
    rw [update_of_ne hmn]
    exact ht.bare m hm

end Dirty

/-- A copy that is the stored inode needs no storing. -/
theorem Dirty.clean {s s' : FsSt} {n : Nat} {V : Volume} (h : Dirty s s' n (s.table n) V) :
    Becomes s s' V True where
  tables := h.tables
  uart := h.uart
  outside c hc := h.untouched c (by unfold Untouched; omega)
  sound := by
    have howned := h.owned
    rw [update_eq_self] at howned
    exact ⟨by rw [h.table]; exact howned, h.coherent⟩
  volume := by
    have hview := h.view
    rw [update_eq_self] at hview
    rw [Store.volume_eq, h.table, h.ibit, hview]
  tidy _ ht := by
    have htight := h.tight ht.tight
    rw [update_eq_self] at htight
    refine ⟨by unfold Store.Tight; rw [h.table]; exact htight, fun m hm => ?_⟩
    rw [h.ibit] at hm
    rw [h.table]
    exact ht.bare m hm

/-! ## Directories -/

/-- The one way to lose a block: the next entry of a directory needs an indirect
table and a block in it, and only one block is left. -/
def DirAddLeaks (st : Store) (n : Nat) (name : List UInt8) : Prop :=
  st.volume.lookup n name = none ∧ 1 ≤ name.length ∧ name.length ≤ 55 ∧ n < 256 ∧
    (st.volume.node n).IsDir ∧ st.free = 1 ∧ (st.table n).indirect = 0 ∧
    ∃ index, st.volume.slot n = some index ∧ 80 ≤ index ∧ index < 1104

/-- What `dirAdd` needs to succeed, apart from space. -/
structure DirAddable (V : Volume) (n : Nat) (name : List UInt8) (index : Nat) : Prop where
  lt : n < 256
  dir : (V.node n).IsDir
  fresh : V.lookup n name = none
  pos : 1 ≤ name.length
  short : name.length ≤ 55
  slot : V.slot n = some index
  room : index < 1104

/-- A refusal of `ensure_inode_block` in the middle of `dir_add`: the copy is
dropped, and the volume is what it was. -/
theorem Becomes.dropCopy {s s₁ : FsSt} {n i : Nat} {inode : Inode} (h : s.Sound)
    (hg : Grown s.table n i s s₁ inode none) :
    Becomes s s₁ s.volume (s₁.toStore = s.toStore) ∧ s₁.table = s.table := by
  have hagree := hg.agree rfl
  have htable : s₁.table = s.table :=
    inodeAt_congr fun c h1 h2 => hg.untouched c (Or.inr (Or.inl ⟨h1, h2⟩))
  have hibit : s₁.ibit = s.ibit := by
    unfold Store.ibit
    rw [hg.untouched 1 (Or.inl (by omega))]
  refine ⟨⟨hg.tables, hg.uart, fun c hc => ?_, ⟨?_, hg.coherent h.coherent⟩, ?_,
    fun hsame ht => ?_⟩, htable⟩
  · exact hg.untouched c (by unfold Untouched; omega)
  · rw [htable]
    exact h.owned.of_agree hagree hg.marked
  · rw [Store.volume_eq, htable, hibit, h.owned.view_congr hagree]
    rfl
  · rw [hsame]
    exact ht

/-- The entry is written and the directory stored. -/
theorem Becomes.insert {s s0 s₁ : FsSt} {n index block : Nat} {inode : Inode}
    (hd : Dirty s s0 n (s.table n) s.volume) (hn : n < 256) (hroom : index < 1104)
    (he : ensureInodeBlock s0 (s.table n) (index / 8) = (s₁, inode, some block))
    (name : List UInt8) (child mode : Nat) :
    ∃ s', dirInsert s0 n (s.table n) index name child mode = (s', true) ∧
      Becomes s s' (s.volume.addEntry n index child mode name) (s.ibit n = true) := by
  obtain ⟨hd1, hleaf, hblock⟩ := hd.ensure he
  have hlt : block < 16384 := by unfold DataBlock at hblock; omega
  have hsector := hd1.sector hleaf hblock
  have hfill := hd1.fill hblock hleaf (Dirent.put (s₁.disk block) (index % 8 * 64) child mode name)
    (Dirent.put (s₁.disk block) (index % 8 * 64) child mode name)
  rw [Volume.setBlock_ensureBlock] at hfill
  unfold dirInsert
  rw [he]
  dsimp only
  rw [readBlock_eq hlt]
  dsimp only
  rw [FsSt.writeBlock_of_lt hlt]
  obtain ⟨inode1, hinode1⟩ : ∃ x, x = if index = (s.table n).size / 64 then
      { inode with size := inode.size + 64 } else inode := ⟨_, rfl⟩
  have hsize : inode.size = (s.table n).size := congrArg Node.size hd1.node
  have hsame : inode1.SameBlocks inode := by
    rw [hinode1]
    split <;> exact ⟨rfl, rfl⟩
  have hfits : inode1.Fits := by
    rw [hinode1]
    split
    · next hend => exact { hd1.fits with size := by dsimp only; omega }
    · exact hd1.fits
  have hnode : inode1.node = { s.volume.node n with
        size := if index = s.volume.count n then (s.volume.node n).size + 64
          else (s.volume.node n).size } := by
    have hinode : inode.node = s.volume.node n := hd1.node
    rw [hinode1, ← hinode]
    have hcount : s.volume.count n = (s.table n).size / 64 := rfl
    rw [hcount]
    split <;> rfl
  rw [← hinode1]
  obtain ⟨b, hb⟩ := writeInode_eq { s₁ with
      disk := update s₁.disk block (Dirent.put (s₁.disk block) (index % 8 * 64) child mode name)
      blockBuffer := Dirent.put (s₁.disk block) (index % 8 * 64) child mode name } hn inode1
  refine ⟨_, hb, ?_⟩
  have hstore := hfill.store hn hsame hfits b
  rw [hnode, hsector] at hstore
  rw [hsector]
  exact hstore

/-- A directory can take a new name: it has a slot for it, and a block for the slot. -/
structure Nameable (st : Store) (n : Nat) (name : List UInt8) : Prop where
  lt : n < 256
  dir : (st.volume.node n).IsDir
  fresh : st.volume.lookup n name = none
  pos : 1 ≤ name.length
  short : name.length ≤ 55
  slot : ∃ index, st.volume.slot n = some index ∧ index < 1104 ∧
    (st.volume.block n (index / 8) = none → need (st.table n) (index / 8) ≤ st.free)

theorem dirAdd_cases {s : FsSt} (h : s.Sound) (n : Nat) (name : List UInt8)
    (child mode : Nat) :
    (∃ s', dirAdd s n name child mode = (s', false) ∧ s'.table = s.table ∧
      ¬ Nameable s.toStore n name ∧
      Becomes s s' s.volume (¬ DirAddLeaks s.toStore n name)) ∨
    ∃ s' index, dirAdd s n name child mode = (s', true) ∧ Nameable s.toStore n name ∧
      DirAddable s.volume n name index ∧
      Becomes s s' (s.volume.addEntry n index child mode name) (s.ibit n = true) := by
  obtain ⟨b1, hlook⟩ := dirLookup_eq s n name
  obtain ⟨b2, hread⟩ := readInode_eq (s.withBuffer b1) n
  obtain ⟨b3, hslot⟩ := dirSlot_eq (s.withBuffer b2) n
  simp only [FsSt.withBuffer_withBuffer, FsSt.withBuffer_toStore] at hread hslot
  unfold dirAdd
  rw [hlook]
  cases hl : s.volume.lookup n name with
  | some c =>
    refine Or.inl ⟨_, rfl, rfl, fun hname => ?_, Becomes.refl h b1 _⟩
    cases hl.symm.trans hname.fresh
  | none =>
    dsimp only
    by_cases hlen : name.length = 0 ∨ name.length > 55
    · rw [if_pos hlen]
      refine Or.inl ⟨_, rfl, rfl, fun hname => ?_, Becomes.refl h b1 _⟩
      have hpos := hname.pos
      have hshort := hname.short
      omega
    · rw [if_neg hlen, hread]
      by_cases hn : n < 256
      · rw [if_pos hn]
        dsimp only
        by_cases hdir : (inodeAt s.disk n).mode &&& 0xff = 2
        · rw [if_neg (not_not_intro hdir), hslot]
          cases hs : s.volume.slot n with
          | none =>
            refine Or.inl ⟨_, rfl, rfl, fun hname => ?_, Becomes.refl h b3 _⟩
            obtain ⟨index, hindex, -⟩ := hname.slot
            cases hs.symm.trans hindex
          | some index =>
            dsimp only
            have hblank : s.volume.block n (index / 8) = none ↔
                leaf s.disk (s.table n) (index / 8) = 0 := by
              rw [Store.volume_eq, h.owned.view_block]
              split
              · next hz => exact iff_of_true rfl hz
              · next hz => exact iff_of_false nofun hz
            have hg := @ensureInodeBlock_grown s.table (s.withBuffer b3) h.owned n (index / 8)
            obtain ⟨s₁, inode, r, he⟩ : ∃ s₁ inode r,
                ensureInodeBlock (s.withBuffer b3) (s.table n) (index / 8) =
                  (s₁, inode, r) := ⟨_, _, _, rfl⟩
            rw [he] at hg
            cases r with
            | none =>
              obtain ⟨hb, htable⟩ := @Becomes.dropCopy (s.withBuffer b3) _ _ _ _ h hg
              refine Or.inl ⟨s₁, ?_, htable, fun hname => ?_, hb.withBuffer.mono fun hno => ?_⟩
              · unfold dirInsert
                rw [show ensureInodeBlock (s.withBuffer b3) (inodeAt s.disk n)
                  (index / 8) = _ from he]
              · obtain ⟨index', hindex, hroom, hspace⟩ := hname.slot
                obtain rfl := Option.some.inj (hs.symm.trans hindex)
                rcases hg.refused rfl with hbig | ⟨hzero, hfull⟩
                · omega
                · exact absurd (hspace (hblank.mpr hzero)) (Nat.not_le.mpr hfull)
              · rcases hg.leaked rfl with ⟨-, hsame, -⟩ | ⟨h1, h2, hind, hfree, -⟩
                · exact hsame
                · exact absurd ⟨hl, by omega, by omega, hn, hdir, hfree, hind,
                    index, hs, by omega, by omega⟩ hno
            | some block =>
              obtain ⟨hleaf, hblock⟩ := hg.mapped block rfl
              have hmapped := lt_of_leaf_ne_zero (hleaf ▸ hblock.ne_zero)
              have hroom : index < 1104 := by omega
              obtain ⟨s', hs', hb⟩ :=
                Becomes.insert (Dirty.refl h n b3) hn hroom he name child mode
              have hspace := fun hnone => hg.granted (Option.some_ne_none _) (hblank.mp hnone)
              exact Or.inr ⟨s', index, hs',
                ⟨hn, hdir, hl, by omega, by omega, index, hs, hroom, hspace⟩,
                ⟨hn, hdir, hl, by omega, by omega, hs, hroom⟩, hb⟩
        · rw [if_pos hdir]
          exact Or.inl ⟨_, rfl, rfl, fun hname => hdir hname.dir, Becomes.refl h b2 _⟩
      · rw [if_neg hn]
        exact Or.inl ⟨_, rfl, rfl, fun hname => hn hname.lt, Becomes.refl h b2 _⟩

/-- A marked block that no inode refers to. -/
def Store.Lost (st : Store) (c : Nat) : Prop :=
  DataBlock c ∧ st.bit c = true ∧ ∀ k, owner st.table st.disk k ≠ some c

/-- The leak is real: the block of the indirect table was taken before the
second one was refused, and the copy of the inode that knew it is dropped. -/
theorem dirAdd_leaks {s : FsSt} (h : s.Sound) {n : Nat} {name : List UInt8}
    (hleak : DirAddLeaks s.toStore n name) (child mode : Nat) :
    ∃ s' c, dirAdd s n name child mode = (s', false) ∧ s'.Sound ∧ s'.Lost c := by
  obtain ⟨hl, hpos, hlen, hn, hdir, hfree, hind, index, hs, h1, h2⟩ := hleak
  obtain ⟨b1, hlook⟩ := dirLookup_eq s n name
  obtain ⟨b2, hread⟩ := readInode_eq (s.withBuffer b1) n
  obtain ⟨b3, hslot⟩ := dirSlot_eq (s.withBuffer b2) n
  simp only [FsSt.withBuffer_withBuffer, FsSt.withBuffer_toStore] at hread hslot
  have hg := @ensureInodeBlock_grown s.table (s.withBuffer b3) h.owned n (index / 8)
  obtain ⟨s₁, inode, r, he⟩ : ∃ s₁ inode r,
      ensureInodeBlock (s.withBuffer b3) (s.table n) (index / 8) = (s₁, inode, r) :=
    ⟨_, _, _, rfl⟩
  rw [he] at hg
  have hleaf : leaf s.disk (s.table n) (index / 8) = 0 := by
    rw [leaf_of_slot (leafSlot_entry (by omega) (by omega))]
    exact if_pos (Or.inl hind)
  have hr : r = none := by
    by_contra hne
    have hneed := hg.granted hne hleaf
    rw [need, if_pos ⟨by omega, hind⟩, show (s.withBuffer b3).free = s.free from rfl, hfree] at hneed
    omega
  rw [hr] at hg he
  obtain ⟨hb, htable⟩ := @Becomes.dropCopy (s.withBuffer b3) _ _ _ _ h hg
  rcases hg.leaked rfl with ⟨-, -, hbig | hzero⟩ | ⟨-, -, -, -, c, hc, hfalse, htrue⟩
  · omega
  · rw [show (s.withBuffer b3).free = s.free from rfl, hfree] at hzero
    omega
  · refine ⟨s₁, c, ?_, hb.sound, hc, htrue, fun k => ?_⟩
    · rw [dirAdd, hlook, hl]
      dsimp only
      rw [if_neg (by omega), hread, if_pos hn]
      dsimp only
      rw [if_neg (not_not_intro (show (inodeAt s.disk n).mode &&& 0xff = 2 from hdir)), hslot, hs]
      dsimp only
      rw [dirInsert, show ensureInodeBlock (s.withBuffer b3) (inodeAt s.disk n) (index / 8) = _
        from he]
    · rw [htable, show owner (s.withBuffer b3).table s₁.disk = owner s.table s.disk from
        h.owned.owner_congr (hg.agree rfl)]
      exact h.owned.not_own hfalse

theorem dirRemoveLoop_cases {s : FsSt} (h : s.Sound) (n : Nat) (name : List UInt8)
    (left i : Nat) (b0 : Region) :
    (∃ b, dirRemoveLoop (s.table n) name left i (s.withBuffer b0) = (s.withBuffer b, false) ∧
      ∀ j e, scan (s.volume.entry n) (named name) left i ≠ .found j e) ∨
    ∃ s' j e, dirRemoveLoop (s.table n) name left i (s.withBuffer b0) = (s', true) ∧
      scan (s.volume.entry n) (named name) left i = .found j e ∧
      s'.table = s.table ∧ Becomes s s' (s.volume.bury n j) True := by
  induction left generalizing i b0 with
  | zero => exact Or.inl ⟨b0, rfl, fun j e hf => by cases hf⟩
  | succ left ih =>
    unfold dirRemoveLoop scan
    rcases loadEntryBlock_cases (s.withBuffer b0) n i with ⟨he, b, hl⟩ | ⟨k, hk, hz, he, hl⟩
    · simp only [FsSt.withBuffer_withBuffer, FsSt.withBuffer_toStore] at he hl
      rw [show loadEntryBlock (s.withBuffer b0) (s.table n) i = _ from hl, he]
      exact Or.inl ⟨b, rfl, fun j e hf => by cases hf⟩
    simp only [FsSt.withBuffer_withBuffer, FsSt.withBuffer_toStore] at hk he hl
    rw [show loadEntryBlock (s.withBuffer b0) (s.table n) i = _ from hl, he]
    dsimp only
    have hentry : bufferEntry (s.withBuffer (s.disk k)) i =
        Dirent.decode (s.disk k) (i % 8 * 64) := rfl
    have hk : leaf s.disk (s.table n) (i / 8) = k := hk
    rw [hentry]
    by_cases hp : named name (Dirent.decode (s.disk k) (i % 8 * 64)) = true
    · rw [if_pos hp, if_pos (named_iff.mp hp)]
      have hreal : DataBlock k := hk ▸ h.owned.dataBlock_leaf (hk ▸ hz)
      have hlt : k < 16384 := by unfold DataBlock at hreal; omega
      have hfill := (Dirty.refl h n s.blockBuffer).fill hreal hk
        (Dirent.bury (s.disk k) (i % 8 * 64)) (Dirent.bury (s.disk k) (i % 8 * 64))
      have hblock : s.volume.block n (i / 8) = some (s.disk k) := by
        rw [Store.volume_eq, h.owned.view_block, hk, if_neg hz]
      rw [FsSt.writeBlock_of_lt hlt]
      refine Or.inr ⟨_, i, _, rfl, rfl, hfill.table, ?_⟩
      have hclean := hfill.clean
      unfold Volume.bury
      rw [hblock, Option.getD_some]
      exact hclean
    · rw [if_neg hp, if_neg fun hlive => hp (named_iff.mpr hlive)]
      exact ih (i + 1) (s.disk k)

theorem dirRemove_cases {s : FsSt} (h : s.Sound) (n : Nat) (name : List UInt8) :
    (∃ b, dirRemove s n name = (s.withBuffer b, false) ∧ (n < 256 → ∀ j e,
        scan (s.volume.entry n) (named name) (s.volume.count n) 0 ≠ .found j e)) ∨
    ∃ s' j e, dirRemove s n name = (s', true) ∧ n < 256 ∧
      scan (s.volume.entry n) (named name) (s.volume.count n) 0 = .found j e ∧
      s'.table = s.table ∧ Becomes s s' (s.volume.bury n j) True := by
  obtain ⟨b, hb⟩ := readInode_eq s n
  unfold dirRemove
  rw [hb]
  by_cases hn : n < 256
  · rw [if_pos hn]
    rcases dirRemoveLoop_cases h n name ((s.table n).size / 64) 0 b with
      ⟨c, hc, hnot⟩ | ⟨s', j, e, hs', hfound, htable, hbec⟩
    · exact Or.inl ⟨c, hc, fun _ => hnot⟩
    · exact Or.inr ⟨s', j, e, hs', hn, hfound, htable, hbec⟩
  · rw [if_neg hn]
    exact Or.inl ⟨b, rfl, fun h => absurd h hn⟩

end MiniOs.Fs
