import MiniOs.Proofs.Nodes
import MiniOs.Spec.Namespace
import MiniOs.Tools.Mkfs

/-!
# The builder lays out a volume

The builder has no disk yet, but it has a table of inodes and an array of bytes,
and that is all `view` needs: the volume of a builder is what its image shows
through its inodes. Its functions then do to that volume what the kernel's do to
theirs, and the lemmas of `View.lean` about linking a block serve both.

`Builder.Ok` is the invariant. Besides the ledger it says what spares the
builder from ever clearing a block: a block not handed out yet is still blank.
-/

namespace MiniOs.Tools

open MiniOs.Lib MiniOs.Fs MiniOs.Spec Function

/-! ## Sectors of a flat image -/

theorem sectors_local {image image' : Region} {c : Nat}
    (h : ∀ i, i < 512 * c ∨ 512 * c + 512 ≤ i → image' i = image i) :
    sectors image' = update (sectors image) c (sectors image' c) := by
  funext c'
  by_cases hc : c' = c
  · rw [hc, update_self]
  · rw [update_of_ne hc]
    funext i
    unfold sectors
    split
    · exact h _ (by omega)
    · rfl

theorem sectors_blit (image src : Region) {c o len : Nat} (h : o + len ≤ 512) :
    sectors (image.blit (c * 512 + o) src len) =
      update (sectors image) c ((sectors image c).blit o src len) := by
  rw [@sectors_local image _ c fun i hi => Region.blit_out (by omega)]
  congr 1
  funext i
  unfold sectors
  dsimp only
  by_cases hin : o ≤ i ∧ i < o + len
  · rw [if_pos (by omega), Region.blit_in (by omega) (by omega), Region.blit_in hin.1 hin.2]
    congr 1
    omega
  · rw [Region.blit_out (show i < o ∨ o + len ≤ i by omega)]
    split
    · exact Region.blit_out (by omega)
    · rfl

theorem sectors_putWord (image : Region) {c o : Nat} (v : Nat) (h : o + 4 ≤ 512) :
    sectors (image.putWord (c * 512 + o) v) =
      update (sectors image) c ((sectors image c).putWord o v) := by
  have hblit : ∀ (r : Region) (off : Nat), r.putWord off v = r.blit off (Region.wordByte v) 4 := by
    intro r off
    funext i
    unfold Region.putWord Region.putWords Region.blit
    split
    · rw [show (i - off) % 4 = i - off by omega]
    · rfl
  rw [hblit, hblit, sectors_blit _ _ h]

/-- `struct.pack_into` writes the same 64 bytes as `dir_add`. -/
theorem packDirent_eq_put (r : Region) (off child mode : Nat) {name : List UInt8}
    (hname : name.length ≤ 55) :
    Builder.packDirent r off child mode name = Dirent.put r off child mode name := by
  funext i
  unfold Builder.packDirent Dirent.put Region.putWord Region.putWords Region.blit
  dsimp only
  by_cases h1 : off + 8 ≤ i ∧ i < off + 8 + 56
  · rw [if_pos h1]
    by_cases h2 : i < off + 8 + (name.length + 1)
    · rw [if_pos ⟨h1.1, h2⟩]
    · rw [if_neg fun h => h2 h.2, if_neg (by omega), if_neg (by omega), if_pos (by omega),
        List.getD_eq_default _ _ (by omega)]
      rfl
  · rw [if_neg h1, if_neg (show ¬ (off + 8 ≤ i ∧ i < off + 8 + (name.length + 1)) by omega)]
    split
    · rfl
    · split
      · rfl
      · rw [if_neg (by omega)]

theorem sectors_packDirent (image : Region) {c o child mode : Nat} {name : List UInt8}
    (h : o + 64 ≤ 512) (hname : name.length ≤ 55) :
    sectors (Builder.packDirent image (c * 512 + o) child mode name) =
      update (sectors image) c (Dirent.put (sectors image c) o child mode name) := by
  rw [← packDirent_eq_put _ _ _ _ hname]
  unfold Builder.packDirent
  rw [Nat.add_assoc, Nat.add_assoc, sectors_blit _ _ (by omega), sectors_putWord _ _ (by omega),
    sectors_putWord _ _ (by omega)]
  simp only [update_self, update_idem]

/-! ## What an inode takes -/

/-- `count` blocks of an inode, with the indirect table they need. -/
def withTable (count : Nat) : Nat := count + if 10 < count then 1 else 0

/-- The blocks an inode of `size` bytes takes. -/
def blocksFor (size : Nat) : Nat := withTable ((size + 511) / 512)

theorem withTable_mono {m n : Nat} (h : m ≤ n) : withTable m ≤ withTable n := by
  simp only [withTable]
  repeat' split
  all_goals omega

theorem blocksFor_mono {m n : Nat} (h : m ≤ n) : blocksFor m ≤ blocksFor n :=
  withTable_mono (by omega)

namespace Builder

/-- The image, sector by sector. -/
def disk (b : Builder) : Disk := sectors b.image

/-- The volume laid out so far. -/
def volume (b : Builder) : Volume := view b.inodeUsed b.inode b.disk

/-- What holds of a builder between two of its functions. -/
structure Ok (b : Builder) : Prop where
  owned : Owned b.inode b.disk b.blockUsed
  exact : Exact DataBlock (owner b.inode b.disk) b.blockUsed
  /-- A block not handed out is blank. -/
  blank : ∀ c, DataBlock c → b.blockUsed c = false → b.disk c = Region.zero
  /-- Nothing is written below the data area before `finish`. -/
  low : ∀ i, i < 19456 → b.image i = 0
  fits : ∀ n, (b.inode n).Fits
  exists_iff : ∀ n, b.inodeUsed n = (b.inodes n).isSome
  /-- Inode numbers are given out in order. -/
  next : ∃ m, 1 ≤ m ∧ m ≤ 256 ∧ ∀ n, b.inodeUsed n = decide (n < m)
  reserved : ∀ c, c < 38 ∨ 15360 ≤ c → b.blockUsed c = true

theorem inode_setInode (b : Builder) (n : Nat) (x : Inode) :
    (b.setInode n x).inode = update b.inode n x := by
  funext m
  unfold inode setInode
  dsimp only
  by_cases hm : m = n
  · rw [hm, update_self, update_self]
    rfl
  · rw [update_of_ne hm, update_of_ne hm]

/-- The builder after `allocBlock` took a block. -/
def take (b : Builder) (c : Nat) : Builder :=
  { b with blockUsed := update b.blockUsed c true }

/-- The number of blocks left. -/
def free (b : Builder) : Nat := freeCount b.blockUsed

theorem allocBlock_cases (b : Builder) :
    (b.allocBlock = .error .dataFull ∧ b.free = 0) ∨
    ∃ c, DataBlock c ∧ b.blockUsed c = false ∧ b.allocBlock = .ok (b.take c, c) := by
  unfold allocBlock
  split
  · next h =>
    refine Or.inl ⟨rfl, freeCount_eq_zero fun c hc => ?_⟩
    rw [List.find?_eq_none] at h
    unfold DataBlock at hc
    simpa using h c (List.mem_range'_1.mpr (by omega))
  · next c h =>
    have hfree := List.find?_some h
    have hmem := List.mem_range'_1.mp (List.mem_of_find?_eq_some h)
    exact Or.inr ⟨c, ⟨by omega, by omega⟩, by simpa using hfree, rfl⟩

/-! ## Linking a block -/

section Link

variable {b b' : Builder} {n i c : Nat}

/-- One block goes to one empty slot. -/
theorem Ok.acquire (h : b.Ok) (hc : DataBlock c) (hfree : b.blockUsed c = false)
    {k : Nat × Fs.Slot} (hempty : owner b.inode b.disk k = none)
    (howner : owner b'.inode b'.disk = update (owner b.inode b.disk) k (some c))
    (hmark : b'.blockUsed = update b.blockUsed c true)
    (hdisk : ∀ c', b.blockUsed c' = false → b'.disk c' = b.disk c')
    (hlow : ∀ i, i < 19456 → b'.image i = b.image i)
    (hfits : ∀ m, (b'.inode m).Fits) (hused : b'.inodeUsed = b.inodeUsed)
    (hsome : ∀ m, (b'.inodes m).isSome = (b.inodes m).isSome) : b'.Ok where
  owned := Ledger.acquire h.owned hc hfree howner hmark
  exact := Exact.acquire h.exact hempty howner hmark
  blank c' hc' hfree' := by
    rw [hmark] at hfree'
    by_cases heq : c' = c
    · rw [heq, update_self] at hfree'
      cases hfree'
    · rw [update_of_ne heq] at hfree'
      rw [hdisk c' hfree', h.blank c' hc' hfree']
  low i hi := by rw [hlow i hi, h.low i hi]
  fits := hfits
  exists_iff m := by rw [hused, hsome, h.exists_iff]
  next := by rw [hused]; exact h.next
  reserved c' hc' := by
    rw [hmark]
    by_cases heq : c' = c
    · rw [heq, update_self]
    · rw [update_of_ne heq, h.reserved c' hc']

/-- Rewriting an inode that exists creates none. -/
theorem isSome_setInode (h : b.Ok) (hn : b.inodeUsed n = true) (x : Inode) (m : Nat) :
    ((b.setInode n x).inodes m).isSome = (b.inodes m).isSome := by
  unfold setInode
  dsimp only
  by_cases hm : m = n
  · rw [hm, update_self, ← h.exists_iff, hn]
    rfl
  · rw [update_of_ne hm]

theorem fits_setInode (h : b.Ok) {x : Inode} (hx : x.Fits) (m : Nat) :
    ((b.setInode n x).inode m).Fits := by
  rw [inode_setInode]
  by_cases hm : m = n
  · rw [hm, update_self]
    exact hx
  · rw [update_of_ne hm]
    exact h.fits m

/-- What `fileBlock` did for block `i` of inode `n`. -/
structure Ensured (b b' : Builder) (n i block : Nat) : Prop where
  ok : b'.Ok
  inodeUsed : b'.inodeUsed = b.inodeUsed
  others : ∀ m, m ≠ n → b'.inode m = b.inode m
  indirect : (b'.inode n).indirect = 0 ↔ (b.inode n).indirect = 0 ∧ i < 10
  view : b'.volume = b.volume.ensureBlock n i
  mapped : leaf b'.disk (b'.inode n) i = block
  real : DataBlock block

theorem Ensured.refl (h : b.Ok) (hl : leaf b.disk (b.inode n) i = c) (hc : c ≠ 0)
    (hind : 10 ≤ i → (b.inode n).indirect ≠ 0) : Ensured b b n i c where
  ok := h
  inodeUsed := rfl
  others _ _ := rfl
  indirect := by
    refine ⟨fun hz => ⟨hz, ?_⟩, And.left⟩
    by_contra hge
    exact hind (by omega) hz
  view := by
    have hsome : b.volume.block n i ≠ none := by
      unfold volume
      rw [h.owned.view_block, hl, if_neg hc]
      exact Option.some_ne_none _
    unfold Volume.ensureBlock
    rw [if_neg hsome]
  mapped := hl
  real := hl ▸ h.owned.dataBlock_leaf (hl ▸ hc)

theorem Ok.linkDirect (h : b.Ok) (hn : b.inodeUsed n = true) {i : Fin 10}
    (hz : (b.inode n).direct i = 0) (hc : DataBlock c) (hfree : b.blockUsed c = false) :
    Ensured b ((b.take c).setInode n ((b.inode n).setDirect i c)) n i c := by
  have hinode : ((b.take c).setInode n ((b.inode n).setDirect i c)).inode =
      update b.inode n ((b.inode n).setDirect i c) :=
    inode_setInode (b.take c) n _
  have hleaf : leaf b.disk (b.inode n) i = 0 := by
    rw [leaf_of_slot (leafSlot_direct i.isLt)]
    exact hz
  constructor
  case ok =>
    refine h.acquire (k := (n, .direct i)) hc hfree (owner_eq_none.mpr hz) ?_ rfl
      (fun _ _ => rfl) (fun _ _ => rfl) ?_ rfl (isSome_setInode h hn _)
    · rw [hinode]
      exact owner_link_direct hc i
    · exact fits_setInode h ((h.fits n).setDirect i hc)
  case inodeUsed => rfl
  case others =>
    intro m hm
    rw [hinode, update_of_ne hm]
  case indirect =>
    rw [hinode, update_self]
    exact ⟨fun hz => ⟨hz, i.isLt⟩, And.left⟩
  case view =>
    unfold volume Volume.ensureBlock
    rw [h.owned.view_block, hleaf, if_pos rfl, if_pos rfl, hinode]
    have hview := @view_link_direct b.inode b.disk n c hc i b.inodeUsed
    rw [h.blank c hc hfree] at hview
    exact hview
  case mapped =>
    rw [hinode, update_self, leaf_setDirect, if_pos rfl]
  case real => exact hc

/-- A fresh indirect table shows nothing. -/
theorem Ok.linkIndirect (h : b.Ok) (hn : b.inodeUsed n = true)
    (hz : (b.inode n).indirect = 0) (hc : DataBlock c) (hfree : b.blockUsed c = false) :
    ((b.take c).setInode n ((b.inode n).setIndirect c)).Ok ∧
      ((b.take c).setInode n ((b.inode n).setIndirect c)).volume = b.volume := by
  have hinode : ((b.take c).setInode n ((b.inode n).setIndirect c)).inode =
      update b.inode n ((b.inode n).setIndirect c) :=
    inode_setInode (b.take c) n _
  have hzero : b.disk c = Region.zero := h.blank c hc hfree
  refine ⟨?_, ?_⟩
  · refine h.acquire (k := (n, .indirect)) hc hfree (owner_eq_none.mpr hz) ?_ rfl
      (fun _ _ => rfl) (fun _ _ => rfl) ?_ rfl (isSome_setInode h hn _)
    · rw [hinode]
      exact owner_link_indirect hc hzero hz
    · exact fits_setInode h ((h.fits n).setIndirect hc)
  · unfold volume
    rw [hinode]
    exact view_link_indirect hc hzero hz b.inodeUsed

theorem word_sectors (image : Region) {o : Nat} (h : o + 4 ≤ 512) :
    (sectors image c).word o = image.word (c * 512 + o) := by
  unfold Region.word sectors
  rw [if_pos (by omega), if_pos (by omega), if_pos (by omega), if_pos (by omega)]
  simp only [Nat.mul_comm, Nat.add_assoc]

theorem Ok.linkEntry (h : b.Ok) (hp : (b.inode n).indirect ≠ 0) {j : Fin 128}
    (hz : leaf b.disk (b.inode n) (10 + j) = 0) (hc : DataBlock c)
    (hfree : b.blockUsed c = false) :
    Ensured b { b.take c with
        image := b.image.putWord ((b.inode n).indirect * 512 + j * 4) c } n (10 + j) c := by
  obtain ⟨b', hb'⟩ : ∃ b', b' = { b.take c with
    image := b.image.putWord ((b.inode n).indirect * 512 + j * 4) c } := ⟨_, rfl⟩
  rw [← hb']
  have hreal := h.owned.dataBlock_indirect hp
  have hslot : leafSlot (10 + j) = some (.entry j) := by
    rw [leafSlot_entry (by omega) (by omega)]
    simp
  have hinode : b'.inode = b.inode := by rw [hb']; rfl
  have hdisk : b'.disk = putEntry b.disk (b.inode n) j c := by
    unfold disk putEntry
    rw [hb', Nat.mul_comm 4]
    exact sectors_putWord _ _ (by omega)
  have hnot : ∀ k, owner b.inode b.disk k ≠ some c := fun k => h.owned.not_own hfree
  constructor
  case ok =>
    refine @Ok.acquire b b' c h hc hfree (n, .entry j) ?_ ?_ (by rw [hb']; rfl) ?_ ?_ ?_
      (by rw [hb']; rfl) (fun m => by rw [hb']; rfl)
    · rw [owner_eq_none, ← leaf_of_slot hslot, hz]
    · rw [hinode, hdisk, owner_link_entry h.owned hc hp]
    · intro c' hfree'
      rw [hdisk]
      refine update_of_ne ?_ ..
      rintro rfl
      exact h.owned.not_own hfree' (owner_indirect hp)
    · intro i hi
      unfold DataBlock at hreal
      rw [hb']
      exact if_neg (by omega)
    · rw [hinode]
      exact h.fits
  case inodeUsed => rw [hb']; rfl
  case others => exact fun m _ => by rw [hinode]
  case indirect =>
    rw [hinode]
    exact ⟨fun hzero => absurd hzero hp, And.left⟩
  case view =>
    have hview := view_link_entry h.owned hc hp hnot j b.inodeUsed
    rw [h.blank c hc hfree] at hview
    unfold volume Volume.ensureBlock
    rw [h.owned.view_block, hz, if_pos rfl, if_pos rfl, hinode, hdisk, ← hview, hb']
    rfl
  case mapped =>
    rw [hinode, hdisk, leaf_putEntry h.owned hc hp, if_pos ⟨rfl, rfl⟩]
  case real => exact hc

end Link

/-! ## The functions of the builder -/

section Functions

variable {b : Builder} {n i c : Nat}

/-- What a logical block costs: nothing where it is there. -/
def price (b : Builder) (n i : Nat) : Nat :=
  if leaf b.disk (b.inode n) i = 0 then need (b.inode n) i else 0

theorem free_take (hc : DataBlock c) (hfree : b.blockUsed c = false) :
    (b.take c).free + 1 = b.free := freeCount_update hc hfree

theorem tableBlock_cases (h : b.Ok) (hp : (b.inode n).indirect ≠ 0) (hi : 10 ≤ i)
    (hlt : i - 10 < 128) :
    (b.tableBlock n (i - 10) true = .error .dataFull ∧ b.free < b.price n i) ∨
    ∃ b' block, b.tableBlock n (i - 10) true = .ok (b', block) ∧
      Ensured b b' n i block ∧ b'.free + b.price n i = b.free := by
  have hreal := h.owned.dataBlock_indirect hp
  have hword : b.image.word ((b.inode n).indirect * 512 + (i - 10) * 4) =
      leaf b.disk (b.inode n) i := by
    rw [leaf_of_slot (leafSlot_entry hi hlt)]
    unfold slotPtr tableEntry disk DataBlock at *
    dsimp only
    rw [if_neg (by omega), word_sectors _ (by omega), Nat.mul_comm 4]
  have hneed : need (b.inode n) i = 1 := by
    unfold need
    rw [if_neg fun hn => hp hn.2]
  unfold tableBlock price
  dsimp only
  rw [hword, hneed]
  by_cases hz : leaf b.disk (b.inode n) i = 0
  · rw [if_pos ⟨hz, rfl⟩, if_pos hz]
    rcases b.allocBlock_cases with ⟨heq, hfree⟩ | ⟨c, hc, hfree, heq⟩
    · rw [heq]
      exact Or.inl ⟨rfl, by omega⟩
    · rw [heq]
      refine Or.inr ⟨_, c, rfl, ?_, free_take hc hfree⟩
      have hlink := Ok.linkEntry (j := ⟨i - 10, hlt⟩) h hp
        (by rw [show 10 + (i - 10) = i by omega]; exact hz) hc hfree
      rwa [show 10 + (⟨i - 10, hlt⟩ : Fin 128).val = i by simp; omega] at hlink
  · rw [if_neg fun h => hz h.1, if_neg hz]
    exact Or.inr ⟨b, _, rfl, Ensured.refl h rfl hz fun _ => hp, rfl⟩

theorem fileBlock_cases (h : b.Ok) (hn : b.inodeUsed n = true) (i : Nat) :
    (∃ e, b.fileBlock n i true = .error e ∧ (138 ≤ i ∨ b.free < b.price n i)) ∨
    ∃ b' block, b.fileBlock n i true = .ok (b', block) ∧ Ensured b b' n i block ∧
      b'.free + b.price n i = b.free := by
  unfold fileBlock
  by_cases hi : i < 10
  · rw [dif_pos hi]
    have hleaf : leaf b.disk (b.inode n) i = (b.inode n).direct ⟨i, hi⟩ :=
      leaf_of_slot (leafSlot_direct hi)
    have hneed : need (b.inode n) i = 1 := by
      unfold need
      rw [if_neg (by omega)]
    unfold price
    rw [hleaf, hneed]
    by_cases hz : (b.inode n).direct ⟨i, hi⟩ = 0
    · rw [if_pos ⟨hz, rfl⟩, if_pos hz]
      rcases b.allocBlock_cases with ⟨heq, hfree⟩ | ⟨c, hc, hfree, heq⟩
      · rw [heq]
        exact Or.inl ⟨_, rfl, Or.inr (by omega)⟩
      · rw [heq]
        exact Or.inr ⟨_, c, rfl, h.linkDirect hn hz hc hfree, free_take hc hfree⟩
    · rw [if_neg fun h => hz h.1, if_neg hz]
      exact Or.inr ⟨b, _, rfl, Ensured.refl h hleaf hz (fun _ => by omega), rfl⟩
  · rw [dif_neg hi]
    by_cases hlt : i - 10 ≥ 128
    · rw [if_pos hlt]
      exact Or.inl ⟨_, rfl, Or.inl (by omega)⟩
    rw [if_neg hlt]
    by_cases hp : (b.inode n).indirect = 0
    · have hleaf : leaf b.disk (b.inode n) i = 0 := by
        rw [leaf_of_slot (leafSlot_entry (by omega) (by omega))]
        exact if_pos (Or.inl hp)
      have hprice : b.price n i = 2 := by
        unfold price need
        rw [if_pos hleaf, if_pos ⟨by omega, hp⟩]
      rw [if_pos hp, if_pos rfl, hprice]
      rcases b.allocBlock_cases with ⟨heq, hfree⟩ | ⟨c, hc, hfree, heq⟩
      · rw [heq]
        exact Or.inl ⟨_, rfl, Or.inr (by omega)⟩
      rw [heq]
      dsimp only
      obtain ⟨b1, hb1⟩ : ∃ b1, b1 = (b.take c).setInode n ((b.inode n).setIndirect c) :=
        ⟨_, rfl⟩
      have hinode : b1.inode = update b.inode n ((b.inode n).setIndirect c) := by
        rw [hb1]
        exact inode_setInode (b.take c) n _
      have hind : (b1.inode n).indirect = c := by
        rw [hinode, update_self]
        rfl
      obtain ⟨hok, hvol⟩ := h.linkIndirect hn hp hc hfree
      rw [← hb1] at hok hvol
      have hcount : b1.free + 1 = b.free := by
        rw [hb1]
        exact free_take hc hfree
      -- the new table is blank, so its entry is missing too
      have hprice1 : b1.price n i = 1 := by
        have hblock : b1.volume.block n i = b.volume.block n i := by rw [hvol]
        unfold volume at hblock
        rw [hok.owned.view_block, h.owned.view_block, hleaf, if_pos rfl] at hblock
        unfold price need
        rw [if_neg (show ¬ (10 ≤ i ∧ (b1.inode n).indirect = 0) from
          fun h => hc.ne_zero (hind ▸ h.2))]
        split at hblock
        · next hz => rw [if_pos hz]
        · cases hblock
      have hset : (b.take c).setInode n { (b.take c).inode n with indirect := c } = b1 :=
        hb1.symm
      rw [hset]
      rcases tableBlock_cases hok (hind ▸ hc.ne_zero) (show 10 ≤ i by omega) (by omega) with
        ⟨heq1, hlt1⟩ | ⟨b2, block, heq1, hens, hfree1⟩
      · exact Or.inl ⟨_, heq1, Or.inr (by omega)⟩
      refine Or.inr ⟨b2, block, heq1, ?_, by omega⟩
      refine ⟨hens.ok, ?_, fun m hm => ?_, ?_, ?_, hens.mapped, hens.real⟩
      · rw [hens.inodeUsed, hb1]
        rfl
      · rw [hens.others m hm, hinode, update_of_ne hm]
      · rw [hens.indirect, hind]
        exact ⟨fun h => absurd h.1 hc.ne_zero, fun h => absurd h.2 hi⟩
      · rw [hens.view, hvol]
    · rw [if_neg hp]
      rcases tableBlock_cases h hp (show 10 ≤ i by omega) (by omega) with
        ⟨heq, hlt1⟩ | hok
      · exact Or.inl ⟨_, heq, Or.inr hlt1⟩
      · exact Or.inr hok

/-- Writing to the sector of a mapped block. -/
theorem Ok.fill (h : b.Ok) (hl : leaf b.disk (b.inode n) i = c) (hc : DataBlock c)
    {image : Region} {r : Region} (hsector : sectors image = update b.disk c r)
    (hlow : ∀ i, i < 19456 → image i = b.image i) :
    { b with image := image }.Ok ∧ { b with image := image }.volume = b.volume.setBlock n i r := by
  have hdisk : ({ b with image := image } : Builder).disk = update b.disk c r :=
    hsector
  have hown := owner_update_leaf h.owned hl hc.ne_zero r
  refine ⟨⟨?_, ?_, fun c' hc' hfree => ?_, fun i hi => ?_, h.fits, h.exists_iff, h.next,
    h.reserved⟩, ?_⟩
  · rw [hdisk]
    unfold Owned
    exact hown ▸ h.owned
  · rw [hdisk]
    exact hown ▸ h.exact
  · rw [hdisk, update_of_ne]
    · exact h.blank c' hc' hfree
    · rintro rfl
      obtain ⟨slot, -, ho⟩ := @owner_leaf b.inode b.disk n i (hl ▸ hc.ne_zero)
      exact h.owned.not_own hfree (hl ▸ ho)
  · exact (hlow i hi).trans (h.low i hi)
  · unfold volume
    rw [hdisk]
    exact view_update_leaf h.owned hl hc.ne_zero r b.inodeUsed

theorem volume_setInode {x : Inode} (hsame : x.SameBlocks (b.inode n)) :
    (b.setInode n x).volume = b.volume.setNode n x.node := by
  unfold volume
  rw [inode_setInode, view_sameBlocks hsame, update_eq_self]
  rfl

theorem Ok.setNode (h : b.Ok) (hn : b.inodeUsed n = true) {x : Inode}
    (hsame : x.SameBlocks (b.inode n)) (hf : x.Fits) :
    (b.setInode n x).Ok ∧ (b.setInode n x).volume = b.volume.setNode n x.node := by
  have hown : owner (b.setInode n x).inode (b.setInode n x).disk = owner b.inode b.disk := by
    rw [inode_setInode, owner_sameBlocks hsame, update_eq_self]
    rfl
  refine ⟨⟨?_, ?_, h.blank, h.low, fits_setInode h hf, fun m => ?_, h.next, h.reserved⟩,
    volume_setInode hsame⟩
  · unfold Owned
    rw [hown]
    exact h.owned
  · rw [hown]
    exact h.exact
  · rw [isSome_setInode h hn]
    exact h.exists_iff m

end Functions

/-! ## What the functions do to the volume -/

section Effects

variable {b b' : Builder} {n : Nat}

theorem Ensured.fill {i c : Nat} (h : Ensured b b' n i c) {image : Region}
    (f : Region → Region) (hsector : sectors image = update b'.disk c (f (b'.disk c)))
    (hlow : ∀ i, i < 19456 → image i = b'.image i) :
    { b' with image := image }.Ok ∧ { b' with image := image }.volume =
      b.volume.setBlock n i (f ((b.volume.block n i).getD Region.zero)) := by
  have hblock : b'.disk c = (b.volume.block n i).getD Region.zero := by
    have hself := b.volume.ensureBlock_block_self n i
    rw [← h.view] at hself
    unfold volume at hself
    rw [h.ok.owned.view_block, h.mapped, if_neg h.real.ne_zero] at hself
    exact Option.some.inj hself
  obtain ⟨hok, hvol⟩ := h.ok.fill h.mapped h.real hsector hlow
  refine ⟨hok, ?_⟩
  rw [hvol, h.view, Volume.setBlock_ensureBlock, hblock]

/-- The start of a block is overwritten. -/
theorem Ensured.blit {i c len : Nat} (h : Ensured b b' n i c) (src : Region) (hlen : len ≤ 512) :
    { b' with image := b'.image.blit (c * 512) src len }.Ok ∧
      { b' with image := b'.image.blit (c * 512) src len }.volume =
        b.volume.setBlock n i (((b.volume.block n i).getD Region.zero).blit 0 src len) := by
  have hreal := h.real
  unfold DataBlock at hreal
  have hsector := @sectors_blit b'.image src c 0 len (by omega)
  rw [Nat.add_zero] at hsector
  exact h.fill (fun r => r.blit 0 src len) hsector fun i hi => Region.blit_out (by omega)

theorem Ensured.node {i c : Nat} (h : Ensured b b' n i c) (m : Nat) :
    (b'.inode m).node = (b.inode m).node := by
  have hnode := congrFun (congrArg Volume.node h.view) m
  rw [Volume.ensureBlock_node] at hnode
  exact hnode

/-- The data of a file as a region. -/
def bytesOf (data : List UInt8) : Region := fun i => data.getD i 0

theorem blit_congr {r src src' : Region} {off len : Nat} (h : ∀ i, i < len → src i = src' i) :
    r.blit off src len = r.blit off src' len := by
  funext i
  unfold Region.blit
  split
  · next hi => exact h _ (by omega)
  · rfl

/-! ## The account -/

/-- The first `k` blocks of an inode are there and no others, and it has an
indirect table only if one of them needs it. -/
structure Filled (b : Builder) (n k : Nat) : Prop where
  block : ∀ j, b.volume.block n j ≠ none ↔ j < k
  table : (b.inode n).indirect = 0 ↔ k ≤ 10

/-- Every inode is filled up to its size. -/
def Snug (b : Builder) : Prop := ∀ n, b.Filled n (((b.inode n).size + 511) / 512)

/-- What the next block of an inode takes, or one it has. -/
theorem Filled.price (h : b.Filled n k) (hok : b.Ok) (hj : j ≤ k) :
    b.price n j + withTable k = withTable (max k (j + 1)) := by
  have hblock := h.block j
  unfold volume at hblock
  rw [hok.owned.view_block] at hblock
  simp only [Builder.price, need, withTable]
  by_cases hz : leaf b.disk (b.inode n) j = 0
  · rw [if_pos hz] at hblock ⊢
    have hge : ¬ j < k := fun hlt => hblock.mpr hlt rfl
    have htable := h.table
    obtain rfl : j = k := by omega
    rw [Nat.max_eq_right (by omega)]
    split
    · next hneed =>
      have := htable.mp hneed.2
      rw [if_neg (by omega), if_pos (by omega)]
      omega
    · next hneed =>
      by_cases h10 : j ≤ 10
      · have hlt : ¬ 10 ≤ j := fun h => hneed ⟨h, htable.mpr h10⟩
        rw [if_neg (by omega), if_neg (by omega)]
        omega
      · rw [if_pos (by omega), if_pos (by omega)]
        omega
  · rw [if_neg hz] at hblock ⊢
    have hlt := hblock.mp (Option.some_ne_none _)
    rw [Nat.max_eq_left (by omega), Nat.zero_add]

theorem fileBlock_filled {i k : Nat} (h : b.Ok) (hn : b.inodeUsed n = true) (hf : b.Filled n k)
    (hi : i ≤ k) :
    (∃ e, b.fileBlock n i true = .error e ∧
      (138 ≤ i ∨ b.free + withTable k < withTable (max k (i + 1)))) ∨
    ∃ b' c, b.fileBlock n i true = .ok (b', c) ∧ Ensured b b' n i c ∧
      b'.free + withTable (max k (i + 1)) = b.free + withTable k := by
  have hprice := hf.price h hi
  rcases fileBlock_cases h hn i with ⟨e, heq, hbad⟩ | ⟨b', c, heq, hens, hcount⟩
  · exact Or.inl ⟨e, heq, by omega⟩
  · exact Or.inr ⟨b', c, heq, hens, by omega⟩

/-- A block that was written is filled, and the other inodes keep what they have. -/
theorem Ensured.filled {i c : Nat} {b₂ : Builder} {r : Region} (h : Ensured b b' n i c)
    (hinode : b₂.inode = b'.inode) (hvol : b₂.volume = b.volume.setBlock n i r) :
    (∀ {k}, b.Filled n k → i ≤ k → b₂.Filled n (max k (i + 1))) ∧
      ∀ {m k}, m ≠ n → b.Filled m k → b₂.Filled m k := by
  constructor
  · refine fun hf hi => ⟨fun j => ?_, ?_⟩
    · rw [hvol, Volume.setBlock_block]
      by_cases hj : j = i
      · rw [if_pos ⟨rfl, hj⟩]
        exact ⟨fun _ => by omega, fun _ => Option.some_ne_none _⟩
      · rw [if_neg fun h => hj h.2, hf.block j]
        omega
    · rw [hinode, h.indirect, hf.table]
      omega
  · refine fun hm hf => ⟨fun j => ?_, ?_⟩
    · rw [hvol, Volume.setBlock_block, if_neg fun h => hm h.1]
      exact hf.block j
    · rw [hinode, h.others _ hm]
      exact hf.table

/-- What an inode says besides its blocks does not matter. -/
theorem Filled.congr (h : b.Filled n k) (hblock : b'.volume.block n = b.volume.block n)
    (hind : (b'.inode n).indirect = (b.inode n).indirect) : b'.Filled n k where
  block i := by
    rw [hblock]
    exact h.block i
  table := by
    rw [hind]
    exact h.table

/-- The size is set once the blocks are there. -/
theorem snug_setSize {size : Nat} (hf : b.Filled n ((size + 511) / 512))
    (hother : ∀ m, m ≠ n → b.Filled m (((b.inode m).size + 511) / 512)) :
    (b.setInode n { b.inode n with size := size }).Snug := by
  intro m
  have hinode := inode_setInode b n { b.inode n with size := size }
  have hblock : (b.setInode n { b.inode n with size := size }).volume.block = b.volume.block := by
    rw [@volume_setInode b n { b.inode n with size := size } ⟨rfl, rfl⟩]
    rfl
  by_cases hm : m = n
  · subst hm
    rw [hinode, update_self]
    exact hf.congr (by rw [hblock]) (by rw [hinode, update_self])
  · rw [hinode, update_of_ne hm]
    exact (hother m hm).congr (by rw [hblock]) (by rw [hinode, update_of_ne hm])

theorem Ok.setSize (h : b.Ok) (hn : b.inodeUsed n = true) {size : Nat}
    (hsize : size < 2 ^ 32) :
    (b.setInode n { b.inode n with size := size }).Ok ∧
      (b.setInode n { b.inode n with size := size }).volume =
        b.volume.setNode n { b.volume.node n with size := size } :=
  have hf := h.fits n
  h.setNode hn ⟨rfl, rfl⟩ ⟨hf.mode, hsize, hf.parent, hf.links, hf.direct, hf.indirect, hf.reserved⟩

/-! ## The functions that write -/

theorem writeLoop_cases {V : Volume} {data : List UInt8} {left logical : Nat} (h : b.Ok)
    (hn : b.inodeUsed n = true) (hf : b.Filled n logical)
    (hV : b.volume = V.writeBytes n 0 (bytesOf data) (min (logical * 512) data.length))
    (hleft : left + logical = (data.length + 511) / 512) :
    (∃ e, writeLoop n data left logical b = .error e ∧
      (138 < left + logical ∨ b.free + withTable logical < withTable (left + logical))) ∨
    ∃ b', writeLoop n data left logical b = .ok b' ∧ b'.Ok ∧ b'.inodeUsed = b.inodeUsed ∧
      b'.volume = V.writeBytes n 0 (bytesOf data) data.length ∧ b'.Filled n (left + logical) ∧
      (∀ m k, m ≠ n → b.Filled m k → b'.Filled m k) ∧
      b'.free + withTable (left + logical) = b.free + withTable logical := by
  -- how much of the file is written is the invariant; the chunk of a round is
  -- cut off at the end of the data, and so is the progress
  induction left generalizing logical b with
  | zero =>
    rw [Nat.zero_add]
    refine Or.inr ⟨b, rfl, h, rfl, ?_, hf, fun _ _ _ hk => hk, rfl⟩
    rw [hV, Nat.min_eq_right (by omega)]
  | succ left ih =>
    have hmono := @withTable_mono (logical + 1) (left + 1 + logical) (by omega)
    have hmax : max logical (logical + 1) = logical + 1 := Nat.max_eq_right (by omega)
    have hfirst := fileBlock_filled h hn hf (Nat.le_refl logical)
    rw [hmax] at hfirst
    rw [writeLoop]
    rcases hfirst with ⟨e, heq, hbad⟩ | ⟨b1, c, heq, hens, hcount⟩
    · rw [heq]
      exact Or.inl ⟨e, rfl, by omega⟩
    rw [heq]
    dsimp only
    obtain ⟨chunk, hchunk⟩ : ∃ chunk, chunk = min 512 (data.length - logical * 512) := ⟨_, rfl⟩
    have hlen : ((data.drop (logical * 512)).take 512).length = chunk := by
      rw [List.length_take, List.length_drop, hchunk]
    have hbytes : ∀ i, i < chunk → ((data.drop (logical * 512)).take 512).getD i 0 =
        bytesOf data (logical * 512 + i) := by
      intro i hi
      unfold bytesOf
      rw [List.getD_eq_getElem?_getD, List.getD_eq_getElem?_getD,
        List.getElem?_take_of_lt (by omega), List.getElem?_drop]
    rw [hlen, blit_congr hbytes]
    generalize hb2 :
      { b1 with image := b1.image.blit (c * 512) (fun i => bytesOf data (logical * 512 + i)) chunk } =
        b2
    obtain ⟨hok, hvol⟩ := @Ensured.blit _ _ _ _ _ chunk hens
      (fun i => bytesOf data (logical * 512 + i)) (by omega)
    rw [hb2] at hok hvol
    have hused : b2.inodeUsed = b.inodeUsed := by rw [← hb2]; exact hens.inodeUsed
    have hfree : b2.free = b1.free := by rw [← hb2]; rfl
    obtain ⟨hself, hothers⟩ := hens.filled (by rw [← hb2]; rfl) hvol
    have hf2 := hself hf (Nat.le_refl _)
    have hstep := @Volume.writeBytes_step V n 0 (bytesOf data) (logical * 512) chunk
      (by omega) (by omega)
    rw [Nat.zero_add, show logical * 512 / 512 = logical by omega,
      show logical * 512 % 512 = 0 by omega] at hstep
    rw [hV, Nat.min_eq_left (by omega), hstep,
      show logical * 512 + chunk = min ((logical + 1) * 512) data.length by omega] at hvol
    have hrest := ih hok (hused ▸ hn) (hmax ▸ hf2) hvol (by omega)
    rw [show left + (logical + 1) = left + 1 + logical by omega] at hrest
    rcases hrest with ⟨e, hrun, hbad⟩ | ⟨b', hrun, hok', hused', hvol', hf', hothers', hcount'⟩
    · exact Or.inl ⟨e, hrun, by omega⟩
    · exact Or.inr ⟨b', hrun, hok', hused'.trans hused, hvol', hf',
        fun m k hm hk => hothers' m k hm (hothers hm hk), by omega⟩

theorem writeFile_cases {data : List UInt8} (h : b.Ok) (hs : b.Snug) (hn : b.inodeUsed n = true)
    (hsize : (b.inode n).size = 0) :
    (∃ e, b.writeFile n data = .error e ∧
      (data.length ≤ 65536 → b.free < blocksFor data.length)) ∨
    ∃ b', b.writeFile n data = .ok b' ∧ data.length ≤ 65536 ∧ b'.Ok ∧ b'.Snug ∧
      b'.inodeUsed = b.inodeUsed ∧
      b'.volume = (b.volume.writeBytes n 0 (bytesOf data) data.length).setNode n
        { b.volume.node n with size := data.length } ∧
      b'.free + blocksFor data.length = b.free := by
  rw [writeFile]
  by_cases hlong : data.length > 65536
  · rw [if_pos hlong]
    exact Or.inl ⟨_, rfl, fun hle => absurd hle (by omega)⟩
  rw [if_neg hlong]
  have hf := hs n
  rw [hsize] at hf
  have hzero : withTable 0 = 0 := rfl
  rcases @writeLoop_cases b n b.volume data ((data.length + 511) / 512) 0 h hn hf
    (by rw [Nat.zero_mul, Nat.zero_min, Volume.writeBytes_zero]) rfl with
    ⟨e, heq, hbad⟩ | ⟨b1, heq, hok, hused, hvol, hf1, hothers, hcount⟩
  · rw [heq]
    refine Or.inl ⟨e, rfl, fun _ => ?_⟩
    unfold blocksFor
    rw [Nat.add_zero] at hbad
    omega
  rw [heq]
  obtain ⟨hok', hvol'⟩ := hok.setSize (hused ▸ hn) (show data.length < 2 ^ 32 by omega)
  refine Or.inr ⟨_, rfl, by omega, hok', snug_setSize hf1 fun m hm => ?_, hused, ?_, ?_⟩
  · have hnode : (b1.inode m).size = (b.inode m).size :=
      congrArg (fun V : Volume => (V.node m).size) hvol
    rw [hnode]
    exact hothers m _ hm (hs m)
  · rw [hvol', hvol]
    rfl
  · exact hcount

theorem addDirent_cases {i child mode : Nat} {name : HostName} (h : b.Ok) (hs : b.Snug)
    (hn : b.inodeUsed n = true) (hlegal : name.Legal) (hsize : (b.inode n).size = 64 * i) :
    (∃ e, b.addDirent n name child mode = .error e ∧ (name.utf8 = true →
      name.bytes.length ≤ 55 → i < 1104 → b.free + blocksFor (64 * i) < blocksFor (64 * (i + 1)))) ∨
    ∃ b', b.addDirent n name child mode = .ok b' ∧ name.utf8 = true ∧
      name.bytes.length ≤ 55 ∧ b'.Ok ∧ b'.Snug ∧
      b'.inodeUsed = b.inodeUsed ∧ b'.volume = b.volume.addEntry n i child mode name.bytes ∧
      b'.free + blocksFor (64 * (i + 1)) = b.free + blocksFor (64 * i) := by
  rw [addDirent]
  by_cases hutf8 : name.utf8 = false
  · rw [if_pos hutf8]
    exact Or.inl ⟨_, rfl, fun h => absurd (hutf8.symm.trans h) (by decide)⟩
  rw [if_neg hutf8]
  by_cases hname : name.bytes = [] ∨ name.bytes.length > 55 ∨ slash ∈ name.bytes
  · rw [if_pos hname]
    refine Or.inl ⟨_, rfl, fun _ hlen => ?_⟩
    rcases hname with hnil | hlong | hslash
    · exact absurd hnil hlegal.1
    · omega
    · exact absurd hslash hlegal.2.2.1
  rw [if_neg hname]
  have hlen : name.bytes.length ≤ 55 := by
    by_contra hlong
    exact hname (Or.inr (Or.inl (by omega)))
  have hf := hs n
  rw [hsize] at hf
  have hmax : max ((64 * i + 511) / 512) (i / 8 + 1) = (64 * (i + 1) + 511) / 512 := by omega
  have hblock := @fileBlock_filled b n (i / 8) _ h hn hf (by omega)
  rw [hmax] at hblock
  dsimp only
  rw [hsize, Nat.mul_div_cancel_left i (by decide)]
  rcases hblock with ⟨e, heq, hbad⟩ | ⟨b1, c, heq, hens, hcount⟩
  · rw [heq]
    refine Or.inl ⟨e, rfl, fun _ _ hi => ?_⟩
    unfold blocksFor
    omega
  rw [heq]
  dsimp only
  generalize hb2 : { b1 with
    image := packDirent b1.image (c * 512 + i % 8 * 64) child mode name.bytes } = b2
  have hreal := hens.real
  unfold DataBlock at hreal
  have hi : i / 8 < 138 := by
    refine @lt_of_leaf_ne_zero b1.disk _ (b1.inode n) ?_
    rw [hens.mapped]
    exact hens.real.ne_zero
  obtain ⟨hok, hvol⟩ := hens.fill (fun r => Dirent.put r (i % 8 * 64) child mode name.bytes)
    (sectors_packDirent b1.image (by omega) hlen) fun k hk => by
      rw [packDirent_eq_put _ _ _ _ hlen]
      exact Dirent.put_out hlen (by omega)
  rw [hb2] at hok hvol
  have hinode : b2.inode = b1.inode := by rw [← hb2]; rfl
  have hsizes : ∀ m, (b2.inode m).size = (b.inode m).size := by
    intro m
    rw [hinode]
    exact congrArg Node.size (hens.node m)
  have hused : b2.inodeUsed = b.inodeUsed := by rw [← hb2]; exact hens.inodeUsed
  obtain ⟨hself, hothers⟩ := hens.filled hinode hvol
  obtain ⟨hok', hvol'⟩ := hok.setSize (hused ▸ hn) (show 64 * (i + 1) < 2 ^ 32 by omega)
  refine Or.inr ⟨b2.setInode n { b2.inode n with size := 64 * (i + 1) }, ?_,
    Bool.not_eq_false _ ▸ hutf8, hlen, hok',
    snug_setSize ?_ fun m hm => ?_, hused, hvol'.trans ?_, ?_⟩
  · rw [hsizes, hsize, Nat.mul_succ]
  · rw [← hmax]
    exact hself hf (by omega)
  · rw [hsizes]
    exact hothers hm (hs m)
  · have hindex : i = b.volume.count n := by
      show i = (b.inode n).size / 64
      omega
    rw [hvol]
    unfold Volume.addEntry
    rw [if_pos hindex, show 64 * (i + 1) = (b.inode n).size + 64 by omega]
    rfl
  · rw [← hb2]
    exact hcount

/-- A new inode takes the next number. -/
theorem allocInode_cases {mode parent k : Nat} (h : b.Ok) (hs : b.Snug) (hmode : mode < 2 ^ 32)
    (hparent : parent < 2 ^ 32) (hpos : 1 ≤ k) (hnext : ∀ m, b.inodeUsed m = decide (m < k)) :
    (∃ e, b.allocInode mode parent = .error e ∧ 256 ≤ k) ∨
    ∃ b', b.allocInode mode parent = .ok (b', k) ∧ k < 256 ∧ b'.Ok ∧ b'.Snug ∧
      b'.inodeUsed = update b.inodeUsed k true ∧
      b'.volume = b.volume.plant k ⟨mode, 0, parent, 1⟩ ∧ b'.free = b.free := by
  rw [allocInode]
  by_cases hlt : k < 256
  · have hfind : (List.range' 1 255).find? (fun n => !b.inodeUsed n) = some k := by
      rw [List.find?_range'_eq_some]
      refine ⟨by rw [hnext]; simp, List.mem_range'_1.mpr (by omega), fun m _ hm => ?_⟩
      rw [hnext]
      simpa using hm
    rw [hfind]
    obtain ⟨b1, hb1⟩ : ∃ b1, b1 =
      { b with inodeUsed := update b.inodeUsed k true }.setInode k (newInode mode parent) := ⟨_, rfl⟩
    have hinode : b1.inode = update b.inode k (newInode mode parent) := by
      rw [hb1, inode_setInode]
      rfl
    have hdisk : b1.disk = b.disk := by rw [hb1]; rfl
    have hused : b1.inodeUsed = update b.inodeUsed k true := by rw [hb1]; rfl
    have hzero : b.inode k = Inode.zero := by
      have hnone := h.exists_iff k
      rw [hnext, decide_eq_false (Nat.lt_irrefl k)] at hnone
      unfold inode
      rw [Option.isSome_eq_false_iff.mp hnone.symm |> Option.isNone_iff_eq_none.mp]
      rfl
    have hbare : (newInode mode parent).Bare := freshInode_bare mode parent
    obtain ⟨hgone, hkeep⟩ := @owner_update_bare b.disk _ b.inode hbare k
    have hown : owner b1.inode b1.disk = owner b.inode b.disk := by
      rw [hinode, hdisk]
      funext s
      by_cases hs : s.1 = k
      · rw [hgone s hs]
        refine (owner_eq_none.mpr ?_).symm
        rw [hs, hzero]
        exact Inode.bare_zero _ _
      · exact hkeep s hs
    have hvol : b1.volume = b.volume.plant k ⟨mode, 0, parent, 1⟩ := by
      unfold volume
      rw [hinode, hdisk, hused]
      exact view_update_bare hbare k _
    have hblocks : b1.blockUsed = b.blockUsed := by rw [hb1]; rfl
    have hok : b1.Ok := by
      refine ⟨?_, ?_, ?_, ?_, ?_, fun n => ?_, ⟨k + 1, by omega, by omega, fun n => ?_⟩, ?_⟩
      · unfold Owned
        rw [hown, hblocks]
        exact h.owned
      · rw [hown, hblocks]
        exact h.exact
      · rw [hdisk, hblocks]
        exact h.blank
      · rw [hb1]
        exact h.low
      · rw [hb1]
        exact fits_setInode h (freshInode_fits hmode hparent)
      · rw [hb1]
        unfold setInode
        dsimp only
        by_cases hn : n = k
        · rw [hn, update_self, update_self]
          rfl
        · rw [update_of_ne hn, update_of_ne hn]
          exact h.exists_iff n
      · rw [hused]
        by_cases hn : n = k
        · rw [hn, update_self]
          simp
        · rw [update_of_ne hn, hnext, decide_eq_decide]
          omega
      · rw [hblocks]
        exact h.reserved
    have hsnug : b1.Snug := by
      intro m
      by_cases hm : m = k
      · subst hm
        have hnone : ((newInode mode parent).size + 511) / 512 = 0 := by simp [newInode]
        rw [hinode, update_self, hnone]
        refine ⟨fun j => ?_, ?_⟩
        · rw [hvol]
          exact ⟨fun hsome => absurd (if_pos rfl) hsome, fun hj => absurd hj (Nat.not_lt_zero j)⟩
        · rw [hinode, update_self]
          exact ⟨fun _ => Nat.zero_le _, fun _ => rfl⟩
      · rw [hinode, update_of_ne hm]
        refine (hs m).congr ?_ (by rw [hinode, update_of_ne hm])
        rw [hvol]
        funext j
        exact if_neg hm
    exact Or.inr ⟨b1, by rw [hb1], hlt, hok, hsnug, hused, hvol, by rw [hb1]; rfl⟩
  · have hfind : (List.range' 1 255).find? (fun n => !b.inodeUsed n) = none := by
      rw [List.find?_eq_none]
      intro m hm
      have hbound := List.mem_range'_1.mp hm
      simp [hnext]
      omega
    rw [hfind]
    exact Or.inl ⟨_, rfl, by omega⟩

end Effects

end Builder
end MiniOs.Tools
