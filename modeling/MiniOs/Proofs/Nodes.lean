import MiniOs.Proofs.Effects

/-!
# Creating, truncating and removing inodes

The functions of the code that change the set of inodes in use or give blocks
back, put together from the lemmas of `Effects.lean`. Each lemma lists the ways
the function can end. A failure is not always a return to the old volume:
`createNode` leaves the record it wrote under a number that is free again, and
`unlinkInode` would leave a name without an inode if the name could not be found
a second time.
-/

namespace MiniOs.Fs

open MiniOs.Lib MiniOs.Spec Function

/-! ## Creation -/

variable {s : FsSt} {k mode parent : Nat} {name : List UInt8}

/-- Taking the number back leaves the record behind. -/
theorem plant_setIbit_false {V : Volume} (node : Node) (hk : V.ibit k = false) :
    (V.plant k node).setIbit k false = (V.clear k).setNode k node := by
  refine Volume.ext' (fun m => ?_) (fun _ => rfl) (fun _ _ => rfl)
  by_cases hm : m = k
  · rw [hm]
    simp [Volume.plant, hk]
  · simp [Volume.plant, hm]

theorem freshInode_fits (hm : mode < 2 ^ 32) (hp : parent < 2 ^ 32) :
    (freshInode mode parent).Fits :=
  { Inode.fits_zero with mode := hm, parent := hp, links := Nat.one_lt_two_pow (by decide) }

/-- The disk once `create_node` has allocated a number and written the inode. -/
def Store.withFresh (st : Store) (k mode parent : Nat) : Store :=
  (st.setIbit k true).putInode k (freshInode mode parent)

section Fresh

variable (h : s.Sound) (hk : k < 256) (hfree : s.ibit k = false) (hm : mode < 2 ^ 32)
  (hp : parent < 2 ^ 32)
include h hk hfree hm hp

theorem Becomes.plant (b : Region) :
    Becomes s { s with toStore := s.toStore.withFresh k mode parent, blockBuffer := b }
      (s.volume.plant k (freshInode mode parent).node) True := by
  have h1 := Becomes.setIbit h k true b
  have h2 := Becomes.putBare h1.sound hk (freshInode_fits hm hp) (freshInode_bare mode parent) b
  rw [h1.volume] at h2
  refine { h1.trans h2 with tidy := fun _ ht => (h1.trans h2).tidy ⟨?_, ?_⟩ ht }
  · exact fun hv => by cases hv
  · dsimp only
    rw [Store.table_setIbit]
    exact ht.bare k hfree

variable (hne : parent ≠ k)
include hne

/-- A directory other than the new inode is the same in the new state. -/
theorem withFresh_same :
    (s.toStore.withFresh k mode parent).volume.SameAt s.volume parent ∧
      (s.toStore.withFresh k mode parent).table parent = s.table parent := by
  have hvol := (Becomes.plant h hk hfree hm hp s.blockBuffer).volume
  constructor
  · rw [hvol]
    exact Volume.plant_sameAt s.volume (freshInode mode parent).node hne
  · unfold Store.withFresh
    rw [Store.table_putInode hk (freshInode_fits hm hp), update_of_ne hne, Store.table_setIbit]

/-- A directory other than the new inode leaks in the new state just if it would
have leaked in the old one. -/
theorem dirAddLeaks_withFresh :
    DirAddLeaks (s.toStore.withFresh k mode parent) parent name ↔
      DirAddLeaks s.toStore parent name := by
  obtain ⟨hsame, htable⟩ := withFresh_same h hk hfree hm hp hne
  unfold DirAddLeaks
  rw [hsame.lookup, hsame.slot, hsame.1, htable]
  exact Iff.rfl

/-- A directory other than the new inode can take a name in the new state just if it can in
the old one. -/
theorem nameable_withFresh :
    Nameable (s.toStore.withFresh k mode parent) parent name ↔ Nameable s.toStore parent name := by
  obtain ⟨hsame, htable⟩ := withFresh_same h hk hfree hm hp hne
  constructor
  · rintro ⟨hlt, hdir, hlook, hpos, hshort, hslot⟩
    rw [hsame.1] at hdir
    rw [hsame.lookup] at hlook
    rw [hsame.slot, hsame.2, htable] at hslot
    exact ⟨hlt, hdir, hlook, hpos, hshort, hslot⟩
  · rintro ⟨hlt, hdir, hlook, hpos, hshort, hslot⟩
    refine ⟨hlt, ?_, ?_, hpos, hshort, ?_⟩
    · rw [hsame.1]
      exact hdir
    · rw [hsame.lookup]
      exact hlook
    · rw [hsame.slot, hsame.2, htable]
      exact hslot

end Fresh

/-- Up to the call of `dir_add`: no number is free, or the new inode stands under the first
that was. -/
theorem createNode_planted (h : s.Sound) (name : List UInt8) (hp : parent < 2 ^ 32)
    (hm : mode < 2 ^ 32) :
    (∃ b, createNode s parent name mode = (s.withBuffer b, none) ∧
      ∀ k, 1 ≤ k → k < 256 → s.ibit k = true) ∨
    ∃ s1 k, 1 ≤ k ∧ k < 256 ∧ s.ibit k = false ∧ (∀ m, 1 ≤ m → m < k → s.ibit m = true) ∧
      s1.toStore = s.toStore.withFresh k mode parent ∧
      Becomes s s1 (s.volume.plant k (freshInode mode parent).node) True ∧
      createNode s parent name mode =
        match dirAdd s1 parent name k mode with
        | (s, false) => (freeInodeNumber s k, none)
        | (s, true) => (s, some k) := by
  unfold createNode
  rcases allocInode_cases s with ⟨b, ha, hfull⟩ | ⟨b, k, hk1, hk2, hfree, hleast, ha⟩
  · rw [ha]
    exact Or.inl ⟨b, rfl, hfull⟩
  · obtain ⟨b1, hw⟩ := writeInode_eq
      { s with toStore := s.toStore.setIbit k true, blockBuffer := b } hk2
      (freshInode mode parent)
    refine Or.inr ⟨_, k, hk1, hk2, hfree, hleast, rfl, Becomes.plant h hk2 hfree hm hp b1, ?_⟩
    rw [ha]
    dsimp only
    rw [hw]
    rfl

/-- The three ways `createNode` ends: no number is free, the name cannot be
added, or the inode is there and named. -/
theorem createNode_cases (h : s.Sound) (name : List UInt8) (hp : parent < 2 ^ 32)
    (hm : mode < 2 ^ 32) :
    (∃ s', createNode s parent name mode = (s', none) ∧ Becomes s s' s.volume True ∧
      ∀ k, 1 ≤ k → k < 256 → s.ibit k = true) ∨
    (∃ s' k, 1 ≤ k ∧ k < 256 ∧ s.ibit k = false ∧ createNode s parent name mode = (s', none) ∧
      Becomes s s' ((s.volume.clear k).setNode k (freshInode mode parent).node)
        (parent ≠ k ∧ ¬ DirAddLeaks s.toStore parent name) ∧
      ∀ m, 1 ≤ m → m < k → s.ibit m = true) ∨
    ∃ s' k index, 1 ≤ k ∧ k < 256 ∧ s.ibit k = false ∧
      createNode s parent name mode = (s', some k) ∧
      DirAddable (s.volume.plant k (freshInode mode parent).node) parent name index ∧
      Becomes s s'
        ((s.volume.plant k (freshInode mode parent).node).addEntry parent index k mode name)
        (s.ibit parent = true) := by
  rcases createNode_planted h name hp hm with
    ⟨b, hnode, hfull⟩ | ⟨s1, k, hk1, hk2, hfree, hleast, hstore, hplant, hnode⟩
  · exact Or.inl ⟨_, hnode, Becomes.refl h b _, hfull⟩
  right
  rw [hnode]
  rcases dirAdd_cases hplant.sound parent name k mode with
    ⟨s2, hadd, htable, -, hb⟩ | ⟨s2, index, hadd, -, haddable, hb⟩
  · left
    rw [hadd]
    obtain ⟨b2, hnumber⟩ := freeInodeNumber_eq s2 hk1 hk2
    dsimp only
    rw [hnumber]
    have hclear := Becomes.setIbit hb.sound k false b2
    rw [hb.volume, hplant.volume, plant_setIbit_false _ hfree] at hclear
    refine ⟨_, k, hk1, hk2, hfree, rfl, (hplant.trans (hb.trans hclear)).mono fun hok =>
      ⟨trivial, fun hleak => ?_, fun _ => ?_⟩, hleast⟩
    · rw [hstore] at hleak
      exact hok.2 ((dirAddLeaks_withFresh h hk2 hfree hm hp hok.1).mp hleak)
    · rw [htable, hstore]
      unfold Store.withFresh
      rw [Store.table_putInode hk2 (freshInode_fits hm hp), update_self]
      exact freshInode_bare mode parent
  · right
    rw [hadd]
    rw [hplant.volume] at hb haddable
    refine ⟨s2, k, index, hk1, hk2, hfree, rfl, haddable,
      (hplant.trans hb).mono fun hused => ⟨trivial, ?_⟩⟩
    have hibit := congrFun (congrArg Volume.ibit hplant.volume) parent
    rw [show s1.ibit parent = _ from hibit]
    unfold Volume.plant
    rw [Volume.setNode_ibit, Volume.clear_ibit, Volume.setIbit_ibit]
    by_cases hpk : parent = k
    · rw [hpk, update_self]
    · rw [update_of_ne hpk]
      exact hused

/-- `createNode` succeeds just if there is a number, and the directory can take the name. -/
theorem createNode_isSome_iff (h : s.Sound) (hused : s.ibit parent = true) (hp : parent < 2 ^ 32)
    (hm : mode < 2 ^ 32) :
    (createNode s parent name mode).2.isSome = true ↔
      (∃ k, 1 ≤ k ∧ k < 256 ∧ s.ibit k = false) ∧ Nameable s.toStore parent name := by
  rcases createNode_planted h name hp hm with
    ⟨b, hnode, hfull⟩ | ⟨s1, k, hk1, hk2, hfree, -, hstore, hplant, hnode⟩
  · rw [hnode]
    refine iff_of_false (fun hsome => by cases hsome) ?_
    rintro ⟨⟨k, hk1, hk2, hfree⟩, -⟩
    exact Bool.false_ne_true (hfree.symm.trans (hfull k hk1 hk2))
  have hne : parent ≠ k := by
    rintro rfl
    exact Bool.false_ne_true (hfree.symm.trans hused)
  have hname := @nameable_withFresh s k mode parent name h hk2 hfree hm hp hne
  rw [← hstore] at hname
  rw [hnode, and_iff_right ⟨k, hk1, hk2, hfree⟩, ← hname]
  rcases dirAdd_cases hplant.sound parent name k mode with
    ⟨s2, hadd, -, hnot, -⟩ | ⟨s2, index, hadd, hcan, -⟩
  · rw [hadd]
    exact iff_of_false (fun hsome => by cases hsome) hnot
  · rw [hadd]
    exact iff_of_true rfl hcan

/-- With an inode to spare, `createNode` runs into the leak of `dir_add`. -/
theorem createNode_leaks (h : s.Sound) (hp : s.ibit parent = true) (hm : mode < 2 ^ 32)
    (hspare : ∃ k, 1 ≤ k ∧ k < 256 ∧ s.ibit k = false) (hleak : DirAddLeaks s.toStore parent name) :
    ∃ s' c, createNode s parent name mode = (s', none) ∧ s'.Lost c := by
  have hlt : parent < 256 := hleak.2.2.2.1
  rcases createNode_planted h name (show parent < 2 ^ 32 by omega) hm with
    ⟨b, -, hfull⟩ | ⟨s1, k, hk1, hk2, hfree, -, hstore, hplant, hnode⟩
  · obtain ⟨k, h1, h2, hfalse⟩ := hspare
    rw [hfull k h1 h2] at hfalse
    cases hfalse
  have hne : parent ≠ k := by
    rintro rfl
    rw [hfree] at hp
    cases hp
  have hleak1 : DirAddLeaks s1.toStore parent name := by
    rw [hstore]
    exact (dirAddLeaks_withFresh h hk2 hfree hm (by omega) hne).mpr hleak
  obtain ⟨s2, c, hadd, hsound, hc, hbit, hnone⟩ := dirAdd_leaks hplant.sound hleak1 k mode
  obtain ⟨b2, hnumber⟩ := freeInodeNumber_eq s2 hk1 hk2
  refine ⟨{ s2 with toStore := s2.toStore.setIbit k false, blockBuffer := b2 }, c, ?_, hc, hbit, ?_⟩
  · rw [hnode, hadd]
    dsimp only
    rw [hnumber]
  · rw [Store.owner_setIbit hsound]
    exact hnone

/-! ## Truncation -/

/-- `truncate_inode` on a stored inode, followed by the write of a bare one. -/
theorem erase_eq (h : s.Sound) {n : Nat} (hn : n < 256) {inode : Inode} (hf : inode.Fits)
    (hbare : inode.Bare) :
    ∃ s1 s', truncateInode s (s.table n) = (s1, (s.table n).truncated) ∧
      writeInode s1 n inode = (s', true) ∧
      s'.table = update s.table n inode ∧
      Becomes s s' ((s.volume.clear n).setNode n inode.node) True := by
  have hp : (s.table n).indirect = 0 ∨ DataBlock (s.table n).indirect := by
    by_cases hz : (s.table n).indirect = 0
    · exact Or.inl hz
    · exact Or.inr (h.owned.dataBlock_indirect hz)
  obtain ⟨b', ht⟩ := truncateInode_eq s hp
  obtain ⟨b, hw⟩ := writeInode_eq { s with
      toStore := s.toStore.dropAll (heldBlocks s.disk (s.table n))
      indirectBuffer := b' } hn inode
  refine ⟨_, _, ht, hw, ?_, Becomes.erase h hn hf hbare b b'⟩
  rw [Store.table_putInode hn hf, Store.table_dropAll]

theorem Inode.Fits.truncated {inode : Inode} (h : inode.Fits) : inode.truncated.Fits :=
  { h with
    size := Nat.two_pow_pos _
    direct := fun _ => Nat.two_pow_pos _
    indirect := Nat.two_pow_pos _ }

/-- `openTruncate` on a regular file, and nothing on anything else. -/
theorem openTruncate_cases (h : s.Sound) (n : Nat) (flags : BitVec 32) :
    (∃ b, openTruncate s n flags = (s.withBuffer b, none) ∧
      ¬ (n < 256 ∧ (s.volume.node n).IsFile)) ∨
    (∃ b, n < 256 ∧ (s.volume.node n).IsFile ∧ wantsTrunc flags = false ∧
      openTruncate s n flags = (s.withBuffer b, some (s.table n))) ∨
    ∃ s', n < 256 ∧ (s.volume.node n).IsFile ∧ wantsTrunc flags = true ∧
      openTruncate s n flags = (s', some (s.table n).truncated) ∧
      Becomes s s' ((s.volume.clear n).setNode n { s.volume.node n with size := 0 }) True := by
  obtain ⟨b, hb⟩ := readInode_eq s n
  unfold openTruncate
  rw [hb]
  by_cases hn : n < 256
  · rw [if_pos hn]
    dsimp only
    by_cases hfile : (inodeAt s.disk n).mode &&& 0xff = 1
    · rw [if_neg (not_not_intro hfile)]
      cases htrunc : wantsTrunc flags with
      | false =>
        exact Or.inr (Or.inl ⟨b, hn, hfile, rfl, rfl⟩)
      | true =>
        obtain ⟨s1, s', ht, hw, -, hbec⟩ := @erase_eq (s.withBuffer b) h n hn
          (s.table n).truncated (Inode.fits_inodeAt s.disk n).truncated
          (Inode.bare_truncated _)
        have ht : truncateInode (s.withBuffer b) (inodeAt s.disk n) =
          (s1, (s.table n).truncated) := ht
        rw [ht]
        rw [hw]
        exact Or.inr (Or.inr ⟨s', hn, hfile, rfl, rfl, hbec.withBuffer⟩)
    · rw [if_pos hfile]
      exact Or.inl ⟨b, rfl, fun h => hfile h.2⟩
  · rw [if_neg hn]
    exact Or.inl ⟨b, rfl, fun h => hn h.1⟩

/-! ## Removal -/

/-- Once an inode may go: its record is zeroed, and then its name and its number
go, unless the name is not there any more. -/
theorem unlinkInode_cases (h : s.Sound) (hk1 : 1 ≤ k) (hk2 : k < 256) (parent : Nat)
    (name : List UInt8) :
    (∃ s', unlinkInode s parent name k (s.table k) = (s', false) ∧ (parent < 256 → ∀ j e,
        scan (((s.volume.clear k).setNode k Node.zero).entry parent) (named name)
          (((s.volume.clear k).setNode k Node.zero).count parent) 0 ≠ .found j e) ∧
      Becomes s s' ((s.volume.clear k).setNode k Node.zero) True) ∨
    ∃ s' j e, unlinkInode s parent name k (s.table k) = (s', true) ∧ parent < 256 ∧
      scan (((s.volume.clear k).setNode k Node.zero).entry parent) (named name)
        (((s.volume.clear k).setNode k Node.zero).count parent) 0 = .found j e ∧
      Becomes s s'
        ((((s.volume.clear k).setNode k Node.zero).bury parent j).setIbit k false) True := by
  obtain ⟨s1, s2, ht, hw, htable, hb⟩ := erase_eq h hk2 Inode.fits_zero Inode.bare_zero
  have hvol : s2.volume = (s.volume.clear k).setNode k Node.zero := hb.volume
  unfold unlinkInode
  rw [ht]
  dsimp only
  rw [hw]
  dsimp only
  rcases dirRemove_cases hb.sound parent name with
    ⟨b, hr, hnot⟩ | ⟨s3, j, e, hr, hp, hfound, htable3, hb3⟩
  · rw [hr]
    rw [hvol] at hnot
    have hrefl := Becomes.refl hb.sound b True
    rw [hvol] at hrefl
    exact Or.inl ⟨_, rfl, hnot, (hb.trans hrefl).mono fun _ => ⟨trivial, trivial⟩⟩
  · rw [hr]
    obtain ⟨b, hnumber⟩ := freeInodeNumber_eq s3 hk1 hk2
    have hclear := Becomes.setIbit hb3.sound k false b
    rw [hb3.volume] at hclear
    dsimp only
    rw [hnumber]
    rw [hvol] at hfound hclear
    refine Or.inr ⟨_, j, e, rfl, hp, hfound,
      (hb.trans (hb3.trans hclear)).mono fun _ => ⟨trivial, trivial, fun _ => ?_⟩⟩
    rw [htable3, htable, update_self]
    exact Inode.bare_zero

end MiniOs.Fs
