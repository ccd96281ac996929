import MiniOs.Proofs.Nodes

/-!
# The write path

`write_at` goes through the range block by block on a copy of the inode, stops
where a block cannot be had, and stores the copy with the size the range now
needs. What it leaves is the volume with the bytes written so far, whichever way
the loop ended, which is `Volume.writeBytes`.

The loop is by induction on its fuel. The invariant says how much is done: the
volume seen through the copy is the old one with `done` bytes written.

Next to it runs an account. A block that is no longer free is a block of the file or its
table of indirect blocks, so the free blocks, the blocks of the file and the table are as
many after a write as before. Two writes that leave the same file have then cost the
same, whatever pieces they came in.
-/

namespace MiniOs.Fs

open MiniOs.Lib MiniOs.Spec

/-- The first block a write needs could not be had. -/
def Refused (st : Store) (inode : Inode) (offset : Nat) : Prop :=
  leaf st.disk inode (offset / 512) = 0 ∧ st.free < need inode (offset / 512)

/-- The blocks of a file. -/
def held (V : Volume) (n : Nat) : Nat :=
  ((Finset.range 138).filter fun i => (V.block n i).isSome = true).card

theorem held_setBlock (V : Volume) (n : Nat) {i : Nat} (hi : i < 138) (r : Region) :
    held (V.setBlock n i r) n = held V n + if V.block n i = none then 1 else 0 := by
  have hafter : ((Finset.range 138).filter fun j => ((V.setBlock n i r).block n j).isSome = true) =
      insert i ((Finset.range 138).filter fun j => (V.block n j).isSome = true) := by
    ext j
    simp only [Finset.mem_filter, Finset.mem_range, Finset.mem_insert, Volume.setBlock_block]
    by_cases hj : j = i
    · simp [hj, hi]
    · simp [hj]
  unfold held
  rw [hafter]
  by_cases hnone : V.block n i = none
  · rw [if_pos hnone, Finset.card_insert_of_notMem (by simp [hnone])]
  · rw [if_neg hnone, Finset.insert_eq_of_mem, Nat.add_zero]
    simpa [hi] using Option.isSome_iff_ne_none.mpr hnone

/-- A write through the inode `n` that came as far as block `last`, by what it cost. -/
structure Spent (free free' : Nat) (inode inode' : Inode) (V V' : Volume) (n last : Nat) :
    Prop where
  balance : free' + linked inode' + held V' n = free + linked inode + held V n
  kept : inode.indirect ≠ 0 → inode'.indirect ≠ 0
  low : last < 10 → inode'.indirect = inode.indirect

theorem Spent.refl (free : Nat) (inode : Inode) (V : Volume) (n last : Nat) :
    Spent free free inode inode V V n last :=
  ⟨rfl, id, fun _ => rfl⟩

theorem Spent.trans {free free1 free2 : Nat} {inode inode1 inode2 : Inode} {V V1 V2 : Volume}
    {n last last' : Nat} (h : Spent free free1 inode inode1 V V1 n last)
    (h' : Spent free1 free2 inode1 inode2 V1 V2 n last') (hle : last ≤ last') :
    Spent free free2 inode inode2 V V2 n last' :=
  ⟨h'.balance.trans h.balance, fun hne => h'.kept (h.kept hne),
    fun hlt => (h'.low hlt).trans (h.low (by omega))⟩

theorem writeLoop_spec {s : FsSt} {n : Nat} {V : Volume} (source : Region) (offset : Nat)
    {fuel : Nat} {s0 : FsSt} {inode : Inode} {done left : Nat}
    (h : Dirty s s0 n inode (V.writeBytes n offset source done)) (hfuel : left ≤ fuel)
    (hmax : offset + done + left ≤ 65536) :
    ∃ s' inode' done',
      writeLoop source fuel s0 inode (offset + done) left done = (s', inode', some done') ∧
      done ≤ done' ∧ done' ≤ done + left ∧
      Dirty s s' n inode' (V.writeBytes n offset source done') ∧
      (done' = done ↔ left = 0 ∨ Refused s0.toStore inode (offset + done)) ∧
      (done' = done + left ∨ s'.free = 0 ∧
        (V.writeBytes n offset source done').block n ((offset + done') / 512) = none) ∧
      Spent s0.free s'.free inode inode' (V.writeBytes n offset source done)
        (V.writeBytes n offset source done') n ((offset + done') / 512) := by
  induction fuel generalizing s0 inode done left with
  | zero =>
    exact ⟨s0, inode, done, rfl, Nat.le_refl _, by omega, h,
      ⟨fun _ => Or.inl (by omega), fun _ => rfl⟩, Or.inl (by omega), Spent.refl _ _ _ _ _⟩
  | succ fuel ih =>
    unfold writeLoop
    by_cases hleft : left = 0
    · rw [if_pos hleft]
      exact ⟨s0, inode, done, rfl, Nat.le_refl _, by omega, h,
        ⟨fun _ => Or.inl hleft, fun _ => rfl⟩, Or.inl (by omega), Spent.refl _ _ _ _ _⟩
    rw [if_neg hleft]
    obtain ⟨s1, inode1, r, he⟩ : ∃ s1 inode1 r,
        ensureInodeBlock s0 inode ((offset + done) / 512) = (s1, inode1, r) :=
      ⟨_, _, _, rfl⟩
    obtain ⟨hd, hmapped, hrefused, hgranted⟩ := h.grow he
    obtain ⟨hbalance, hkept, hlow⟩ := h.spent he
    rw [he]
    cases r with
    | none =>
      have hnot := (hrefused rfl).resolve_left (by omega)
      rw [if_neg fun hno => hno.1 rfl] at hbalance
      exact ⟨s1, inode1, done, rfl, Nat.le_refl _, by omega, hd,
        ⟨fun _ => Or.inr hnot, fun _ => rfl⟩,
        Or.inr ⟨h.exhausted he (by omega), (h.block_eq_none _).mpr hnot.1⟩,
        ⟨by omega, hkept, hlow⟩⟩
    | some block =>
      obtain ⟨hl, hb⟩ := hmapped block rfl
      have hlt : block < 16384 := by unfold DataBlock at hb; omega
      have hsector := Dirty.sector hd hl hb
      dsimp only
      rw [readBlock_eq hlt]
      dsimp only
      rw [FsSt.writeBlock_of_lt hlt]
      obtain ⟨chunk, hchunk⟩ : ∃ chunk, chunk = min left (512 - (offset + done) % 512) := ⟨_, rfl⟩
      obtain ⟨filled, hfilled⟩ : ∃ filled, filled = (s1.disk block).blit
          ((offset + done) % 512) (fun i => source (done + i)) chunk := ⟨_, rfl⟩
      have hfill := Dirty.fill hd hb hl filled filled
      simp only [Option.isSome_some, if_true] at hfill
      rw [Volume.setBlock_ensureBlock, hfilled, hsector,
        Volume.writeBytes_step V n offset source (by omega) (by omega), ← hsector,
        ← hfilled] at hfill
      have hround : Spent s0.free s1.free inode inode1
          (V.writeBytes n offset source done) (V.writeBytes n offset source (done + chunk)) n
          ((offset + done) / 512) := by
        refine ⟨?_, hkept, hlow⟩
        rw [← Volume.writeBytes_step V n offset source (by omega) (by omega),
          held_setBlock _ _ (by omega)]
        simp only [ne_eq, reduceCtorEq, not_false_eq_true, true_and] at hbalance
        omega
      obtain ⟨s', inode', done', hloop, h1, h2, hd', -, hshort, hspent⟩ := ih hfill
        (show left - chunk ≤ fuel by omega) (by omega)
      have hnot : ¬ Refused s0.toStore inode (offset + done) := fun href =>
        absurd (hgranted (Option.some_ne_none _) href.1) (Nat.not_le.mpr href.2)
      refine ⟨s', inode', done', ?_, by omega, by omega, hd',
        ⟨fun hsame => by omega, fun hor => absurd hor (not_or.mpr ⟨hleft, hnot⟩)⟩,
        hshort.imp_left fun hall => by omega, hround.trans hspent (by omega)⟩
      simp only [FsSt.withBuffer_blockBuffer, ← hchunk, ← hfilled]
      rw [Nat.add_assoc]
      exact hloop

theorem writeAt_cases {s : FsSt} (h : s.Sound) (n offset : Nat) (buffer : Region)
    (length : Nat) :
    (offset ≥ 65536 ∧ writeAt s n offset buffer length = (s, some 0)) ∨
    (∃ b, ¬ (n < 256 ∧ (s.volume.node n).IsFile) ∧
      writeAt s n offset buffer length = (s.withBuffer b, none)) ∨
    ∃ s' done, offset < 65536 ∧ n < 256 ∧ (s.volume.node n).IsFile ∧
      writeAt s n offset buffer length = (s', some done) ∧
      done ≤ min length (65536 - offset) ∧
      (done = 0 ↔ length = 0 ∨ Refused s.toStore (s.table n) offset) ∧
      (done = min length (65536 - offset) ∨
        s'.free = 0 ∧ s'.volume.block n ((offset + done) / 512) = none) ∧
      Spent s.free s'.free (s.table n) (s'.table n) s.volume s'.volume n ((offset + done) / 512) ∧
      Becomes s s' ((s.volume.writeBytes n offset buffer done).setNode n
          { s.volume.node n with size := max (s.volume.node n).size (offset + done) })
        (s.ibit n = true) := by
  unfold writeAt
  by_cases hoff : offset ≥ 65536
  · rw [if_pos hoff]
    exact Or.inl ⟨hoff, rfl⟩
  rw [if_neg hoff]
  right
  obtain ⟨b, hb⟩ := readInode_eq s n
  dsimp only
  rw [hb]
  by_cases hn : n < 256
  · rw [if_pos hn]
    dsimp only
    by_cases hfile : (inodeAt s.disk n).mode &&& 0xff = 1
    · rw [if_neg (not_not_intro hfile)]
      right
      have hrefl : Dirty s (s.withBuffer b) n (s.table n)
          (s.volume.writeBytes n offset buffer 0) := by
        rw [Volume.writeBytes_zero]
        exact Dirty.refl h n b
      obtain ⟨s1, inode1, done, hloop, -, hdone, hd, hzero, hshort, hspent⟩ :=
        writeLoop_spec buffer offset hrefl (Nat.le_refl (min length (65536 - offset))) (by omega)
      have hloop : writeLoop buffer (min length (65536 - offset)) (s.withBuffer b)
          (inodeAt s.disk n) offset (min length (65536 - offset)) 0 =
            (s1, inode1, some done) := hloop
      rw [hloop]
      dsimp only
      obtain ⟨inode2, hinode2⟩ : ∃ x, x = if offset + done > inode1.size then
          { inode1 with size := offset + done } else inode1 := ⟨_, rfl⟩
      have hsame : inode2.SameBlocks inode1 := by
        rw [hinode2]
        split <;> exact ⟨rfl, rfl⟩
      have hfits : inode2.Fits := by
        rw [hinode2]
        split
        · exact { hd.fits with size := by dsimp only; omega }
        · exact hd.fits
      have hnode : inode2.node = { s.volume.node n with
            size := max (s.volume.node n).size (offset + done) } := by
        rw [show s.volume.node n = inode1.node from hd.node.symm, hinode2]
        split
        · next hlt =>
          rw [show inode1.node.size = inode1.size from rfl, Nat.max_eq_right (by omega)]
          rfl
        · next hge =>
          rw [show inode1.node.size = inode1.size from rfl, Nat.max_eq_left (by omega)]
          rfl
      obtain ⟨b2, hw⟩ := writeInode_eq s1 hn inode2
      rw [← hinode2, hw]
      have hstore := hd.store hn hsame hfits b2
      rw [hnode] at hstore
      refine ⟨_, done, by omega, hn, hfile, rfl, by omega, ?_, ?_, ?_, hstore⟩
      · rw [hzero, show min length (65536 - offset) = 0 ↔ length = 0 by omega]
        exact Iff.rfl
      · rw [hstore.volume]
        exact hshort.imp_left fun hall => by omega
      · rw [hstore.volume, Store.table_putInode hn hfits, Function.update_self]
        rw [Volume.writeBytes_zero] at hspent
        refine ⟨?_, ?_, ?_⟩
        · have hbalance := hspent.balance
          unfold linked at hbalance ⊢
          rw [hsame.2]
          exact hbalance
        · rw [hsame.2]
          exact hspent.kept
        · rw [hsame.2]
          exact hspent.low
    · rw [if_pos hfile]
      exact Or.inl ⟨b, fun hf => hfile hf.2, rfl⟩
  · rw [if_neg hn]
    exact Or.inl ⟨b, fun hf => hn hf.1, rfl⟩

end MiniOs.Fs
