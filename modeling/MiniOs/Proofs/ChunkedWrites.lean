import MiniOs.Proofs.ByteStrings
import MiniOs.Proofs.Openings
import MiniOs.Proofs.UserPages

/-!
# Writes in pieces

`sys_write` hands the caller's buffer to `minifs_write` in pieces of 512 bytes, and stops
at the first piece that cannot be read or is not taken whole. `minifs_write` has pieces of
its own, the sectors, and the two need not be aligned. `Landed` does not see either:
bytes of a source have landed where the descriptor stood. It composes, so a run of pieces
is one write of their concatenation.

That the same bytes would have landed in one call is not a matter of composition. A
single write could run out of blocks earlier, if the pieces had come cheaper. They did
not: blocks are spent on the blocks of the file and on its table of indirect blocks, and
both are the same in the end (`Landed.whole`).

The one trace of the pieces is a call that hands over none at all. It leaves the offset of
an `O_APPEND` descriptor where it was, and `minifs_write` would have moved it to the end.
-/

namespace MiniOs.Fs

open MiniOs.Lib MiniOs.Spec MiniOs.Tools

theorem afterWrite_afterWrite (V : Volume) (n offset : Nat) {source rest : Region}
    {done more : Nat} (hrest : ∀ j, j < more → rest j = source (done + j)) :
    afterWrite (afterWrite V n offset source done) n (offset + done) rest more =
      afterWrite V n offset source (done + more) := by
  refine Volume.ext' (fun _ => rfl) (fun m => ?_) fun m j => ?_
  · simp only [afterWrite, Volume.setNode_node, Volume.writeBytes_node]
    rw [Function.update_idem, Function.update_self]
    congr 2
    rw [Nat.max_assoc, Nat.max_eq_right (Nat.le_add_right (offset + done) more), Nat.add_assoc]
  · simp only [afterWrite, Volume.setNode_block]
    rw [← Volume.writeBytes_writeBytes V n offset hrest]
    rfl

/-- A block behind the first ten is in the table of indirect blocks. -/
theorem indirect_of_block {s : FsSt} {n j : Nat} (hj : 10 ≤ j) (h : s.volume.block n j ≠ none) :
    (s.table n).indirect ≠ 0 := by
  intro hzero
  refine h ?_
  have hleaf : leaf s.disk (s.table n) j = 0 := by
    by_contra hne
    have hlt := lt_of_leaf_ne_zero hne
    rw [leaf_of_slot (leafSlot_entry hj (by omega)), slotPtr, if_pos (Or.inl hzero)] at hne
    exact hne rfl
  exact if_pos (Or.inl hleaf)

theorem afterWrite_block_ne_none {V : Volume} {n offset done j : Nat} {source : Region} :
    (afterWrite V n offset source done).block n j ≠ none ↔
      V.block n j ≠ none ∨ Volume.Touches offset done j := by
  rw [afterWrite, Volume.setNode_block, Volume.writeBytes_block]
  by_cases ht : Volume.Touches offset done j
  · rw [if_pos ⟨rfl, ht⟩]
    exact iff_of_true (Option.some_ne_none _) (Or.inr ht)
  · rw [if_neg fun h => ht h.2, or_iff_left ht]

/-- A file with the blocks of another and one more. -/
theorem held_lt {V W : Volume} {n j : Nat}
    (hall : ∀ k, V.block n k ≠ none → W.block n k ≠ none) (hj : j < 138)
    (hmissing : V.block n j = none) (hthere : W.block n j ≠ none) : held V n < held W n := by
  refine Finset.card_lt_card (Finset.ssubset_iff_of_subset ?_ |>.mpr ⟨j, ?_, ?_⟩)
  · intro k hk
    simp only [Finset.mem_filter, Option.isSome_iff_ne_none] at hk ⊢
    exact ⟨hk.1, hall k hk.2⟩
  · simp only [Finset.mem_filter, Finset.mem_range, Option.isSome_iff_ne_none]
    exact ⟨hj, hthere⟩
  · simp [hmissing]

/-! ## One call -/

/-- A descriptor through which a process may write a regular file, from inside it or from
its end. -/
structure Writer (s : FsSt) (pid fd : Int) (i : Fin 64) : Prop extends Writable s pid fd i where
  lt : (s.openFiles i).inode < 256
  regular : (s.volume.node (s.openFiles i).inode).IsFile
  inside : writeOffset s i ≤ (s.volume.node (s.openFiles i).inode).size

/-- The first bytes of a source have landed where a descriptor stood. -/
structure Landed (s s' : FsSt) (i : Fin 64) (source : Region) (done : Nat) : Prop where
  sound : s'.Sound
  volume : s'.volume = afterWrite s.volume (s.openFiles i).inode (writeOffset s i) source done
  slots : SameSlots s.toFdTables s'.toFdTables
  next : writeOffset s' i = writeOffset s i + done
  room : done = 0 ∨ writeOffset s i + done ≤ 65536
  spent : Spent s.free s'.free (s.table (s.openFiles i).inode) (s'.table (s.openFiles i).inode)
    s.volume s'.volume (s.openFiles i).inode ((writeOffset s i + done) / 512)

section Landed

variable {s s₁ s₂ : FsSt} {pid fd : Int} {i : Fin 64} {source rest : Region} {done more : Nat}

/-- Everything about an open file but its offset. -/
theorem SameSlots.entry {t t' : FdTables} (h : SameSlots t t') (i : Fin 64) :
    t'.openFiles i = { t.openFiles i with offset := (t'.openFiles i).offset } := by
  have hfile := h.2 i
  cases hnew : t'.openFiles i
  cases hold : t.openFiles i
  rw [hnew, hold] at hfile
  cases hfile
  rfl

theorem Landed.refl (h : s.Sound) (hw : Writer s pid fd i) (source : Region) :
    Landed s s i source 0 where
  sound := h
  volume := (afterWrite_zero source hw.inside).symm
  slots := .refl _
  next := rfl
  room := Or.inl rfl
  spent := .refl _ _ _ _ _

theorem Landed.writer (h : Landed s s₁ i source done) (hw : Writer s pid fd i) :
    Writer s₁ pid fd i := by
  have hentry := h.slots.entry i
  have hinode : (s₁.openFiles i).inode = (s.openFiles i).inode := by rw [hentry]
  have hnode := congrFun (congrArg Volume.node h.volume) (s.openFiles i).inode
  rw [afterWrite, Volume.setNode_node, Function.update_self] at hnode
  refine ⟨⟨?_, ?_, ?_⟩, ?_, ?_, ?_⟩
  · rw [h.slots.getOpenFile, hw.open_]
  · rw [hentry]
    exact hw.file
  · rw [hentry]
    exact hw.access
  · rw [hinode]
    exact hw.lt
  · rw [hinode, hnode]
    exact hw.regular
  · rw [hinode, hnode, h.next]
    exact Nat.le_max_right _ _

theorem Landed.trans (h : Landed s s₁ i source done) (h' : Landed s₁ s₂ i rest more)
    (hrest : ∀ j, j < more → rest j = source (done + j)) : Landed s s₂ i source (done + more) := by
  have hinode : (s₁.openFiles i).inode = (s.openFiles i).inode := by rw [h.slots.entry i]
  obtain ⟨hsound, hvol, hslots, hnext, hroom, hspent⟩ := h'
  rw [hinode] at hvol hspent
  rw [h.next] at hvol hnext hroom hspent
  refine ⟨hsound, ?_, h.slots.trans hslots, by omega, ?_, ?_⟩
  · rw [hvol, h.volume, afterWrite_afterWrite _ _ _ hrest]
  · have := h.room
    omega
  · rw [← Nat.add_assoc]
    exact h.spent.trans hspent (by omega)

/-- The position of the next write: the new offset, or the new end. -/
theorem writeOffset_moved (hslots : SameSlots s.toFdTables s₁.toFdTables)
    (hsize : (s₁.volume.node (s.openFiles i).inode).size =
      max (s.volume.node (s.openFiles i).inode).size (writeOffset s i + done))
    (hoff : (s₁.openFiles i).offset = writeOffset s i + done) :
    writeOffset s₁ i = writeOffset s i + done := by
  have hentry := hslots.entry i
  rw [writeOffset, hoff, show (s₁.openFiles i).inode = (s.openFiles i).inode by rw [hentry],
    show (s₁.openFiles i).flags = (s.openFiles i).flags by rw [hentry], hsize]
  split
  · next ha =>
    rw [writeOffset, if_pos ha]
    omega
  · rfl

/-- At the size limit nothing is written, but an append moves the offset. -/
theorem minifsWrite_full (h : s.Sound) (hw : Writer s pid fd i) (hfull : 65536 ≤ writeOffset s i)
    (source : Region) (length : Nat) :
    ∃ s', minifsWrite s pid fd (some source) length = (s', 0) ∧ s'.toStore = s.toStore ∧
      SameSlots s.toFdTables s'.toFdTables ∧ (s'.openFiles i).offset = writeOffset s i := by
  unfold minifsWrite
  rw [hw.open_]
  dsimp only
  rw [if_neg (by rw [hw.file]; decide), if_neg (not_or.mpr ⟨not_not_intro hw.file, hw.access⟩)]
  rcases fileWrite_moved s i source length with
    ⟨s', -, -, -, hn⟩ | ⟨s₁, hstore, huart, hfile, hslots, hmoved⟩
  · exact absurd hw.lt hn
  rw [hmoved]
  have hsound : s₁.Sound := by rw [hstore]; exact h
  rcases writeAt_cases hsound (s.openFiles i).inode (writeOffset s i) source
      (min length 0xffffffff) with ⟨-, hat⟩ | ⟨b, hnot, -⟩ | ⟨s₂, done, hoff, -⟩
  · rw [hat]
    refine ⟨_, rfl, hstore, hslots.trans (sameSlots_setOffset s₁ i _), ?_⟩
    rw [setOffset_openFiles_self, hfile]
    rfl
  · rw [hstore] at hnot
    exact absurd ⟨hw.lt, hw.regular⟩ hnot
  · omega

/-- One `minifs_write`: as much as there is room and blocks for. -/
theorem minifsWrite_lands (h : s.Sound) (hw : Writer s pid fd i) (source : Region)
    (length : Nat) :
    ∃ (s' : FsSt) (done : Nat), minifsWrite s pid fd (some source) length = (s', (done : Int)) ∧
      Landed s s' i source done ∧ (s'.openFiles i).offset = writeOffset s i + done ∧
      done ≤ length ∧
      (done < length → 65536 ≤ writeOffset s i + done ∨ s'.free = 0 ∧
        s'.volume.block (s.openFiles i).inode ((writeOffset s i + done) / 512) = none) := by
  by_cases hfull : 65536 ≤ writeOffset s i
  · obtain ⟨s', hcall, hstore, hslots, hoff⟩ := minifsWrite_full h hw hfull source length
    have hland := Landed.refl h hw source
    refine ⟨s', 0, hcall, ⟨hstore ▸ h, ?_, hslots, ?_, Or.inl rfl, ?_⟩, hoff, Nat.zero_le _,
      fun _ => Or.inl hfull⟩
    · rw [hstore]
      exact hland.volume
    · refine writeOffset_moved hslots ?_ hoff
      rw [hstore, Nat.add_zero, Nat.max_eq_left hw.inside]
    · rw [hstore]
      exact hland.spent
  · rcases minifsWrite_cases h pid fd (some source) length with
      ⟨s', r, -, -, -, -, hnone⟩ | ⟨j, buf, s', done, hj, hbuf, hwrote, hcall⟩
    · exact absurd ⟨hw.toWritable, Option.some_ne_none _, hw.lt, hw.regular, by omega⟩ (hnone i)
    · obtain rfl : i = j := Option.some.inj (hw.open_.symm.trans hj.open_)
      obtain rfl := Option.some.inj hbuf
      obtain ⟨s₁, -, -, hb⟩ := hwrote.becomes
      have hvol : s'.volume =
          afterWrite s.volume (s.openFiles i).inode (writeOffset s i) source done := hb.volume
      have hoff : ((s'.setOffset i (writeOffset s i + done)).openFiles i).offset =
          writeOffset s i + done := by
        rw [setOffset_openFiles_self]
      have hslots := hwrote.slots.trans (sameSlots_setOffset s' i (writeOffset s i + done))
      have hbound := hwrote.bound
      have hshort := hwrote.short
      refine ⟨_, done, hcall, ⟨hb.sound, hvol, hslots, ?_, by omega, hwrote.spent⟩, hoff,
        by omega, fun hlt => ?_⟩
      · refine writeOffset_moved hslots ?_ hoff
        show (s'.volume.node (s.openFiles i).inode).size = _
        rw [hvol, afterWrite_size]
      · rcases hshort with hall | hstop
        · exact Or.inl (by omega)
        · exact Or.inr hstop

/-- A write that takes place in pieces takes place in one: it costs the same blocks. -/
theorem Landed.whole (h : s.Sound) (hw : Writer s pid fd i) (hland : Landed s s₁ i source done) :
    ∃ s', minifsWrite s pid fd (some source) done = (s', (done : Int)) ∧
      s'.volume = s₁.volume ∧ (s'.openFiles i).offset = writeOffset s i + done := by
  obtain ⟨s', taken, hcall, hone, hoff, hle, hshort⟩ := minifsWrite_lands h hw source done
  by_cases htaken : taken = done
  · subst htaken
    exact ⟨s', hcall, hone.volume.trans hland.volume.symm, hoff⟩
  exfalso
  have hroom := hland.room
  obtain ⟨hfree, hmissing⟩ := (hshort (by omega)).resolve_left (by omega)
  obtain ⟨n, hn⟩ : ∃ n, n = (s.openFiles i).inode := ⟨_, rfl⟩
  obtain ⟨j, hj⟩ : ∃ j, j = (writeOffset s i + taken) / 512 := ⟨_, rfl⟩
  have hspent := hone.spent
  have hspent1 := hland.spent
  rw [← hn, ← hj] at hmissing
  rw [← hn, ← hj] at hspent
  rw [← hn] at hspent1
  have hthere : s₁.volume.block n j ≠ none := by
    rw [hland.volume, ← hn, afterWrite_block_ne_none]
    refine Or.inr ?_
    unfold Volume.Touches
    omega
  have hheld : held s'.volume n < held s₁.volume n := by
    refine held_lt (fun k hk => ?_) (by omega) hmissing hthere
    rw [hone.volume, ← hn, afterWrite_block_ne_none] at hk
    rw [hland.volume, ← hn, afterWrite_block_ne_none]
    refine hk.imp_right fun ht => ?_
    unfold Volume.Touches at ht ⊢
    omega
  -- the one write has the table of indirect blocks, and the pieces do not
  have hlinked : (s'.table n).indirect ≠ 0 ∧ (s₁.table n).indirect = 0 := by
    have hbalance := hspent.balance
    have hbalance1 := hspent1.balance
    unfold linked at hbalance hbalance1
    constructor
    · intro hzero
      rw [if_pos hzero] at hbalance
      omega
    · by_contra hne
      rw [if_neg hne] at hbalance1
      split at hbalance <;> omega
  rcases Nat.lt_or_ge j 10 with hlow | hhigh
  · exact hspent1.kept (hspent.low hlow ▸ hlinked.1) hlinked.2
  · exact indirect_of_block hhigh hthere hlinked.2

end Landed

end MiniOs.Fs

namespace MiniOs.Kernel

open MiniOs.Lib MiniOs.Fs MiniOs.Spec MiniOs.Tools

/-! ## The buffer -/

/-- No byte can be read at an address: there is no page for it, or none that may be read.
User pages are below the top of the stack and above the first 64 KiB. -/
def Unreadable (mem : UserMemory) (address : Nat) : Prop :=
  mem.read address = none ∨ ¬ (userMinVa ≤ address ∧ address < userStackTop)

/-- The bytes of a buffer. -/
def userBytes (mem : UserMemory) (userBuffer : Nat) : Region :=
  fun j => (mem.read ((userBuffer + j) % 2 ^ 64)).getD 0

section Copy

variable {mem : UserMemory} {source length : Nat}

theorem copyFromUser_reads {bytes : List UInt8} (hsource : source < 2 ^ 64)
    (hlength : length < 2 ^ 64) (hpos : 0 < length)
    (h : copyFromUser mem source length = some bytes) :
    source + length < 2 ^ 64 ∧ bytes.length = length ∧
      ∀ j, j < length → mem.read (source + j) = bytes[j]? := by
  unfold copyFromUser at h
  rw [if_neg (by omega)] at h
  split at h
  · cases h
  · next hwrap =>
    obtain ⟨hlen, hget⟩ := mapM_range'_eq_some.mp h
    exact ⟨by omega, hlen, hget⟩

theorem copyFromUser_fails (hsource : source < 2 ^ 64) (hlength : length < 2 ^ 64)
    (h : copyFromUser mem source length = none) :
    ∃ j, j < length ∧ Unreadable mem ((source + j) % 2 ^ 64) := by
  unfold copyFromUser at h
  split at h
  · cases h
  split at h
  · -- the range wraps around, so it holds the last address there is
    refine ⟨2 ^ 64 - 1 - source, by omega, Or.inr ?_⟩
    unfold userStackTop
    omega
  next hwrap =>
    by_contra hall
    have hread : ∀ a ∈ List.range' source length, mem.read a = some ((mem.read a).getD 0) := by
      intro a ha
      obtain ⟨hle, hlt⟩ := List.mem_range'_1.mp ha
      have hsome : mem.read a ≠ none := fun hnone => hall ⟨a - source, by omega, Or.inl (by
        rw [show (source + (a - source)) % 2 ^ 64 = a by omega]
        exact hnone)⟩
      obtain ⟨c, hc⟩ := Option.ne_none_iff_exists'.mp hsome
      rw [hc, Option.getD_some]
    rw [mapM_of_some hread] at h
    cases h

end Copy

/-! ## The loop -/

/-- Why a call may stop short of its length: a byte of the buffer cannot be read, the file is
as long as files get, or no block is free. -/
def StopsShort (mem : UserMemory) (userBuffer length last : Nat) (s : FsSt) : Prop :=
  (∃ j, j < length ∧ Unreadable mem ((userBuffer + j) % 2 ^ 64)) ∨ 65536 ≤ last ∨ s.free = 0

/-- The pieces land one after the other. The offset is where the last of them ended, if
there was one, or there will be one now. -/
theorem sysWriteLoop_lands {s0 : FsSt} {mem : UserMemory} {pid fd : Int} {i : Fin 64}
    {userBuffer length fuel : Nat} {s : FsSt} {done : Nat}
    (hland : Landed s0 s i (userBytes mem userBuffer) done) (hw : Writer s pid fd i)
    (hdone : done ≤ length) (hfuel : length ≤ done + fuel)
    (hread : ∀ j, j < done → mem.read ((userBuffer + j) % 2 ^ 64) =
      some (userBytes mem userBuffer j)) :
    ∃ s' r, sysWriteLoop mem pid fd userBuffer length fuel s done = (s', r) ∧
      Landed s0 s' i (userBytes mem userBuffer) r.toNat ∧
      (((s.openFiles i).offset = writeOffset s0 i + done ∨ done < length ∧
          copyFromUser mem ((userBuffer + done) % 2 ^ 64) (min (length - done) 512) ≠ none) →
        (s'.openFiles i).offset = writeOffset s0 i + r.toNat) ∧
      (∀ j, j < r.toNat → mem.read ((userBuffer + j) % 2 ^ 64) =
        some (userBytes mem userBuffer j)) ∧
      (r.toNat < length → StopsShort mem userBuffer length (writeOffset s0 i + r.toNat) s') := by
  induction fuel generalizing s done with
  | zero =>
    refine ⟨s, done, rfl, ?_⟩
    rw [Int.toNat_natCast]
    exact ⟨hland, fun hmoved => hmoved.resolve_right fun h => by omega, hread, fun h => by omega⟩
  | succ fuel ih =>
    unfold sysWriteLoop
    by_cases hend : length ≤ done
    · rw [if_pos hend]
      refine ⟨s, done, rfl, ?_⟩
      rw [Int.toNat_natCast]
      exact ⟨hland, fun hmoved => hmoved.resolve_right fun h => by omega, hread, fun h => by omega⟩
    · rw [if_neg hend]
      obtain ⟨chunk, hchunk⟩ : ∃ chunk, chunk = min (length - done) 512 := ⟨_, rfl⟩
      have hsource : (userBuffer + done) % 2 ^ 64 < 2 ^ 64 := Nat.mod_lt _ (by decide)
      dsimp only
      rw [← hchunk]
      cases hcopy : copyFromUser mem ((userBuffer + done) % 2 ^ 64) chunk with
      | none =>
        have hcount : (if done = 0 then (-1 : Int) else done).toNat = done := by
          split <;> omega
        refine ⟨s, _, rfl, ?_⟩
        rw [hcount]
        refine ⟨hland, fun hmoved => hmoved.resolve_right fun h => h.2 rfl, hread,
          fun _ => Or.inl ?_⟩
        obtain ⟨j, hj, hbad⟩ := copyFromUser_fails hsource (by omega) hcopy
        refine ⟨done + j, by omega, ?_⟩
        rwa [Nat.mod_add_mod, Nat.add_assoc] at hbad
      | some bytes =>
        obtain ⟨hfits, hlen, hbytes⟩ := copyFromUser_reads hsource (by omega) (by omega) hcopy
        have hpiece : ∀ j, j < chunk → mem.read ((userBuffer + (done + j)) % 2 ^ 64) =
                some (userBytes mem userBuffer (done + j)) ∧
              bytes.getD j 0 = userBytes mem userBuffer (done + j) := by
          intro j hj
          have haddr : (userBuffer + (done + j)) % 2 ^ 64 =
              (userBuffer + done) % 2 ^ 64 + j := by omega
          have hbyte := hbytes j hj
          rw [List.getElem?_eq_getElem (by omega)] at hbyte
          unfold userBytes
          rw [haddr, hbyte, List.getD_eq_getElem?_getD, List.getElem?_eq_getElem (by omega)]
          exact ⟨rfl, rfl⟩
        obtain ⟨s₁, written, hcall, hone, hoff, hle, hshort⟩ :=
          minifsWrite_lands hland.sound hw (fun i => bytes.getD i 0) chunk
        have hnext := hland.trans hone fun j hj => (hpiece j (by omega)).2
        have hread' : ∀ j, j < done + written → mem.read ((userBuffer + j) % 2 ^ 64) =
            some (userBytes mem userBuffer j) := by
          intro j hj
          rcases Nat.lt_or_ge j done with hlt | hge
          · exact hread j hlt
          · have hin := (hpiece (j - done) (by omega)).1
            rwa [Nat.add_sub_cancel' hge] at hin
        rw [hland.next] at hoff
        dsimp only
        rw [hcall]
        rw [if_neg (by omega), Int.toNat_natCast]
        by_cases htaken : written < chunk
        · rw [if_pos htaken]
          refine ⟨s₁, _, rfl, ?_⟩
          rw [Int.toNat_natCast]
          refine ⟨hnext, fun _ => by omega, hread', fun _ => Or.inr ?_⟩
          rcases hshort htaken with hfull | hfree
          · rw [hland.next] at hfull
            exact Or.inl (by omega)
          · exact Or.inr hfree.1
        · rw [if_neg htaken]
          obtain ⟨s', r, hloop, hlands, hmoved, hrest⟩ :=
            ih hnext (hone.writer hw) (by omega) (by omega) hread'
          exact ⟨s', r, hloop, hlands, fun _ => hmoved (Or.inl (by omega)), hrest⟩

/-! ## The call -/

/-- `sys_write` leaves what one `minifs_write` of the bytes it accepts would leave: the files
and the offset. -/
def WritesAsOne (k : System) (current : Fin 16) (mem : UserMemory) (fd userBuffer length : Nat)
    (i : Fin 64) : Prop :=
  let out := sysWrite k current mem fd userBuffer length
  ∃ source : Region,
    (∀ j, j < out.2.toNat → mem.read ((userBuffer + j) % 2 ^ 64) = some (source j)) ∧
    let one := minifsWrite k.fs (currentPid k current) (toInt fd) (some source) out.2.toNat
    one.2 = out.2.toNat ∧ out.1.fs.volume = one.1.volume ∧
      (out.1.fs.openFiles i).offset = (one.1.openFiles i).offset

/-- `sys_write` has nothing to hand over. -/
def HandsNothing (mem : UserMemory) (userBuffer length : Nat) : Prop :=
  length = 0 ∨ userBuffer = 0 ∨ copyFromUser mem userBuffer (min length 512) = none

section Call

variable {k : System} {current : Fin 16} {mem : UserMemory} {fd userBuffer length : Nat}
  {i : Fin 64}

theorem sysWrite_of_handsNothing (h : HandsNothing mem userBuffer length)
    (hbuffer : userBuffer < 2 ^ 64) :
    (sysWrite k current mem fd userBuffer length).1 = k ∧
      (sysWrite k current mem fd userBuffer length).2.toNat = 0 := by
  unfold sysWrite
  by_cases hzero : length = 0
  · rw [if_pos hzero]
    exact ⟨rfl, rfl⟩
  rw [if_neg hzero]
  by_cases hnull : userBuffer = 0
  · rw [if_pos hnull]
    exact ⟨rfl, rfl⟩
  rw [if_neg hnull]
  have hcopy := (h.resolve_left hzero).resolve_left hnull
  obtain ⟨fuel, rfl⟩ := Nat.exists_eq_succ_of_ne_zero hzero
  unfold sysWriteLoop
  rw [if_neg (by omega)]
  dsimp only
  rw [Nat.add_zero, Nat.sub_zero, Nat.mod_eq_of_lt hbuffer, hcopy]
  exact ⟨rfl, rfl⟩

theorem sysWrite_lands (h : k.fs.Sound) (hw : Writer k.fs (currentPid k current) (toInt fd) i)
    (hbuffer : userBuffer < 2 ^ 64) (hsome : ¬ HandsNothing mem userBuffer length) :
    ∃ s' r, sysWrite k current mem fd userBuffer length = ({ k with fs := s' }, r) ∧
      Landed k.fs s' i (userBytes mem userBuffer) r.toNat ∧
      (s'.openFiles i).offset = writeOffset k.fs i + r.toNat ∧
      (∀ j, j < r.toNat → mem.read ((userBuffer + j) % 2 ^ 64) =
        some (userBytes mem userBuffer j)) ∧
      (r.toNat < length → StopsShort mem userBuffer length (writeOffset k.fs i + r.toNat) s') := by
  obtain ⟨hzero, hnull, hcopy⟩ : length ≠ 0 ∧ userBuffer ≠ 0 ∧
      copyFromUser mem userBuffer (min length 512) ≠ none := by
    simpa only [HandsNothing, not_or] using hsome
  obtain ⟨s', r, hloop, hland, hmoved, hrest⟩ := @sysWriteLoop_lands k.fs mem (currentPid k current)
    (toInt fd) i userBuffer length length k.fs 0 (Landed.refl h hw _) hw (Nat.zero_le _) (by omega)
    (fun j hj => absurd hj (Nat.not_lt_zero j))
  refine ⟨s', r, ?_, hland, hmoved (Or.inr ⟨by omega, ?_⟩), hrest⟩
  · rw [sysWrite, if_neg hzero, if_neg hnull, hloop]
  · rwa [Nat.add_zero, Nat.sub_zero, Nat.mod_eq_of_lt hbuffer]

theorem writesAsOne_iff (h : k.fs.Sound)
    (hw : Writer k.fs (currentPid k current) (toInt fd) i) (hbuffer : userBuffer < 2 ^ 64) :
    WritesAsOne k current mem fd userBuffer length i ↔ ¬ HandsNothing mem userBuffer length ∨
        (k.fs.openFiles i).offset = writeOffset k.fs i := by
  by_cases hidle : HandsNothing mem userBuffer length
  · rw [or_iff_right (not_not_intro hidle)]
    obtain ⟨hsame, hcount⟩ :=
      @sysWrite_of_handsNothing k current mem fd userBuffer length hidle hbuffer
    unfold WritesAsOne
    dsimp only
    rw [hsame, hcount]
    have hnone : ∀ source : Region, ∃ s', minifsWrite k.fs (currentPid k current) (toInt fd)
        (some source) 0 = (s', 0) ∧ s'.volume = k.fs.volume ∧
        (s'.openFiles i).offset = writeOffset k.fs i :=
      fun source => (Landed.refl h hw source).whole h hw
    constructor
    · rintro ⟨source, -, -, -, hoff⟩
      obtain ⟨s', hcall, -, hend⟩ := hnone source
      rw [hoff, hcall]
      exact hend
    · intro hoff
      obtain ⟨s', hcall, hvol, hend⟩ := hnone Region.zero
      refine ⟨Region.zero, fun j hj => absurd hj (Nat.not_lt_zero j), ?_⟩
      rw [hcall]
      exact ⟨rfl, hvol.symm, hoff.trans hend.symm⟩
  · refine iff_of_true ?_ (Or.inl hidle)
    obtain ⟨s', r, hcall, hland, hoff, hread, -⟩ := sysWrite_lands h hw hbuffer hidle
    obtain ⟨s₁, hone, hvol, hend⟩ := hland.whole h hw
    refine ⟨userBytes mem userBuffer, ?_, ?_⟩
    · rw [hcall]
      exact hread
    · dsimp only
      rw [hcall]
      rw [hone]
      exact ⟨rfl, hvol.symm, hoff.trans hend.symm⟩

theorem sysWrite_stops (h : k.fs.Sound) (hw : Writer k.fs (currentPid k current) (toInt fd) i)
    (hbuffer : userBuffer < 2 ^ 64)
    (hshort : (sysWrite k current mem fd userBuffer length).2.toNat < length) :
    StopsShort mem userBuffer length
      (writeOffset k.fs i + (sysWrite k current mem fd userBuffer length).2.toNat)
      (sysWrite k current mem fd userBuffer length).1.fs := by
  by_cases hidle : HandsNothing mem userBuffer length
  · refine Or.inl ?_
    rcases hidle with hzero | hnull | hcopy
    · omega
    · refine ⟨0, by omega, Or.inr ?_⟩
      rw [hnull]
      decide
    · obtain ⟨j, hj, hbad⟩ := copyFromUser_fails hbuffer (by omega) hcopy
      exact ⟨j, by omega, hbad⟩
  · obtain ⟨s', r, hcall, -, -, -, hstop⟩ := sysWrite_lands h hw hbuffer hidle
    rw [hcall] at hshort ⊢
    exact hstop hshort

end Call

/-- In every state that processes can bring about, `sys_write` on a regular file does what one
write of the bytes it accepts does, unless it accepts none before it comes to the file: then
nothing changes, and in particular not the offset of an `O_APPEND` descriptor. It accepts
less than it is given for one of three reasons. -/
theorem sys_write_as_one (img : Image) (slot : Disk) (k₀ : System) (turns : List Turn)
    (current : Fin 16) (mem : UserMemory) (fd userBuffer length : BitVec 64) (i : Fin 64)
    {k : System} (hk : k = runTurns (started img slot k₀) turns)
    (hw : Writer k.fs (currentPid k current) (toInt fd.toNat) i) :
    let out := sysWrite k current mem fd.toNat userBuffer.toNat length.toNat
    (WritesAsOne k current mem fd.toNat userBuffer.toNat length.toNat i ↔
      ¬ HandsNothing mem userBuffer.toNat length.toNat ∨
        (k.fs.openFiles i).offset = writeOffset k.fs i) ∧
    (HandsNothing mem userBuffer.toNat length.toNat → out.1 = k ∧ out.2.toNat = 0) ∧
    (out.2.toNat < length.toNat →
      StopsShort mem userBuffer.toNat length.toNat (writeOffset k.fs i + out.2.toNat)
        out.1.fs) := by
  have h : k.fs.Sound := by
    rw [hk]
    exact runTurns_sound img slot k₀ turns
  exact ⟨writesAsOne_iff h hw userBuffer.isLt, fun hidle =>
    sysWrite_of_handsNothing hidle userBuffer.isLt, sysWrite_stops h hw userBuffer.isLt⟩

/-! ## A file opened for appending -/

/-- The shell opens `/a` with `O_RDWR` and `O_APPEND` and goes back to its beginning. -/
def rewound : List Request := [.open 8 0x402, .lseek 3 0 0]

theorem shell_rewound {img : Image} (htree : img.tree = stagedFile) {k : System}
    (hk : k = runTurns (started img bareSlot powerOn) (shellTurns rewound)) :
    ∃ n, k.fs.openFiles 6 = ⟨true, 1, .file, 0x402, n, 0⟩ ∧
      getOpenFile k.fs.toFdTables (currentPid k 1) 3 = some 6 ∧
      k.fs.volume.ibit n = true ∧ Reads k.fs.volume n [104, 105] := by
  obtain ⟨k1, hk1⟩ : ∃ k1, k1 = runTurns (started img bareSlot powerOn)
    (shellTurns [.open 8 0x402]) := ⟨_, rfl⟩
  obtain ⟨n, size, htables, hstore, hpid, hrun, hresolve⟩ :=
    @shell_opened k1 img htree bareSlot 0x402 rfl rfl hk1
  obtain ⟨n', hresolve', hused, hcontent⟩ := mount_content htree bareSlot boot
  obtain rfl : n = n' := Option.some.inj (hresolve.symm.trans hresolve')
  have hreads := content_iff.mp hcontent
  rw [← hstore] at hreads hused
  have hentry : k1.fs.openFiles 6 = ⟨true, 1, .file, 0x402, n, size⟩ := by
    rw [htables]
    rfl
  have hopen : getOpenFile k1.fs.toFdTables 1 3 = some 6 := by
    rw [htables]
    rfl
  have hseek : minifsLseek k1.fs 1 3 0 0 = (k1.fs.setOffset 6 0, some 0) := by
    unfold minifsLseek
    rw [hopen]
    dsimp only
    rw [hentry]
    rfl
  have hrewound : k = { k1 with fs := k1.fs.setOffset 6 0 } := by
    have hlast : k = turn k1 ⟨1, pathPage, .lseek 3 0 0⟩ := by
      rw [hk, hk1]
      simp only [runTurns, shellTurns, rewound, List.map_cons, List.map_nil, run_cons, run_nil]
    rw [hlast, turn, if_pos hrun]
    show { k1 with fs := (minifsLseek k1.fs (k1.tasks 1).pid 3 0 0).1 } = _
    rw [hpid, hseek]
  rw [hrewound]
  refine ⟨n, ?_, ?_, hused, hreads⟩
  · show (k1.fs.setOffset 6 0).openFiles 6 = _
    rw [setOffset_openFiles_self, hentry]
  · show getOpenFile (k1.fs.setOffset 6 0).toFdTables (k1.tasks 1).pid 3 = some 6
    rw [hpid, (sameSlots_setOffset k1.fs 6 0).getOpenFile, hopen]

theorem rewound_writer {img : Image} (htree : img.tree = stagedFile) {k : System}
    (hk : k = runTurns (started img bareSlot powerOn) (shellTurns rewound)) :
    Writer k.fs (currentPid k 1) (toInt (3 : BitVec 64).toNat) 6 ∧
      (k.fs.openFiles 6).offset = 0 ∧ writeOffset k.fs 6 = 2 := by
  obtain ⟨n, hentry, hopen, -, hreads⟩ := shell_rewound htree hk
  have hend : writeOffset k.fs 6 = 2 := by
    rw [writeOffset, hentry]
    exact hreads.size ▸ if_pos (show wantsAppend 0x402 = true by decide)
  refine ⟨⟨⟨hopen, ?_, ?_⟩, ?_, ?_, ?_⟩, ?_, hend⟩
  · rw [hentry]
  · rw [hentry]
    show (0x402 : BitVec 32) &&& 3 ≠ 0
    decide
  · rw [hentry]
    exact hreads.lt
  · rw [hentry]
    exact hreads.file
  · rw [hend, hentry]
    exact hreads.size.ge
  · rw [hentry]

/-- A byte from a page that may be read is appended, -/
theorem sys_write_as_one_appended :
    ∃ (img : Image) (k : System), img.tree = stagedFile ∧
      k = runTurns (started img bareSlot powerOn) (shellTurns rewound) ∧
      Writer k.fs (currentPid k 1) (toInt (3 : BitVec 64).toNat) 6 ∧
      WritesAsOne k 1 ⟨fun _ => some 33, fun _ => true⟩ 3 0x10000 1 6 := by
  obtain ⟨img, k, htree, hk⟩ := shell_runs rewound
  obtain ⟨hw, -, -⟩ := rewound_writer htree hk
  refine ⟨img, k, htree, hk, hw, (sys_write_as_one img _ _ _ 1 ⟨fun _ => some 33, fun _ => true⟩
    3 0x10000 1 6 hk hw).1.mpr (Or.inl ?_)⟩
  unfold HandsNothing
  decide

/-- and with a buffer that cannot be read the offset stays at the beginning, where a write of
no bytes at the end of the file would have moved it. -/
theorem sys_write_keeps_offset :
    ∃ (img : Image) (k : System), img.tree = stagedFile ∧
      k = runTurns (started img bareSlot powerOn) (shellTurns rewound) ∧
      Writer k.fs (currentPid k 1) (toInt (3 : BitVec 64).toNat) 6 ∧
      ¬ WritesAsOne k 1 ⟨fun _ => none, fun _ => false⟩ 3 0x10000 1 6 := by
  obtain ⟨img, k, htree, hk⟩ := shell_runs rewound
  obtain ⟨hw, hoff, hend⟩ := rewound_writer htree hk
  have hsound : k.fs.Sound := by
    rw [hk]
    exact runTurns_sound _ _ _ _
  refine ⟨img, k, htree, hk, hw, fun hone => ?_⟩
  rcases (writesAsOne_iff hsound hw (by decide)).mp hone with hsome | hsame
  · exact hsome (Or.inr (Or.inr rfl))
  · rw [hoff, hend] at hsame
    cases hsame

end MiniOs.Kernel
