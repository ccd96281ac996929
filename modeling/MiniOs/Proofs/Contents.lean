import MiniOs.Proofs.Agreement
import MiniOs.Proofs.Disk

/-!
# What a file reads as

`minifs_pread` gives up on a block that is not there, so a file is readable up
to its size just if no block below the size is missing. Staged files are like
that, and an empty file is. `write_at` keeps it that way as long as it leaves no
gap: it sets the size to the end of what it wrote, wherever it began.

`lseek` admits any position up to the size limit, so it may begin too far out.
`Gaps` says when, and `Gaps.unreadable` that the file has a hole afterwards. For
all other calls the contents are settled: a byte nobody wrote since the file was
last empty is zero.
-/

namespace MiniOs.Fs

open MiniOs.Lib MiniOs.Spec MiniOs.Tools Function

/-- A file of whole blocks up to its size, with zeros where nothing is written. -/
structure Solid (V : Volume) (written : Nat → Prop) (n : Nat) : Prop where
  mapped : ∀ p, V.byte n p ≠ none ↔ p / 512 < ((V.node n).size + 511) / 512
  blank : ∀ p c, V.byte n p = some c → ¬ written p → c = 0
  inside : ∀ p, written p → p < (V.node n).size

variable {V : Volume} {n : Nat}

/-- A solid file is readable, and what nobody wrote reads as zero. -/
theorem Solid.pread {written : Nat → Prop} {offset length : Nat} (h : Solid V written n)
    (hn : n < 256) (hfile : (V.node n).IsFile) (hrange : offset + length ≤ (V.node n).size) :
    ∃ data, V.pread n offset length = some data ∧ data.length = length ∧
      ∀ i, i < length → ¬ written (offset + i) → data[i]? = some 0 := by
  have hread : ∀ p ∈ List.range' offset length, V.byte n p = some ((V.byte n p).getD 0) := by
    intro p hp
    have hlt := (List.mem_range'_1.mp hp).2
    obtain ⟨c, hc⟩ := Option.ne_none_iff_exists'.mp ((h.mapped p).mpr (by omega))
    rw [hc, Option.getD_some]
  refine ⟨(List.range' offset length).map fun p => (V.byte n p).getD 0, ?_, by simp, ?_⟩
  · rw [Volume.pread, if_pos ⟨hn, hfile⟩, Nat.min_eq_left (by omega), mapM_of_some hread]
  · intro i hi hblank
    have hbyte := hread (offset + i) (List.mem_range'_1.mpr ⟨by omega, by omega⟩)
    rw [List.getElem?_map, List.getElem?_range' hi, Option.map_some, Nat.one_mul,
      h.blank _ _ hbyte hblank]

theorem Solid.same {V' : Volume} {W Q : Nat → Prop} (h : Solid V W n) (hsame : V'.SameAt V n)
    (hQ : ∀ p, ¬ Q p) :
    Solid V' (fun p => (W p ∨ Q p) ∧ (V'.node n).size ≠ 0) n := by
  refine ⟨fun p => ?_, fun p c hc hnot => ?_, fun p hp => ?_⟩
  · rw [hsame.byte, hsame.1]
    exact h.mapped p
  · rw [hsame.byte] at hc
    refine h.blank p c hc fun hp => hnot ⟨Or.inl hp, ?_⟩
    have := h.inside p hp
    rw [hsame.1]
    omega
  · rw [hsame.1]
    exact h.inside p (hp.1.resolve_right (hQ p))

/-! ## What the calls do to files -/

/-- Every regular file is as it was or empty. -/
def Settles (V V' : Volume) : Prop :=
  ∀ n, (V'.node n).IsFile → V'.SameAt V n ∨ (V'.node n).size = 0 ∧ ∀ p, V'.byte n p = none

section Settles

variable {V V₁ V₂ : Volume}

theorem Settles.refl (V : Volume) : Settles V V := fun _ _ => Or.inl ⟨rfl, rfl⟩

theorem Settles.trans (h1 : Settles V V₁) (h2 : Settles V₁ V₂) : Settles V V₂ := by
  intro n hfile
  rcases h2 n hfile with hsame | hempty
  · rw [hsame.1] at hfile
    rcases h1 n hfile with hsame1 | ⟨hsize, hbytes⟩
    · exact Or.inl (hsame.trans hsame1)
    · refine Or.inr ⟨by rw [hsame.1, hsize], fun p => ?_⟩
      rw [hsame.byte, hbytes]
  · exact Or.inr hempty

/-- An inode that is cleared and rewritten with size 0. -/
theorem settles_erase (V : Volume) (n : Nat) {node : Node} (hsize : node.size = 0) :
    Settles V ((V.clear n).setNode n node) := by
  intro m _
  by_cases hm : m = n
  · subst hm
    refine Or.inr ⟨?_, fun p => ?_⟩
    · rw [Volume.setNode_node, update_self, hsize]
    · rw [Volume.byte, Volume.setNode_block, Volume.clear_block_self, Option.map_none]
  · exact Or.inl ((Volume.sameAt_setNode hm _).trans (Volume.sameAt_clear hm))

theorem settles_setIbit (V : Volume) (n : Nat) (b : Bool) : Settles V (V.setIbit n b) :=
  fun _ _ => Or.inl (Volume.sameAt_setIbit n b)

theorem not_isFile_of_isDir {node : Node} (h : node.IsDir) : ¬ node.IsFile := by
  intro hfile
  unfold Node.IsDir at h
  unfold Node.IsFile at hfile
  omega

theorem settles_addEntry (hdir : (V.node n).IsDir) (index child mode : Nat)
    (name : List UInt8) : Settles V (V.addEntry n index child mode name) := by
  intro m hfile
  by_cases hm : m = n
  · subst hm
    refine absurd hfile (not_isFile_of_isDir ?_)
    unfold Volume.addEntry
    rw [Volume.setNode_node, update_self]
    exact hdir
  · exact Or.inl ((Volume.sameAt_setNode hm _).trans (Volume.sameAt_setBlock hm))

theorem settles_bury (hdir : (V.node n).IsDir) (index : Nat) :
    Settles V (V.bury n index) := by
  intro m hfile
  by_cases hm : m = n
  · subst hm
    exact absurd hfile (not_isFile_of_isDir hdir)
  · exact Or.inl (Volume.sameAt_setBlock hm)

theorem Edits.settles {P : Nat → Prop} {V' : Volume} (h : Edits P V V') : Settles V V' := by
  induction h with
  | refl => exact Settles.refl V
  | erase _ _ hsize ih => exact ih.trans (settles_erase _ _ hsize)
  | setIbit _ _ b ih => exact ih.trans (settles_setIbit _ _ b)
  | addEntry _ hdir index child mode name ih =>
    exact ih.trans (settles_addEntry hdir index child mode name)
  | bury _ hdir index ih => exact ih.trans (settles_bury hdir index)

end Settles

/-! ## Writing -/

/-- The file after a write of `done` bytes, as `write_at` leaves it. -/
def afterWrite (V : Volume) (n offset : Nat) (source : Region) (done : Nat) : Volume :=
  (V.writeBytes n offset source done).setNode n
    { V.node n with size := max (V.node n).size (offset + done) }

section Write

variable {V : Volume} {n offset done : Nat} {source : Region} {W : Nat → Prop}

theorem afterWrite_size :
    ((afterWrite V n offset source done).node n).size = max (V.node n).size (offset + done) := by
  rw [afterWrite, Volume.setNode_node, update_self]

theorem afterWrite_byte (p : Nat) :
    (afterWrite V n offset source done).byte n p =
      if offset ≤ p ∧ p < offset + done then some (source (p - offset))
      else if Volume.Touches offset done (p / 512) then some ((V.byte n p).getD 0)
      else V.byte n p :=
  Volume.byte_writeBytes V n offset source done p

theorem afterWrite_sameAt {m : Nat} (hm : m ≠ n) :
    (afterWrite V n offset source done).SameAt V m :=
  (Volume.sameAt_setNode hm _).trans (Volume.sameAt_writeBytes hm _ _ _)

/-- The blocks of a file after a write: those it had and those the write touches. -/
theorem Solid.afterWrite_mapped (h : Solid V W n) (p : Nat) :
    (afterWrite V n offset source done).byte n p ≠ none ↔
      p / 512 < ((V.node n).size + 511) / 512 ∨ Volume.Touches offset done (p / 512) := by
  rw [afterWrite_byte]
  by_cases hin : offset ≤ p ∧ p < offset + done
  · rw [if_pos hin]
    refine iff_of_true (Option.some_ne_none _) (Or.inr ?_)
    unfold Volume.Touches
    omega
  · rw [if_neg hin]
    by_cases ht : Volume.Touches offset done (p / 512)
    · rw [if_pos ht]
      exact iff_of_true (Option.some_ne_none _) (Or.inr ht)
    · rw [if_neg ht, h.mapped p, or_iff_left ht]

/-- A write that starts in a block the file has, or in the next one and gets it,
leaves no gap. -/
theorem Solid.write (h : Solid V W n)
    (hgap : offset ≤ 512 * (((V.node n).size + 511) / 512) ∨
      offset / 512 = ((V.node n).size + 511) / 512 ∧ 0 < done) :
    Solid (afterWrite V n offset source done) (fun p => (W p ∨ offset ≤ p ∧ p < offset + done) ∧
        ((afterWrite V n offset source done).node n).size ≠ 0) n where
  mapped p := by
    rw [h.afterWrite_mapped, afterWrite_size]
    unfold Volume.Touches
    omega
  blank p c hc hnot := by
    rw [afterWrite_size] at hnot
    have hout : ¬ (offset ≤ p ∧ p < offset + done) := fun hin => hnot ⟨Or.inr hin, by omega⟩
    have hblank : ¬ W p := fun hp => by
      have := h.inside p hp
      exact hnot ⟨Or.inl hp, by omega⟩
    rw [afterWrite_byte, if_neg hout] at hc
    cases hbyte : V.byte n p with
    | none =>
      rw [hbyte] at hc
      split at hc
      · exact (Option.some.inj hc).symm
      · cases hc
    | some x =>
      rw [hbyte, Option.getD_some, ite_self] at hc
      exact h.blank p c (hbyte.trans hc) hblank
  inside p hp := by
    rw [afterWrite_size]
    rcases hp.1 with hp | hp
    · have := h.inside p hp
      omega
    · omega

end Write

/-! ## Runs -/

/-- The positions of a file that a call writes to, by what it returns. -/
def Writes (s : FsSt) (n p : Nat) : Call → Prop
  | .write pid fd buffer length =>
    ∃ i, Writable s pid fd i ∧ (s.openFiles i).inode = n ∧ writeOffset s i ≤ p ∧
      (p : Int) < writeOffset s i + (minifsWrite s pid fd buffer length).2
  | _ => False

/-- A write that starts behind the last block of the file and leaves the size
where there is no block: it skips a block, or gets none for itself. -/
def Gaps (s : FsSt) : Call → Prop
  | .write pid fd buffer length =>
    ∃ i, WritesTo s pid fd buffer i ∧
      512 * (((s.volume.node (s.openFiles i).inode).size + 511) / 512) < writeOffset s i ∧
      (writeOffset s i / 512 ≠ ((s.volume.node (s.openFiles i).inode).size + 511) / 512 ∨
        length = 0 ∨ Refused s.toStore (s.table (s.openFiles i).inode) (writeOffset s i))
  | _ => False

/-- A state with the positions written since each file was last empty. A file is
empty when it is created and when it is truncated. -/
def mark (c : FsSt × (Nat → Nat → Prop)) (call : Call) : FsSt × (Nat → Nat → Prop) :=
  (step c.1 call, fun n p =>
    (c.2 n p ∨ Writes c.1 n p call) ∧ ((step c.1 call).volume.node n).size ≠ 0)

/-- What has been written after a run, where what was there at its start counts
as written. -/
def written (s : FsSt) (calls : List Call) : Nat → Nat → Prop :=
  (run mark (s, fun n p => p < (s.volume.node n).size) calls).2

/-- Every regular file is solid. -/
structure SolidFiles (c : FsSt × (Nat → Nat → Prop)) : Prop where
  sound : c.1.Sound
  solid : ∀ n, (c.1.volume.node n).IsFile → Solid c.1.volume (c.2 n) n

section Step

variable {s : FsSt} {W : Nat → Nat → Prop} {call : Call}

/-- A call that leaves every file alone or empty. -/
theorem SolidFiles.settle (h : SolidFiles (s, W)) (hset : Settles s.volume (step s call).volume)
    (hno : ∀ n p, ¬ Writes s n p call) : SolidFiles (mark (s, W) call) where
  sound := (step_sealed h.sound call).sound
  solid n hfile := by
    dsimp only [mark] at hfile ⊢
    rcases hset n hfile with hsame | ⟨hsize, hbytes⟩
    · exact (h.solid n (hsame.1 ▸ hfile)).same hsame (hno n)
    · refine ⟨fun p => ?_, fun p c hc _ => ?_, fun p hp => absurd hsize hp.2⟩
      · rw [hbytes, hsize]
        exact iff_of_false (fun h => h rfl) (by omega)
      · rw [hbytes] at hc
        cases hc

variable {pid fd : Int} {buffer : Option Region} {length : Nat}

/-- A write that reaches a file writes what it returns. -/
theorem writes_iff {done p : Nat} {i : Fin 64} {s' : FsSt} (hi : Writable s pid fd i)
    (hc : minifsWrite s pid fd buffer length = (s', (done : Int))) :
    Writes s n p (.write pid fd buffer length) ↔
      (s.openFiles i).inode = n ∧ writeOffset s i ≤ p ∧ p < writeOffset s i + done := by
  simp only [Writes, hc]
  constructor
  · rintro ⟨j, hj, hn, h1, h2⟩
    obtain rfl : i = j := Option.some.inj (hi.open_.symm.trans hj.open_)
    exact ⟨hn, h1, by omega⟩
  · rintro ⟨hn, h1, h2⟩
    exact ⟨i, hi, hn, h1, by omega⟩

/-- A write that reaches no file writes nothing. -/
theorem not_writes {r : Int} {p : Nat} {s' : FsSt}
    (hc : minifsWrite s pid fd buffer length = (s', r))
    (hr : r ≤ 0 ∨ ∃ i, getOpenFile s.toFdTables pid fd = some i ∧
      (s.openFiles i).type = .consoleOut) :
    ¬ Writes s n p (.write pid fd buffer length) := by
  rintro ⟨j, hj, -, h1, h2⟩
  rw [hc] at h2
  rcases hr with hr | ⟨i, hi, htype⟩
  · dsimp only at h2
    omega
  · obtain rfl : i = j := Option.some.inj (hi.symm.trans hj.open_)
    rw [hj.file] at htype
    cases htype

theorem write_solid (h : SolidFiles (s, W)) (hno : ¬ Gaps s (.write pid fd buffer length)) :
    SolidFiles (mark (s, W) (.write pid fd buffer length)) := by
  rcases minifsWrite_cases h.sound pid fd buffer length with
    ⟨s', r, hc, hstore, -, hr, -⟩ | ⟨i, buf, s', done, hi, hbuf, hw, hc⟩
  · refine h.settle ?_ fun n p => not_writes hc hr
    rw [step, hc, hstore]
    exact Settles.refl _
  obtain ⟨s1, -, -, hb⟩ := hw.becomes
  have hvol : (step s (.write pid fd buffer length)).volume =
      afterWrite s.volume (s.openFiles i).inode (writeOffset s i) buf done := by
    rw [step, hc]
    exact hb.volume
  refine ⟨(step_sealed h.sound _).sound, fun n hfile => ?_⟩
  dsimp only [mark] at hfile ⊢
  simp only [writes_iff hi hc]
  rw [hvol] at hfile ⊢
  by_cases hn : n = (s.openFiles i).inode
  · subst hn
    have hold := h.solid _ hw.file
    have hgap : writeOffset s i ≤ 512 * (((s.volume.node (s.openFiles i).inode).size + 511) / 512) ∨
        writeOffset s i / 512 = ((s.volume.node (s.openFiles i).inode).size + 511) / 512 ∧
          0 < done := by
      by_contra hbad
      rw [not_or, Nat.not_le] at hbad
      refine hno ⟨i, ⟨hi, hbuf ▸ Option.some_ne_none buf, hw.lt, hw.file, hw.offset⟩, hbad.1, ?_⟩
      by_cases hnext : writeOffset s i / 512 =
          ((s.volume.node (s.openFiles i).inode).size + 511) / 512
      · exact Or.inr (hw.zero.mp (by omega))
      · exact Or.inl hnext
    simpa only [true_and] using @Solid.write _ _ _ _ buf _ hold hgap
  · have hsame := @afterWrite_sameAt s.volume _ (writeOffset s i) done buf n hn
    exact (h.solid n (hsame.1 ▸ hfile)).same hsame fun p hp => hn hp.1.symm

/-- No call makes a hole but a write that leaves a gap. -/
theorem mark_solid (h : SolidFiles (s, W)) (hno : ¬ Gaps s call) :
    SolidFiles (mark (s, W) call) := by
  cases call with
  | write pid fd buffer length => exact write_solid h hno
  | _ => exact h.settle (step_edited h.sound (by simp)).edits.settles fun _ _ => id

/-- And a write that leaves a gap makes one. -/
theorem Gaps.unreadable (h : SolidFiles (s, W)) (hg : Gaps s call) :
    ∃ n p, n < 256 ∧ ((step s call).volume.node n).IsFile ∧ p < ((step s call).volume.node n).size ∧
      (minifsPread (step s call) n p 1).2 = none := by
  cases call with
  | write pid fd buffer length =>
    obtain ⟨i, hto, hfar, hgap⟩ := hg
    obtain ⟨n, hn⟩ : ∃ n, n = (s.openFiles i).inode := ⟨_, rfl⟩
    obtain ⟨q, hq⟩ : ∃ q, q = ((s.volume.node n).size + 511) / 512 := ⟨_, rfl⟩
    rw [← hn, ← hq] at hfar hgap
    rcases minifsWrite_cases h.sound pid fd buffer length with
      ⟨-, -, -, -, -, -, hnot⟩ | ⟨j, buf, s', done, hj, -, hw, hc⟩
    · exact absurd hto (hnot i)
    obtain rfl : i = j := Option.some.inj (hto.writable.open_.symm.trans hj.open_)
    obtain ⟨s1, -, -, hb⟩ := hw.becomes
    have hvol : (step s (.write pid fd buffer length)).volume =
        afterWrite s.volume n (writeOffset s i) buf done := by
      rw [step, hc, hn]
      exact hb.volume
    have hsize := @afterWrite_size s.volume n (writeOffset s i) done buf
    have hold := h.solid n (hn ▸ hw.file)
    -- the first block behind the file is still missing, and inside it now
    have hskip : ¬ Volume.Touches (writeOffset s i) done q := by
      rcases hgap with hgap | hzero
      · unfold Volume.Touches
        omega
      · rw [hw.zero.mpr (hn ▸ hzero)]
        exact fun ht => absurd ht.1 (Nat.lt_irrefl 0)
    have hhole : (step s (.write pid fd buffer length)).volume.byte n (512 * q) = none := by
      rw [hvol, ← not_ne_iff, hold.afterWrite_mapped, ← hq,
        show 512 * q / 512 = q by omega]
      exact fun h => h.elim (Nat.lt_irrefl q) hskip
    have hfile : ((step s (.write pid fd buffer length)).volume.node n).IsFile := by
      rw [hvol, afterWrite, Volume.setNode_node, update_self]
      exact hn ▸ hw.file
    refine ⟨n, 512 * q, hn ▸ hw.lt, hfile, ?_, ?_⟩
    · rw [hvol, hsize]
      omega
    · obtain ⟨b, hb⟩ := minifsPread_eq (step s (.write pid fd buffer length)) n (512 * q) 1
      rw [hb, Volume.pread, if_pos ⟨hn ▸ hw.lt, hfile⟩, Nat.min_eq_left ?_]
      · show [512 * q].mapM _ = none
        rw [List.mapM_cons, hhole]
        rfl
      · rw [hvol, hsize]
        omega
  | _ => exact hg.elim

end Step

/-! ## From an image -/

/-- Everything in use on an image was staged. -/
theorem Image.held (img : Image) (h : img.builder.volume.Reachable n) :
    ∃ node, HoldsNode img.builder.volume n node := by
  induction h with
  | root => exact ⟨_, img.holds⟩
  | @child d i e _ hnames ih =>
    obtain ⟨node, hnode⟩ := ih
    cases node with
    | symlink => exact hnode.elim
    | other => exact hnode.elim
    | file data exec =>
      have hdir := hnames.dir
      rw [Node.IsDir, hnode.2.1, stagedMode] at hdir
      cases exec <;> exact absurd hdir (by decide)
    | dir children =>
      obtain ⟨-, -, hsize, hdir⟩ := hnode
      have hlt := hnames.lt
      rw [Volume.count, hsize] at hlt
      obtain ⟨k, mode, name, node, hentry, -, -, hchild⟩ :=
        hdir.entry (show i < children.names.length by omega)
      rw [Nat.zero_add, hnames.entry] at hentry
      rw [Option.some.inj hentry]
      exact ⟨node, hchild⟩

/-- A staged file is solid, and all of it is written. -/
theorem solid_of_holds {data : List UInt8} {exec : Bool} (h : HoldsNode V n (.file data exec)) :
    Solid V (fun p => p < (V.node n).size) n := by
  obtain ⟨-, -, hsize, hbytes⟩ := h
  refine ⟨fun p => ?_, fun p c hc hp => ?_, fun p hp => hp⟩
  · rw [hbytes, hsize, paddedByte]
    split
    · next hlt => exact iff_of_true (Option.some_ne_none _) hlt
    · next hge => exact iff_of_false (fun h => h rfl) hge
  · rw [hbytes, paddedByte] at hc
    split at hc
    · rw [← Option.some.inj hc, List.getD_eq_default _ _ (by omega)]
    · cases hc

theorem Image.mount_solid (img : Image) (slot : Disk) (s0 : FsSt) :
    SolidFiles (img.mount slot s0, fun n p => p < ((img.mount slot s0).volume.node n).size) where
  sound := img.mount_sound slot s0
  solid n hfile := by
    rw [img.mount_volume] at hfile ⊢
    have hused : img.builder.inodeUsed n = true := by
      rw [img.builder_ok.exists_iff]
      by_contra hnone
      rw [Bool.not_eq_true, Option.isSome_eq_false_iff, Option.isNone_iff_eq_none] at hnone
      have hzero : img.builder.volume.node n = Inode.zero.node := by
        show (img.builder.inode n).node = _
        rw [Builder.inode, hnone, Option.getD_none]
      rw [hzero] at hfile
      exact absurd hfile (by decide)
    obtain ⟨node, hnode⟩ := Image.held img (img.imported.1.tree.reach n hused)
    cases node with
    | symlink => exact hnode.elim
    | other => exact hnode.elim
    | dir children =>
      rw [Node.IsFile, hnode.2.1] at hfile
      exact absurd hfile (by decide)
    | file data exec => exact solid_of_holds hnode

theorem run_mark (c : FsSt × (Nat → Nat → Prop)) (calls : List Call) :
    (run mark c calls).1 = runCalls c.1 calls := by
  induction calls generalizing c with
  | nil => rfl
  | cons call rest ih => exact ih (mark c call)

/-- The conditions on a run do not see the ghost. -/
theorem meets_mark {cond : FsSt → Call → Prop} {c : FsSt × (Nat → Nat → Prop)} {calls : List Call}
    (h : Meets step cond c.1 calls) : Meets mark (fun c call => cond c.1 call) c calls := by
  induction calls generalizing c with
  | nil => trivial
  | cons call rest ih => exact ⟨h.1, @ih (mark c call) h.2⟩

theorem SolidFiles.run {m : FsSt} (h : SolidFiles (m, fun n p => p < (m.volume.node n).size))
    {calls : List Call} (hno : Meets step (fun s call => ¬ Gaps s call) m calls) :
    SolidFiles (runCalls m calls, written m calls) := by
  have hsolid := @run_meets _ _ mark _ SolidFiles (fun c call h hg => @mark_solid c.1 c.2 call h hg)
    _ calls h (@meets_mark (fun s call => ¬ Gaps s call) (m, _) calls hno)
  have hs := run_mark (m, fun n p => p < (m.volume.node n).size) calls
  exact ⟨hs ▸ hsolid.sound, fun n hfile => by
    have hsolid := hsolid.solid n
    rw [hs] at hsolid
    exact hsolid hfile⟩

theorem SolidFiles.readable {m : FsSt} (h : SolidFiles (m, fun n p => p < (m.volume.node n).size))
    {calls : List Call} (hno : Meets step (fun s call => ¬ Gaps s call) m calls)
    {offset length : Nat} (hn : n < 256) (hfile : ((runCalls m calls).volume.node n).IsFile)
    (hrange : offset + length ≤ ((runCalls m calls).volume.node n).size) :
    ∃ data, (minifsPread (runCalls m calls) n offset length).2 = some data ∧ data.length = length ∧
      ∀ i, i < length → ¬ written m calls n (offset + i) → data[i]? = some 0 := by
  obtain ⟨b, hb⟩ := minifsPread_eq (runCalls m calls) n offset length
  rw [hb]
  exact ((h.run hno).solid n hfile).pread hn hfile hrange

/-- From any image, as long as no write leaves a gap: a regular file can be read
up to its size, and what nobody wrote since the file was last empty is zero. -/
theorem runCalls_readable (img : Image) (slot : Disk) (s₀ : FsSt) (calls : List Call)
    (hno : Meets step (fun s call => ¬ Gaps s call) (img.mount slot s₀) calls) :
    let s := runCalls (img.mount slot s₀) calls
    ∀ n, n < 256 → (s.volume.node n).IsFile →
      ∀ offset length, offset + length ≤ (s.volume.node n).size →
        ∃ data, (minifsPread s n offset length).2 = some data ∧ data.length = length ∧
          ∀ i, i < length → ¬ written (img.mount slot s₀) calls n (offset + i) →
            data[i]? = some 0 := by
  intro s n hn hfile offset length hrange
  exact (Image.mount_solid img slot s₀).readable hno hn hfile hrange

/-! ## A file that is moved in -/

/-- The descriptor tables with one process, and those once it has opened a file. -/
def oneProcess : FdTables := (minifsProcessInit FdTables.zero 1).1
def oneOpen (n size : Nat) : FdTables := (openInstall oneProcess 0 n size 2).1

theorem findProcess_oneProcess : findProcess oneProcess 1 = some 0 := by decide

theorem getOpenFile_oneOpen (n size : Nat) : getOpenFile (oneOpen n size) 1 3 = some 3 := rfl

theorem openFiles_oneOpen (n size : Nat) :
    (oneOpen n size).openFiles 3 = ⟨true, 1, .file, 2, n, 0⟩ := rfl

section Moved

variable {s : FsSt} (h : s.Sound) (ht : s.toFdTables = FdTables.zero) {n : Nat} {path : CStr}
  (hr : s.volume.resolve 0 path.bytes = some n) (hn : n < 256) (hfile : (s.volume.node n).IsFile)
include h ht hr hn hfile

/-- A process that opens a file and moves in it. -/
theorem runCalls_moved {offset : Nat} (hoff : offset ≤ 65536) :
    ∃ s', runCalls s [.processInit 1, .open 1 0 (some path) 2, .lseek 1 3 offset 0] = s' ∧
      s'.volume = s.volume ∧ getOpenFile s'.toFdTables 1 3 = some 3 ∧
      s'.openFiles 3 = ⟨true, 1, .file, 2, n, offset⟩ ∧ writeOffset s' 3 = offset := by
  have hinit : step s (.processInit 1) = s.onTables oneProcess := by
    rw [step, ht]
    rfl
  obtain ⟨b, hopen⟩ := @minifsOpen_existing n 0 (s.onTables oneProcess) h 1 0 (some path) 2
    findProcess_oneProcess (by decide) hr hn hfile (by decide)
  obtain ⟨s2, hs2⟩ : ∃ s2, s2 = (s.withBuffer b).onTables (oneOpen n (s.table n).size) :=
    ⟨_, rfl⟩
  have hopen : step (s.onTables oneProcess) (.open 1 0 (some path) 2) = s2 := by
    rw [step, hopen, hs2]
    rfl
  have htables : s2.toFdTables = oneOpen n (s.table n).size := by rw [hs2]; rfl
  have hposition : ((0 : Int) + offset).bmod (2 ^ 64) = offset := by
    rw [Int.zero_add]
    exact Int.bmod_eq_of_le (by omega) (by omega)
  have hseek : step s2 (.lseek 1 3 offset 0) = s2.setOffset 3 offset := by
    rw [step, minifsLseek, htables, getOpenFile_oneOpen]
    dsimp only
    rw [openFiles_oneOpen, if_neg (fun h => h rfl), show seekBase s2 _ 0 = (s2, some 0) from rfl]
    dsimp only
    rw [Nat.cast_zero, hposition, if_neg (by omega)]
    rfl
  have hentry : (s2.setOffset 3 offset).openFiles 3 = ⟨true, 1, .file, 2, n, offset⟩ := by
    rw [setOffset_openFiles_self, htables, openFiles_oneOpen]
  refine ⟨s2.setOffset 3 offset, ?_, ?_, ?_, hentry, ?_⟩
  · rw [← hseek, ← hopen, ← hinit]
    rfl
  · rw [hs2]
    rfl
  · rw [FsSt.setOffset, htables]
    rfl
  · rw [writeOffset, hentry, if_neg (show ¬ wantsAppend 2 = true by decide)]

variable (hsize : (s.volume.node n).size = 2)
include hsize

/-- At the end of two bytes a write leaves no gap, -/
theorem not_gaps_after_seek (buffer : Option Region) (length : Nat) :
    ¬ Gaps (runCalls s [.processInit 1, .open 1 0 (some path) 2, .lseek 1 3 2 0])
      (.write 1 3 buffer length) := by
  obtain ⟨s', heq, hvol, hget, hentry, hoff⟩ :=
    runCalls_moved h ht hr hn hfile (show 2 ≤ 65536 by decide)
  rw [show runCalls s [.processInit 1, .open 1 0 (some path) 2, .lseek 1 3 2 0] = s' from heq]
  rintro ⟨i, hw, hlt, -⟩
  obtain rfl : i = 3 := Option.some.inj (hw.writable.open_.symm.trans hget)
  rw [hoff, hvol, hentry, hsize] at hlt
  exact absurd hlt (by decide)

/-- and at 1024 it does. -/
theorem gaps_after_seek (buffer : Region) :
    Gaps (runCalls s [.processInit 1, .open 1 0 (some path) 2, .lseek 1 3 1024 0])
      (.write 1 3 (some buffer) 1) := by
  obtain ⟨s', heq, hvol, hget, hentry, hoff⟩ :=
    runCalls_moved h ht hr hn hfile (show 1024 ≤ 65536 by decide)
  rw [show runCalls s [.processInit 1, .open 1 0 (some path) 2, .lseek 1 3 1024 0] = s' from heq]
  have hflags : (s'.openFiles 3).flags &&& 3 ≠ 0 := by
    rw [hentry]
    show (2 : BitVec 32) &&& 3 ≠ 0
    decide
  refine ⟨3, ⟨⟨hget, by rw [hentry], hflags⟩, Option.some_ne_none _, ?_, ?_, ?_⟩, ?_, Or.inl ?_⟩
  · rw [hentry]
    exact hn
  · rw [hvol, hentry]
    exact hfile
  · rw [hoff]
    decide
  · rw [hvol, hentry, hoff, hsize]
    decide
  · rw [hvol, hentry, hoff, hsize]
    decide

end Moved

/-- A byte is written to the end of a file of two bytes. -/
theorem runCalls_readable_write :
    ∃ (img : Image) (m s : FsSt) (calls : List Call), img.tree = stagedFile ∧
      m = img.mount bareSlot boot ∧
      calls = [.processInit 1, .open 1 0 (some ⟨[slash, 97], by decide⟩) 2, .lseek 1 3 2 0,
        .write 1 3 (some Region.zero) 1] ∧ s = runCalls m calls ∧
      Meets step (fun s call => ¬ Gaps s call) m calls ∧
      ∀ n, n < 256 → (s.volume.node n).IsFile →
        ∀ offset length, offset + length ≤ (s.volume.node n).size →
          ∃ data, (minifsPread s n offset length).2 = some data ∧ data.length = length ∧
            ∀ i, i < length → ¬ written m calls n (offset + i) → data[i]? = some 0 := by
  obtain ⟨img, htree, -⟩ := importTree_fits stagedFile_fits
  obtain ⟨n, hlt, hresolve, hfile, hnode⟩ := stagedFile_mounted htree bareSlot boot
  have hno : Meets step (fun s call => ¬ Gaps s call) (img.mount bareSlot boot)
      [.processInit 1, .open 1 0 (some ⟨[slash, 97], by decide⟩) 2, .lseek 1 3 2 0,
        .write 1 3 (some Region.zero) 1] :=
    ⟨id, id, id, @not_gaps_after_seek _ (img.mount_sound _ boot) (img.mount_tables _ boot) n
      ⟨[slash, 97], by decide⟩ hresolve hlt hfile hnode.2.2.1 _ 1, trivial⟩
  exact ⟨img, _, _, _, htree, rfl, rfl, rfl, hno,
    runCalls_readable img bareSlot boot _ hno⟩

/-! ## A hole -/

/-- A file of two bytes whose descriptor is moved to 1024: one byte written there
makes it 1025 bytes long, and the second block cannot be read. -/
theorem runCalls_hole :
    ∃ (img : Image) (s : FsSt) (n p : Nat), img.tree = stagedFile ∧
      s = runCalls (img.mount bareSlot boot)
        [.processInit 1, .open 1 0 (some ⟨[slash, 97], by decide⟩) 2, .lseek 1 3 1024 0,
          .write 1 3 (some Region.zero) 1] ∧
      n < 256 ∧ (s.volume.node n).IsFile ∧ p + 1 ≤ (s.volume.node n).size ∧
      (minifsPread s n p 1).2 = none := by
  obtain ⟨img, htree, -⟩ := importTree_fits stagedFile_fits
  obtain ⟨n, hlt, hresolve, hfile, hnode⟩ := stagedFile_mounted htree bareSlot boot
  obtain ⟨m, hm⟩ : ∃ m, m = img.mount bareSlot boot := ⟨_, rfl⟩
  have hsolid := Image.mount_solid img bareSlot boot
  have htables := img.mount_tables bareSlot boot
  rw [← hm] at hsolid hresolve hfile hnode htables
  have hgap := @gaps_after_seek m hsolid.sound htables n ⟨[slash, 97], by decide⟩ hresolve hlt
    hfile hnode.2.2.1 Region.zero
  have hno : Meets step (fun s call => ¬ Gaps s call) m [.processInit 1,
      .open 1 0 (some ⟨[slash, 97], by decide⟩) 2, .lseek 1 3 1024 0] :=
    ⟨id, id, id, trivial⟩
  obtain ⟨k, p, hk, hkfile, hp, hread⟩ := Gaps.unreadable (hsolid.run hno) hgap
  refine ⟨img, _, k, p, htree, rfl, hk, ?_⟩
  rw [← hm]
  exact ⟨hkfile, hp, hread⟩

end MiniOs.Fs
