import MiniOs.Lib.Splice
import MiniOs.Proofs.Contents

/-!
# Files as byte strings

A file that can be read up to its size holds a string of bytes, and `write_at` at an
offset inside it lays its buffer over that string. The blocks, the table of indirect
blocks and the partial sectors at both ends do not show: `afterWrite_byte` has already
said byte by byte what the volume is afterwards.

How much is written is another matter. `write_at` stops where a block cannot be had, and
since it stores its copy of the inode even then, nothing is free at that point. An offset
behind the end is not inside the string. There the size moves to the offset whether or
not anything is written, and `Stretches` is the case in which nothing is.
-/

namespace MiniOs.Fs

open MiniOs.Lib MiniOs.Spec MiniOs.Tools

/-- What `minifs_pread` returns for the whole of a file. -/
def Content (s : FsSt) (n : Nat) (data : List UInt8) : Prop :=
  (minifsPread s n 0 (s.volume.node n).size).2 = some data

/-- A regular file that holds these bytes. -/
structure Reads (V : Volume) (n : Nat) (data : List UInt8) : Prop where
  lt : n < 256
  file : (V.node n).IsFile
  size : (V.node n).size = data.length
  bytes : ∀ p, p < data.length → V.byte n p = data[p]?

theorem content_iff {s : FsSt} {n : Nat} {data : List UInt8} :
    Content s n data ↔ Reads s.volume n data := by
  obtain ⟨b, hb⟩ := minifsPread_eq s n 0 (s.volume.node n).size
  rw [Content, hb, pread_eq_some, Nat.sub_zero, Nat.min_self]
  simp only [Nat.zero_add]
  constructor
  · rintro ⟨hfile, hlen, hget⟩
    exact ⟨hfile.1, hfile.2, hlen.symm, hget⟩
  · intro h
    exact ⟨⟨h.lt, h.file⟩, h.size.symm, h.bytes⟩

section Reads

variable {V W : Volume} {n offset : Nat} {data : List UInt8}

theorem Reads.same (h : Reads V n data) (hs : W.SameAt V n) : Reads W n data :=
  ⟨h.lt, hs.1 ▸ h.file, hs.1 ▸ h.size, fun p hp => by rw [hs.byte, h.bytes p hp]⟩

/-- Any part of a file reads as that part of its string. -/
theorem Reads.pread (h : Reads V n data) (offset length : Nat) :
    V.pread n offset length = some ((data.drop offset).take length) := by
  refine pread_eq_some.mpr ⟨⟨h.lt, h.file⟩, by rw [h.size]; simp, fun i hi => ?_⟩
  rw [List.length_take, List.length_drop] at hi
  rw [List.getElem?_take_of_lt (by omega), List.getElem?_drop]
  exact h.bytes (offset + i) (by omega)

/-- A write inside a file or at its end. -/
theorem Reads.afterWrite (h : Reads V n data) (hoff : offset ≤ data.length) (source : Region)
    (done : Nat) :
    Reads (afterWrite V n offset source done) n
      (splice data offset ((List.range done).map source)) where
  lt := h.lt
  file := by
    rw [Fs.afterWrite, Volume.setNode_node, Function.update_self]
    exact h.file
  size := by
    rw [afterWrite_size, h.size, length_splice hoff, List.length_map, List.length_range]
  bytes p hp := by
    rw [length_splice hoff, List.length_map, List.length_range] at hp
    rw [afterWrite_byte, getElem?_splice hoff, List.length_map, List.length_range]
    by_cases hin : offset ≤ p ∧ p < offset + done
    · rw [if_pos hin, if_pos hin, List.getElem?_map, List.getElem?_range (by omega),
        Option.map_some]
    · have hlt : p < data.length := by omega
      rw [if_neg hin, if_neg hin, h.bytes p hlt, List.getElem?_eq_getElem hlt, Option.getD_some,
        ite_self]

end Reads

theorem afterWrite_zero {V : Volume} {n offset : Nat} (source : Region)
    (h : offset ≤ (V.node n).size) : afterWrite V n offset source 0 = V := by
  rw [afterWrite, Volume.writeBytes_zero, Nat.add_zero, Nat.max_eq_left h, Volume.setNode,
    Function.update_eq_self]

/-- `write_at` inside a file: as much of the buffer as there is room for, laid over what the
file holds. Every part of the file then reads as that part of the string, and every other
inode is what it was. -/
theorem writeAt_splices {s : FsSt} (h : s.Sound) {n : Nat} {data : List UInt8}
    (hdata : Content s n data) {offset : Nat} (hoff : offset ≤ data.length) (buffer : Region)
    (length : Nat) :
    ∃ s' done, writeAt s n offset buffer length = (s', some done) ∧
      done ≤ min length (65536 - offset) ∧
      (done < min length (65536 - offset) → s'.free = 0) ∧
      (s'.volume.node n).size = (splice data offset ((List.range done).map buffer)).length ∧
      (∀ o l, (minifsPread s' n o l).2 =
        some (((splice data offset ((List.range done).map buffer)).drop o).take l)) ∧
      ∀ m, m ≠ n → s'.volume.SameAt s.volume m := by
  have hreads := content_iff.mp hdata
  have hread : ∀ s' : FsSt, ∀ data', Reads s'.volume n data' → ∀ o l,
      (minifsPread s' n o l).2 = some ((data'.drop o).take l) := by
    intro s' data' h' o l
    obtain ⟨b, hb⟩ := minifsPread_eq s' n o l
    rw [hb]
    exact h'.pread o l
  rcases writeAt_cases h n offset buffer length with
    ⟨hbig, hw⟩ | ⟨b, hnot, -⟩ | ⟨s', done, -, -, -, hw, hbound, -, hshort, -, hb⟩
  · refine ⟨s, 0, hw, Nat.zero_le _, fun hlt => by omega, ?_, ?_, fun m _ => ⟨rfl, rfl⟩⟩
    · rw [List.range_zero, List.map_nil, splice_nil]
      exact hreads.size
    · rw [List.range_zero, List.map_nil, splice_nil]
      exact hread s data hreads
  · exact absurd ⟨hreads.lt, hreads.file⟩ hnot
  · have hvol : s'.volume = afterWrite s.volume n offset buffer done := hb.volume
    have hafter := hreads.afterWrite hoff buffer done
    rw [← hvol] at hafter
    refine ⟨s', done, hw, hbound, fun hlt => (hshort.resolve_left (by omega)).1, hafter.size,
      hread s' _ hafter, fun m hm => ?_⟩
    rw [hvol]
    exact afterWrite_sameAt hm

/-- The staged file as a string. -/
theorem mount_content {img : Image} (htree : img.tree = stagedFile) (slot : Disk) (s0 : FsSt) :
    ∃ n, (img.mount slot s0).volume.resolve 0 [slash, 97] = some n ∧
      (img.mount slot s0).volume.ibit n = true ∧ Content (img.mount slot s0) n [104, 105] := by
  obtain ⟨n, -, hresolve, -, hnode⟩ := stagedFile_mounted htree slot s0
  have hread := HoldsNode.pread (img.mount_tree slot s0) hnode
  refine ⟨n, hresolve, hnode.used, ?_⟩
  obtain ⟨b, hb⟩ := minifsPread_eq (img.mount slot s0) n 0 2
  rw [Content, hnode.2.2.1]
  exact (congrArg Prod.snd hb).trans hread

/-- Three bytes over the second of two. -/
theorem writeAt_splices_hi :
    ∃ (img : Image) (m s' : FsSt) (n done : Nat), img.tree = stagedFile ∧
      m = img.mount bareSlot boot ∧ m.Sound ∧ Content m n [104, 105] ∧
      writeAt m n 1 Region.zero 3 = (s', some done) ∧ (done < 3 → s'.free = 0) ∧
      (minifsPread s' n 0 1).2 = some [104] := by
  obtain ⟨img, htree, -⟩ := importTree_fits stagedFile_fits
  have hsound := img.mount_sound bareSlot boot
  obtain ⟨n, -, -, hdata⟩ := mount_content htree bareSlot boot
  obtain ⟨s', done, hw, -, hfree, -, hread, -⟩ :=
    writeAt_splices hsound hdata (show 1 ≤ [104, 105].length by decide) Region.zero 3
  refine ⟨img, _, s', n, done, htree, rfl, hsound, hdata, hw, hfree, ?_⟩
  rw [hread 0 1]
  rfl

/-! ## The size -/

/-- The call changes the size of the file by what it wrote, and without a byte written it
changes nothing about it. -/
def SizeFollows (s : FsSt) (pid fd : Int) (buffer : Option Region) (length : Nat) : Prop :=
  ∀ i, Writable s pid fd i →
    let n := (s.openFiles i).inode
    let s' := (minifsWrite s pid fd buffer length).1
    let r := (minifsWrite s pid fd buffer length).2
    (0 < r → ((s'.volume.node n).size : Int) = max ((s.volume.node n).size : Int)
      (writeOffset s i + r)) ∧
    (r ≤ 0 → (s'.volume.node n).size = (s.volume.node n).size ∧
      ∀ o l, (minifsPread s' n o l).2 = (minifsPread s n o l).2)

/-- A write behind the end of the file that writes nothing: no byte was asked for, or the
first block cannot be had. -/
def Stretches (s : FsSt) (pid fd : Int) (buffer : Option Region) (length : Nat) : Prop :=
  ∃ i, WritesTo s pid fd buffer i ∧ (s.volume.node (s.openFiles i).inode).size < writeOffset s i ∧
    (length = 0 ∨ Refused s.toStore (s.table (s.openFiles i).inode) (writeOffset s i))

theorem minifsPread_congr {s s' : FsSt} (h : s'.volume = s.volume) (n offset length : Nat) :
    (minifsPread s' n offset length).2 = (minifsPread s n offset length).2 := by
  obtain ⟨b, hb⟩ := minifsPread_eq s n offset length
  obtain ⟨b', hb'⟩ := minifsPread_eq s' n offset length
  rw [hb, hb', h]

theorem sizeFollows_iff {s : FsSt} (h : s.Sound) (pid fd : Int) (buffer : Option Region)
    (length : Nat) :
    SizeFollows s pid fd buffer length ↔ ¬ Stretches s pid fd buffer length := by
  rcases minifsWrite_cases h pid fd buffer length with
    ⟨s', r, hc, hstore, -, hr, hnone⟩ | ⟨i, buf, s', done, hi, hbuf, hw, hc⟩
  · -- nothing was written, and the file system is what it was
    refine iff_of_true (fun i hi => ?_) fun ⟨i, hto, _⟩ => hnone i hto
    have hle : r ≤ 0 := by
      rcases hr with hle | ⟨j, hj, hcons⟩
      · exact hle
      · obtain rfl : i = j := Option.some.inj (hi.open_.symm.trans hj)
        cases hi.file.symm.trans hcons
    rw [hc]
    dsimp only
    rw [hstore]
    exact ⟨fun hpos => by omega, fun _ => ⟨rfl, minifsPread_congr (by rw [hstore]) _⟩⟩
  · obtain ⟨s1, -, -, hb⟩ := hw.becomes
    have hvol : (minifsWrite s pid fd buffer length).1.volume =
        afterWrite s.volume (s.openFiles i).inode (writeOffset s i) buf done := by
      rw [hc]
      exact hb.volume
    have hres : (minifsWrite s pid fd buffer length).2 = (done : Int) := by rw [hc]
    have hone : ∀ {j}, Writable s pid fd j → j = i := fun hj =>
      Option.some.inj (hj.open_.symm.trans hi.open_)
    constructor
    · rintro hsize ⟨j, hto, hbehind, hnothing⟩
      obtain rfl := hone hto.writable
      have hzero := hw.zero.mpr hnothing
      have hsame := ((hsize j hi).2 (by rw [hres, hzero]; exact Int.le_refl 0)).1
      rw [hvol, afterWrite_size] at hsame
      omega
    · rintro hno j hj
      obtain rfl := hone hj
      dsimp only
      rw [hvol, hres, afterWrite_size]
      refine ⟨fun _ => by omega, fun hle => ?_⟩
      obtain rfl : done = 0 := by omega
      have hinside : writeOffset s j ≤ (s.volume.node (s.openFiles j).inode).size := by
        by_contra hbehind
        refine hno ⟨j, ⟨hi, ?_, hw.lt, hw.file, hw.offset⟩, by omega, hw.zero.mp rfl⟩
        rw [hbuf]
        exact Option.some_ne_none buf
      rw [afterWrite_zero buf hinside] at hvol
      exact ⟨by omega, minifsPread_congr hvol _⟩

/-- From any image: a write changes the size by what it wrote, but for one that writes nothing
behind the end of the file. -/
theorem write_sizes_iff (img : Image) (slot : Disk) (s₀ : FsSt) (calls : List Call)
    (pid fd : Int) (buffer : Option Region) (length : Nat) :
    let s := runCalls (img.mount slot s₀) calls
    SizeFollows s pid fd buffer length ↔ ¬ Stretches s pid fd buffer length :=
  sizeFollows_iff (runCalls_sealed (img.mount_sound slot s₀) calls).sound pid fd buffer length

/-- A file of two bytes whose descriptor is moved to 1024, and a write of no bytes. -/
theorem write_nothing_stretches :
    ∃ (img : Image) (s : FsSt), img.tree = stagedFile ∧
      s = runCalls (img.mount bareSlot boot)
        [.processInit 1, .open 1 0 (some ⟨[slash, 97], by decide⟩) 2, .lseek 1 3 1024 0] ∧
      ¬ SizeFollows s 1 3 (some Region.zero) 0 := by
  obtain ⟨img, htree, -⟩ := importTree_fits stagedFile_fits
  have hsound := img.mount_sound bareSlot boot
  have htables := img.mount_tables bareSlot boot
  obtain ⟨n, hresolve, -, hdata⟩ := mount_content htree bareSlot boot
  generalize hm : img.mount bareSlot boot = m at hsound htables hresolve hdata
  have hreads := content_iff.mp hdata
  obtain ⟨i, hto, hgap, -⟩ := @gaps_after_seek m hsound htables n ⟨[slash, 97], by decide⟩
    hresolve hreads.lt hreads.file hreads.size Region.zero
  refine ⟨img, _, htree, rfl, ?_⟩
  rw [hm, sizeFollows_iff (runCalls_sealed hsound _).sound, not_not]
  exact ⟨i, hto, by omega, Or.inl rfl⟩

end MiniOs.Fs
