import MiniOs.Proofs.AddressSpaces
import MiniOs.Proofs.UserPages
import MiniOs.Proofs.Waiting

/-!
# The image of a program

`load_elf` copies a file into pages segment by segment: through pages that two segments
may share, 512 bytes of the file at a time, each of these again in pieces up to the end
of a page. What it leaves is described address by address, and the description of one
segment is all that the loop over the program headers needs. Pages are zero when they
are mapped, so a byte that no segment has in the file stays zero; flags only ever grow.

A segment writes no address but those of its file part. Where segments do not overlap
the next one leaves alone what the earlier ones have written, and that is the only use
of the hypothesis.
-/

namespace MiniOs.Kernel

open MiniOs.Lib MiniOs.Fs MiniOs.Spec

/-! ## What a file asks for -/

/-- The file header. -/
def elfHeader (V : Volume) (inode : Nat) : ElfHeader :=
  ElfHeader.decode ((V.pread inode 0 64).getD [])

/-- A program header. -/
def programHeader (V : Volume) (inode : Nat) (header : ElfHeader) (i : Nat) :
    Option ProgramHeader :=
  (V.pread inode (header.phoff + i * 56) 56).map ProgramHeader.decode

/-- The segments among `left` program headers from `i` on: those of type `PT_LOAD`. -/
def segmentsFrom (V : Volume) (inode : Nat) (header : ElfHeader) (i left : Nat) :
    List ProgramHeader :=
  ((List.range' i left).filterMap (programHeader V inode header)).filter fun segment =>
    segment.type = 1

def segments (V : Volume) (inode : Nat) : List ProgramHeader :=
  segmentsFrom V inode (elfHeader V inode) 0 (elfHeader V inode).phnum

namespace ProgramHeader

/-- An address of the segment. -/
def Has (segment : ProgramHeader) (a : Nat) : Prop :=
  segment.vaddr ≤ a ∧ a < segment.vaddr + segment.memsz

/-- An address whose byte is in the file. -/
def Covers (segment : ProgramHeader) (a : Nat) : Prop :=
  segment.vaddr ≤ a ∧ a < segment.vaddr + segment.filesz

/-- The segment has an address in the page. -/
def Touches (segment : ProgramHeader) (page : Nat) : Prop :=
  0 < segment.memsz ∧ segment.vaddr < page + pageSize ∧ page < segment.vaddr + segment.memsz

/-- The two have no address in common. -/
def Disjoint (segment other : ProgramHeader) : Prop := ∀ a, ¬ (segment.Has a ∧ other.Has a)

instance (segment : ProgramHeader) (page : Nat) : Decidable (segment.Touches page) :=
  inferInstanceAs (Decidable (_ ∧ _))

end ProgramHeader

/-- The flags of all segments with an address in the page. -/
def unionFlags (segments : List ProgramHeader) (page : Nat) : Nat :=
  ((segments.filter (·.Touches page)).map segmentFlags).foldl (· ||| ·) 0

/-- The page of an address. -/
def pageOf (a : Nat) : Nat := a / pageSize * pageSize

/-! ## One segment -/

variable {layout : Layout} {others : List Nat} {m m' : Memory} {space space' : AddressSpace}
  {s s' : FsSt} {V : Volume} {inode fileSize : Nat} {header : ElfHeader}
  {segs : List ProgramHeader} {segment : ProgramHeader}

theorem copySegment_lays {fuel : Nat} :
    ∀ {s s' : FsSt} {m m' : Memory} {copied : Nat}, segment.filesz - copied ≤ fuel →
      segment.offset + segment.filesz < 2 ^ 32 → segment.vaddr + segment.filesz < 2 ^ 64 →
      copySegment inode segment space fuel s m copied = (s', m', true) →
      ∃ b bytes, s' = s.withBuffer b ∧ bytes.length = segment.filesz - copied ∧
        (∀ i, i < segment.filesz - copied →
          s.volume.byte inode (segment.offset + copied + i) = bytes[i]?) ∧
        Lays space (segment.vaddr + copied) bytes m m' := by
  induction fuel with
  | zero =>
    intro s s' m m' copied hfuel _ _ h
    rw [copySegment, Prod.mk.injEq, Prod.mk.injEq] at h
    obtain ⟨rfl, rfl, -⟩ := h
    exact ⟨s.blockBuffer, [], rfl, by rw [List.length_nil]; omega,
      fun i hi => absurd hi (by omega), .nil m⟩
  | succ fuel ih =>
    intro s s' m m' copied hfuel hfile haddr h
    rw [copySegment] at h
    by_cases hdone : segment.filesz ≤ copied
    · rw [if_pos hdone] at h
      cases h
      exact ⟨s.blockBuffer, [], rfl, by rw [List.length_nil]; omega,
        fun i hi => absurd hi (by omega), .nil m⟩
    rw [if_neg hdone] at h
    obtain ⟨chunk, hchunk⟩ : ∃ chunk, chunk = min (segment.filesz - copied) 512 := ⟨_, rfl⟩
    have hoff : (segment.offset + copied) % 2 ^ 32 = segment.offset + copied :=
      Nat.mod_eq_of_lt (by omega)
    obtain ⟨b, hread⟩ := minifsPread_eq s inode (segment.offset + copied) chunk
    dsimp only at h
    rw [← hchunk, hoff, hread] at h
    cases hpread : s.volume.pread inode (segment.offset + copied) chunk with
    | none =>
      rw [hpread] at h
      cases h
    | some scratch =>
      rw [hpread] at h
      dsimp only at h
      by_cases hlen : scratch.length ≠ chunk
      · rw [if_pos hlen] at h
        cases h
      rw [if_neg hlen] at h
      rw [not_not] at hlen
      obtain ⟨ram, ok, hcopy, -, hlays, -⟩ :=
        @copyToSpace_spec space chunk m (segment.vaddr + copied) scratch (by omega)
      rw [hcopy] at h
      cases ok with
      | false => cases h
      | true =>
        obtain ⟨b', rest, hs', hrest, hbytes, hlays'⟩ := ih (by omega) hfile haddr h
        have hhead := (pread_eq_some.mp hpread).2.2
        rw [← Nat.add_assoc, ← hlen] at hlays'
        refine ⟨b', scratch ++ rest, hs', ?_, fun i hi => ?_, (hlays rfl).append hlays'⟩
        · rw [List.length_append]
          omega
        · rw [List.getElem?_append, hlen]
          split
          · next hlt => exact hhead i (by omega)
          · next hge =>
            rw [← hbytes (i - chunk) (by omega)]
            show s.volume.byte inode _ = s.volume.byte inode _
            congr 1
            omega

/-- What a loaded segment does to the pages of a process. -/
structure SegmentLoaded (V : Volume) (inode : Nat) (segment : ProgramHeader) (m m' : Memory)
    (space space' : AddressSpace) : Prop where
  fits : segment.filesz ≤ segment.memsz
  inside : 0 < segment.memsz →
    userMinVa ≤ segment.vaddr ∧ segment.vaddr + segment.memsz ≤ userStackBottom
  flags : ∀ a, flagsAt space' a = if segment.Touches (pageOf a)
    then some ((flagsAt space a).getD 0 ||| segmentFlags segment) else flagsAt space a
  file : ∀ i, i < segment.filesz → ∃ byte, V.byte inode (segment.offset + i) = some byte ∧
    peek m' space' (segment.vaddr + i) = some byte
  rest : ∀ a, ¬ segment.Covers a → peek m' space' a = if segment.Touches (pageOf a)
    then some ((peek m space a).getD 0) else peek m space a

/-- The pages `load_elf` maps for a segment are those the segment has an address in. -/
theorem touches_iff (hpos : 0 < segment.memsz) (a : Nat) :
    (segment.vaddr / pageSize * pageSize ≤ a ∧ a < segment.vaddr / pageSize * pageSize +
        ((segment.vaddr + segment.memsz + pageSize - 1) / pageSize * pageSize -
          segment.vaddr / pageSize * pageSize) / pageSize * pageSize) ↔
      segment.Touches (pageOf a) := by
  unfold ProgramHeader.Touches pageOf pageSize
  omega

/-- A round of the loop over the program headers. -/
theorem loadSegment_peek {fileSize : Nat} (hsize : fileSize < 2 ^ 32)
    (hown : OwnPages layout others m space) (htype : segment.type = 1)
    (hwide : segment.vaddr < 2 ^ 64 ∧ segment.memsz < 2 ^ 64)
    (h : loadSegment inode fileSize s m space segment = (s', m', space', true)) :
    ∃ b, s' = s.withBuffer b ∧ OwnPages layout others m' space' ∧
      SegmentLoaded s.volume inode segment m m' space space' := by
  unfold loadSegment at h
  rw [if_neg (not_not_intro htype)] at h
  by_cases hempty : segment.memsz = 0
  · -- nothing to load, and nothing in the file
    rw [if_pos hempty] at h
    simp only [Prod.mk.injEq, decide_eq_true_eq] at h
    obtain ⟨rfl, rfl, rfl, hfile⟩ := h
    have hno : ∀ page, ¬ segment.Touches page := fun page ht => by
      have := ht.1
      omega
    exact ⟨s.blockBuffer, rfl, hown, by omega, fun hpos => by omega,
      fun a => (if_neg (hno _)).symm, fun i hi => by omega, fun a _ => (if_neg (hno _)).symm⟩
  · rw [if_neg hempty] at h
    by_cases hvalid : validSegment segment fileSize = true
    · rw [if_neg (by rw [hvalid]; decide)] at h
      split at h
      · cases h
      obtain ⟨hfits, hoff, hin, hmin, hwrap, htop⟩ := of_decide_eq_true hvalid
      have hbottom : userStackBottom < 2 ^ 32 := by decide
      have hpos : 0 < segment.memsz := by omega
      have hend : segment.vaddr + segment.memsz < 2 ^ 64 := by omega
      dsimp only at h
      cases hmap : mapPages (segmentFlags segment)
          (((segment.vaddr + segment.memsz + pageSize - 1) / pageSize * pageSize -
            segment.vaddr / pageSize * pageSize) / pageSize) m space
          (segment.vaddr / pageSize * pageSize) with
      | mk m1 rest =>
        obtain ⟨space1, ok⟩ := rest
        rw [hmap] at h
        cases ok with
        | false => cases h
        | true =>
          dsimp only at h
          obtain ⟨hown1, hpages⟩ := mapPages_peek (Nat.mul_mod_left _ _) hown hmap
          simp only [touches_iff hpos] at hpages
          cases hcopy : copySegment inode segment space1 segment.filesz s m1 0 with
          | mk s2 rest =>
            obtain ⟨m2, ok⟩ := rest
            rw [hcopy] at h
            cases h
            obtain ⟨b, bytes, hs, hlen, hbytes, hlays⟩ :=
              copySegment_lays (by omega) (by omega) (by omega) hcopy
            obtain ⟨hown', hpeek⟩ := hlays _ _ hown1
            rw [Nat.sub_zero] at hlen hbytes
            rw [Nat.add_zero] at hpeek
            refine ⟨b, hs, hown', hfits, fun _ => ⟨hmin, by omega⟩,
              fun a => (hpages a).1, fun i hi => ?_, fun a hout => ?_⟩
            · refine ⟨bytes[i], ?_, ?_⟩
              · rw [← List.getElem?_eq_getElem, ← hbytes i hi, Nat.add_zero]
              · rw [hpeek, overlay, if_pos (by omega), Nat.add_sub_cancel_left,
                  List.getElem?_eq_getElem]
            · rw [hpeek, overlay, hlen]
              exact (if_neg hout).trans (hpages a).2
    · rw [if_pos (Bool.of_not_eq_true hvalid)] at h
      cases h

/-! ## All of them -/

theorem unionFlags_snoc {page : Nat} : unionFlags (segs ++ [segment]) page =
    if segment.Touches page then unionFlags segs page ||| segmentFlags segment
    else unionFlags segs page := by
  unfold unionFlags
  rw [List.filter_append, List.map_append, List.foldl_append]
  by_cases h : segment.Touches page
  · rw [if_pos h, List.filter_cons_of_pos (by simpa using h)]
    rfl
  · rw [if_neg h, List.filter_cons_of_neg (by simpa using h)]
    rfl

theorem unionFlags_none {page : Nat} (h : ¬ ∃ segment ∈ segs, segment.Touches page) :
    unionFlags segs page = 0 := by
  unfold unionFlags
  rw [List.filter_eq_nil_iff.mpr fun segment hmem ht => h ⟨segment, hmem, by simpa using ht⟩]
  rfl

/-- The image of some segments. -/
structure Laid (V : Volume) (inode : Nat) (segs : List ProgramHeader) (m : Memory)
    (space : AddressSpace) : Prop where
  fits : ∀ segment ∈ segs, segment.filesz ≤ segment.memsz
  inside : ∀ segment ∈ segs, 0 < segment.memsz →
    userMinVa ≤ segment.vaddr ∧ segment.vaddr + segment.memsz ≤ userStackBottom
  flags : ∀ a, flagsAt space a = if ∃ segment ∈ segs, segment.Touches (pageOf a)
    then some (unionFlags segs (pageOf a)) else none
  file : ∀ segment ∈ segs, ∀ i, i < segment.filesz →
    ∃ byte, V.byte inode (segment.offset + i) = some byte ∧
      peek m space (segment.vaddr + i) = some byte
  zero : ∀ a, (∀ segment ∈ segs, ¬ segment.Covers a) → (peek m space a).getD 0 = 0

theorem laid_nil (h : space.pages = []) : Laid V inode [] m space := by
  have hnone : ∀ a, mappingAt space a = none := by
    intro a
    rw [mappingAt_eq_find, h]
    rfl
  refine ⟨nofun, nofun, fun a => ?_, nofun, fun a _ => ?_⟩
  · rw [flagsAt, hnone, if_neg (by simp)]
    rfl
  · rw [peek, hnone]
    rfl

theorem Laid.snoc (h : Laid V inode segs m space)
    (hl : SegmentLoaded V inode segment m m' space space')
    (hdisjoint : ∀ other ∈ segs, other.Disjoint segment) :
    Laid V inode (segs ++ [segment]) m' space' := by
  have hsplit : ∀ {p : ProgramHeader → Prop}, (∀ other ∈ segs ++ [segment], p other) ↔
      (∀ other ∈ segs, p other) ∧ p segment := by
    intro p
    simp [or_imp, forall_and]
  refine ⟨hsplit.mpr ⟨h.fits, hl.fits⟩, hsplit.mpr ⟨h.inside, hl.inside⟩, fun a => ?_,
    hsplit.mpr ⟨fun other hmem i hi => ?_, hl.file⟩, fun a hout => ?_⟩
  · rw [hl.flags, h.flags, unionFlags_snoc]
    by_cases hnew : segment.Touches (pageOf a)
    · have hsome : ∃ other ∈ segs ++ [segment], other.Touches (pageOf a) :=
        ⟨segment, List.mem_append_right _ List.mem_cons_self, hnew⟩
      rw [if_pos hnew, if_pos hsome, if_pos hnew]
      by_cases hold : ∃ other ∈ segs, other.Touches (pageOf a)
      · rw [if_pos hold, Option.getD_some]
      · rw [if_neg hold, Option.getD_none, unionFlags_none hold]
    · rw [if_neg hnew, if_neg hnew]
      refine if_congr ⟨?_, ?_⟩ rfl rfl
      · rintro ⟨other, hmem, ht⟩
        exact ⟨other, List.mem_append_left _ hmem, ht⟩
      · rintro ⟨other, hmem, ht⟩
        rcases List.mem_append.mp hmem with hmem | hmem
        · exact ⟨other, hmem, ht⟩
        · exact absurd (List.mem_singleton.mp hmem ▸ ht) hnew
  · -- the new segment has none of the addresses of the others
    obtain ⟨byte, hfile, hpeek⟩ := h.file other hmem i hi
    have hfits := h.fits other hmem
    have hnot : ¬ segment.Covers (other.vaddr + i) := fun ⟨hlo, hhi⟩ =>
      hdisjoint other hmem (other.vaddr + i)
        ⟨⟨by omega, by omega⟩, hlo, Nat.lt_of_lt_of_le hhi (Nat.add_le_add_left hl.fits _)⟩
    refine ⟨byte, hfile, ?_⟩
    rw [hl.rest _ hnot, hpeek, Option.getD_some, ite_self]
  · obtain ⟨hold, hnew⟩ := hsplit.mp hout
    rw [hl.rest a hnew]
    split
    · rw [Option.getD_some]
      exact h.zero a hold
    · exact h.zero a hold

theorem dword_lt (r : Region) (off : Nat) : r.dword off < 2 ^ 64 := by
  have hlow := r.word_lt off
  have hhigh := r.word_lt (off + 4)
  unfold Region.dword
  omega

theorem loadSegments_laid (hsize : fileSize < 2 ^ 32) (hent : header.phentsize = 56) {left : Nat} :
    ∀ {i : Nat} {s s' : FsSt} {m m' : Memory} {space space' : AddressSpace}
      {segs : List ProgramHeader}, header.phoff + (i + left) * 56 ≤ fileSize →
      OwnPages layout others m space → Laid s.volume inode segs m space →
      (segs ++ segmentsFrom s.volume inode header i left).Pairwise ProgramHeader.Disjoint →
      loadSegments inode fileSize header left i s m space = (s', m', space', true) →
      ∃ b, s' = s.withBuffer b ∧ OwnPages layout others m' space' ∧
        Laid s.volume inode (segs ++ segmentsFrom s.volume inode header i left) m' space' := by
  induction left with
  | zero =>
    intro i s s' m m' space space' segs _ hown hlaid _ h
    cases h
    refine ⟨s.blockBuffer, rfl, hown, ?_⟩
    rw [show segmentsFrom s.volume inode header i 0 = [] from rfl, List.append_nil]
    exact hlaid
  | succ left ih =>
    intro i s s' m m' space space' segs hbound hown hlaid hdisjoint h
    have hoff : (header.phoff + i * header.phentsize) % 2 ^ 32 = header.phoff + i * 56 := by
      rw [hent]
      exact Nat.mod_eq_of_lt (by omega)
    obtain ⟨b, hread⟩ := minifsPread_eq s inode (header.phoff + i * 56) 56
    rw [loadSegments, hoff, hread] at h
    cases hpread : s.volume.pread inode (header.phoff + i * 56) 56 with
    | none =>
      rw [hpread] at h
      cases h
    | some bytes =>
      rw [hpread] at h
      dsimp only at h
      split at h
      · cases h
      have hhead : programHeader s.volume inode header i = some (ProgramHeader.decode bytes) := by
        rw [programHeader, hpread]
        rfl
      have hfrom : segmentsFrom s.volume inode header i (left + 1) =
          (if (ProgramHeader.decode bytes).type = 1 then [ProgramHeader.decode bytes] else []) ++
            segmentsFrom s.volume inode header (i + 1) left := by
        unfold segmentsFrom
        rw [List.range'_succ, List.filterMap_cons_some hhead, List.filter_cons]
        simp only [decide_eq_true_eq]
        split <;> rfl
      cases hone : loadSegment inode fileSize (s.withBuffer b) m space
          (ProgramHeader.decode bytes) with
      | mk s1 rest =>
        obtain ⟨m1, space1, ok⟩ := rest
        rw [hone] at h
        cases ok with
        | false => cases h
        | true =>
          by_cases htype : (ProgramHeader.decode bytes).type = 1
          · rw [hfrom, if_pos htype, ← List.append_assoc] at hdisjoint ⊢
            obtain ⟨b1, hs1, hown1, hl⟩ := loadSegment_peek hsize hown htype
              ⟨dword_lt _ _, dword_lt _ _⟩ hone
            have hbefore := (List.pairwise_append.mp (List.pairwise_append.mp hdisjoint).1).2.2
            subst hs1
            have hlaid1 := hlaid.snoc hl fun other hmem =>
              hbefore other hmem _ List.mem_cons_self
            obtain ⟨b', hs', hrest⟩ := @ih (i + 1) ((s.withBuffer b).withBuffer b1) s'
              m1 m' space1 space' _ (by omega) hown1 hlaid1 hdisjoint h
            exact ⟨b', hs', hrest⟩
          · rw [hfrom, if_neg htype, List.nil_append] at hdisjoint ⊢
            unfold loadSegment at hone
            rw [if_pos htype] at hone
            cases hone
            obtain ⟨b', hs', hrest⟩ := @ih (i + 1) (s.withBuffer b) s' m m' space space'
              segs (by omega) hown hlaid hdisjoint h
            exact ⟨b', hs', hrest⟩

/-! ## The program -/

theorem readElfHeader_eq (h : readElfHeader s inode = (s', some (fileSize, header))) :
    ∃ b, s' = s.withBuffer b ∧ fileSize < 2 ^ 32 ∧ header = elfHeader s.volume inode ∧
      validElfHeader header fileSize = true := by
  unfold readElfHeader minifsInodeSize minifsInodeMode at h
  obtain ⟨b1, h1⟩ := readInode_eq s inode
  rw [h1] at h
  by_cases hn : inode < 256
  · rw [if_pos hn] at h
    dsimp only [Option.map_some] at h
    obtain ⟨b2, h2⟩ := readInode_eq (s.withBuffer b1) inode
    rw [h2, if_pos hn] at h
    dsimp only [Option.map_some] at h
    split at h
    · cases h
    obtain ⟨b3, h3⟩ := minifsPread_eq ((s.withBuffer b1).withBuffer b2) inode 0 64
    rw [h3] at h
    have hvol : ((s.withBuffer b1).withBuffer b2).volume = s.volume := rfl
    rw [hvol] at h
    cases hpread : s.volume.pread inode 0 64 with
    | none =>
      rw [hpread] at h
      cases h
    | some bytes =>
      rw [hpread] at h
      dsimp only at h
      split at h
      · next hok =>
        cases h
        refine ⟨b3, rfl, ?_, ?_, hok.2⟩
        · unfold inodeAt
          rw [if_pos hn]
          exact Region.word_lt _ _
        · rw [elfHeader, hpread]
          rfl
      · cases h
  · rw [if_neg hn] at h
    cases h

/-- The address space is the image of the file: its segments, zeros, and a stack. -/
structure FaithfulImage (V : Volume) (inode : Nat) (m : Memory) (space : AddressSpace)
    (entry : Nat) : Prop where
  mapped : ∀ segment ∈ segments V inode, ∀ i, i < segment.memsz →
    (mappingAt space (segment.vaddr + i)).isSome = true
  file : ∀ segment ∈ segments V inode, ∀ i, i < segment.filesz →
    ∃ byte, V.byte inode (segment.offset + i) = some byte ∧
      peek m space (segment.vaddr + i) = some byte
  zero : ∀ a, (mappingAt space a).isSome = true →
    (∀ segment ∈ segments V inode, ¬ segment.Covers a) → peek m space a = some 0
  flags : ∀ mapping ∈ space.pages, mapping.flags =
    if userStackBottom ≤ mapping.va then pteR ||| pteW
    else unionFlags (segments V inode) mapping.va
  pages : ∀ va, va ∈ space.vas ↔ va % pageSize = 0 ∧
    ((∃ segment ∈ segments V inode, segment.Touches va) ∨ userStackBottom ≤ va ∧ va < userStackTop)
  bounds : ∀ va ∈ space.vas, 0x10000 ≤ va ∧ va + pageSize ≤ 0x200000
  distinct : space.vas.Nodup
  few : space.vas.length ≤ 64
  entry : entry = (elfHeader V inode).entry ∧
    ∃ mapping, mappingAt space entry = some mapping ∧ mapping.flags &&& pteX ≠ 0

theorem isSome_flagsAt (space : AddressSpace) (a : Nat) :
    (flagsAt space a).isSome = (mappingAt space a).isSome := Option.isSome_map

theorem isSome_peek (m : Memory) (space : AddressSpace) (a : Nat) :
    (peek m space a).isSome = (mappingAt space a).isSome := Option.isSome_map

theorem flagsAt_eq_some {a flags : Nat} (h : flagsAt space a = some flags) :
    ∃ mapping, mappingAt space a = some mapping ∧ mapping.va = pageOf a ∧
      mapping.flags = flags := by
  obtain ⟨mapping, hat, hflags⟩ := Option.map_eq_some_iff.mp h
  exact ⟨mapping, hat, (mappingAt_mem hat).2, hflags⟩

/-- The stack on top of the segments completes the image. -/
theorem faithful_of_laid (hown : OwnPages layout others m space)
    (hlaid : Laid V inode (segments V inode) m space)
    (hentry : entryMapped space (elfHeader V inode).entry = true)
    (hbelow : (elfHeader V inode).entry < userStackBottom)
    (hmap : mapPages (pteR ||| pteW) 4 m space userStackBottom = (m', space', true)) :
    FaithfulImage V inode m' space' (elfHeader V inode).entry := by
  obtain ⟨hown', hstack⟩ := mapPages_peek (by decide) hown hmap
  have htop : userStackBottom + 4 * pageSize = userStackTop := by decide
  rw [htop] at hstack
  -- no segment reaches into the stack
  have hfree : ∀ a, userStackBottom ≤ a → ¬ ∃ segment ∈ segments V inode,
      segment.Touches (pageOf a) := by
    rintro a ha ⟨segment, hmem, hpos, -, hlt⟩
    have hend := (hlaid.inside segment hmem hpos).2
    have hpage : userStackBottom ≤ pageOf a := by
      unfold pageOf userStackBottom userStackTop pageSize at *
      omega
    omega
  have hflags : ∀ a, flagsAt space' a =
      if userStackBottom ≤ a ∧ a < userStackTop then some (pteR ||| pteW)
      else if ∃ segment ∈ segments V inode, segment.Touches (pageOf a)
        then some (unionFlags (segments V inode) (pageOf a)) else none := by
    intro a
    rw [(hstack a).1, hlaid.flags]
    split
    · next hin => rw [if_neg (hfree a hin.1), Option.getD_none, Nat.zero_or]
    · rfl
  have hbelowStack : ∀ {a}, a < userStackBottom → ¬ (userStackBottom ≤ a ∧ a < userStackTop) :=
    fun ha hin => absurd hin.1 (Nat.not_le.mpr ha)
  have hself : ∀ va, va % pageSize = 0 → pageOf va = va := fun va hva =>
    Nat.div_mul_cancel (Nat.dvd_of_mod_eq_zero hva)
  have hinside : ∀ segment ∈ segments V inode, ∀ i, i < segment.memsz →
      segment.vaddr + i < userStackBottom := fun segment hmem i hi => by
    have hend := (hlaid.inside segment hmem (by omega)).2
    omega
  constructor
  case mapped =>
    intro segment hmem i hi
    have htouches : segment.Touches (pageOf (segment.vaddr + i)) := by
      unfold ProgramHeader.Touches pageOf pageSize
      omega
    rw [← isSome_flagsAt, hflags, if_neg (hbelowStack (hinside segment hmem i hi)),
      if_pos ⟨segment, hmem, htouches⟩]
    rfl
  case file =>
    intro segment hmem i hi
    obtain ⟨byte, hbyte, hpeek⟩ := hlaid.file segment hmem i hi
    have hlt := hinside segment hmem i (Nat.lt_of_lt_of_le hi (hlaid.fits segment hmem))
    refine ⟨byte, hbyte, ?_⟩
    rw [(hstack _).2, if_neg (hbelowStack hlt), hpeek]
  case zero =>
    intro a hat hout
    have hzero := hlaid.zero a hout
    have hpeek := (hstack a).2
    have hsome : (peek m' space' a).isSome = true := by rw [isSome_peek, hat]
    obtain ⟨byte, hbyte⟩ := Option.isSome_iff_exists.mp hsome
    rw [hbyte] at hpeek
    split at hpeek
    · rw [hbyte, hpeek, hzero]
    · rw [← hpeek, Option.getD_some] at hzero
      rw [hbyte, hzero]
  case flags =>
    intro mapping hmem
    have hat := hown'.orderly.mappingAt_of_mem hmem
    obtain ⟨-, hlt, halign⟩ := hown'.inside _ (List.mem_map_of_mem hmem)
    have hvalue : some mapping.flags = _ := (congrArg (Option.map Mapping.flags) hat).symm.trans
      (hflags mapping.va)
    rw [hself _ halign] at hvalue
    by_cases hin : userStackBottom ≤ mapping.va
    · rw [if_pos hin]
      rw [if_pos ⟨hin, hlt⟩] at hvalue
      exact Option.some.inj hvalue
    · rw [if_neg hin]
      rw [if_neg fun h => hin h.1] at hvalue
      split at hvalue
      · exact Option.some.inj hvalue
      · cases hvalue
  case pages =>
    intro va
    constructor
    · intro hva
      obtain ⟨mapping, hmem, rfl⟩ := List.mem_map.mp hva
      obtain ⟨-, -, halign⟩ := hown'.inside _ hva
      have hsome : (flagsAt space' mapping.va).isSome = true := by
        rw [isSome_flagsAt, hown'.orderly.mappingAt_of_mem hmem]
        rfl
      rw [hflags, hself _ halign] at hsome
      refine ⟨halign, ?_⟩
      split at hsome
      · next hin => exact Or.inr hin
      · split at hsome
        · next htouched => exact Or.inl htouched
        · cases hsome
    · rintro ⟨halign, hneeded⟩
      have hsome : (flagsAt space' va).isSome = true := by
        rw [hflags, hself va halign]
        split
        · rfl
        · next hout =>
          rw [if_pos (hneeded.resolve_right hout)]
          rfl
      obtain ⟨flags, hat⟩ := Option.isSome_iff_exists.mp hsome
      obtain ⟨mapping, hmapping, hva, -⟩ := flagsAt_eq_some hat
      rw [hself va halign] at hva
      exact List.mem_map.mpr ⟨mapping, (mappingAt_mem hmapping).1, hva⟩
  case bounds =>
    intro va hva
    obtain ⟨hlo, hhi, halign⟩ := hown'.inside va hva
    unfold userMinVa userStackTop pageSize at *
    omega
  case distinct => exact hown'.distinct
  case few => exact hown'.few
  case entry =>
    refine ⟨rfl, ?_⟩
    have hsame : flagsAt space' (elfHeader V inode).entry =
        flagsAt space (elfHeader V inode).entry := by
      rw [(hstack _).1, if_neg (hbelowStack hbelow)]
    unfold entryMapped at hentry
    cases hat : mappingAt space (elfHeader V inode).entry with
    | none =>
      rw [hat] at hentry
      cases hentry
    | some mapping =>
      rw [hat] at hentry
      rw [show flagsAt space (elfHeader V inode).entry = some mapping.flags by
        rw [flagsAt, hat, Option.map_some]] at hsame
      obtain ⟨mapping', hat', -, hflags'⟩ := flagsAt_eq_some hsame
      refine ⟨mapping', hat', ?_⟩
      rw [hflags']
      exact of_decide_eq_true hentry

theorem loadImage_faithful (hsize : fileSize < 2 ^ 32) (hheader : header = elfHeader s.volume inode)
    (hvalid : validElfHeader header fileSize = true) (hown : OwnPages layout others m space)
    (hnone : space.pages = [])
    (hdisjoint : (segments s.volume inode).Pairwise ProgramHeader.Disjoint)
    (h : loadImage s m inode fileSize header space = (s', m', space', true)) :
    FaithfulImage s.volume inode m' space' header.entry := by
  obtain ⟨-, -, -, -, -, hent, -, -, -, hroom, -, hbelow⟩ := of_decide_eq_true hvalid
  unfold loadImage at h
  cases hsegs : loadSegments inode fileSize header header.phnum 0 s m space with
  | mk s1 rest =>
    obtain ⟨m1, space1, ok⟩ := rest
    rw [hsegs] at h
    cases ok with
    | false => cases h
    | true =>
      dsimp only at h
      split at h
      · cases h
      next hentry =>
        subst hheader
        obtain ⟨b, -, hown1, hlaid⟩ := loadSegments_laid hsize hent
          (by rw [hent] at hroom; omega) hown (laid_nil hnone) hdisjoint hsegs
        cases hmap : mapPages (pteR ||| pteW) 4 m1 space1 userStackBottom with
        | mk m2 rest =>
          obtain ⟨space2, ok⟩ := rest
          rw [hmap] at h
          cases h
          exact faithful_of_laid hown1 hlaid (Bool.of_not_eq_false hentry) hbelow hmap

/-- Whatever the file and the state of the file system: where `load_elf` succeeds and the
segments do not overlap, the address space is the image of the file. -/
theorem load_elf_faithful {layout : Layout} {used : List Nat} {s s' : FsSt} {m m' : Memory}
    {inode entry : Nat} {space : AddressSpace} (hu : m.Uses layout used)
    (hload : loadElf s m inode = (s', m', some (space, entry)))
    (hdisjoint : (segments s.volume inode).Pairwise ProgramHeader.Disjoint) :
    FaithfulImage s.volume inode m' space entry := by
  unfold loadElf at hload
  cases hread : readElfHeader s inode with
  | mk s₁ outcome =>
    rw [hread] at hload
    cases outcome with
    | none => cases hload
    | some found =>
      obtain ⟨fileSize, header⟩ := found
      obtain ⟨b, rfl, hsize, hheader, hvalid⟩ := readElfHeader_eq hread
      cases hcreate : createEmptySpace m with
      | mk m₁ created =>
        rw [hcreate] at hload
        cases created with
        | none => cases hload
        | some space₁ =>
          dsimp only at hload
          cases himage : loadImage (s.withBuffer b) m₁ inode fileSize header space₁ with
          | mk s₂ rest =>
            obtain ⟨m₂, space₂, ok⟩ := rest
            rw [himage] at hload
            cases ok with
            | false => cases hload
            | true =>
              cases hload
              obtain ⟨hown, hnone⟩ := createEmptySpace_own hu hcreate
              exact @loadImage_faithful layout used m₁ m' space₁ space (s.withBuffer b) s'
                inode fileSize header hsize hheader hvalid hown hnone hdisjoint himage

open Machine (withShell) in
/-- The shell: the first four bytes of the file, and zeros behind them. -/
theorem load_elf_shell :
    ∃ s' m' space entry, loadElf withShell.fs withShell.memory 2 = (s', m', some (space, entry)) ∧
      FaithfulImage withShell.fs.volume 2 m' space entry ∧ entry = 0x10000 := by
  have hvm : ((vmInit Machine.powerOn.memory).2).isSome = true := by decide +kernel
  obtain ⟨satp, hsatp⟩ := Option.isSome_iff_exists.mp hvm
  obtain ⟨used, huses⟩ : ∃ used, withShell.memory.Uses Machine.powerOn.layout used :=
    ⟨_, (vmInit_ok (memInit_uses Machine.powerOn.layout) hsatp).uses⟩
  have hone : (segments withShell.fs.volume 2).length = 1 := by decide +kernel
  obtain ⟨segment, hsegment⟩ := List.length_eq_one_iff.mp hone
  have hload : (loadElf withShell.fs withShell.memory 2).2.2.map Prod.snd = some 0x10000 := by
    decide +kernel
  have hdisjoint : (segments withShell.fs.volume 2).Pairwise ProgramHeader.Disjoint := by
    rw [hsegment]
    exact List.pairwise_singleton _ _
  cases hloaded : loadElf withShell.fs withShell.memory 2 with
  | mk s' rest =>
    obtain ⟨m', program⟩ := rest
    rw [hloaded] at hload
    obtain ⟨⟨space, entry⟩, rfl, hentry⟩ := Option.map_eq_some_iff.mp hload
    exact ⟨s', m', space, entry, rfl, load_elf_faithful huses hloaded hdisjoint, hentry⟩

end MiniOs.Kernel
