import MiniOs.Fs.Files
import MiniOs.Lib.Splice
import MiniOs.Proofs.Inodes
import MiniOs.Spec.Readers

/-!
# The readers of the code read the volume

Every function of the code that only looks something up changes nothing but
`block_buffer`, and its answer is that of the reader of `Spec/Readers.lean` on
the volume the disk shows. No invariant is needed: where a pointer is zero or
leads past the device, both sides see no block.

The loops over directory entries share `loadEntryBlock`, so they share one lemma
about it, and each loop is a scan by induction on the entries left. The path
walk is by induction on its fuel, and as long as the fuel exceeds the length of
the cursor the answer of fuel 0 is never used.
-/

namespace MiniOs.Fs

open MiniOs.Lib MiniOs.Spec

/-! ## Directories -/

/-- A scan either finds the block of an entry in `block_buffer` or stops. -/
theorem loadEntryBlock_cases (s : FsSt) (n i : Nat) :
    (s.volume.entry n i = none ∧
      ∃ b, loadEntryBlock s (inodeAt s.disk n) i = (s.withBuffer b, none)) ∨
    ∃ k, leaf s.disk (inodeAt s.disk n) (i / 8) = k ∧ k ≠ 0 ∧
      s.volume.entry n i = some (Dirent.decode (s.disk k) (i % 8 * 64)) ∧
      loadEntryBlock s (inodeAt s.disk n) i = (s.withBuffer (s.disk k), some k) := by
  obtain ⟨b, hb⟩ := inodeBlock_eq s (inodeAt s.disk n) (i / 8)
  unfold loadEntryBlock Volume.entry Store.volume view
  dsimp only
  rw [hb]
  dsimp only
  by_cases hz : leaf s.disk (inodeAt s.disk n) (i / 8) = 0
  · rw [if_pos hz, if_pos (Or.inl hz)]
    exact Or.inl ⟨rfl, b, rfl⟩
  rw [if_neg hz]
  rcases Nat.lt_or_ge (leaf s.disk (inodeAt s.disk n) (i / 8)) 16384 with hlt | hge
  · rw [if_neg (by omega), readBlock_eq hlt]
    exact Or.inr ⟨_, rfl, hz, rfl, rfl⟩
  · rw [if_pos (Or.inr hge)]
    refine Or.inl ⟨rfl, b, ?_⟩
    unfold FsSt.readBlock blockRead
    rw [if_neg (by omega)]
    rfl

theorem dirLookupLoop_eq (n : Nat) (name : List UInt8) (left i : Nat) (s : FsSt) :
    ∃ b, dirLookupLoop (inodeAt s.disk n) name left i s = (s.withBuffer b,
        match scan (s.volume.entry n) (named name) left i with
        | .found _ e => asInt e.inode
        | _ => none) := by
  induction left generalizing i s with
  | zero => exact ⟨s.blockBuffer, rfl⟩
  | succ left ih =>
    unfold dirLookupLoop scan
    rcases loadEntryBlock_cases s n i with ⟨he, b, hl⟩ | ⟨k, -, -, he, hl⟩
    · rw [hl, he]
      exact ⟨b, rfl⟩
    rw [hl, he]
    dsimp only
    by_cases hp : named name (Dirent.decode (s.disk k) (i % 8 * 64)) = true
    · rw [if_pos hp]
      exact ⟨s.disk k, if_pos (named_iff.mp hp)⟩
    · rw [if_neg hp]
      obtain ⟨b, hb⟩ := ih (i + 1) (s.withBuffer (s.disk k))
      exact ⟨b, (if_neg fun h => hp (named_iff.mpr h)).trans hb⟩

theorem dirLookup_eq (s : FsSt) (n : Nat) (name : List UInt8) :
    ∃ b, dirLookup s n name = (s.withBuffer b, s.volume.lookup n name) := by
  obtain ⟨b, hb⟩ := readInode_eq s n
  unfold dirLookup Volume.lookup
  rw [hb]
  by_cases hn : n < 256
  · rw [if_pos hn]
    dsimp only
    by_cases hdir : (inodeAt s.disk n).mode &&& 0xff = 2
    · rw [if_neg (not_not_intro hdir),
        if_pos (show n < 256 ∧ (s.volume.node n).IsDir from ⟨hn, hdir⟩)]
      exact dirLookupLoop_eq n name _ 0 (s.withBuffer b)
    · rw [if_pos hdir, if_neg (show ¬ (n < 256 ∧ (s.volume.node n).IsDir) from fun h => hdir h.2)]
      exact ⟨b, rfl⟩
  · rw [if_neg hn, if_neg (show ¬ (n < 256 ∧ (s.volume.node n).IsDir) from fun h => hn h.1)]
    exact ⟨b, rfl⟩

theorem dirSlotLoop_eq (n left i : Nat) (s : FsSt) :
    ∃ b, dirSlotLoop (inodeAt s.disk n) left i s = (s.withBuffer b,
        match scan (s.volume.entry n) buried left i with
        | .found j _ => some j
        | .ended => some (i + left)
        | .blocked => none) := by
  induction left generalizing i s with
  | zero => exact ⟨s.blockBuffer, rfl⟩
  | succ left ih =>
    unfold dirSlotLoop scan
    rcases loadEntryBlock_cases s n i with ⟨he, b, hl⟩ | ⟨k, -, -, he, hl⟩
    · rw [hl, he]
      exact ⟨b, rfl⟩
    rw [hl, he]
    dsimp only
    by_cases hp : (Dirent.decode (s.disk k) (i % 8 * 64)).Live
    · rw [if_neg fun h => buried_iff.mp h hp]
      obtain ⟨b, hb⟩ := ih (i + 1) (s.withBuffer (s.disk k))
      rw [show i + 1 + left = i + (left + 1) by omega] at hb
      exact ⟨b, (if_pos hp).trans hb⟩
    · rw [if_pos (buried_iff.mpr hp)]
      exact ⟨s.disk k, if_neg hp⟩

theorem dirSlot_eq (s : FsSt) (n : Nat) :
    ∃ b, dirSlotLoop (inodeAt s.disk n) ((inodeAt s.disk n).size / 64) 0 s =
      (s.withBuffer b, s.volume.slot n) := by
  obtain ⟨b, hb⟩ := dirSlotLoop_eq n ((inodeAt s.disk n).size / 64) 0 s
  rw [Nat.zero_add] at hb
  exact ⟨b, hb⟩

theorem dirEmptyLoop_eq (n left i : Nat) (s : FsSt) :
    ∃ b, dirEmptyLoop (inodeAt s.disk n) left i s = (s.withBuffer b,
        match scan (s.volume.entry n) live left i with
        | .ended => true
        | _ => false) := by
  induction left generalizing i s with
  | zero => exact ⟨s.blockBuffer, rfl⟩
  | succ left ih =>
    unfold dirEmptyLoop scan
    rcases loadEntryBlock_cases s n i with ⟨he, b, hl⟩ | ⟨k, -, -, he, hl⟩
    · rw [hl, he]
      exact ⟨b, rfl⟩
    rw [hl, he]
    dsimp only
    by_cases hp : (Dirent.decode (s.disk k) (i % 8 * 64)).Live
    · rw [if_pos (live_iff.mpr hp)]
      exact ⟨s.disk k, if_pos hp⟩
    · rw [if_neg fun h => hp (live_iff.mp h)]
      obtain ⟨b, hb⟩ := ih (i + 1) (s.withBuffer (s.disk k))
      exact ⟨b, (if_neg hp).trans hb⟩

theorem dirEmpty_eq (s : FsSt) (n : Nat) :
    ∃ b, dirEmptyLoop (inodeAt s.disk n) ((inodeAt s.disk n).size / 64) 0 s =
      (s.withBuffer b, s.volume.vacant n) :=
  dirEmptyLoop_eq n _ 0 s

theorem getdentsLoop_eq (n capacity left i written : Nat) (s : FsSt) :
    ∃ b, getdentsLoop (inodeAt s.disk n) capacity left i written s =
      (s.withBuffer b, s.volume.listFrom n left i (capacity - written)) := by
  induction left generalizing i written s with
  | zero => exact ⟨s.blockBuffer, rfl⟩
  | succ left ih =>
    unfold getdentsLoop Volume.listFrom
    by_cases hroom : written ≥ capacity
    · rw [if_pos hroom, if_pos (by omega)]
      exact ⟨s.blockBuffer, rfl⟩
    rw [if_neg hroom, if_neg (by omega)]
    rcases loadEntryBlock_cases s n i with ⟨he, b, hl⟩ | ⟨k, -, -, he, hl⟩
    · rw [hl, he]
      exact ⟨b, rfl⟩
    rw [hl, he]
    dsimp only
    by_cases hp : (Dirent.decode (s.disk k) (i % 8 * 64)).Live
    · obtain ⟨b, hb⟩ := ih (i + 1) (written + 1) (s.withBuffer (s.disk k))
      rw [show capacity - (written + 1) = capacity - written - 1 by omega] at hb
      rw [if_pos hp]
      refine ⟨b, (if_pos hp).trans ?_⟩
      rw [show getdentsLoop (inodeAt s.disk n) capacity left (i + 1) (written + 1)
        (s.withBuffer (s.disk k)) = _ from hb]
      rfl
    · obtain ⟨b, hb⟩ := ih (i + 1) written (s.withBuffer (s.disk k))
      rw [if_neg hp]
      exact ⟨b, (if_neg hp).trans hb⟩

/-! ## Paths -/

variable {path : List UInt8} {V : Volume} {n offset : Nat}

theorem nextComponent_done (h : nextComponent path = .done) :
    components path = [] := by
  unfold nextComponent at h
  dsimp only at h
  split at h
  · next hp => rw [← components_dropWhile, hp, components_nil]
  · split at h <;> cases h

private theorem head_dropWhile_ne (p : List UInt8) :
    p.dropWhile (· != slash) = [] ∨ (p.dropWhile (· != slash)).head? = some slash := by
  by_cases hp : p.dropWhile (· != slash) = []
  · exact Or.inl hp
  · have hx := List.head_dropWhile_not (· != slash) hp
    rw [bne_eq_false_iff_eq] at hx
    exact Or.inr (by rw [List.head?_eq_some_head hp, hx])

private theorem head_dropWhile_slash (path : List UInt8) :
    (path.dropWhile (· == slash)).head? ≠ some slash := by
  intro h
  have hne : path.dropWhile (· == slash) ≠ [] := fun hnil => by rw [hnil] at h; cases h
  have hx := List.head_dropWhile_not (· == slash) hne
  rw [List.head?_eq_some_head hne] at h
  simp [Option.some.inj h] at hx

/-- Behind its leading slashes a path starts with a component. -/
private theorem component_ne_nil {p : List UInt8} (hne : p ≠ [])
    (hhead : p.head? ≠ some slash) : p.takeWhile (· != slash) ≠ [] := by
  cases p with
  | nil => exact absurd rfl hne
  | cons x rest =>
    have hx : x ≠ slash := fun h => hhead (by rw [List.head?_cons, h])
    simp [hx]

private theorem components_cut {p : List UInt8} (hne : p ≠ [])
    (hhead : p.head? ≠ some slash) :
    components p = p.takeWhile (· != slash) :: components (p.dropWhile (· != slash)) := by
  have hslash : slash ∉ p.takeWhile (· != slash) := by
    intro hmem
    have hne := List.mem_takeWhile_imp hmem
    simp at hne
  conv_lhs => rw [← List.takeWhile_append_dropWhile (p := (· != slash)) (l := p)]
  exact components_append (component_ne_nil hne hhead) hslash (head_dropWhile_ne p)

theorem nextComponent_tooLong (h : nextComponent path = .tooLong) :
    ∃ c rest, components path = c :: rest ∧ c.length > 55 := by
  unfold nextComponent at h
  dsimp only at h
  split at h
  · cases h
  · next hp =>
    split at h
    · next hlong =>
      rw [← components_dropWhile, components_cut hp (head_dropWhile_slash path)]
      exact ⟨_, _, rfl, hlong⟩
    · cases h

theorem nextComponent_name {c rest : List UInt8} (h : nextComponent path = .name c rest) :
    components path = c :: components rest ∧ c.length ≤ 55 ∧ rest.length < path.length := by
  unfold nextComponent at h
  dsimp only at h
  split at h
  · cases h
  next hp =>
    split at h
    · cases h
    next hlong =>
      simp only [Component.name.injEq] at h
      obtain ⟨rfl, rfl⟩ := h
      have hhead := head_dropWhile_slash path
      refine ⟨?_, by omega, ?_⟩
      · rw [← components_dropWhile, components_cut hp hhead]
      · have hpos := List.length_pos_of_ne_nil (component_ne_nil hp hhead)
        have hcut := congrArg List.length (List.takeWhile_append_dropWhile (p := (· != slash))
            (l := path.dropWhile (· == slash)))
        rw [List.length_append] at hcut
        have hle := (List.dropWhile_suffix (· == slash) (l := path)).length_le
        omega

/-- With more fuel than bytes left, `resolve` walks the components. -/
theorem resolveFrom_eq {fuel : Nat} (s : FsSt) (current : Nat) {cursor : List UInt8}
    (hfuel : cursor.length < fuel) :
    ∃ b, resolveFrom fuel s current cursor =
      (s.withBuffer b, s.volume.walk current (components cursor)) := by
  induction fuel generalizing s current cursor with
  | zero => omega
  | succ fuel ih =>
    unfold resolveFrom
    split
    · next h =>
      obtain ⟨c, rest, hc, hlong⟩ := nextComponent_tooLong h
      rw [hc]
      unfold Volume.walk
      rw [if_pos hlong]
      exact ⟨s.blockBuffer, rfl⟩
    · next h =>
      rw [nextComponent_done h]
      exact ⟨s.blockBuffer, rfl⟩
    · next c rest h =>
      obtain ⟨hc, hshort, hlt⟩ := nextComponent_name h
      rw [hc]
      unfold Volume.walk
      rw [if_neg (show ¬ c.length > 55 by omega)]
      by_cases hdot : strEqual c [dot] = true
      · rw [if_pos hdot, if_pos hdot]
        exact ih s current (by omega)
      rw [if_neg hdot, if_neg hdot]
      by_cases hdots : strEqual c [dot, dot] = true
      · rw [if_pos hdots, if_pos hdots]
        obtain ⟨b, hb⟩ := readInode_eq s current
        rw [hb]
        by_cases hn : current < 256
        · rw [if_pos hn, if_pos hn]
          exact ih (s.withBuffer b) _ (by omega)
        · rw [if_neg hn, if_neg hn]
          exact ⟨b, rfl⟩
      · rw [if_neg hdots, if_neg hdots]
        obtain ⟨b, hb⟩ := dirLookup_eq s current c
        rw [hb]
        cases hchild : s.volume.lookup current c with
        | none => exact ⟨b, rfl⟩
        | some child => exact ih (s.withBuffer b) child (by omega)

theorem resolve_eq (s : FsSt) (cwd : Nat) (path : List UInt8) :
    ∃ b, resolve s cwd path = (s.withBuffer b, s.volume.resolve cwd path) := by
  unfold resolve Volume.resolve
  split
  · exact ⟨s.blockBuffer, rfl⟩
  · exact resolveFrom_eq s _ (by omega)

theorem resolveParent_eq (s : FsSt) (cwd : Nat) (path : List UInt8) :
    ∃ b, resolveParent s cwd path = (s.withBuffer b, s.volume.resolveParent cwd path) := by
  unfold resolveParent Volume.resolveParent
  dsimp only
  repeat' split
  iterate 5 exact ⟨s.blockBuffer, rfl⟩
  obtain ⟨b, hb⟩ := resolve_eq s cwd ((stripSlashes path).rdropWhile (· != slash)).dropLast
  rw [hb]
  exact ⟨b, rfl⟩

/-! ## Contents -/

theorem mapM_of_some {α β : Type} {f : α → Option β} {g : α → β} {l : List α}
    (h : ∀ x ∈ l, f x = some (g x)) : l.mapM f = some (l.map g) := by
  induction l with
  | nil => rfl
  | cons x rest ih =>
    rw [List.mapM_cons, h x (by simp), ih fun y hy => h y (by simp [hy])]
    rfl

/-- A round of `minifs_pread` reads what the volume has up to the end of the
block. -/
private theorem mapM_byte_chunk {chunk : Nat} {r : Region}
    (hblock : V.block n (offset / 512) = some r) (hchunk : chunk ≤ 512 - offset % 512) :
    (List.range' offset chunk).mapM (V.byte n) =
      some ((List.range chunk).map fun i => r (offset % 512 + i)) := by
  have hbyte : ∀ p ∈ List.range' offset chunk,
      V.byte n p = some (r (offset % 512 + (p - offset))) := by
    intro p hp
    rw [List.mem_range'_1] at hp
    unfold Volume.byte
    rw [show p / 512 = offset / 512 by omega, hblock, Option.map_some,
      show p % 512 = offset % 512 + (p - offset) by omega]
  rw [mapM_of_some hbyte, List.range'_eq_map_range, List.map_map]
  simp [Function.comp_def]

theorem preadLoop_eq (n : Nat) {fuel : Nat} (s : FsSt) (offset : Nat) {left : Nat}
    (hfuel : left ≤ fuel) :
    ∃ b, preadLoop (inodeAt s.disk n) fuel s offset left =
      (s.withBuffer b, (List.range' offset left).mapM (s.volume.byte n)) := by
  induction fuel generalizing s offset left with
  | zero =>
    obtain rfl : left = 0 := by omega
    exact ⟨s.blockBuffer, rfl⟩
  | succ fuel ih =>
    unfold preadLoop
    by_cases hleft : left = 0
    · rw [if_pos hleft, hleft]
      exact ⟨s.blockBuffer, rfl⟩
    rw [if_neg hleft]
    obtain ⟨b, hb⟩ := inodeBlock_eq s (inodeAt s.disk n) (offset / 512)
    rw [hb]
    dsimp only
    by_cases hgone : leaf s.disk (inodeAt s.disk n) (offset / 512) = 0 ∨
        leaf s.disk (inodeAt s.disk n) (offset / 512) ≥ 16384
    · -- no block: the first byte is missing already
      have hnone : s.volume.byte n offset = none := by
        unfold Volume.byte Store.volume view
        dsimp only
        rw [if_pos hgone]
        rfl
      obtain ⟨k, rfl⟩ : ∃ k, left = k + 1 := ⟨left - 1, by omega⟩
      rw [List.range'_succ, List.mapM_cons, hnone]
      refine ⟨b, ?_⟩
      split
      · rfl
      · next hz =>
        unfold FsSt.readBlock blockRead
        rw [if_neg (by omega)]
        rfl
    · have hblock : s.volume.block n (offset / 512) =
          some (s.disk (leaf s.disk (inodeAt s.disk n) (offset / 512))) := if_neg hgone
      rw [if_neg (by omega), readBlock_eq (by omega)]
      obtain ⟨chunk, hchunk⟩ : ∃ chunk, chunk = min left (512 - offset % 512) := ⟨_, rfl⟩
      have hsplit : List.range' offset left =
          List.range' offset chunk ++ List.range' (offset + chunk) (left - chunk) := by
        rw [List.range'_append_1, show chunk + (left - chunk) = left by omega]
      have hrest : left - chunk ≤ fuel := by omega
      obtain ⟨c, hc⟩ := ih (s.withBuffer
        (s.disk (leaf s.disk (inodeAt s.disk n) (offset / 512)))) (offset + chunk) hrest
      refine ⟨c, ?_⟩
      simp only [FsSt.withBuffer_toStore, FsSt.withBuffer_withBuffer, ← hchunk] at hc ⊢
      rw [hsplit, List.mapM_append, mapM_byte_chunk hblock (by omega), hc]
      cases (List.range' (offset + chunk) (left - chunk)).mapM (s.volume.byte n) <;> rfl

theorem minifsPread_eq (s : FsSt) (n offset length : Nat) :
    ∃ b, minifsPread s n offset length = (s.withBuffer b, s.volume.pread n offset length) := by
  obtain ⟨b, hb⟩ := readInode_eq s n
  unfold minifsPread Volume.pread
  rw [hb]
  by_cases hn : n < 256
  · rw [if_pos hn]
    dsimp only
    by_cases hfile : (inodeAt s.disk n).mode &&& 0xff = 1
    · rw [if_neg (not_not_intro hfile),
        if_pos (show n < 256 ∧ (s.volume.node n).IsFile from ⟨hn, hfile⟩)]
      have hsize : (s.volume.node n).size = (inodeAt s.disk n).size := rfl
      rw [hsize]
      split
      · rw [show (inodeAt s.disk n).size - offset = 0 by omega, Nat.min_zero]
        exact ⟨b, rfl⟩
      · exact preadLoop_eq n (s.withBuffer b) offset (Nat.le_refl _)
    · rw [if_pos hfile,
        if_neg (show ¬ (n < 256 ∧ (s.volume.node n).IsFile) from fun h => hfile h.2)]
      exact ⟨b, rfl⟩
  · rw [if_neg hn, if_neg (show ¬ (n < 256 ∧ (s.volume.node n).IsFile) from fun h => hn h.1)]
    exact ⟨b, rfl⟩

/-- A read has a result where the file does not end and no byte is missing. -/
theorem pread_eq_some {length : Nat} {bytes : List UInt8} :
    V.pread n offset length = some bytes ↔
      (n < 256 ∧ (V.node n).IsFile) ∧ bytes.length = min length ((V.node n).size - offset) ∧
        ∀ i, i < bytes.length → V.byte n (offset + i) = bytes[i]? := by
  unfold Volume.pread
  by_cases hfile : n < 256 ∧ (V.node n).IsFile
  · rw [if_pos hfile, mapM_range'_eq_some]
    constructor
    · rintro ⟨hlen, hget⟩
      exact ⟨hfile, hlen, fun i hi => hget i (by omega)⟩
    · rintro ⟨-, hlen, hget⟩
      exact ⟨hlen, fun i hi => hget i (by omega)⟩
  · rw [if_neg hfile]
    exact iff_of_false nofun fun h => hfile h.1

/-- Two reads, one behind the other. -/
theorem pread_append {length : Nat} {a b : List UInt8} (ha : V.pread n offset a.length = some a)
    (hb : V.pread n (offset + a.length) length = some b) :
    V.pread n offset (a.length + b.length) = some (a ++ b) := by
  obtain ⟨hfile, hlen, hget⟩ := pread_eq_some.mp ha
  obtain ⟨-, hlen', hget'⟩ := pread_eq_some.mp hb
  refine pread_eq_some.mpr ⟨hfile, by rw [List.length_append]; omega, fun i hi => ?_⟩
  rw [List.getElem?_append]
  split
  · next hlt => exact hget i hlt
  · next hge =>
    rw [List.length_append] at hi
    rw [← hget' (i - a.length) (by omega)]
    congr 1
    omega

end MiniOs.Fs
