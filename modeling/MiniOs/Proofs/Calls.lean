import MiniOs.Fs.Calls
import MiniOs.Proofs.Write

/-!
# The calls, case by case

For each exported function, the ways it can end, in the words of the lemmas
below it. A call that changes the volume either fails before it writes anything,
and then only `block_buffer` differs, or comes down to one of `createNode`,
`openTruncate`, `unlinkInode` and `writeAt` on a path that was resolved in the
volume. Everything proved about runs of calls starts from here.
-/

namespace MiniOs.Fs

open MiniOs.Lib MiniOs.Spec

/-! ## Numbers -/

variable {n cwd : Nat} {V : Volume} {path : List UInt8} {s : FsSt}

theorem lt_of_asInt {m : Nat} (h : asInt n = some m) : m = n ∧ m < 2 ^ 31 := by
  unfold asInt at h
  split at h
  · next hlt => exact ⟨(Option.some.inj h).symm, (Option.some.inj h) ▸ hlt⟩
  · cases h

theorem walk_lt {current : Nat} {path : List (List UInt8)} (h : V.walk current path = some n) :
    n < 2 ^ 31 := by
  induction path generalizing current with
  | nil => exact (lt_of_asInt h).2
  | cons c rest ih =>
    unfold Volume.walk at h
    repeat' split at h
    all_goals first | cases h | exact ih h

theorem resolve_lt (h : V.resolve cwd path = some n) : n < 2 ^ 31 := by
  unfold Volume.resolve at h
  split at h
  · cases h
  · exact walk_lt h

theorem resolveParent_lt {parent : Nat} {name : List UInt8}
    (h : V.resolveParent cwd path = some (parent, name)) : parent < 2 ^ 31 := by
  unfold Volume.resolveParent at h
  dsimp only at h
  repeat' split at h
  · cases h
  · cases h
  · cases h
  · obtain ⟨c, hc, heq⟩ := Option.map_eq_some_iff.mp h
    cases heq
    exact (lt_of_asInt hc).2
  · cases h
    omega
  · obtain ⟨c, hc, heq⟩ := Option.map_eq_some_iff.mp h
    cases heq
    exact resolve_lt hc

/-! ## Calls on paths -/

theorem openTarget_cases (s : FsSt) (cwd : Nat) (path : List UInt8) (flags : BitVec 32) :
    (∃ b, openTarget s cwd path flags = (s.withBuffer b, s.volume.resolve cwd path) ∧
      (wantsCreate flags = true → s.volume.resolve cwd path = none →
        s.volume.resolveParent cwd path = none)) ∨
    ∃ b parent name, wantsCreate flags = true ∧ s.volume.resolve cwd path = none ∧
      s.volume.resolveParent cwd path = some (parent, name) ∧
      openTarget s cwd path flags = createNode (s.withBuffer b) parent name 1 := by
  obtain ⟨b, hb⟩ := resolve_eq s cwd path
  unfold openTarget
  rw [hb]
  cases hr : s.volume.resolve cwd path with
  | some number => exact Or.inl ⟨b, rfl, fun _ hnone => by cases hnone⟩
  | none =>
    dsimp only
    by_cases hc : wantsCreate flags = true
    · rw [if_pos hc]
      obtain ⟨b1, hb1⟩ := resolveParent_eq (s.withBuffer b) cwd path
      simp only [FsSt.withBuffer_withBuffer, FsSt.withBuffer_toStore] at hb1
      rw [hb1]
      cases hp : s.volume.resolveParent cwd path with
      | none => exact Or.inl ⟨b1, rfl, fun _ _ => rfl⟩
      | some target => exact Or.inr ⟨b1, target.1, target.2, hc, rfl, rfl, rfl⟩
    · rw [if_neg hc]
      exact Or.inl ⟨b, rfl, fun hwants => absurd hwants hc⟩

theorem minifsMkdir_cases (s : FsSt) (cwd : Nat) (path : Option CStr) :
    (∃ b, minifsMkdir s cwd path = (s.withBuffer b, false) ∧
      s.volume.resolveParent cwd (pathBytes path) = none) ∨
    ∃ b parent name, s.volume.resolveParent cwd (pathBytes path) = some (parent, name) ∧
      minifsMkdir s cwd path = ((createNode (s.withBuffer b) parent name 2).1,
          (createNode (s.withBuffer b) parent name 2).2.isSome) := by
  obtain ⟨b, hb⟩ := resolveParent_eq s cwd (pathBytes path)
  unfold minifsMkdir
  rw [hb]
  cases hp : s.volume.resolveParent cwd (pathBytes path) with
  | none => exact Or.inl ⟨b, rfl, rfl⟩
  | some target => exact Or.inr ⟨b, target.1, target.2, rfl, rfl⟩

/-- What an unlink that goes ahead has checked. -/
structure Unlinkable (s : FsSt) (cwd : Nat) (path : List UInt8) (parent : Nat)
    (name : List UInt8) (k : Nat) : Prop where
  target : s.volume.resolveParent cwd path = some (parent, name)
  found : s.volume.lookup parent name = some k
  pos : 1 ≤ k
  lt : k < 256
  closed : inodeIsOpen s.toFdTables k = false
  vacant : (s.volume.node k).IsDir → s.volume.vacant k = true

/-- A path leads to one inode to unlink. -/
theorem Unlinkable.unique {parent parent' k k' : Nat} {name name' : List UInt8}
    (h : Unlinkable s cwd path parent name k) (h' : Unlinkable s cwd path parent' name' k') :
    k = k' := by
  obtain ⟨rfl, rfl⟩ := Prod.mk.inj (Option.some.inj (h.target.symm.trans h'.target))
  exact Option.some.inj (h.found.symm.trans h'.found)

theorem minifsUnlink_cases (s : FsSt) (cwd : Nat) (path : Option CStr) :
    ((∃ b, minifsUnlink s cwd path = (s.withBuffer b, false)) ∧
      ∀ parent name k, ¬ Unlinkable s cwd (pathBytes path) parent name k) ∨
    ∃ b parent name k, Unlinkable s cwd (pathBytes path) parent name k ∧
      minifsUnlink s cwd path = unlinkInode (s.withBuffer b) parent name k (s.table k) := by
  obtain ⟨b, hb⟩ := resolveParent_eq s cwd (pathBytes path)
  unfold minifsUnlink
  rw [hb]
  cases hp : s.volume.resolveParent cwd (pathBytes path) with
  | none =>
    refine Or.inl ⟨⟨b, rfl⟩, fun parent name k hu => ?_⟩
    rw [hu.target] at hp
    cases hp
  | some target =>
    obtain ⟨parent, name⟩ := target
    obtain ⟨b1, hlook⟩ := dirLookup_eq (s.withBuffer b) parent name
    simp only [FsSt.withBuffer_withBuffer, FsSt.withBuffer_toStore] at hlook
    dsimp only
    rw [hlook]
    cases hl : s.volume.lookup parent name with
    | none =>
      refine Or.inl ⟨⟨b1, rfl⟩, fun parent' name' k hu => ?_⟩
      obtain ⟨rfl, rfl⟩ := Prod.mk.inj (Option.some.inj (hp.symm.trans hu.target))
      rw [hu.found] at hl
      cases hl
    | some k =>
      -- the target is the only one there is, so a failed check rules out every other
      have hno : ∀ b, ¬ Unlinkable s cwd (pathBytes path) parent name k →
          (∃ b', (s.withBuffer b, false) = (s.withBuffer b', false)) ∧
            ∀ parent name k, ¬ Unlinkable s cwd (pathBytes path) parent name k := by
        intro b hbad
        refine ⟨⟨b, rfl⟩, fun parent' name' k' hu => hbad ?_⟩
        obtain ⟨rfl, rfl⟩ := Prod.mk.inj (Option.some.inj (hp.symm.trans hu.target))
        obtain rfl := Option.some.inj (hl.symm.trans hu.found)
        exact hu
      dsimp only
      by_cases hopen : k = 0 ∨ inodeIsOpen (s.withBuffer b1).toFdTables k = true
      · rw [if_pos hopen]
        refine Or.inl (hno b1 fun hu => ?_)
        rcases hopen with rfl | hopen
        · exact absurd hu.pos (by omega)
        · rw [show inodeIsOpen (s.withBuffer b1).toFdTables k = false from hu.closed] at hopen
          cases hopen
      · rw [if_neg hopen]
        have hclosed : inodeIsOpen s.toFdTables k = false :=
          eq_false_of_ne_true fun h => hopen (Or.inr h)
        obtain ⟨b2, hread⟩ := readInode_eq (s.withBuffer b1) k
        simp only [FsSt.withBuffer_withBuffer, FsSt.withBuffer_toStore] at hread
        rw [hread]
        by_cases hk : k < 256
        · rw [if_pos hk]
          dsimp only
          by_cases hdir : (inodeAt s.disk k).mode &&& 0xff = 2
          · rw [if_pos hdir]
            obtain ⟨b3, hempty⟩ := dirEmpty_eq (s.withBuffer b2) k
            simp only [FsSt.withBuffer_withBuffer, FsSt.withBuffer_toStore] at hempty
            rw [hempty]
            cases hv : s.volume.vacant k with
            | false =>
              refine Or.inl (hno b3 fun hu => ?_)
              rw [hu.vacant hdir] at hv
              cases hv
            | true =>
              exact Or.inr ⟨b3, parent, name, k, ⟨hp, hl, by omega, hk, hclosed, fun _ => hv⟩, rfl⟩
          · rw [if_neg hdir]
            exact Or.inr ⟨b2, parent, name, k,
              ⟨hp, hl, by omega, hk, hclosed, fun h => absurd h hdir⟩, rfl⟩
        · rw [if_neg hk]
          exact Or.inl (hno b2 fun hu => hk hu.lt)

/-! ## Opening -/

/-- How far `minifsOpen` got: to the inode, to the truncation, or through. -/
theorem minifsOpen_cases (s : FsSt) (pid : Int) (cwd : Nat) (path : Option CStr)
    (flags : BitVec 32) :
    (minifsOpen s pid cwd path flags = (s, none) ∧
      (findProcess s.toFdTables pid = none ∨ badFlags flags = true)) ∨
    ∃ p, findProcess s.toFdTables pid = some p ∧ badFlags flags = false ∧
      ((∃ s1, openTarget s cwd (pathBytes path) flags = (s1, none) ∧
          minifsOpen s pid cwd path flags = (s1, none)) ∨
        ∃ s1 n, openTarget s cwd (pathBytes path) flags = (s1, some n) ∧
          ((∃ s2, openTruncate s1 n flags = (s2, none) ∧
              minifsOpen s pid cwd path flags = (s2, none)) ∨
            ∃ s2 inode, openTruncate s1 n flags = (s2, some inode) ∧
              minifsOpen s pid cwd path flags =
                (s2.onTables (openInstall s2.toFdTables p n inode.size flags).1,
                  (openInstall s2.toFdTables p n inode.size flags).2))) := by
  unfold minifsOpen
  cases hp : findProcess s.toFdTables pid with
  | none => exact Or.inl ⟨rfl, Or.inl rfl⟩
  | some p =>
    cases hbad : badFlags flags with
    | true => exact Or.inl ⟨rfl, Or.inr rfl⟩
    | false =>
      refine Or.inr ⟨p, rfl, rfl, ?_⟩
      obtain ⟨s1, r, ht⟩ : ∃ s1 r, openTarget s cwd (pathBytes path) flags = (s1, r) :=
        ⟨_, _, rfl⟩
      simp only [ht]
      cases r with
      | none => exact Or.inl ⟨s1, rfl, rfl⟩
      | some n =>
        refine Or.inr ⟨s1, n, rfl, ?_⟩
        obtain ⟨s2, r, htr⟩ : ∃ s2 r, openTruncate s1 n flags = (s2, r) :=
          ⟨_, _, rfl⟩
        simp only [htr]
        cases r with
        | none => exact Or.inl ⟨s2, rfl, rfl⟩
        | some inode => exact Or.inr ⟨s2, inode, rfl, rfl⟩

/-- Opening a regular file that is there, without truncating it. -/
theorem minifsOpen_existing (h : s.Sound) {pid : Int} {p : Fin 16}
    {path : Option CStr} {flags : BitVec 32} (hp : findProcess s.toFdTables pid = some p)
    (hbad : badFlags flags = false) (hr : s.volume.resolve cwd (pathBytes path) = some n)
    (hn : n < 256) (hfile : (s.volume.node n).IsFile) (htrunc : wantsTrunc flags = false) :
    ∃ b, minifsOpen s pid cwd path flags =
      ((s.withBuffer b).onTables (openInstall s.toFdTables p n (s.table n).size flags).1,
        (openInstall s.toFdTables p n (s.table n).size flags).2) := by
  obtain ⟨b, ht⟩ : ∃ b, openTarget s cwd (pathBytes path) flags = (s.withBuffer b, some n) := by
    rcases openTarget_cases s cwd (pathBytes path) flags with
      ⟨b, hc, -⟩ | ⟨b, parent, name, -, hnone, -⟩
    · exact ⟨b, hr ▸ hc⟩
    · cases hr.symm.trans hnone
  obtain ⟨b', htr⟩ : ∃ b', openTruncate (s.withBuffer b) n flags =
      (s.withBuffer b', some (s.table n)) := by
    rcases @openTruncate_cases (s.withBuffer b) h n flags with
      ⟨-, -, hnot⟩ | ⟨b', -, -, -, hc⟩ | ⟨-, -, -, hyes, -⟩
    · exact absurd ⟨hn, hfile⟩ hnot
    · exact ⟨b', hc⟩
    · rw [htrunc] at hyes
      cases hyes
  refine ⟨b', ?_⟩
  simp only [minifsOpen, hp, hbad, ht, htr]
  rfl

/-! ## Writing -/

/-- The same tables up to file offsets. -/
def SameSlots (t t' : FdTables) : Prop :=
  t'.processFds = t.processFds ∧
    ∀ i, { t'.openFiles i with offset := 0 } = { t.openFiles i with offset := 0 }

theorem SameSlots.refl (t : FdTables) : SameSlots t t := ⟨rfl, fun _ => rfl⟩

theorem SameSlots.trans {t1 t2 t3 : FdTables} (h1 : SameSlots t1 t2)
    (h2 : SameSlots t2 t3) : SameSlots t1 t3 :=
  ⟨h2.1.trans h1.1, fun i => (h2.2 i).trans (h1.2 i)⟩

theorem SameSlots.getOpenFile {t t' : FdTables} (h : SameSlots t t') (pid fd : Int) :
    Fs.getOpenFile t' pid fd = Fs.getOpenFile t pid fd := by
  have hused : ∀ i, (t'.openFiles i).used = (t.openFiles i).used := by
    intro i
    have hfile := congrArg OpenFile.used (h.2 i)
    exact hfile
  simp only [Fs.getOpenFile, findProcess, h.1, hused]

theorem sameSlots_setOffset (s : FsSt) (i : Fin 64) (offset : Nat) :
    SameSlots s.toFdTables (s.setOffset i offset).toFdTables := by
  refine ⟨rfl, fun j => ?_⟩
  unfold FsSt.setOffset FdTables.setFile
  dsimp only
  by_cases hj : j = i
  · rw [hj, Function.update_self]
  · rw [Function.update_of_ne hj]

theorem setOffset_openFiles_self (s : FsSt) (i : Fin 64) (offset : Nat) :
    (s.setOffset i offset).openFiles i = { s.openFiles i with offset := offset } :=
  Function.update_self ..

/-- The offset a write through an open file goes to. -/
def writeOffset (s : FsSt) (i : Fin 64) : Nat :=
  if wantsAppend (s.openFiles i).flags then
    (s.volume.node (s.openFiles i).inode).size
  else (s.openFiles i).offset

/-- A descriptor of a process that may write to a file. -/
structure Writable (s : FsSt) (pid fd : Int) (i : Fin 64) : Prop where
  open_ : getOpenFile s.toFdTables pid fd = some i
  file : (s.openFiles i).type = .file
  access : (s.openFiles i).flags &&& 3 ≠ 0

/-- A write that passes every check of `minifs_write` and `write_at`. -/
structure WritesTo (s : FsSt) (pid fd : Int) (buffer : Option Region) (i : Fin 64) : Prop where
  writable : Writable s pid fd i
  buffer : buffer ≠ none
  lt : (s.openFiles i).inode < 256
  file : (s.volume.node (s.openFiles i).inode).IsFile
  offset : writeOffset s i < 65536

/-- The state in which `write_at` runs: an append has moved the offset. -/
theorem fileWrite_moved (s : FsSt) (i : Fin 64) (buffer : Region)
    (length : Nat) :
    (∃ s', fileWrite s i buffer length = (s', none) ∧ s'.toStore = s.toStore ∧
      SameSlots s.toFdTables s'.toFdTables ∧ ¬ (s.openFiles i).inode < 256) ∨
    ∃ s1, s1.toStore = s.toStore ∧ s1.uart = s.uart ∧
      s1.openFiles i = { s.openFiles i with offset := writeOffset s i } ∧
      SameSlots s.toFdTables s1.toFdTables ∧
      fileWrite s i buffer length =
        match writeAt s1 (s.openFiles i).inode (writeOffset s i) buffer
            (min length 0xffffffff) with
        | (s, none) => (s, none)
        | (s, some n) => (s.setOffset i ((s.openFiles i).offset + n), some n) := by
  unfold fileWrite writeOffset
  by_cases ha : wantsAppend (s.openFiles i).flags = true
  · rw [if_pos ha, if_pos ha]
    obtain ⟨b, hb⟩ := readInode_eq s (s.openFiles i).inode
    rw [hb]
    by_cases hn : (s.openFiles i).inode < 256
    · rw [if_pos hn]
      refine Or.inr ⟨(s.withBuffer b).setOffset i
        (s.volume.node (s.openFiles i).inode).size, rfl, rfl, ?_, ?_, ?_⟩
      · exact setOffset_openFiles_self _ _ _
      · exact sameSlots_setOffset (s.withBuffer b) i _
      · dsimp only
        rw [setOffset_openFiles_self]
        rfl
    · rw [if_neg hn]
      exact Or.inl ⟨_, rfl, rfl, SameSlots.refl _, hn⟩
  · rw [if_neg ha, if_neg ha]
    exact Or.inr ⟨s, rfl, rfl, rfl, SameSlots.refl _, rfl⟩

/-- A write that reached the file: `done` bytes at the offset of the descriptor. -/
structure Wrote (s : FsSt) (i : Fin 64) (buf : Region) (length : Nat) (s' : FsSt)
    (done : Nat) : Prop where
  offset : writeOffset s i < 65536
  lt : (s.openFiles i).inode < 256
  file : (s.volume.node (s.openFiles i).inode).IsFile
  bound : done ≤ min length (65536 - writeOffset s i)
  zero : done = 0 ↔ length = 0 ∨ Refused s.toStore (s.table (s.openFiles i).inode) (writeOffset s i)
  short : done = min length (65536 - writeOffset s i) ∨ s'.free = 0 ∧
    s'.volume.block (s.openFiles i).inode ((writeOffset s i + done) / 512) = none
  spent : Spent s.free s'.free (s.table (s.openFiles i).inode) (s'.table (s.openFiles i).inode)
    s.volume s'.volume (s.openFiles i).inode ((writeOffset s i + done) / 512)
  slots : SameSlots s.toFdTables s'.toFdTables
  becomes : ∃ s₁, s₁.toStore = s.toStore ∧ s₁.uart = s.uart ∧ Becomes s₁ s'
      ((s.volume.writeBytes (s.openFiles i).inode (writeOffset s i) buf done).setNode
        (s.openFiles i).inode
        { s.volume.node (s.openFiles i).inode with
          size := max (s.volume.node (s.openFiles i).inode).size (writeOffset s i + done) })
      (s.ibit (s.openFiles i).inode = true)

theorem minifsWrite_cases (h : s.Sound) (pid fd : Int) (buffer : Option Region) (length : Nat) :
    (∃ s' r, minifsWrite s pid fd buffer length = (s', r) ∧ s'.toStore = s.toStore ∧
      SameSlots s.toFdTables s'.toFdTables ∧
      (r ≤ 0 ∨ ∃ i, getOpenFile s.toFdTables pid fd = some i ∧
        (s.openFiles i).type = .consoleOut) ∧ ∀ i, ¬ WritesTo s pid fd buffer i) ∨
    ∃ i buf s' done, Writable s pid fd i ∧ buffer = some buf ∧ Wrote s i buf length s' done ∧
      minifsWrite s pid fd buffer length =
        (s'.setOffset i (writeOffset s i + done), (done : Int)) := by
  unfold minifsWrite
  cases hopen : getOpenFile s.toFdTables pid fd with
  | none =>
    refine Or.inl ⟨s, -1, rfl, rfl, SameSlots.refl _, Or.inl (by decide), fun i hw => ?_⟩
    cases hopen.symm.trans hw.writable.open_
  | some i =>
    -- there is one open file the checks can be about
    have hone : ∀ j, WritesTo s pid fd buffer j → WritesTo s pid fd buffer i := by
      intro j hw
      obtain rfl := Option.some.inj (hopen.symm.trans hw.writable.open_)
      exact hw
    cases buffer with
    | none =>
      exact Or.inl ⟨s, -1, rfl, rfl, SameSlots.refl _, Or.inl (by decide),
        fun j hw => hw.buffer rfl⟩
    | some buf =>
    dsimp only
    by_cases hcons : (s.openFiles i).type = .consoleOut
    · rw [if_pos hcons]
      refine Or.inl ⟨_, _, rfl, rfl, SameSlots.refl _, Or.inr ⟨i, rfl, hcons⟩, fun j hw => ?_⟩
      cases hcons.symm.trans (hone j hw).writable.file
    rw [if_neg hcons]
    by_cases hacc : (s.openFiles i).type ≠ .file ∨ (s.openFiles i).flags &&& 3 = 0
    · rw [if_pos hacc]
      refine Or.inl ⟨s, -1, rfl, rfl, SameSlots.refl _, Or.inl (by decide), fun j hw => ?_⟩
      have hw := (hone j hw).writable
      exact hacc.elim (fun h => h hw.file) hw.access
    rw [if_neg hacc]
    rcases fileWrite_moved s i buf length with
      ⟨s', hw, hstore, hslots, hn⟩ | ⟨s1, hstore, huart, hfile, hslots, hw⟩
    · rw [hw]
      exact Or.inl ⟨s', -1, rfl, hstore, hslots, Or.inl (by decide), fun j hw => hn (hone j hw).lt⟩
    rw [hw]
    have hsound : s1.Sound := by rw [hstore]; exact h
    rcases writeAt_cases hsound (s.openFiles i).inode (writeOffset s i) buf
        (min length 0xffffffff) with
      ⟨hoff, hat⟩ | ⟨b, hnot, hat⟩ |
      ⟨s2, done, hoff, hn, hf, hat, hbound, hzero, hshort, hspent, hb⟩
    · rw [hat]
      exact Or.inl ⟨_, _, rfl, hstore, hslots.trans (sameSlots_setOffset s1 i _),
        Or.inl (by simp), fun j hw => absurd (hone j hw).offset (Nat.not_lt.mpr hoff)⟩
    · rw [hat]
      rw [hstore] at hnot
      exact Or.inl ⟨_, -1, rfl, hstore, hslots, Or.inl (by decide),
        fun j hw => hnot ⟨(hone j hw).lt, (hone j hw).file⟩⟩
    · rw [hat]
      rw [hstore] at hf hzero hspent hb
      refine Or.inr ⟨i, buf, s2, done, ?_, rfl, ?_, ?_⟩
      · exact ⟨hopen, not_not.mp fun h => hacc (Or.inl h), fun h => hacc (Or.inr h)⟩
      · refine ⟨hoff, hn, hf, by omega, ?_, hshort.imp_left fun hall => by omega, hspent, ?_,
          s1, hstore, huart, hb⟩
        · rw [hzero, show min length 0xffffffff = 0 ↔ length = 0 by omega]
        · rw [hb.tables]
          exact hslots
      · dsimp only
        have hoffset : (s2.openFiles i).offset = writeOffset s i := by
          rw [show s2.openFiles = s1.openFiles from
            congrArg FdTables.openFiles hb.tables, hfile]
        rw [hoffset]

/-! ## The rest -/

theorem minifsRead_quiet (s : FsSt) (pid fd : Int) (length : Nat) :
    (minifsRead s pid fd length).1.toStore = s.toStore ∧
      SameSlots s.toFdTables (minifsRead s pid fd length).1.toFdTables := by
  unfold minifsRead
  split
  · exact ⟨rfl, SameSlots.refl _⟩
  next i hopen =>
    dsimp only
    split
    · exact ⟨rfl, SameSlots.refl _⟩
    split
    · exact ⟨rfl, SameSlots.refl _⟩
    · obtain ⟨b, hb⟩ := minifsPread_eq s (s.openFiles i).inode (s.openFiles i).offset
        (min length 0xffffffff)
      rw [hb]
      cases s.volume.pread (s.openFiles i).inode (s.openFiles i).offset (min length 0xffffffff) with
      | none => exact ⟨rfl, SameSlots.refl _⟩
      | some bytes => exact ⟨rfl, sameSlots_setOffset (s.withBuffer b) i _⟩

theorem minifsLseek_quiet (s : FsSt) (pid fd offset whence : Int) :
    (minifsLseek s pid fd offset whence).1.toStore = s.toStore ∧
      SameSlots s.toFdTables (minifsLseek s pid fd offset whence).1.toFdTables := by
  have hbase : ∀ file, ∃ b r, seekBase s file whence = (s.withBuffer b, r) := by
    intro file
    unfold seekBase
    split
    · exact ⟨s.blockBuffer, _, rfl⟩
    split
    · obtain ⟨b, hb⟩ := readInode_eq s file.inode
      rw [hb]
      by_cases hn : file.inode < 256
      · rw [if_pos hn]
        exact ⟨b, _, rfl⟩
      · rw [if_neg hn]
        exact ⟨b, _, rfl⟩
    · split <;> exact ⟨s.blockBuffer, _, rfl⟩
  unfold minifsLseek
  split
  · exact ⟨rfl, SameSlots.refl _⟩
  next i hopen =>
    split
    · exact ⟨rfl, SameSlots.refl _⟩
    obtain ⟨b, r, hb⟩ := hbase (s.openFiles i)
    rw [hb]
    cases r with
    | none => exact ⟨rfl, SameSlots.refl _⟩
    | some base =>
      dsimp only
      split
      · exact ⟨rfl, SameSlots.refl _⟩
      · exact ⟨rfl, sameSlots_setOffset (s.withBuffer b) i _⟩

theorem minifsChdir_eq (s : FsSt) (cwd : Nat) (path : Option CStr) :
    ∃ b, minifsChdir s cwd path = (s.withBuffer b,
        (s.volume.resolve cwd (pathBytes path)).filter fun n =>
          n < 256 ∧ (s.volume.node n).IsDir) := by
  obtain ⟨b, hb⟩ := resolve_eq s cwd (pathBytes path)
  unfold minifsChdir
  rw [hb]
  cases hr : s.volume.resolve cwd (pathBytes path) with
  | none => exact ⟨b, rfl⟩
  | some n =>
    obtain ⟨b1, hb1⟩ := readInode_eq (s.withBuffer b) n
    simp only [FsSt.withBuffer_withBuffer, FsSt.withBuffer_toStore] at hb1
    dsimp only
    rw [hb1]
    refine ⟨b1, ?_⟩
    by_cases hn : n < 256
    · rw [if_pos hn]
      dsimp only
      by_cases hdir : (inodeAt s.disk n).mode &&& 0xff = 2
      · rw [if_neg (not_not_intro hdir), Option.filter_some,
          if_pos (decide_eq_true (show n < 256 ∧ (s.volume.node n).IsDir from ⟨hn, hdir⟩))]
      · rw [if_pos hdir, Option.filter_some, if_neg (by
            rw [decide_eq_true_iff]
            exact fun h => hdir h.2)]
    · rw [if_neg hn, Option.filter_some, if_neg (by simp [hn])]

theorem minifsGetdents_quiet (s : FsSt) (cwd : Nat) (path : Option CStr) (capacity : Int) :
    ∃ b, (minifsGetdents s cwd path capacity).1 = s.withBuffer b := by
  have hfound : ∃ b r, (if pathBytes path = [] then (s, asInt cwd)
      else resolve s cwd (pathBytes path)) = (s.withBuffer b, r) := by
    split
    · exact ⟨s.blockBuffer, _, rfl⟩
    · obtain ⟨b, hb⟩ := resolve_eq s cwd (pathBytes path)
      exact ⟨b, _, hb⟩
  obtain ⟨b, r, hb⟩ := hfound
  unfold minifsGetdents
  rw [hb]
  cases r with
  | none => exact ⟨b, rfl⟩
  | some n =>
    dsimp only
    split
    · exact ⟨b, rfl⟩
    obtain ⟨b1, hb1⟩ := readInode_eq (s.withBuffer b) n
    rw [hb1]
    by_cases hn : n < 256
    · rw [if_pos hn]
      dsimp only
      split
      · split <;> exact ⟨b1, rfl⟩
      · obtain ⟨b2, hb2⟩ := getdentsLoop_eq n capacity.toNat
          ((inodeAt s.disk n).size / 64) 0 0 (s.withBuffer b1)
        exact ⟨b2, congrArg Prod.fst hb2⟩
    · rw [if_neg hn]
      exact ⟨b1, rfl⟩

/-- A call that stores nothing on the disk. -/
def Call.StoresNothing : Call → Prop
  | .open _ _ _ _ => False
  | .write _ _ _ _ => False
  | .mkdir _ _ => False
  | .unlink _ _ => False
  | _ => True

theorem step_store {call : Call} (h : call.StoresNothing) :
    (step s call).toStore = s.toStore := by
  cases call with
  | processInit pid => rfl
  | processFork parentPid childPid => rfl
  | closeAll pid => rfl
  | setCloexec pid fd on => rfl
  | closeExecFds pid => rfl
  | «open» pid cwd path flags => exact h.elim
  | close pid fd => rfl
  | pread inode offset length =>
    obtain ⟨b, hb⟩ := minifsPread_eq s inode offset length
    exact congrArg (fun r => r.1.toStore) hb
  | read pid fd length => exact (minifsRead_quiet s pid fd length).1
  | write pid fd buffer length => exact h.elim
  | lseek pid fd offset whence => exact (minifsLseek_quiet s pid fd offset whence).1
  | dup2 pid oldfd newfd => rfl
  | getdents cwd path capacity =>
    obtain ⟨b, hb⟩ := minifsGetdents_quiet s cwd path capacity
    exact congrArg (fun r => r.toStore) hb
  | mkdir cwd path => exact h.elim
  | unlink cwd path => exact h.elim
  | chdir cwd path =>
    obtain ⟨b, hb⟩ := minifsChdir_eq s cwd path
    exact congrArg (fun r => r.1.toStore) hb

end MiniOs.Fs
