import MiniOs.Proofs.Readers
import MiniOs.Spec.Namespace

/-!
# The way up

`minifs_getcwd` goes from a directory to the root by the parent fields and asks each
parent for the name of the child. On a volume that is `Volume.pathFrom`; like the other
readers the code agrees with it on every disk.

Where the directories form a tree the answer is the one expected. The parent field is
right, and the parent has one entry for the child and no more; a removed entry cannot
be taken for it, since it has lost its inode number.
-/

namespace MiniOs.Spec.Volume

open MiniOs.Lib MiniOs.Fs

/-- The name a directory has for an inode: that of the first entry for it, live or not,
and the empty name where there is none. -/
def nameIn (V : Volume) (n current : Nat) : Option (List UInt8) :=
  match scan (V.entry n) (fun e => e.inode = current) (V.count n) 0 with
  | .found _ e => some (cstr e.name)
  | .ended => some []
  | .blocked => none

/-- The path of an inode, in front of the path below it. -/
def pathFrom (V : Volume) : Nat → Nat → List UInt8 → Option (List UInt8)
  | 0, _, _ => none
  | fuel + 1, current, path =>
    if current = 0 then some path
    else if current < 256 ∧ (V.node current).parent < 256 then
      match V.nameIn (V.node current).parent current with
      | none => none
      | some name =>
        if name.length = 0 ∨ path.length + name.length + 1 ≥ 256 then none
        else V.pathFrom fuel (V.node current).parent (slash :: name ++ path)
    else none

/-- What `minifs_getcwd` answers. -/
def getcwd (V : Volume) (cwd length : Nat) : Option (List UInt8) :=
  if length < 2 then none
  else if cwd = 0 then some [slash]
  else (V.pathFrom 256 cwd []).filter fun path => path.length + 1 ≤ length

variable {V : Volume}

theorem nameIn_noNul {n current : Nat} {name : List UInt8} (h : V.nameIn n current = some name) :
    0 ∉ name := by
  unfold nameIn at h
  split at h
  · cases h
    exact cstr_noNul _
  · cases h
    exact List.not_mem_nil
  · cases h

theorem pathFrom_noNul (fuel : Nat) :
    ∀ {current : Nat} {below path : List UInt8}, 0 ∉ below →
      V.pathFrom fuel current below = some path → 0 ∉ path := by
  induction fuel with
  | zero => exact nofun
  | succ fuel ih =>
    intro current below path hbelow h
    unfold pathFrom at h
    split at h
    · cases h
      exact hbelow
    split at h
    · split at h
      · cases h
      · next name hname =>
        split at h
        · cases h
        · refine ih ?_ h
          intro hin
          rcases List.mem_append.mp hin with hin | hin
          · rcases List.mem_cons.mp hin with heq | hin
            · exact absurd heq (by decide)
            · exact nameIn_noNul hname hin
          · exact hbelow hin
    · cases h

theorem getcwd_noNul {cwd length : Nat} {path : List UInt8} (h : V.getcwd cwd length = some path) :
    0 ∉ path := by
  unfold getcwd at h
  split at h
  · cases h
  · split at h
    · cases h
      decide
    · exact pathFrom_noNul 256 List.not_mem_nil (Option.filter_eq_some_iff.mp h).1

/-! ## Trees -/

/-- A directory has the name of a child once. -/
theorem Tree.nameIn (h : V.Tree) {d i : Nat} {e : Dirent} (hnames : V.Names d i e) :
    V.nameIn d e.inode = some (cstr e.name) := by
  have hlt := h.bound _ (h.childUsed hnames)
  unfold Volume.nameIn
  rw [scan_eq_found (Nat.zero_le i) (by have := hnames.lt; omega) hnames.entry
    (decide_eq_true rfl) fun j _ hj => ?_]
  have hcount : j < V.count d := Nat.lt_trans hj hnames.lt
  obtain ⟨e', he'⟩ := Option.ne_none_iff_exists'.mp (h.mapped d hnames.used hnames.dir j hcount)
  refine ⟨e', he', decide_eq_false fun heq => ?_⟩
  have hlive : e'.Live := by
    unfold Dirent.Live
    omega
  have hsame := (h.unique hnames ⟨hnames.used, hnames.dir, hcount, he', hlive⟩ heq.symm).2
  omega

/-- One round of the way up. -/
theorem Tree.pathFrom_child (h : V.Tree) {d i fuel : Nat} {e : Dirent} (hnames : V.Names d i e)
    {below : List UInt8} (hlen : below.length + (cstr e.name).length + 1 < 256) :
    V.pathFrom (fuel + 1) e.inode below = V.pathFrom fuel d (slash :: cstr e.name ++ below) := by
  have hpos := h.pos hnames
  have hused := h.childUsed hnames
  have hname := (h.name hnames).pos
  conv_lhs => unfold pathFrom
  rw [if_neg (by omega), h.childParent hnames, if_pos ⟨h.bound _ hused, h.bound _ hnames.used⟩,
    h.nameIn hnames]
  dsimp only
  rw [if_neg (by omega)]

theorem pathFrom_root (fuel : Nat) (below : List UInt8) : V.pathFrom (fuel + 1) 0 below = some below :=
  if_pos rfl

end MiniOs.Spec.Volume

namespace MiniOs.Fs

open MiniOs.Lib MiniOs.Spec

/-! ## The code -/

theorem entryNameLoop_eq (n current left i : Nat) (s : FsSt) :
    ∃ b, entryNameLoop (inodeAt s.disk n) current left i s = (s.withBuffer b,
        match scan (s.volume.entry n) (fun e => e.inode = current) left i with
        | .found _ e => some (cstr e.name)
        | .ended => some []
        | .blocked => none) := by
  induction left generalizing i s with
  | zero => exact ⟨s.blockBuffer, rfl⟩
  | succ left ih =>
    unfold entryNameLoop scan
    rcases loadEntryBlock_cases s n i with ⟨he, b, hl⟩ | ⟨k, -, -, he, hl⟩
    · rw [hl, he]
      exact ⟨b, rfl⟩
    rw [hl, he]
    dsimp only
    by_cases hp : (Dirent.decode (s.disk k) (i % 8 * 64)).inode = current
    · rw [if_pos (decide_eq_true hp)]
      exact ⟨s.disk k, if_pos hp⟩
    · have hno : ¬ decide ((Dirent.decode (s.disk k) (i % 8 * 64)).inode = current) = true := by
        rw [decide_eq_true_iff]
        exact hp
      rw [if_neg hno]
      obtain ⟨b, hb⟩ := ih (i + 1) (s.withBuffer (s.disk k))
      exact ⟨b, (if_neg hp).trans hb⟩

theorem getcwdLoop_eq (fuel : Nat) :
    ∀ (s : FsSt) (current : Nat) (path : List UInt8), ∃ b, getcwdLoop fuel s current path =
        (s.withBuffer b, s.volume.pathFrom fuel current path) := by
  induction fuel with
  | zero => exact fun s _ _ => ⟨s.blockBuffer, rfl⟩
  | succ fuel ih =>
    intro s current path
    unfold getcwdLoop Volume.pathFrom
    by_cases hroot : current = 0
    · rw [if_pos hroot, if_pos hroot]
      exact ⟨s.blockBuffer, rfl⟩
    rw [if_neg hroot, if_neg hroot]
    obtain ⟨b1, hb1⟩ := readInode_eq s current
    rw [hb1]
    by_cases hlt : current < 256
    · rw [if_pos hlt]
      dsimp only
      obtain ⟨parent, hparent⟩ : ∃ p, p = (inodeAt s.disk current).parent := ⟨_, rfl⟩
      have hnode : (s.volume.node current).parent = parent := hparent.symm
      rw [hnode, ← hparent]
      obtain ⟨b2, hb2⟩ := readInode_eq (s.withBuffer b1) parent
      rw [hb2]
      by_cases hplt : parent < 256
      · rw [if_pos hplt, if_pos ⟨hlt, hplt⟩]
        dsimp only
        obtain ⟨b3, hb3⟩ : ∃ b, entryNameLoop (inodeAt s.disk parent) current
            ((inodeAt s.disk parent).size / 64) 0 ((s.withBuffer b1).withBuffer b2) =
            (s.withBuffer b, s.volume.nameIn parent current) :=
          entryNameLoop_eq parent current _ 0 ((s.withBuffer b1).withBuffer b2)
        have hread : entryNameLoop (inodeAt (s.withBuffer b1).disk parent) current
            ((inodeAt (s.withBuffer b1).disk parent).size / 64) 0
            ((s.withBuffer b1).withBuffer b2) = _ := hb3
        rw [hread]
        cases s.volume.nameIn parent current with
        | none => exact ⟨b3, rfl⟩
        | some name =>
          dsimp only
          split
          · exact ⟨b3, rfl⟩
          · exact ih (s.withBuffer b3) parent _
      · rw [if_neg hplt, if_neg fun h => hplt h.2]
        exact ⟨b2, rfl⟩
    · rw [if_neg hlt, if_neg fun h => hlt h.1]
      exact ⟨b1, rfl⟩

theorem minifsGetcwd_eq (s : FsSt) (cwd length : Nat) :
    ∃ b, minifsGetcwd s cwd length = (s.withBuffer b, s.volume.getcwd cwd length) := by
  unfold minifsGetcwd Volume.getcwd
  split
  · exact ⟨s.blockBuffer, rfl⟩
  split
  · exact ⟨s.blockBuffer, rfl⟩
  obtain ⟨b, hb⟩ := getcwdLoop_eq 256 s cwd []
  rw [hb]
  cases s.volume.pathFrom 256 cwd [] with
  | none => exact ⟨b, rfl⟩
  | some path =>
    refine ⟨b, ?_⟩
    dsimp only
    rw [Option.filter_some]
    by_cases hfits : path.length + 1 ≤ length
    · rw [if_neg (by omega), if_pos (decide_eq_true hfits)]
    · rw [if_pos (by omega), if_neg (by simpa using hfits)]

/-! ## Any parents -/

/-- One round of the loop of `minifs_getcwd`: where it goes on, and the bytes in `reverse`. -/
def getcwdRound (s : FsSt) (current : Nat) (path : List UInt8) :
    FsSt × Option (Nat × List UInt8) :=
  match readInode s current with
  | (s, none) => (s, none)
  | (s, some inode) =>
    match readInode s inode.parent with
    | (s, none) => (s, none)
    | (s, some parent) =>
      match entryNameLoop parent current (parent.size / 64) 0 s with
      | (s, none) => (s, none)
      | (s, some name) =>
        if name.length = 0 ∨ path.length + name.length + 1 ≥ 256 then (s, none)
        else (s, some (inode.parent, slash :: name ++ path))

/-- The loop ends with an answer. There is no rule for a loop that goes on for ever. -/
inductive Climbs : FsSt → Nat → List UInt8 → FsSt × Option (List UInt8) → Prop
  | root (s : FsSt) (path : List UInt8) : Climbs s 0 path (s, some path)
  | fails {s s' : FsSt} {current : Nat} {path : List UInt8} (hpos : current ≠ 0)
      (h : getcwdRound s current path = (s', none)) : Climbs s current path (s', none)
  | round {s s' : FsSt} {current parent : Nat} {path path' : List UInt8}
      {answer : FsSt × Option (List UInt8)} (hpos : current ≠ 0)
      (h : getcwdRound s current path = (s', some (parent, path')))
      (hrest : Climbs s' parent path' answer) : Climbs s current path answer

theorem getcwdLoop_succ (fuel : Nat) (s : FsSt) {current : Nat} (path : List UInt8)
    (hpos : current ≠ 0) :
    getcwdLoop (fuel + 1) s current path =
      match getcwdRound s current path with
      | (s, none) => (s, none)
      | (s, some (parent, path)) => getcwdLoop fuel s parent path := by
  rw [getcwdLoop, if_neg hpos, getcwdRound]
  rcases readInode s current with ⟨s1, _ | inode⟩
  · rfl
  dsimp only
  rcases readInode s1 inode.parent with ⟨s2, _ | parent⟩
  · rfl
  dsimp only
  rcases entryNameLoop parent current (parent.size / 64) 0 s2 with ⟨s3, _ | name⟩
  · rfl
  dsimp only
  split <;> rfl

/-- A round puts two bytes at least into `reverse`, and they fit. -/
theorem getcwdRound_grows {s s' : FsSt} {current parent : Nat} {path path' : List UInt8}
    (h : getcwdRound s current path = (s', some (parent, path'))) :
    path.length + 2 ≤ path'.length ∧ path'.length < 256 := by
  unfold getcwdRound at h
  split at h
  · cases h
  split at h
  · cases h
  split at h
  · cases h
  next name _ =>
    split at h
    · cases h
    · cases h
      rw [List.length_append, List.length_cons]
      omega

theorem climbs_getcwdLoop (fuel : Nat) :
    ∀ (s : FsSt) (current : Nat) (path : List UInt8), path.length < 256 →
      256 ≤ path.length + 2 * fuel → Climbs s current path (getcwdLoop fuel s current path) := by
  induction fuel with
  | zero =>
    intro s current path hlen hfuel
    omega
  | succ fuel ih =>
    intro s current path hlen hfuel
    by_cases hpos : current = 0
    · subst hpos
      exact .root s path
    rw [getcwdLoop_succ fuel s path hpos]
    rcases h : getcwdRound s current path with ⟨s', _ | ⟨parent, path'⟩⟩
    · exact .fails hpos h
    · obtain ⟨hgrows, hfits⟩ := getcwdRound_grows h
      exact .round hpos h (ih s' parent path' hfits (by omega))

/-- Whatever the parents are: the loop ends, no round leaves more than 255 bytes in
`reverse`, and the answer is -1 or the length of what stands in the buffer before the
terminator, both within the length given. -/
theorem getcwd_terminates (s : FsSt) (cwd length : Nat) :
    Climbs s cwd [] (getcwdLoop 256 s cwd []) ∧
      (∀ s current path s' parent path',
        getcwdRound s current path = (s', some (parent, path')) → path'.length < 256) ∧
      ((minifsGetcwd s cwd length).2 = none ∨ ∃ path, (minifsGetcwd s cwd length).2 = some path ∧
        0 ∉ path ∧ path.length + 1 ≤ length) := by
  refine ⟨climbs_getcwdLoop 256 s cwd [] (by decide) (by decide),
    fun _ _ _ _ _ _ h => (getcwdRound_grows h).2, ?_⟩
  obtain ⟨b, hb⟩ := minifsGetcwd_eq s cwd length
  rw [hb]
  rcases h : s.volume.getcwd cwd length with _ | path
  · exact Or.inl rfl
  refine Or.inr ⟨path, rfl, Volume.getcwd_noNul h, ?_⟩
  unfold Volume.getcwd at h
  split at h
  · cases h
  next hlong =>
    split at h
    · cases h
      exact Nat.not_lt.mp hlong
    · exact of_decide_eq_true (Option.filter_eq_some_iff.mp h).2

end MiniOs.Fs
