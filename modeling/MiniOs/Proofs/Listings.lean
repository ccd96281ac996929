import MiniOs.Proofs.Contents
import MiniOs.Proofs.Leaks

/-!
# One name at a time

What a process can see of the file system is what `minifs_getdents` lists and what
`minifs_pread` returns. `Unmoved` says that both are as they were for one inode, and
`Lists` that a directory is listed with certain entries, given room for them.

Creating a node changes one directory, by an entry in a slot that was free or new, and
removing one takes an entry out of its slot. The slots keep their order, so the listing
before and the listing after are the same up to one place (`filterMap_range_insert`),
wherever the slot is. Every other inode in use has the same record and the same blocks.
-/

namespace MiniOs.Spec.Volume

open MiniOs.Lib MiniOs.Fs

/-- The entry in a slot, where it is live. -/
def liveEntry (V : Volume) (d i : Nat) : Option Dirent := (V.entry d i).filter live

/-- The live entries of a directory, in the order of their slots. -/
def entries (V : Volume) (d : Nat) : List Dirent :=
  (List.range (V.count d)).filterMap (V.liveEntry d)

/-- What `minifs_getdents` reports for an inode it is given by number. -/
def getdents (V : Volume) (n : Nat) (capacity : Int) : Option (List Dirent) :=
  if n < 256 ∧ 0 ≤ capacity then
    if (V.node n).IsFile then
      if capacity = 0 then some [] else some [⟨n, (V.node n).mode, []⟩]
    else V.listFrom n (V.count n) 0 capacity.toNat
  else none

section Listing

variable {V W : Volume} {n : Nat}

theorem liveEntry_eq_some {i : Nat} {e : Dirent} :
    V.liveEntry n i = some e ↔ V.entry n i = some e ∧ e.Live := by
  rw [liveEntry, Option.filter_eq_some_iff, live_iff]

theorem listFrom_congr {left i : Nat} (room : Nat)
    (h : ∀ j, i ≤ j → j < i + left → V.entry n j = W.entry n j) :
    V.listFrom n left i room = W.listFrom n left i room := by
  induction left generalizing i room with
  | zero => rfl
  | succ left ih =>
    have hrest : ∀ j, i + 1 ≤ j → j < i + 1 + left → V.entry n j = W.entry n j := fun j h1 h2 =>
      h j (by omega) (by omega)
    rw [listFrom, listFrom, h i (Nat.le_refl i) (by omega), ih _ hrest, ih _ hrest]

theorem SameAt.getdents (h : V.SameAt W n) (capacity : Int) :
    V.getdents n capacity = W.getdents n capacity := by
  rw [Volume.getdents, Volume.getdents, h.1, h.count,
    listFrom_congr _ fun j _ _ => congrFun h.entry j]

theorem getdents_dir (hn : n < 256) (hdir : (V.node n).IsDir) (room : Nat) :
    V.getdents n room = V.listFrom n (V.count n) 0 room := by
  rw [getdents, if_pos ⟨hn, Int.natCast_nonneg room⟩, if_neg (not_isFile_of_isDir hdir),
    Int.toNat_natCast]

/-- With room for all of them, the live entries are listed. -/
theorem listFrom_eq {left i room : Nat}
    (hmapped : ∀ j, i ≤ j → j < i + left → V.entry n j ≠ none)
    (hroom : ((List.range' i left).filterMap (V.liveEntry n)).length ≤ room) :
    V.listFrom n left i room = some ((List.range' i left).filterMap (V.liveEntry n)) := by
  induction left generalizing i room with
  | zero => rfl
  | succ left ih =>
    obtain ⟨e, he⟩ := Option.ne_none_iff_exists'.mp (hmapped i (Nat.le_refl i) (by omega))
    have hrest : ∀ j, i + 1 ≤ j → j < i + 1 + left → V.entry n j ≠ none := fun j h1 h2 =>
      hmapped j (by omega) (by omega)
    rw [List.range'_succ] at hroom ⊢
    unfold listFrom
    by_cases hzero : room = 0
    · rw [hzero, Nat.le_zero, List.length_eq_zero_iff] at hroom
      rw [if_pos hzero, hroom]
    rw [if_neg hzero, he]
    dsimp only
    by_cases hlive : e.Live
    · have hhead : V.liveEntry n i = some e := by
        rw [liveEntry, he, Option.filter_some, if_pos (live_iff.mpr hlive)]
      rw [List.filterMap_cons_some hhead] at hroom ⊢
      rw [if_pos hlive, ih hrest (by rw [List.length_cons] at hroom; omega)]
      rfl
    · have hhead : V.liveEntry n i = none := by
        rw [liveEntry, he, Option.filter_some, if_neg (fun h => hlive (live_iff.mp h))]
      rw [List.filterMap_cons_none hhead] at hroom ⊢
      rw [if_neg hlive, ih hrest hroom]

theorem mem_entries {e : Dirent} :
    e ∈ V.entries n ↔ ∃ i, i < V.count n ∧ V.entry n i = some e ∧ e.Live := by
  simp only [entries, List.mem_filterMap, List.mem_range, liveEntry_eq_some]

/-- The slots behind the end of a directory count as empty. -/
theorem entries_eq {count : Nat} (h : V.count n ≤ count) :
    V.entries n = (List.range count).filterMap fun i =>
      if i < V.count n then V.liveEntry n i else none := by
  have hsplit : List.range count =
      List.range (V.count n) ++ List.range' (V.count n) (count - V.count n) := by
    rw [List.range_eq_range', List.range_eq_range',
      show count = V.count n + (count - V.count n) by omega, ← List.range'_append]
    simp
  have hbehind : (List.range' (V.count n) (count - V.count n)).filterMap (fun i =>
      if i < V.count n then V.liveEntry n i else none) = [] := by
    rw [List.filterMap_eq_nil_iff]
    intro i hi
    have hle := (List.mem_range'_1.mp hi).1
    exact if_neg (by omega)
  rw [hsplit, List.filterMap_append, hbehind, List.append_nil, entries]
  exact List.filterMap_congr fun i hi => (if_pos (List.mem_range.mp hi)).symm

end Listing

variable {V : Volume}

/-- A listing has each live entry of the directory, and no name twice. -/
theorem Tree.entries_nodup (ht : V.Tree) {d : Nat} (hd : V.ibit d = true)
    (hdir : (V.node d).IsDir) : ((V.entries d).map fun e => cstr e.name).Nodup := by
  have hnames : ∀ {i e}, (if i < V.count d then V.liveEntry d i else none) = some e →
      V.Names d i e := by
    intro i e h
    split at h
    · next hlt =>
      obtain ⟨hentry, hlive⟩ := liveEntry_eq_some.mp h
      exact ⟨hd, hdir, hlt, hentry, hlive⟩
    · cases h
  rw [entries_eq (Nat.le_refl _), List.map_filterMap]
  refine List.Nodup.filterMap (fun i j name hi hj => ?_) List.nodup_range
  obtain ⟨e, he, hname⟩ := Option.map_eq_some_iff.mp hi
  obtain ⟨e', he', hname'⟩ := Option.map_eq_some_iff.mp hj
  exact ht.distinct (hnames he) (hnames he') (hname.trans hname'.symm)

/-- Filing puts one entry into the listing. -/
theorem Fileable.entries {k parent index : Nat} {node : Node} {name : List UInt8}
    (h : V.Fileable k node parent index name) (ht : V.Tree) :
    ∃ before after, V.entries parent = before ++ after ∧
      (V.file k node parent index name).entries parent =
        before ++ record k node.mode name :: after := by
  have hcount := h.count_parent
  have hindex : index < (V.file k node parent index name).count parent := by
    rw [hcount]
    rcases h.slot with heq | ⟨hlt, -⟩
    · rw [if_pos heq]
      omega
    · rw [if_neg (by omega)]
      exact hlt
  rw [@entries_eq V parent ((V.file k node parent index name).count parent)
    (by rw [hcount]; split <;> omega)]
  refine filterMap_range_insert hindex ?_ ?_ fun i hi hne => ?_
  · rcases h.slot with heq | ⟨hlt, hdead⟩
    · exact if_neg (by omega)
    · rw [if_pos hlt, Option.eq_none_iff_forall_ne_some]
      intro e he
      obtain ⟨hentry, hlive⟩ := liveEntry_eq_some.mp he
      exact hdead e hentry hlive
  · refine liveEntry_eq_some.mpr ⟨h.entry_new, ?_⟩
    have hlt := h.lt
    unfold Dirent.Live record
    dsimp only
    omega
  · have hlt := h.lt_count hi hne
    rw [if_pos hlt, liveEntry, h.entry_old ht hlt hne]
    rfl

/-- Pruning takes one entry out of the listing. -/
theorem Prunable.entries {k parent j : Nat} {e : Dirent} (h : V.Prunable k parent j e) :
    ∃ before after, V.entries parent = before ++ e :: after ∧
      (V.prune k parent j).entries parent = before ++ after := by
  have hcount : (V.prune k parent j).count parent = V.count parent := prune_count h.ne
  have hgone : (V.prune k parent j).liveEntry parent j = none := by
    rw [liveEntry, h.entry_gone, Option.filter_some, if_neg]
    rw [live_iff]
    exact fun hlive => hlive rfl
  obtain ⟨before, after, hafter, hbefore⟩ := filterMap_range_insert h.names.lt hgone
    (liveEntry_eq_some.mpr ⟨h.names.entry, h.names.live⟩) fun i _ hne => by
      rw [liveEntry, liveEntry, h.entry_kept hne]
  refine ⟨before, after, hbefore, ?_⟩
  rw [Volume.entries, hcount]
  exact hafter

end MiniOs.Spec.Volume

namespace MiniOs.Fs

open MiniOs.Lib MiniOs.Spec MiniOs.Tools

/-! ## What can be seen -/

theorem minifsGetdents_eq (s : FsSt) (n : Nat) (capacity : Int) :
    (minifsGetdents s n none capacity).2 = s.volume.getdents n capacity := by
  rw [minifsGetdents, if_pos (show pathBytes none = [] from rfl), Volume.getdents]
  by_cases hn : n < 256
  · rw [asInt_of_lt (by omega)]
    dsimp only
    by_cases hcap : capacity < 0
    · rw [if_pos hcap, if_neg (by omega)]
    obtain ⟨b, hb⟩ := readInode_eq s n
    obtain ⟨c, hc⟩ := getdentsLoop_eq n capacity.toNat (s.volume.count n) 0 0 (s.withBuffer b)
    rw [if_neg hcap, hb, if_pos hn, if_pos ⟨hn, by omega⟩]
    dsimp only
    by_cases hfile : (s.volume.node n).IsFile
    · rw [if_pos hfile, if_pos (show (inodeAt s.disk n).mode &&& 0xff = 1 from hfile)]
      split <;> rfl
    · rw [if_neg hfile, if_neg (show ¬ (inodeAt s.disk n).mode &&& 0xff = 1 from hfile)]
      exact congrArg Prod.snd hc
  · rw [if_neg fun h => hn h.1]
    cases hnum : asInt n with
    | none => rfl
    | some number =>
      have hnumber : number = n := by
        unfold asInt at hnum
        split at hnum
        · exact (Option.some.inj hnum).symm
        · cases hnum
      obtain ⟨b, hb⟩ := readInode_eq s n
      dsimp only
      rw [hnumber, hb, if_neg hn]
      split <;> rfl

/-- A directory is listed with these entries, wherever there is room for them. -/
def Lists (s : FsSt) (d : Nat) (entries : List Dirent) : Prop :=
  ∀ capacity : Int, entries.length ≤ capacity → (minifsGetdents s d none capacity).2 = some entries

/-- An inode looks as it did: as a directory, and as a file. -/
structure Unmoved (s s' : FsSt) (n : Nat) : Prop where
  mode : (s'.volume.node n).mode = (s.volume.node n).mode
  size : (s'.volume.node n).size = (s.volume.node n).size
  listing : ∀ capacity, (minifsGetdents s' n none capacity).2 = (minifsGetdents s n none capacity).2
  content : ∀ offset length, (minifsPread s' n offset length).2 = (minifsPread s n offset length).2

variable {s : FsSt} {n : Nat}

theorem Unmoved.of_same {s' : FsSt} (h : s'.volume.SameAt s.volume n) :
    Unmoved s s' n where
  mode := by rw [h.1]
  size := by rw [h.1]
  listing capacity := by rw [minifsGetdents_eq, minifsGetdents_eq, h.getdents]
  content offset length := by
    obtain ⟨b, hb⟩ := minifsPread_eq s n offset length
    obtain ⟨b', hb'⟩ := minifsPread_eq s' n offset length
    rw [hb, hb', Volume.pread, Volume.pread, h.1, h.byte]

theorem Unmoved.trans {s₁ s₂ : FsSt} (h1 : Unmoved s s₁ n) (h2 : Unmoved s₁ s₂ n) :
    Unmoved s s₂ n where
  mode := h2.mode.trans h1.mode
  size := h2.size.trans h1.size
  listing capacity := (h2.listing capacity).trans (h1.listing capacity)
  content offset length := (h2.content offset length).trans (h1.content offset length)

theorem lists_entries (ht : s.volume.Tree) {d : Nat} (hd : s.volume.ibit d = true)
    (hdir : (s.volume.node d).IsDir) : Lists s d (s.volume.entries d) := by
  intro capacity hcap
  obtain ⟨room, rfl⟩ : ∃ room : Nat, capacity = room := ⟨capacity.toNat, by omega⟩
  have hlist := @Volume.listFrom_eq s.volume d (s.volume.count d) 0 room
    (fun j _ hj => ht.mapped d hd hdir j (by omega))
  rw [← List.range_eq_range'] at hlist
  rw [minifsGetdents_eq, Volume.getdents_dir (ht.bound d hd) hdir]
  exact hlist (by rw [← Volume.entries]; omega)

/-! ## The calls -/

/-- `name` is a new name of `d` for the inode `k`, which was free, and nothing else has
changed. -/
structure Adds (s s' : FsSt) (d : Nat) (name : List UInt8) (mode k : Nat) : Prop where
  free : s.volume.ibit k = false
  used : s'.volume.ibit k = true
  listing : ∃ before after, Lists s d (before ++ after) ∧
    (∀ e ∈ before ++ after, cstr e.name ≠ name) ∧
    Lists s' d (before ++ record k mode name :: after)
  others : ∀ n, s.volume.ibit n = true → n ≠ d → Unmoved s s' n

/-- The entry `e` is gone from `d` with its inode, and nothing else has changed. -/
structure Drops (s s' : FsSt) (d : Nat) (e : Dirent) : Prop where
  free : s'.volume.ibit e.inode = false
  listing : ∃ before after, Lists s d (before ++ e :: after) ∧ Lists s' d (before ++ after)
  others : ∀ n, s.volume.ibit n = true → n ≠ d → n ≠ e.inode → Unmoved s s' n

/-- No process has the inode open. -/
def Closed (s : FsSt) (n : Nat) : Prop :=
  ∀ pid fd i, getOpenFile s.toFdTables pid fd = some i → (s.openFiles i).type = .file →
    (s.openFiles i).inode ≠ n

theorem closed_of_not_open (h : inodeIsOpen s.toFdTables n = false) :
    Closed s n := by
  rintro pid fd i hopen htype rfl
  have hnot := List.any_eq_false.mp h i (List.mem_finRange i)
  simp [getOpenFile_used hopen, htype] at hnot

section Calls

variable {s s₁ s₂ : FsSt} {d k mode : Nat} {name : List UInt8}

/-- What happens to the new inode later does not matter. -/
theorem Adds.later (h : Adds s s₁ d name mode k) (hd : s.volume.ibit d = true)
    (hsame : ∀ n, n ≠ k → s₂.volume.SameAt s₁.volume n) (hk : s₂.volume.ibit k = true) :
    Adds s s₂ d name mode k := by
  have hne : ∀ n, s.volume.ibit n = true → n ≠ k := by
    rintro n hn rfl
    exact Bool.false_ne_true (h.free.symm.trans hn)
  obtain ⟨before, after, hbefore, hfresh, hafter⟩ := h.listing
  refine ⟨h.free, hk, ⟨before, after, hbefore, hfresh, fun capacity hcap => ?_⟩, fun n hn hnd => ?_⟩
  · rw [(Unmoved.of_same (hsame d (hne d hd))).listing]
    exact hafter capacity hcap
  · exact (h.others n hn hnd).trans (.of_same (hsame n (hne n hn)))

/-- Nor does the buffer the call started with. -/
theorem Adds.of_buffer {b : Region} (h : Adds (s.withBuffer b) s₁ d name mode k) :
    Adds s s₁ d name mode k := by
  have hsame : ∀ n, Unmoved s (s.withBuffer b) n := fun n => .of_same ⟨rfl, rfl⟩
  obtain ⟨before, after, hbefore, hfresh, hafter⟩ := h.listing
  refine ⟨h.free, h.used, ⟨before, after, fun capacity hcap => ?_, hfresh, hafter⟩,
    fun n hn hnd => (hsame n).trans (h.others n hn hnd)⟩
  rw [← (hsame d).listing]
  exact hbefore capacity hcap

theorem createNode_adds (h : s.Sound) (ht : s.volume.Tree) (hd : s.volume.ibit d = true)
    (hm : mode < 2 ^ 32) (hgood : GoodName name) (hnul : 0 ∉ name)
    (hc : createNode s d name mode = (s₁, some k)) : Adds s s₁ d name mode k := by
  rcases createNode_tree h ht hd hm hgood hnul with
    ⟨s', hnone, -⟩ | ⟨s', k', index, hsome, hfile, hb⟩
  · cases hc.symm.trans hnone
  cases hc.symm.trans hsome
  have hvol := hb.volume
  have ht' : s₁.volume.Tree := by
    rw [hvol]
    exact ht.file hfile
  have hd' : s₁.volume.ibit d = true := by
    rw [hvol]
    exact (Volume.file_used_iff d).mpr (Or.inr hd)
  have hdir' : (s₁.volume.node d).IsDir := by
    rw [hvol, hfile.node_parent]
    exact hfile.parentDir
  obtain ⟨before, after, hbefore, hafter⟩ := hfile.entries ht
  have hold := lists_entries ht hd hfile.parentDir
  have hnew := lists_entries ht' hd' hdir'
  rw [hvol, hafter] at hnew
  rw [hbefore] at hold
  refine ⟨hfile.free, ?_, ⟨before, after, hold, fun e he => ?_, hnew⟩, fun n hn hnd => ?_⟩
  · rw [hvol]
    exact (Volume.file_used_iff k).mpr (Or.inl rfl)
  · rw [← hbefore] at he
    obtain ⟨i, hi, hentry, hlive⟩ := Volume.mem_entries.mp he
    exact hfile.fresh i e ⟨hd, hfile.parentDir, hi, hentry, hlive⟩
  · refine Unmoved.of_same ?_
    rw [hvol]
    refine Volume.file_sameAt ?_ hnd
    rintro rfl
    exact Bool.false_ne_true (hfile.free.symm.trans hn)

/-- A `minifs_open` that makes a file and returns a descriptor. -/
theorem minifsOpen_adds (h : s.Sound) (ht : s.volume.Tree) {pid : Int} {cwd : Nat}
    {path : Option CStr} {flags : BitVec 32} {fd : Fin 16} (hd : s.volume.ibit d = true)
    (htarget : s.volume.resolveParent cwd (pathBytes path) = some (d, name))
    (hnone : s.volume.resolve cwd (pathBytes path) = none)
    (hopen : minifsOpen s pid cwd path flags = (s₁, some fd)) : ∃ k, Adds s s₁ d name 1 k := by
  obtain ⟨hgood, hnul⟩ := Volume.resolveParent_name (pathBytes_noNul path) htarget
  rcases minifsOpen_cases s pid cwd path flags with ⟨hc, -⟩ | ⟨p, -, -, hc⟩
  · cases hopen.symm.trans hc
  rcases hc with ⟨s', -, hc⟩ | ⟨s', k, hcreate, hc⟩
  · cases hopen.symm.trans hc
  rcases openTarget_cases s cwd (pathBytes path) flags with
    ⟨b, ho, -⟩ | ⟨b, parent, name', -, -, hparent, ho⟩
  · rw [hnone] at ho
    cases hcreate.symm.trans ho
  obtain ⟨rfl, rfl⟩ := Prod.mk.inj (Option.some.inj (htarget.symm.trans hparent))
  have hadds : Adds s s' d name 1 k := Adds.of_buffer <|
    @createNode_adds (s.withBuffer b) s' d k 1 name h ht hd (by decide) hgood hnul
      (ho.symm.trans hcreate)
  have hsound : s'.Sound := by
    have hsealed := (openTarget_edited (P := fun _ => True) h cwd (pathBytes path) flags
      fun _ _ => trivial).1
    rw [hcreate] at hsealed
    exact hsealed.sound
  have hlater : ∀ s₂ : FsSt, (∀ n, n ≠ k → s₂.volume.SameAt s'.volume n) →
      s₂.volume.ibit k = s'.volume.ibit k → s₂.volume = s₁.volume → ∃ k, Adds s s₁ d name 1 k :=
    fun s₂ hsame hk hvol => ⟨k, hadds.later hd (hvol ▸ hsame) (by rw [← hvol, hk, hadds.used])⟩
  rcases hc with ⟨s₂, -, hc⟩ | ⟨s₂, inode, htrunc, hc⟩
  · cases hopen.symm.trans hc
  have hvol : s₂.volume = s₁.volume := by
    rw [show s₁ = _ from congrArg Prod.fst (hopen.symm.trans hc)]
    rfl
  rcases openTruncate_cases hsound k flags with
    ⟨b2, hc2, -⟩ | ⟨b2, -, -, -, hc2⟩ | ⟨s3, -, -, -, hc2, hb⟩
  · cases htrunc.symm.trans hc2
  · cases htrunc.symm.trans hc2
    exact hlater _ (fun n _ => ⟨rfl, rfl⟩) rfl hvol
  · cases htrunc.symm.trans hc2
    refine hlater s₂ (fun n hn => ?_) ?_ hvol
    · rw [hb.volume]
      exact (Volume.sameAt_setNode hn _).trans (Volume.sameAt_clear hn)
    · rw [hb.volume]
      rfl

theorem minifsUnlink_drops (h : s.Sound) (ht : s.volume.Tree) {cwd : Nat} {path : Option CStr}
    (hd : s.volume.ibit d = true)
    (htarget : s.volume.resolveParent cwd (pathBytes path) = some (d, name))
    (hunlink : minifsUnlink s cwd path = (s₁, true)) :
    ∃ e, cstr e.name = name ∧ Drops s s₁ d e ∧ s.volume.ibit e.inode = true ∧ Closed s e.inode ∧
      ((s.volume.node e.inode).IsDir → Lists s e.inode []) := by
  obtain ⟨-, hnul⟩ := Volume.resolveParent_name (pathBytes_noNul path) htarget
  rcases minifsUnlink_cases s cwd path with ⟨⟨b, hc⟩, -⟩ | ⟨b, parent, name', k, hu, hc⟩
  · cases hunlink.symm.trans hc
  obtain ⟨rfl, rfl⟩ := Prod.mk.inj (Option.some.inj (htarget.symm.trans hu.target))
  have hu' : Unlinkable (s.withBuffer b) cwd (pathBytes path) d name k :=
    ⟨hu.target, hu.found, hu.pos, hu.lt, hu.closed, hu.vacant⟩
  obtain ⟨s', j, e, hgone, hprune, hname, hb⟩ :=
    @unlinkInode_tree (s.withBuffer b) _ h ht _ _ _ _ hu' hd
  cases (hunlink.symm.trans hc).trans hgone
  obtain rfl := hprune.inode
  have hused : s.volume.ibit e.inode = true := ht.childUsed hprune.names
  have hvol : s₁.volume = s.volume.prune e.inode d j := hb.volume
  have hne : d ≠ e.inode := hprune.ne
  obtain ⟨before, after, hbefore, hafter⟩ := hprune.entries
  have hold := lists_entries ht hd hprune.names.dir
  have ht' : s₁.volume.Tree := by
    rw [hvol]
    exact ht.prune hprune
  have hd' : s₁.volume.ibit d = true := by
    rw [hvol]
    exact (Volume.prune_used_iff d).mpr ⟨hne, hd⟩
  have hdir' : (s₁.volume.node d).IsDir := by
    rw [hvol, Volume.prune_node hne]
    exact hprune.names.dir
  have hnew := lists_entries ht' hd' hdir'
  rw [hvol] at hnew
  refine ⟨e, ?_, ⟨?_, ⟨before, after, hbefore ▸ hold, hafter ▸ hnew⟩, fun n hn hnd hnk => ?_⟩,
    hused, closed_of_not_open hu.closed, fun hdir => ?_⟩
  · rw [hname, cstr_of_noNul hnul]
  · rw [hvol, Volume.prune_ibit, Function.update_self]
  · refine Unmoved.of_same ?_
    rw [hvol]
    exact Volume.prune_sameAt hnk hnd
  · have hlists := lists_entries ht hused hdir
    have hempty : s.volume.entries e.inode = [] := by
      refine List.eq_nil_iff_forall_not_mem.mpr fun e' he' => ?_
      obtain ⟨i, hi, hentry, hlive⟩ := Volume.mem_entries.mp he'
      exact hprune.childless i e' ⟨hused, hdir, hi, hentry, hlive⟩
    rwa [hempty] at hlists

end Calls

/-- Creating and deleting change one name. In a state whose directories form a tree, where
every inode in use is a file or a directory, a listing has each live entry once. For a path
whose last component is `name` in the directory `d`, a `minifs_mkdir` or `minifs_open` that makes
something adds that entry to the listing of `d`, a `minifs_unlink` takes it away, and only a file
that nobody has open or an empty directory goes. Every other inode in use looks as before. -/
theorem names_change_by_one {s : FsSt} (h : s.Sound) (ht : s.volume.Tree)
    (hkind : ∀ n, s.volume.ibit n = true → (s.volume.node n).IsFile ∨ (s.volume.node n).IsDir)
    {cwd d : Nat} {path : Option CStr} {name : List UInt8} (hd : s.volume.ibit d = true)
    (htarget : (resolveParent s cwd (pathBytes path)).2 = some (d, name)) :
    (∀ n, s.volume.ibit n = true → (s.volume.node n).IsDir → ∃ entries, Lists s n entries ∧
      (entries.map fun e => cstr e.name).Nodup ∧
      ∀ e, e ∈ entries ↔ ∃ i, s.volume.Names n i e) ∧
    (∀ s', minifsMkdir s cwd path = (s', true) → ∃ k, Adds s s' d name 2 k) ∧
    (∀ pid flags s' fd, (resolve s cwd (pathBytes path)).2 = none →
      minifsOpen s pid cwd path flags = (s', some fd) → ∃ k, Adds s s' d name 1 k) ∧
    ∀ s', minifsUnlink s cwd path = (s', true) → ∃ e, cstr e.name = name ∧ Drops s s' d e ∧
      ((s.volume.node e.inode).IsFile ∧ Closed s e.inode ∨
        (s.volume.node e.inode).IsDir ∧ Lists s e.inode []) := by
  obtain ⟨b, hb⟩ := resolveParent_eq s cwd (pathBytes path)
  rw [hb] at htarget
  have htarget : s.volume.resolveParent cwd (pathBytes path) = some (d, name) := htarget
  obtain ⟨hgood, hnul⟩ := Volume.resolveParent_name (pathBytes_noNul path) htarget
  refine ⟨fun n hn hdir => ⟨_, lists_entries ht hn hdir, ht.entries_nodup hn hdir, fun e => ?_⟩,
    fun s' hmkdir => ?_, fun pid flags s' fd hnone hopen => ?_, fun s' hunlink => ?_⟩
  · rw [Volume.mem_entries]
    exact exists_congr fun i => ⟨fun ⟨hlt, hentry, hlive⟩ => ⟨hn, hdir, hlt, hentry, hlive⟩,
      fun hnames => ⟨hnames.lt, hnames.entry, hnames.live⟩⟩
  · rcases minifsMkdir_cases s cwd path with ⟨b, hc, -⟩ | ⟨b, parent, name', hparent, hc⟩
    · cases hmkdir.symm.trans hc
    obtain ⟨rfl, rfl⟩ := Prod.mk.inj (Option.some.inj (htarget.symm.trans hparent))
    obtain ⟨s₁, r, hcreate⟩ : ∃ s₁ r, createNode (s.withBuffer b) d name 2 = (s₁, r) :=
      ⟨_, _, rfl⟩
    rw [hcreate] at hc
    cases r with
    | none => cases hmkdir.symm.trans hc
    | some k =>
      obtain rfl : s' = s₁ := congrArg Prod.fst (hmkdir.symm.trans hc)
      exact ⟨k, Adds.of_buffer <|
        @createNode_adds (s.withBuffer b) s' d k 2 name h ht hd (by decide) hgood hnul hcreate⟩
  · obtain ⟨c, hc⟩ := resolve_eq s cwd (pathBytes path)
    rw [hc] at hnone
    exact minifsOpen_adds h ht hd htarget hnone hopen
  · obtain ⟨e, hname, hdrops, hused, hclosed, hempty⟩ := minifsUnlink_drops h ht hd htarget hunlink
    exact ⟨e, hname, hdrops,
      (hkind e.inode hused).imp (fun hfile => ⟨hfile, hclosed⟩) fun hdir => ⟨hdir, hempty hdir⟩⟩

theorem mount_kinds (img : Image) (slot : Disk) (s0 : FsSt)
    (hn : (img.mount slot s0).volume.ibit n = true) :
    ((img.mount slot s0).volume.node n).IsFile ∨ ((img.mount slot s0).volume.node n).IsDir := by
  have hreach := (img.mount_tree slot s0).reach n hn
  rw [img.mount_volume] at hreach ⊢
  obtain ⟨node, hnode⟩ := Image.held img hreach
  unfold Node.IsFile Node.IsDir
  rw [hnode.mode]
  cases node with
  | symlink => exact hnode.elim
  | other => exact hnode.elim
  | dir children => exact Or.inr (by decide : 2 &&& 0xff = 2)
  | file data exec =>
    left
    rw [stagedMode]
    cases exec <;> decide

/-- The root of the image with one file takes another name. -/
theorem stagedFile_nameable {img : Image} (htree : img.tree = stagedFile) (slot : Disk) (s₀ : FsSt)
    (hfree : 1 ≤ img.builder.free) : Nameable (img.mount slot s₀).toStore 0 [98] := by
  have ht := img.mount_tree slot s₀
  obtain ⟨hused, -, hsize, hdir⟩ : HoldsNode (img.mount slot s₀).volume 0
      (.dir stagedFile.root.sort) := by
    rw [img.mount_volume, ← htree]
    exact img.holds
  have hcount : (img.mount slot s₀).volume.count 0 = stagedFile.root.sort.names.length := by
    rw [Volume.count, hsize, Nat.mul_div_cancel_left _ (by decide)]
  have hone : (img.mount slot s₀).volume.count 0 = 1 := hcount
  refine ⟨by decide, ht.rootDir, lookup_eq_none hused hdir hcount stagedFile.legal.sort (by decide)
    (by decide), by decide, by decide, _, slot_eq_count ht hdir hcount, ?_, fun _ => ?_⟩
  · rw [hone]
    decide
  · rw [img.mount_free, hone]
    exact hfree

/-- `/b` is made next to the file. -/
theorem names_change_by_one_mkdir :
    ∃ (img : Image) (s s' : FsSt) (k : Nat), img.tree = stagedFile ∧
      s = img.mount bareSlot boot ∧ s.Sound ∧ s.volume.Tree ∧
      (resolveParent s 0 [slash, 98]).2 = some (0, [98]) ∧
      minifsMkdir s 0 (some ⟨[slash, 98], by decide⟩) = (s', true) ∧ Adds s s' 0 [98] 2 k := by
  obtain ⟨img, htree, -, hinodes, hblocks⟩ := importTree_fits stagedFile_fits
  have hone : (HostNode.dir stagedFile.root).blocks = 2 := by decide
  have hname := stagedFile_nameable htree bareSlot boot (by omega)
  have hsound := img.mount_sound bareSlot boot
  have ht := img.mount_tree bareSlot boot
  have hkind := fun n => @mount_kinds n img bareSlot boot
  have hvol := congrArg Volume.ibit (img.mount_volume bareSlot boot)
  have hspare : (img.mount bareSlot boot).ibit 2 = false := (congrFun hvol 2).trans (hinodes 2)
  generalize hs : img.mount bareSlot boot = s at hname hsound ht hkind hspare
  have htarget : (resolveParent s 0 [slash, 98]).2 = some (0, [98]) := rfl
  obtain ⟨s', hmkdir⟩ : ∃ s', minifsMkdir s 0 (some ⟨[slash, 98], by decide⟩) = (s', true) := by
    rcases minifsMkdir_cases s 0 (some ⟨[slash, 98], by decide⟩) with
      ⟨-, -, hnone⟩ | ⟨b, parent, name, hparent, hc⟩
    · cases hnone
    · obtain ⟨rfl, rfl⟩ : 0 = parent ∧ [98] = name := Prod.mk.inj (Option.some.inj hparent)
      rw [(@createNode_isSome_iff (s.withBuffer b) 2 0 [98] hsound ht.rootUsed (by decide)
        (by decide)).mpr ⟨⟨2, by decide, by decide, hspare⟩, hname⟩] at hc
      exact ⟨_, hc⟩
  obtain ⟨k, hadds⟩ := (@names_change_by_one s hsound ht hkind 0 0
    (some ⟨[slash, 98], by decide⟩) [98] ht.rootUsed htarget).2.1 s' hmkdir
  exact ⟨img, s, s', k, htree, hs.symm, hsound, ht, htarget, hmkdir, hadds⟩

end MiniOs.Fs
