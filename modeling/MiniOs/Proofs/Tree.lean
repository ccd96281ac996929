import MiniOs.Proofs.Calls
import MiniOs.Spec.Namespace

/-!
# The calls keep the tree of names

Each call that goes through the code's own checks is one of the changes of
`Spec/Namespace.lean`. What has to be shown is that the checks are enough: that
a lookup that failed means the name is new, that the slot found is free, and
that an inode whose directory scan came back empty has no entries.

The one assumption is that a path leads into the tree, `Volume.Rooted`: it
starts at the root or at an inode in use.
-/

namespace MiniOs.Fs

open MiniOs.Lib MiniOs.Spec

variable {s : FsSt}

/-- The code's checks before it adds a name make the name fit. -/
theorem DirAddable.fileable {V : Volume} (ht : V.Tree) {k parent index : Nat}
    {node : Node} {name : List UInt8}
    (h : DirAddable (V.plant k node) parent name index) (hk1 : 1 ≤ k) (hk2 : k < 256)
    (hfree : V.ibit k = false) (hp : V.ibit parent = true) (hmode : node.mode < 2 ^ 32)
    (hsize : node.size = 0) (hparent : node.parent = parent) (hgood : GoodName name)
    (hnul : 0 ∉ name) : V.Fileable k node parent index name := by
  have hne : parent ≠ k := by
    rintro rfl
    rw [hfree] at hp
    cases hp
  have hsame := Volume.plant_sameAt V node hne
  have hfresh := h.fresh
  have hslot := h.slot
  rw [hsame.lookup] at hfresh
  rw [hsame.slot] at hslot
  refine ⟨hk1, hk2, hfree, hp, hsame.1 ▸ h.dir, hmode, hsize, hparent, hgood, hnul,
    fun i e hn => ?_, ?_⟩
  · have hnot := ht.lookup_none hfresh hn
    rwa [cstr_of_noNul hnul] at hnot
  unfold Volume.slot at hslot
  split at hslot
  · next i e hs =>
    obtain ⟨-, hlt, hentry, hb, -⟩ := scan_found hs
    cases hslot
    refine Or.inr ⟨by omega, fun e' he' => ?_⟩
    rw [hentry] at he'
    rw [← Option.some.inj he']
    exact buried_iff.mp hb
  · exact Or.inl (Option.some.inj hslot).symm
  · cases hslot

/-- The leak of `dir_add` in `create_node`, which gets there only with an inode
to spare. -/
def CreateLeaks (st : Store) (parent : Nat) (name : List UInt8) : Prop :=
  (∃ k, 1 ≤ k ∧ k < 256 ∧ st.ibit k = false) ∧ DirAddLeaks st parent name

/-- `createNode` in a tree: nothing happens to the tree, or the inode is filed. -/
theorem createNode_tree (h : s.Sound) (ht : s.volume.Tree) {parent mode : Nat}
    {name : List UInt8} (hp : s.volume.ibit parent = true) (hm : mode < 2 ^ 32)
    (hgood : GoodName name) (hnul : 0 ∉ name) :
    (∃ s', createNode s parent name mode = (s', none) ∧ s.volume.SameTree s'.volume ∧
      Becomes s s' s'.volume (¬ CreateLeaks s.toStore parent name)) ∨
    ∃ s' k index, createNode s parent name mode = (s', some k) ∧
      s.volume.Fileable k (freshInode mode parent).node parent index name ∧
      Becomes s s' (s.volume.file k (freshInode mode parent).node parent index name) True := by
  have hlt := ht.bound parent hp
  rcases createNode_cases h name (show parent < 2 ^ 32 by omega) hm with
    ⟨s', hc, hb, -⟩ | ⟨s', k, hk1, hk2, hfree, hc, hb, -⟩ |
    ⟨s', k, index, hk1, hk2, hfree, hc, hadd, hb⟩
  · refine Or.inl ⟨s', hc, ?_, ?_⟩
    · rw [hb.volume]
      exact ⟨rfl, fun _ _ => rfl, fun _ _ => rfl, fun _ _ _ => ⟨rfl, rfl⟩⟩
    · rw [hb.volume]
      exact hb.mono fun _ => trivial
  · have hne : parent ≠ k := by
      rintro rfl
      exact absurd hp (by rw [show s.volume.ibit parent = false from hfree]; simp)
    refine Or.inl ⟨s', hc, ?_, ?_⟩
    · rw [hb.volume]
      exact Volume.sameTree_of_unused rfl hfree fun n hn =>
        (Volume.sameAt_setNode hn _).trans (Volume.sameAt_clear hn)
    · rw [hb.volume]
      exact hb.mono fun hno => ⟨hne, fun hleak => hno ⟨⟨k, hk1, hk2, hfree⟩, hleak⟩⟩
  · exact Or.inr ⟨s', k, index, hc,
      hadd.fileable ht hk1 hk2 hfree hp hm rfl rfl hgood hnul, hb.mono fun _ => hp⟩

variable {cwd : Nat} {path : Option CStr}

/-- An unlink that goes ahead takes a leaf of the tree away. -/
theorem Unlinkable.prunable {path : List UInt8} {parent k : Nat} {name : List UInt8}
    (h : Unlinkable s cwd path parent name k) (hp : s.volume.ibit parent = true) :
    ∃ j e, s.volume.Prunable k parent j e ∧ cstr e.name = cstr name ∧
      scan (s.volume.entry parent) (named name) (s.volume.count parent) 0 = .found j e := by
  obtain ⟨j, e, hn, hk, hname, hs⟩ := Volume.lookup_names hp h.found
  refine ⟨j, e, ⟨hn, hk, fun i e' hchild => ?_⟩, hname, hs⟩
  have hv := h.vacant hchild.dir
  unfold Volume.vacant at hv
  split at hv
  · next hended =>
    obtain ⟨e'', he'', hdead⟩ := scan_ended hended i (by omega) (by have := hchild.lt; omega)
    rw [hchild.entry] at he''
    rw [← Option.some.inj he''] at hdead
    exact absurd (live_iff.mpr hchild.live) (by rw [hdead]; simp)
  · cases hv

theorem unlinkInode_tree (h : s.Sound) (ht : s.volume.Tree)
    {path : List UInt8} {parent k : Nat} {name : List UInt8}
    (hu : Unlinkable s cwd path parent name k) (hp : s.volume.ibit parent = true) :
    ∃ s' j e, unlinkInode s parent name k (s.table k) = (s', true) ∧
      s.volume.Prunable k parent j e ∧ cstr e.name = cstr name ∧
      Becomes s s' (s.volume.prune k parent j) True := by
  obtain ⟨j, e, hprune, hname, hs⟩ := hu.prunable hp
  have hsame : ((s.volume.clear k).setNode k Node.zero).SameAt s.volume parent :=
    (Volume.sameAt_setNode hprune.ne _).trans (Volume.sameAt_clear hprune.ne)
  have hlt := ht.bound parent hprune.names.used
  rcases unlinkInode_cases h hu.pos hu.lt parent name with
    ⟨s', hc, hnot, hb⟩ | ⟨s', j', e', hc, -, hfound, hb⟩
  · -- the name was there a moment ago and nobody touched the directory
    have hnone := hnot hlt j e
    rw [hsame.entry, hsame.count] at hnone
    exact absurd hs hnone
  · rw [hsame.entry, hsame.count, hs] at hfound
    cases hfound
    exact ⟨s', j, e, hc, hprune, hname, hb⟩

/-! ## The calls -/

/-- A call that adds a name does not run into the leak of `dir_add`. -/
def NoLeak (s : FsSt) (cwd : Nat) (path : List UInt8) : Prop :=
  ∀ parent name, s.volume.resolveParent cwd path = some (parent, name) →
    ¬ CreateLeaks s.toStore parent name

theorem minifsMkdir_tree (h : s.Sound) (ht : s.volume.Tree)
    (hr : s.volume.Rooted cwd (pathBytes path)) :
    ∃ V, Becomes s (minifsMkdir s cwd path).1 V (NoLeak s cwd (pathBytes path)) ∧
      ∀ gone, s.volume.Persists V gone := by
  rcases minifsMkdir_cases s cwd path with ⟨b, hc, -⟩ | ⟨b, parent, name, htarget, hc⟩
  · rw [hc]
    exact ⟨_, Becomes.refl h b _, fun _ => ht.refl⟩
  rw [hc]
  obtain ⟨hgood, hnul⟩ := Volume.resolveParent_name (pathBytes_noNul path) htarget
  have hp := ht.resolveParent_used hr htarget
  rcases @createNode_tree (s.withBuffer b) h ht parent 2 name hp (by decide) hgood hnul with
    ⟨s', hcreate, hsame, hb⟩ | ⟨s', k, index, hcreate, hfile, hb⟩
  · rw [hcreate]
    exact ⟨_, hb.withBuffer.mono fun hno => hno parent name htarget, fun _ => hsame.persists ht⟩
  · rw [hcreate]
    exact ⟨_, hb.withBuffer.mono fun _ => trivial, fun _ => hfile.persists ht⟩

theorem openTarget_tree (h : s.Sound) (ht : s.volume.Tree) {path : List UInt8} (hnul : 0 ∉ path)
    (hr : s.volume.Rooted cwd path) (flags : BitVec 32) :
    ∃ s1 r V, openTarget s cwd path flags = (s1, r) ∧ Becomes s s1 V
        (wantsCreate flags = true → s.volume.resolve cwd path = none → NoLeak s cwd path) ∧
      (∀ gone, s.volume.Persists V gone) ∧ ∀ n, r = some n → V.ibit n = true := by
  rcases openTarget_cases s cwd path flags with
    ⟨b, hc, -⟩ | ⟨b, parent, name, hwants, hnone, htarget, hc⟩
  · exact ⟨_, _, _, hc, Becomes.refl h b _, fun _ => ht.refl, fun n hn => ht.resolve_used hr hn⟩
  obtain ⟨hgood, hnul⟩ := Volume.resolveParent_name hnul htarget
  have hp := ht.resolveParent_used hr htarget
  rcases @createNode_tree (s.withBuffer b) h ht parent 1 name hp (by decide) hgood hnul with
    ⟨s', hcreate, hsame, hb⟩ | ⟨s', k, index, hcreate, hfile, hb⟩
  · exact ⟨s', none, _, hc.trans hcreate,
      hb.withBuffer.mono fun hno => hno hwants hnone parent name htarget,
      fun _ => hsame.persists ht, fun n hn => by cases hn⟩
  · refine ⟨s', some k, _, hc.trans hcreate, hb.withBuffer.mono fun _ => trivial,
      fun _ => hfile.persists ht, fun n hn => ?_⟩
    cases hn
    exact (Volume.file_used_iff k).mpr (Or.inl rfl)

theorem openTruncate_tree (h : s.Sound) (ht : s.volume.Tree) {n : Nat} (flags : BitVec 32)
    (hn : s.volume.ibit n = true) :
    ∃ s1 r V, openTruncate s n flags = (s1, r) ∧ Becomes s s1 V True ∧
      (∀ gone, s.volume.Persists V gone) ∧
      (r.isSome → n < 256 ∧ V.ibit n = true ∧ (V.node n).IsFile) := by
  rcases openTruncate_cases h n flags with
    ⟨b, hc, -⟩ | ⟨b, hlt, hfile, -, hc⟩ | ⟨s', hlt, hfile, -, hc, hb⟩
  · exact ⟨_, _, _, hc, Becomes.refl h b _, fun _ => ht.refl, fun hr => by cases hr⟩
  · exact ⟨_, _, _, hc, Becomes.refl h b _, fun _ => ht.refl, fun _ => ⟨hlt, hn, hfile⟩⟩
  · have hsame : s.volume.SameTree
        ((s.volume.clear n).setNode n { s.volume.node n with size := 0 }) :=
      Volume.sameTree_of_file rfl hfile (by simp) (by simp) fun m hm =>
        (Volume.sameAt_setNode hm _).trans (Volume.sameAt_clear hm)
    have hpers : s.volume.Persists _ fun _ => False := hsame.persists ht
    exact ⟨s', _, _, hc, hb, fun _ => hsame.persists ht,
      fun _ => ⟨hlt, hpers.used hn id, (hpers.isFile hn id).mpr hfile⟩⟩

/-- `minifsOpen` in a tree: the store after it, and whether a descriptor for a
regular file in use was installed. -/
theorem minifsOpen_tree (h : s.Sound) (ht : s.volume.Tree) (pid : Int)
    (hr : s.volume.Rooted cwd (pathBytes path)) (flags : BitVec 32) :
    ∃ s' V, Becomes s s' V (findProcess s.toFdTables pid ≠ none → badFlags flags = false →
          wantsCreate flags = true → s.volume.resolve cwd (pathBytes path) = none →
          NoLeak s cwd (pathBytes path)) ∧
      (∀ gone, s.volume.Persists V gone) ∧
      ((minifsOpen s pid cwd path flags).1 = s' ∨
        ∃ p n size, findProcess s.toFdTables pid = some p ∧ n < 256 ∧ V.ibit n = true ∧
          (V.node n).IsFile ∧
          minifsOpen s pid cwd path flags =
            (s'.onTables (openInstall s'.toFdTables p n size flags).1,
              (openInstall s'.toFdTables p n size flags).2)) := by
  rcases minifsOpen_cases s pid cwd path flags with ⟨hc, -⟩ | ⟨p, hfind, hflags, hc⟩
  · rw [hc]
    exact ⟨s, s.volume, Becomes.refl h s.blockBuffer _, fun _ => ht.refl, Or.inl rfl⟩
  obtain ⟨s1, r, V, htarget, hb, hpers, hused⟩ :=
    openTarget_tree h ht (pathBytes_noNul path) hr flags
  replace hb := hb.mono fun hok : findProcess s.toFdTables pid ≠ none → badFlags flags = false →
    wantsCreate flags = true → s.volume.resolve cwd (pathBytes path) = none →
      NoLeak s cwd (pathBytes path) => hok (by rw [hfind]; exact Option.some_ne_none p) hflags
  rw [htarget] at hc
  rcases hc with ⟨_, heq, hc⟩ | ⟨_, n, heq, hc⟩
  · cases heq
    rw [hc]
    exact ⟨s1, V, hb, hpers, Or.inl rfl⟩
  cases heq
  have hn : s1.volume.ibit n = true := by
    rw [hb.volume]
    exact hused n rfl
  have ht1 : s1.volume.Tree := by
    rw [hb.volume]
    exact (hpers fun _ => False).tree
  obtain ⟨s2, r, V2, htrunc, hb2, hpers2, hfile⟩ :=
    openTruncate_tree hb.sound ht1 flags hn
  rw [hb.volume] at hpers2
  rw [htrunc] at hc
  have hpers' : ∀ gone, s.volume.Persists V2 gone := fun gone =>
    ((hpers gone).trans (hpers2 gone)).mono fun _ hg => hg.elim id id
  have hb' := (hb.trans hb2).mono fun hok => ⟨hok, trivial⟩
  rcases hc with ⟨_, heq, hc⟩ | ⟨_, inode, heq, hc⟩
  · cases heq
    rw [hc]
    exact ⟨s2, V2, hb', hpers', Or.inl rfl⟩
  · cases heq
    obtain ⟨hlt, hV2, hf⟩ := hfile rfl
    exact ⟨s2, V2, hb', hpers', Or.inr ⟨p, n, inode.size, hfind, hlt, hV2, hf, hc⟩⟩

theorem minifsUnlink_tree (h : s.Sound) (ht : s.volume.Tree)
    (hr : s.volume.Rooted cwd (pathBytes path)) :
    ((∃ b, minifsUnlink s cwd path = (s.withBuffer b, false)) ∧
      ∀ parent name k, ¬ Unlinkable s cwd (pathBytes path) parent name k) ∨
    ∃ s' parent name k j e, Unlinkable s cwd (pathBytes path) parent name k ∧
      minifsUnlink s cwd path = (s', true) ∧ s.volume.Prunable k parent j e ∧
      Becomes s s' (s.volume.prune k parent j) True := by
  rcases minifsUnlink_cases s cwd path with hc | ⟨b, parent, name, k, hu, hc⟩
  · exact Or.inl hc
  · have hu' : Unlinkable (s.withBuffer b) cwd (pathBytes path) parent name k :=
      ⟨hu.target, hu.found, hu.pos, hu.lt, hu.closed, hu.vacant⟩
    obtain ⟨s', j, e, hunlink, hprune, -, hb⟩ :=
      @unlinkInode_tree (s.withBuffer b) _ h ht _ _ _ _ hu' (ht.resolveParent_used hr hu.target)
    exact Or.inr ⟨s', parent, name, k, j, e, hu, hc.trans hunlink, hprune, hb.withBuffer⟩

/-- A write changes the size and the blocks of a regular file. -/
theorem Wrote.sameTree {i : Fin 64} {buf : Region} {length done : Nat} {s' : FsSt}
    (h : Wrote s i buf length s' done) : s.volume.SameTree s'.volume := by
  obtain ⟨s1, -, -, hb⟩ := h.becomes
  rw [hb.volume]
  refine Volume.sameTree_of_file rfl h.file (by simp) (by simp) fun m hm => ?_
  refine (Volume.sameAt_setNode hm _).trans ⟨rfl, funext fun j => ?_⟩
  rw [Volume.writeBytes_block, if_neg fun hk => hm hk.1]

end MiniOs.Fs
