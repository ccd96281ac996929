import MiniOs.Proofs.Calls
import MiniOs.Proofs.Space

/-!
# What was staged is what the kernel sees

The builder and the kernel share no code. That they agree is shown on the volume
in between: `Import.lean` says the builder's volume holds the staged tree,
`Mount.lean` that the kernel mounts that volume, and here the kernel's readers
are run on it. A path of staged names is walked one lookup at a time, each of
which finds the one entry of that name; a file is read block by block; a
directory is listed entry by entry.

The builder sorts every directory before it imports it. Sorting changes the
order of the entries and nothing that a path or a set of names can tell.
-/

namespace MiniOs.Tools

open MiniOs.Lib MiniOs.Fs MiniOs.Spec

/-! ## Sorting -/

theorem stagedChild_insert {name : HostName} {node : HostNode} {x : List UInt8} :
    ∀ {dir : HostDir}, name.bytes ∉ dir.names → stagedChild x (HostDir.insert name node dir) =
        if name.bytes = x then some node else stagedChild x dir
  | .nil, _ => rfl
  | .cons name' node' rest, h => by
      simp only [HostDir.names, List.mem_cons, not_or] at h
      rw [HostDir.insert]
      split
      · rfl
      · simp only [stagedChild]
        rw [stagedChild_insert h.2]
        by_cases hx : name'.bytes = x
        · rw [if_pos hx, if_pos hx, if_neg fun heq => h.1 (heq.trans hx.symm)]
        · rw [if_neg hx, if_neg hx]

theorem stagedChild_sort {x : List UInt8} {dir : HostDir} (h : dir.Legal) :
    stagedChild x dir.sort = (stagedChild x dir).map HostNode.sort := by
  cases dir with
  | nil => rfl
  | cons name node rest =>
    obtain ⟨-, hnot, -, hrest⟩ := h
    rw [HostDir.sort, stagedChild_insert (by rwa [mem_names_sort]), stagedChild_sort hrest,
      stagedChild]
    split <;> rfl

theorem stagedMode_sort (node : HostNode) : stagedMode node.sort = stagedMode node := by
  cases node with
  | symlink => rfl
  | dir children => rfl
  | other => rfl
  | file data exec => rfl

theorem stagedChild_legal {x : List UInt8} {node : HostNode} :
    ∀ {dir : HostDir}, dir.Legal → stagedChild x dir = some node →
      (∃ name : HostName, name.bytes = x ∧ name.Legal) ∧ node.Legal
  | .cons name node' rest, ⟨hname, _, hnode, hrest⟩, hfind => by
      rw [stagedChild] at hfind
      split at hfind
      · next hx =>
        cases hfind
        exact ⟨⟨name, hx, hname⟩, hnode⟩
      · exact stagedChild_legal hrest hfind

theorem stagedAt_sort {path : List (List UInt8)} :
    ∀ {node : HostNode}, node.Legal →
      stagedAt node.sort path = (stagedAt node path).map HostNode.sort := by
  induction path with
  | nil => exact fun _ => rfl
  | cons name rest ih =>
    intro node hlegal
    cases node with
    | symlink => rfl
    | dir children =>
      have hchild := @stagedChild_sort name children hlegal
      simp only [HostNode.sort, stagedAt, hchild]
      cases hfind : stagedChild name children with
      | none => rfl
      | some node' => exact ih (stagedChild_legal hlegal hfind).2
    | other => rfl
    | file data exec => rfl

theorem stagedAt_legal {path : List (List UInt8)} {node' : HostNode} :
    ∀ {node : HostNode}, node.Legal → stagedAt node path = some node' → node'.Legal := by
  induction path with
  | nil =>
    intro node hlegal hat
    cases hat
    exact hlegal
  | cons name rest ih =>
    intro node hlegal hat
    cases node with
    | symlink => cases hat
    | dir children =>
      rw [stagedAt] at hat
      split at hat
      · cases hat
      · next hfind => exact ih (stagedChild_legal hlegal hfind).2 hat
    | other => cases hat
    | file data exec => cases hat

theorem stagedList_insert {name : HostName} {node : HostNode} {dir : HostDir} :
    (stagedList (HostDir.insert name node dir)).Perm
      ((name.bytes, stagedMode node) :: stagedList dir) := by
  cases dir with
  | nil => exact .refl _
  | cons name' node' rest =>
    rw [HostDir.insert]
    split
    · exact .refl _
    · exact (.trans (.cons _ stagedList_insert) (.swap _ _ _))

theorem stagedList_sort (dir : HostDir) : (stagedList dir.sort).Perm (stagedList dir) := by
  cases dir with
  | nil => exact .refl _
  | cons name node rest =>
    rw [HostDir.sort]
    refine stagedList_insert.trans ?_
    rw [stagedMode_sort]
    exact (stagedList_sort rest).cons _

end MiniOs.Tools

namespace MiniOs.Spec

open MiniOs.Lib MiniOs.Fs MiniOs.Tools

/-! ## The readers on a volume that holds a tree -/

section Readers

variable {V : Volume} {n : Nat}

theorem HoldsNode.names {children : HostDir} {name : List UInt8} {node : HostNode}
    (ht : V.Tree) (h : HoldsNode V n (.dir children)) (hnul : 0 ∉ name)
    (hfind : stagedChild name children = some node) :
    ∃ k, V.lookup n name = some k ∧ name.length ≤ 55 ∧ HoldsNode V k node := by
  obtain ⟨hused, hmode, hsize, hdir⟩ := h
  obtain ⟨hlen, j, k, -, hj, -, hentry, hnode⟩ := hdir.child hfind
  have hcount : V.count n = children.names.length := by
    simp only [Volume.count, hsize]
    omega
  have hk := ht.bound k hnode.used
  have hnames : V.Names n j (record k (stagedMode node) name) := by
    refine ⟨hused, ?_, by omega, hentry, ?_⟩
    · simp only [Node.IsDir, hmode]
      decide
    · show k ≠ 0xffffffff
      omega
  refine ⟨k, ht.lookup_some hnames ?_, hlen, hnode⟩
  rw [show cstr (record k (stagedMode node) name).name = name from
    Dirent.cstr_name hlen hnul, cstr_of_noNul hnul]

/-- A staged path is walked to what is staged there. -/
theorem HoldsNode.walk (ht : V.Tree) {path : List (List UInt8)} :
    ∀ {n : Nat} {node node' : HostNode}, node.Legal → HoldsNode V n node →
      stagedAt node path = some node' →
      ∃ k, V.walk n path = some k ∧ HoldsNode V k node' := by
  induction path with
  | nil =>
    intro n node node' _ h hat
    cases hat
    have hn := ht.bound n h.used
    exact ⟨n, asInt_of_lt (by omega), h⟩
  | cons name rest ih =>
    intro n node node' hlegal h hat
    cases node with
    | symlink => cases hat
    | other => cases hat
    | file data exec => cases hat
    | dir children =>
      rw [stagedAt] at hat
      cases hfind : stagedChild name children with
      | none =>
        rw [hfind] at hat
        cases hat
      | some child =>
        rw [hfind] at hat
        obtain ⟨⟨host, hhost, -, hnul, -, hdot, hdots⟩, hchild⟩ :=
          stagedChild_legal hlegal hfind
        rw [hhost] at hnul hdot hdots
        obtain ⟨k, hlookup, hlen, hnode⟩ := h.names ht hnul hfind
        have hne : ∀ other : List UInt8, 0 ∉ other → name ≠ other →
            strEqual name other = false := by
          intro other hother hne
          refine eq_false_of_ne_true fun heq => hne ?_
          rwa [strEqual_iff, cstr_of_noNul hnul, cstr_of_noNul hother] at heq
        obtain ⟨k', hwalk, hholds⟩ := ih hchild hnode hat
        refine ⟨k', ?_, hholds⟩
        rw [Volume.walk, if_neg (by omega), hne [dot] (by decide) hdot,
          hne [dot, dot] (by decide) hdots, hlookup]
        exact hwalk

/-- A staged file is read back whole. -/
theorem HoldsNode.pread {data : List UInt8} {exec : Bool} (ht : V.Tree)
    (h : HoldsNode V n (.file data exec)) : V.pread n 0 data.length = some data := by
  obtain ⟨hused, hmode, hsize, hbytes⟩ := h
  have hfile : (V.node n).IsFile := by
    simp only [Node.IsFile, hmode, stagedMode]
    cases exec <;> decide
  have hread : ∀ p ∈ List.range' 0 data.length, V.byte n p = some (data.getD p 0) := by
    intro p hp
    have hlt := (List.mem_range'_1.mp hp).2
    rw [hbytes p, paddedByte_of_lt (by omega)]
  rw [Volume.pread, if_pos ⟨ht.bound n hused, hfile⟩, hsize, Nat.sub_zero, Nat.min_self,
    mapM_of_some hread]
  congr 1
  refine List.ext_getElem (by simp) fun i h1 h2 => ?_
  simp [List.getElem?_eq_getElem h2]

/-- A staged directory is listed in the order it was imported. -/
theorem HoldsDir.list (ht : V.Tree) {dir : HostDir} :
    ∀ {i room : Nat}, dir.Legal → HoldsDir V n i dir → dir.names.length ≤ room →
      ∃ entries, V.listFrom n dir.names.length i room = some entries ∧
        entries.map (fun e => (cstr e.name, e.mode)) = stagedList dir := by
  cases dir with
  | nil => exact fun _ _ _ => ⟨[], rfl, rfl⟩
  | cons name node rest =>
    intro i room hlegal h hroom
    obtain ⟨hname, -, -, hrestLegal⟩ := hlegal
    obtain ⟨⟨hlen, k, -, hentry, hnode⟩, hrest⟩ := h
    simp only [HostDir.names, List.length_cons] at hroom
    obtain ⟨entries, hlist, hmap⟩ := HoldsDir.list ht hrestLegal hrest
      (show rest.names.length ≤ room - 1 by omega)
    have hk := ht.bound k hnode.used
    have hlive : (record k (stagedMode node) name.bytes).Live := by
      show k ≠ 0xffffffff
      omega
    refine ⟨record k (stagedMode node) name.bytes :: entries, ?_, ?_⟩
    · simp only [HostDir.names, List.length_cons, Volume.listFrom]
      rw [if_neg (by omega), hentry]
      dsimp only
      rw [if_pos hlive, hlist]
      rfl
    · rw [List.map_cons, hmap, stagedList]
      congr 2
      exact Dirent.cstr_name hlen hname.2.1

end Readers

end MiniOs.Spec

namespace MiniOs.Fs

open MiniOs.Lib MiniOs.Spec

theorem minifsGetdents_dir {s : FsSt} {cwd n : Nat} {path : CStr} {capacity : Int}
    (hpath : path.bytes ≠ []) (hn : s.volume.resolve cwd path.bytes = some n) (hlt : n < 256)
    (hdir : (s.table n).mode &&& 0xff ≠ 1) (hcap : 0 ≤ capacity) :
    (minifsGetdents s cwd (some path) capacity).2 =
      s.volume.listFrom n (s.volume.count n) 0 capacity.toNat := by
  obtain ⟨b, hb⟩ := resolve_eq s cwd path.bytes
  obtain ⟨c, hc⟩ := readInode_eq (s.withBuffer b) n
  obtain ⟨d, hd⟩ := getdentsLoop_eq n capacity.toNat (s.volume.count n) 0 0
    ((s.withBuffer b).withBuffer c)
  rw [hn] at hb
  rw [minifsGetdents, if_neg (show ¬ pathBytes (some path) = [] from hpath),
    show resolve s cwd (pathBytes (some path)) = _ from hb]
  dsimp only
  rw [if_neg (by omega), hc, if_pos hlt]
  dsimp only
  rw [if_neg (show ¬ (inodeAt (s.withBuffer b).disk n).mode &&& 0xff = 1 from hdir)]
  exact congrArg Prod.snd hd

end MiniOs.Fs

namespace MiniOs.Tools

open MiniOs.Lib MiniOs.Fs MiniOs.Spec

/-- The volume of an image holds its staging directory. -/
theorem Image.holds (img : Image) :
    HoldsNode img.builder.volume 0 (HostNode.dir img.tree.root).sort := by
  obtain ⟨himported, hdir⟩ := img.imported
  refine ⟨himported.tree.rootUsed, ?_, ?_, hdir⟩
  · exact himported.mode
  · exact himported.size.trans (Nat.zero_add _)

theorem Image.mount_at (img : Image) (slot : Disk) (s0 : FsSt) {path : CStr} {node : HostNode}
    (hne : path.bytes ≠ []) (hlen : path.bytes.length ≤ 255)
    (hat : stagedAt (.dir img.tree.root) (components path.bytes) = some node) :
    ∃ n, (img.mount slot s0).volume.resolve 0 path.bytes = some n ∧
      HoldsNode (img.mount slot s0).volume n node.sort := by
  have hsort := @stagedAt_sort (components path.bytes) (.dir img.tree.root) img.tree.legal
  rw [hat] at hsort
  have hlegal : (HostNode.dir img.tree.root).sort.Legal := img.tree.legal.sort
  rw [img.mount_volume]
  obtain ⟨n, hwalk, hnode⟩ := img.holds.walk img.imported.1.tree hlegal hsort
  refine ⟨n, ?_, hnode⟩
  rw [Volume.resolve, if_neg (not_or.mpr ⟨hne, by omega⟩), ite_self]
  exact hwalk

/-- The kernel accepts every image and finds in it what was staged: a file with
its bytes, a directory with its children, and nothing else. -/
theorem Image.mount_agrees (img : Image) (slot : Disk) (s₀ : FsSt) :
    (minifsInit { s₀ with disk := img.disk slot }).2 = true ∧
      ∀ (path : CStr) (node : HostNode), path.bytes ≠ [] → path.bytes.length ≤ 255 →
        stagedAt (.dir img.tree.root) (components path.bytes) = some node →
        ∃ n, (resolve (img.mount slot s₀) 0 path.bytes).2 = some n ∧
          ((img.mount slot s₀).table n).mode = stagedMode node ∧
          match node with
          | .file data _ =>
            ((img.mount slot s₀).table n).size = data.length ∧
              (minifsPread (img.mount slot s₀) n 0 data.length).2 = some data
          | .dir children =>
            ∀ capacity : Int, (stagedList children).length ≤ capacity →
              ∃ entries, (minifsGetdents (img.mount slot s₀) 0 (some path) capacity).2 =
                  some entries ∧
                (entries.map fun e => (cstr e.name, e.mode)).Perm (stagedList children)
          | _ => False := by
  refine ⟨img.mount_accepted slot s₀, fun path node hne hlen hat => ?_⟩
  have ht := img.mount_tree slot s₀
  obtain ⟨n, hresolve, hnode⟩ := img.mount_at slot s₀ hne hlen hat
  have hmode : ((img.mount slot s₀).table n).mode = stagedMode node :=
    hnode.mode.trans (stagedMode_sort node)
  refine ⟨n, ?_, hmode, ?_⟩
  · obtain ⟨b, hb⟩ := resolve_eq (img.mount slot s₀) 0 path.bytes
    rw [hb]
    exact hresolve
  cases node with
  | symlink => exact hnode
  | other => exact hnode
  | file data exec =>
    obtain ⟨b, hb⟩ := minifsPread_eq (img.mount slot s₀) n 0 data.length
    refine ⟨hnode.2.2.1, ?_⟩
    rw [hb]
    exact HoldsNode.pread ht hnode
  | dir children =>
    intro capacity hcap
    obtain ⟨hused, -, hsize, hdir⟩ := hnode
    have hperm := stagedList_sort children
    have hcount : (img.mount slot s₀).volume.count n = children.sort.names.length := by
      rw [Volume.count, hsize]
      omega
    have hroom : children.sort.names.length ≤ capacity.toNat := by
      rw [← length_stagedList, hperm.length_eq]
      omega
    have hnotFile : ((img.mount slot s₀).table n).mode &&& 0xff ≠ 1 := by
      rw [hmode]
      exact (by decide : 2 &&& 0xff ≠ 1)
    have hlegal := (@stagedAt_legal _ _ (.dir img.tree.root) img.tree.legal hat).sort
    obtain ⟨entries, hlist, hmap⟩ := hdir.list ht hlegal hroom
    refine ⟨entries, ?_, hmap ▸ hperm⟩
    rw [minifsGetdents_dir hne hresolve (ht.bound n hused) hnotFile (by omega), hcount]
    exact hlist

/-- A staging directory with a file `a` of two bytes. -/
def stagedFile : StagedTree where
  root := .cons ⟨[97], true⟩ (.file [104, 105] false) .nil
  legal := ⟨by unfold HostName.Legal; decide, List.not_mem_nil, trivial, trivial⟩

theorem stagedFile_fits : stagedFile.Fits where
  storable := ⟨⟨rfl, by decide⟩, show 2 ≤ 65536 by decide, trivial⟩
  inodes := by decide
  blocks := by decide

theorem stagedFile_mounted {img : Image} (htree : img.tree = stagedFile) (slot : Disk)
    (s₀ : FsSt) : ∃ n, n < 256 ∧ (img.mount slot s₀).volume.resolve 0 [slash, 97] = some n ∧
      ((img.mount slot s₀).volume.node n).IsFile ∧
      HoldsNode (img.mount slot s₀).volume n (.file [104, 105] false) := by
  obtain ⟨n, hresolve, hnode⟩ := @Image.mount_at img slot s₀ ⟨[slash, 97], by decide⟩
    (.file [104, 105] false) (by decide) (by decide) (by rw [htree]; rfl)
  refine ⟨n, (img.mount_tree slot s₀).bound n hnode.used, hresolve, ?_, hnode⟩
  rw [Node.IsFile, hnode.mode]
  decide

theorem Image.mount_agrees_file :
    ∃ img : Image, img.tree = stagedFile ∧
      ∃ n, (resolve (img.mount bareSlot boot) 0 [slash, 97]).2 = some n ∧
        (minifsPread (img.mount bareSlot boot) n 0 2).2 = some [104, 105] := by
  obtain ⟨img, htree, -⟩ := importTree_fits stagedFile_fits
  refine ⟨img, htree, ?_⟩
  obtain ⟨n, hresolve, -, -, hread⟩ := (img.mount_agrees bareSlot boot).2
    ⟨[slash, 97], by decide⟩ (.file [104, 105] false) (by decide) (by decide)
    (by rw [htree]; rfl)
  exact ⟨n, hresolve, hread⟩

end MiniOs.Tools
