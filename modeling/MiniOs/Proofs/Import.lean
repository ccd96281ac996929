import MiniOs.Proofs.Mkfs
import MiniOs.Spec.Staged

/-!
# Importing a staging directory

`import_tree` files one inode per staged name and recurses. On the volume that is
`Volume.file`, the same step the kernel's `create_node` makes, so the tree
invariant comes from the same lemma. `Imported` is the frame that goes with it:
importing into a directory adds entries behind the ones it has and leaves every
other inode that was in use alone.

Whether a tree fits can be told from the tree: `blocks` and `inodes` count what
it takes, `Added` says that this much was taken, and an import that fails had
less.
-/

namespace MiniOs.Tools

open MiniOs.Lib MiniOs.Fs MiniOs.Spec Function

/-! ## What a tree takes -/

mutual
/-- The blocks of a node and of all below it. -/
def HostNode.blocks : HostNode → Nat
  | .symlink => 0
  | .dir children => blocksFor (64 * children.names.length) + children.blocks
  | .other => 0
  | .file data _ => blocksFor data.length
/-- The blocks of the children of a directory. -/
def HostDir.blocks : HostDir → Nat
  | .nil => 0
  | .cons _ node rest => node.blocks + rest.blocks
end

mutual
/-- The inodes of a node and of all below it. -/
def HostNode.inodes : HostNode → Nat
  | .symlink => 1
  | .dir children => 1 + children.inodes
  | .other => 1
  | .file _ _ => 1
def HostDir.inodes : HostDir → Nat
  | .nil => 0
  | .cons _ node rest => node.inodes + rest.inodes
end

mutual
/-- Nothing in the tree is refused whatever space there is. -/
def HostNode.Storable : HostNode → Prop
  | .symlink => False
  | .dir children => children.Storable
  | .other => False
  | .file data _ => data.length ≤ 65536
def HostDir.Storable : HostDir → Prop
  | .nil => True
  | .cons name node rest =>
    (name.utf8 = true ∧ name.bytes.length ≤ 55) ∧ node.Storable ∧ rest.Storable
end

namespace Builder

/-! ## Files on a volume -/

/-- A file written in one piece where there was nothing. -/
theorem byte_writeFile {V : Volume} {n : Nat} (h : ∀ j, V.block n j = none) (data : List UInt8)
    (p : Nat) :
    (V.writeBytes n 0 (bytesOf data) data.length).byte n p = paddedByte data p := by
  have hnone : V.byte n p = none := by rw [Volume.byte, h, Option.map_none]
  rw [Volume.byte_writeBytes, hnone, Option.getD_none, Nat.zero_add, Nat.sub_zero, paddedByte]
  by_cases hin : p < data.length
  · rw [if_pos ⟨Nat.zero_le p, hin⟩, if_pos (by omega), bytesOf]
  · rw [if_neg fun h => hin h.2]
    refine if_congr ?_ ?_ rfl
    · unfold Volume.Touches
      omega
    · rw [List.getD_eq_default _ _ (by omega)]

/-- What importing `count` entries into `parent` did. -/
structure Imported (b b' : Builder) (parent count : Nat) : Prop where
  ok : b'.Ok
  tree : b'.volume.Tree
  used : ∀ m, b.inodeUsed m = true → b'.inodeUsed m = true
  same : ∀ m, b.inodeUsed m = true → m ≠ parent → b'.volume.SameAt b.volume m
  entries : ∀ i, i < b.volume.count parent → b'.volume.entry parent i = b.volume.entry parent i
  mode : (b'.volume.node parent).mode = (b.volume.node parent).mode
  size : (b'.volume.node parent).size = (b.volume.node parent).size + 64 * count

section Imported

variable {b b₁ b₂ : Builder} {parent m n : Nat}

theorem Imported.count (h : Imported b b₁ parent m) :
    b₁.volume.count parent = b.volume.count parent + m := by
  unfold Volume.count
  rw [h.size]
  omega

theorem Imported.refl (h : b.Ok) (ht : b.volume.Tree) : Imported b b parent 0 :=
  ⟨h, ht, fun _ h => h, fun _ _ _ => ⟨rfl, rfl⟩, fun _ _ => rfl, rfl, rfl⟩

theorem Imported.trans (h1 : Imported b b₁ parent m) (h2 : Imported b₁ b₂ parent n) :
    Imported b b₂ parent (m + n) where
  ok := h2.ok
  tree := h2.tree
  used k hk := h2.used k (h1.used k hk)
  same k hk hne := (h2.same k (h1.used k hk) hne).trans (h1.same k hk hne)
  entries i hi := by
    rw [h2.entries i (by rw [h1.count]; omega), h1.entries i hi]
  mode := h2.mode.trans h1.mode
  size := by
    rw [h2.size, h1.size]
    omega

/-- What is done to a new inode leaves its directory alone. -/
theorem Imported.below {k : Nat} (h : Imported b b₁ parent m)
    (hp : b.inodeUsed parent = true) (hk : b.inodeUsed k = false) (hok : b₂.Ok)
    (ht : b₂.volume.Tree) (hused : ∀ m, b₁.inodeUsed m = true → b₂.inodeUsed m = true)
    (hother : ∀ m, b₁.inodeUsed m = true → m ≠ k → b₂.volume.SameAt b₁.volume m) :
    Imported b b₂ parent m := by
  have hne : ∀ m, b.inodeUsed m = true → m ≠ k := by
    rintro m hm rfl
    rw [hk] at hm
    cases hm
  have hsame := hother parent (h.used parent hp) (hne parent hp)
  refine ⟨hok, ht, fun j hj => hused j (h.used j hj), fun j hj hjp => ?_, fun i hi => ?_, ?_, ?_⟩
  · exact (hother j (h.used j hj) (hne j hj)).trans (h.same j hj hjp)
  · rw [hsame.entry, h.entries i hi]
  · rw [hsame.1, h.mode]
  · rw [hsame.1, h.size]

/-- What an import leaves alone, for a subtree beside it. -/
theorem Imported.sameAbove (h : Imported b b₁ parent m) : SameAbove parent b.volume b₁.volume :=
  fun k hk hused => ⟨h.used k hused, h.same k hused (by omega)⟩

end Imported

/-- The names a directory can still take. -/
def Fresh (V : Volume) (parent : Nat) (names : List (List UInt8)) : Prop :=
  ∀ i e, V.Names parent i e → cstr e.name ∉ names

/-! ## One entry -/

/-- A builder with inodes `0 .. k - 1` taken, before entry `i` of a directory. -/
structure Ready (b : Builder) (parent i k : Nat) : Prop where
  ok : b.Ok
  tree : b.volume.Tree
  snug : b.Snug
  used : b.inodeUsed parent = true
  dir : (b.volume.node parent).IsDir
  next : ∀ m, b.inodeUsed m = decide (m < k)
  size : (b.inode parent).size = 64 * i
  le : i ≤ k

/-- What importing `count` entries from `i` on did and took. -/
structure Added (b b' : Builder) (parent i k count inodes blocks : Nat) : Prop
    extends Imported b b' parent count where
  snug : b'.Snug
  next : ∀ m, b'.inodeUsed m = decide (m < k + inodes)
  free : b'.free + blocks + blocksFor (64 * (i + count)) = b.free + blocksFor (64 * i)

section Added

variable {b b₁ b₂ : Builder} {parent i k : Nat}

theorem Ready.lt (h : b.Ready parent i k) : parent < k := by
  have hp := h.used
  rw [h.next] at hp
  exact of_decide_eq_true hp

theorem Ready.count (h : b.Ready parent i k) : b.volume.count parent = i := by
  have hsize : (b.volume.node parent).size = 64 * i := h.size
  unfold Volume.count
  omega

theorem Added.ready {count inodes blocks : Nat} (ha : Added b b₁ parent i k count inodes blocks)
    (h : b.Ready parent i k) (hle : count ≤ inodes) :
    b₁.Ready parent (i + count) (k + inodes) where
  ok := ha.ok
  tree := ha.tree
  snug := ha.snug
  used := ha.used parent h.used
  dir := by
    unfold Node.IsDir
    rw [ha.mode]
    exact h.dir
  next := ha.next
  size := by
    have hadded : (b₁.inode parent).size = (b.inode parent).size + 64 * count := ha.size
    rw [hadded, h.size, Nat.mul_add]
  le := Nat.add_le_add h.le hle

theorem Added.cons {count n₁ n₂ c₁ c₂ : Nat} (h1 : Added b b₁ parent i k 1 n₁ c₁)
    (h2 : Added b₁ b₂ parent (i + 1) (k + n₁) count n₂ c₂) :
    Added b b₂ parent i k (count + 1) (n₁ + n₂) (c₁ + c₂) where
  toImported := Nat.add_comm 1 count ▸ h1.toImported.trans h2.toImported
  snug := h2.snug
  next m := by rw [h2.next, Nat.add_assoc]
  free := by
    have hfirst := h1.free
    have hrest := h2.free
    rw [show i + 1 + count = i + (count + 1) by omega] at hrest
    omega

end Added

/-- A new inode under a new name. -/
theorem fileInode_cases {b : Builder} {parent i k mode : Nat} {name : HostName}
    (h : b.Ready parent i k) (hlegal : name.Legal) (hmode : mode < 2 ^ 32)
    (hfresh : Fresh b.volume parent [name.bytes]) :
    (∃ e, (b.allocInode mode parent = .error e ∨ ∃ b₁, b.allocInode mode parent = .ok (b₁, k) ∧
      b₁.addDirent parent name k mode = .error e) ∧ (name.utf8 = true →
      name.bytes.length ≤ 55 → k < 256 → b.free + blocksFor (64 * i) < blocksFor (64 * (i + 1)))) ∨
    ∃ b₁ b', b.allocInode mode parent = .ok (b₁, k) ∧ b₁.addDirent parent name k mode = .ok b' ∧
      Added b b' parent i k 1 1 0 ∧
      b'.volume.node k = ⟨mode, 0, parent, 1⟩ ∧ (∀ j, b'.volume.block k j = none) ∧
      name.utf8 = true ∧ name.bytes.length ≤ 55 ∧
      b'.volume.entry parent i = some (record k mode name.bytes) := by
  have hbound : parent < 256 := h.tree.bound parent h.used
  have hlt := h.lt
  have hle := h.le
  rcases @allocInode_cases b mode parent k h.ok h.snug hmode (by omega) (by omega) h.next with
    ⟨e, heq, hfull⟩ | ⟨b₁, heq, hk, hok, hs, hused, hvol, hfree⟩
  · exact Or.inl ⟨e, Or.inl heq, fun _ _ hk => absurd hk (by omega)⟩
  have hp : b₁.inodeUsed parent = true := by rw [hused, update_of_ne (by omega), h.used]
  have hsame : b₁.volume.SameAt b.volume parent := by
    rw [hvol]
    exact Volume.plant_sameAt _ _ (by omega)
  rcases @addDirent_cases b₁ parent i k mode name hok hs hp hlegal
    ((congrArg Node.size hsame.1).trans h.size) with
    ⟨e, heq', hbad⟩ | ⟨b₂, heq', hutf8, hlen, hok2, hs2, hused2, hvol2, hfree2⟩
  · refine Or.inl ⟨e, Or.inr ⟨b₁, heq, heq'⟩, fun hutf8 hlen _ => ?_⟩
    have hless := hbad hutf8 hlen (by omega)
    omega
  refine Or.inr ⟨b₁, b₂, heq, heq', ?_⟩
  have hnot : b.inodeUsed k = false := by rw [h.next]; simp
  have hindex := h.count
  have hfile : b.volume.Fileable k ⟨mode, 0, parent, 1⟩ parent i name.bytes := by
    refine ⟨by omega, hk, hnot, h.used, h.dir, hmode, rfl, rfl, ⟨?_, hlen, hlegal.2.2.1,
      hlegal.2.2.2.1, hlegal.2.2.2.2⟩, hlegal.2.1, fun i e hn heq => ?_, Or.inl hindex.symm⟩
    · exact List.length_pos_iff.mpr hlegal.1
    · exact hfresh i e hn (List.mem_singleton.mpr heq)
  have hV : b₂.volume = b.volume.file k ⟨mode, 0, parent, 1⟩ parent i name.bytes := by
    rw [hvol2, hvol]
    rfl
  have huse : ∀ m, b₂.inodeUsed m = true ↔ m = k ∨ b.inodeUsed m = true := by
    intro m
    have hiff := @Volume.file_used_iff b.volume k parent i ⟨mode, 0, parent, 1⟩ name.bytes m
    rw [← hV] at hiff
    exact hiff
  refine ⟨⟨⟨hok2, hV ▸ h.tree.file hfile, fun m hm => (huse m).mpr (Or.inr hm), ?_, ?_, ?_, ?_⟩,
    hs2, fun m => ?_, by omega⟩, hV ▸ hfile.node_new, fun j => by rw [hV, hfile.block_new],
    hutf8, hlen, hV ▸ hfile.entry_new⟩
  · intro m hm hne
    rw [hV]
    refine Volume.file_sameAt ?_ hne
    rintro rfl
    rw [hnot] at hm
    cases hm
  · intro i hi
    rw [hV]
    exact hfile.entry_old h.tree hi (by omega)
  · rw [hV, hfile.node_parent]
  · rw [hV, hfile.node_parent, if_pos hindex.symm]
  · rw [Bool.eq_iff_iff, huse, h.next, decide_eq_true_eq, decide_eq_true_eq]
    omega

/-- The names of a directory once an entry was added at its end. -/
theorem Imported.fresh {b b₁ : Builder} {parent k mode : Nat} {name : HostName}
    {names : List (List UInt8)} (h : Imported b b₁ parent 1) (hp : b.inodeUsed parent = true)
    (hdir : (b.volume.node parent).IsDir)
    (hentry : b₁.volume.entry parent (b.volume.count parent) = some (record k mode name.bytes))
    (hlen : name.bytes.length ≤ 55) (hlegal : name.Legal)
    (hnot : name.bytes ∉ names) (hfresh : Fresh b.volume parent names) :
    Fresh b₁.volume parent names := by
  intro i e hn
  have hlt := hn.lt
  rw [h.count] at hlt
  by_cases hi : i < b.volume.count parent
  · refine hfresh i e ⟨hp, hdir, hi, ?_, hn.live⟩
    rw [← h.entries i hi, hn.entry]
  · have heq : e = record k mode name.bytes := by
      have hentry' := hn.entry
      rw [show i = b.volume.count parent by omega, hentry] at hentry'
      exact (Option.some.inj hentry').symm
    rw [heq, show cstr (record k mode name.bytes).name = name.bytes from
      Dirent.cstr_name hlen hlegal.2.1]
    exact hnot

/-! ## Whole trees -/

mutual
theorem importNode_cases {b : Builder} {parent i k : Nat} {name : HostName}
    (h : b.Ready parent i k) (hlegal : name.Legal) (hfresh : Fresh b.volume parent [name.bytes]) :
    ∀ {node : HostNode}, node.Legal →
      (∃ e, importNode b parent name node = .error e ∧
        (name.utf8 = true → name.bytes.length ≤ 55 → node.Storable → k + node.inodes ≤ 256 →
          b.free + blocksFor (64 * i) < node.blocks + blocksFor (64 * (i + 1)))) ∨
      ∃ b', importNode b parent name node = .ok b' ∧
        Added b b' parent i k 1 node.inodes node.blocks ∧
        (name.utf8 = true ∧ name.bytes.length ≤ 55) ∧ node.Storable ∧
        ∃ c, parent < c ∧ b'.volume.entry parent i = some (record c (stagedMode node) name.bytes) ∧
          HoldsNode b'.volume c node
  | .symlink, _ => Or.inl ⟨_, by rw [importNode], fun _ _ hst => hst.elim⟩
  | .other, _ => Or.inl ⟨_, by rw [importNode], fun _ _ hst => hst.elim⟩
  | .dir children, hnode => by
      have hlt := h.lt
      have hzero : blocksFor (64 * 0) = 0 := rfl
      rw [importNode, HostNode.inodes, HostNode.blocks]
      rcases @fileInode_cases b parent i k 2 name h hlegal (by decide) hfresh with
        ⟨e, hfail, hbad⟩ | ⟨b₀, b₁, halloc, hadd, ha, hk, -, hutf8, hlen, hentry⟩
      · refine Or.inl ⟨e, ?_, fun hutf8 hlen _ hin => ?_⟩
        · rcases hfail with halloc | ⟨b₁, halloc, hadd⟩
          · rw [halloc]
          · simp only [halloc, hadd]
        · have hless := hbad hutf8 hlen (by omega)
          omega
      simp only [halloc, hadd]
      have hfree := ha.free
      have hready : b₁.Ready k 0 (k + 1) :=
        ⟨ha.ok, ha.tree, ha.snug, by rw [ha.next]; simp,
          by rw [hk]; exact (by decide : 2 &&& 0xff = 2), ha.next, congrArg Node.size hk,
          Nat.zero_le _⟩
      have hempty : Fresh b₁.volume k children.names := fun i e hn =>
        absurd hn.lt (by rw [hready.count]; omega)
      rcases importDir_cases hready hnode hempty with ⟨e, hrun, hbad⟩ | ⟨b', hrun, ha', hst, hholds⟩
      · refine Or.inl ⟨e, hrun, fun _ _ hst hin => ?_⟩
        have hless := hbad hst (by omega)
        rw [Nat.zero_add] at hless
        omega
      have hfree' := ha'.free
      rw [Nat.zero_add] at hfree'
      have hnot : b.inodeUsed k = false := by rw [h.next]; simp
      have hsame := ha'.same parent (ha.used parent h.used) (by omega)
      refine Or.inr ⟨b', hrun, ⟨ha.below h.used hnot ha'.ok ha'.tree ha'.used ha'.same, ha'.snug,
        fun m => by rw [ha'.next, Nat.add_assoc], by omega⟩, ⟨hutf8, hlen⟩, hst, k, hlt, ?_,
        ha'.used k hready.used, ?_, ?_, hholds⟩
      · rw [hsame.entry, hentry]
        rfl
      · rw [ha'.mode, hk]
      · rw [ha'.size, hk, Nat.zero_add]
  | .file data exec, _ => by
      have hlt := h.lt
      rw [importNode, stagedMode, HostNode.inodes, HostNode.blocks]
      generalize hmode : (if exec = true then 0x101 else 1) = mode
      have hsmall : mode < 2 ^ 32 ∧ mode &&& 0xff = 1 := by
        rw [← hmode]
        cases exec <;> decide
      rcases @fileInode_cases b parent i k mode name h hlegal hsmall.1 hfresh with
        ⟨e, hfail, hbad⟩ | ⟨b₀, b₁, halloc, hadd, ha, hk, hblank, hutf8, hlen, hentry⟩
      · refine Or.inl ⟨e, ?_, fun hutf8 hlen _ hin => ?_⟩
        · rcases hfail with halloc | ⟨b₁, halloc, hadd⟩
          · rw [halloc]
          · simp only [halloc, hadd]
        · have hless := hbad hutf8 hlen (by omega)
          omega
      simp only [halloc, hadd]
      have hfree := ha.free
      have hused : b₁.inodeUsed k = true := by rw [ha.next]; simp
      rcases @writeFile_cases b₁ k data ha.ok ha.snug hused (congrArg Node.size hk) with
        ⟨e, hrun, hbad⟩ | ⟨b', hrun, hst, hok, hs, hused', hvol, hfree'⟩
      · refine Or.inl ⟨e, hrun, fun _ _ hst _ => ?_⟩
        have hless := hbad hst
        omega
      have hother : ∀ m, m ≠ k → b'.volume.SameAt b₁.volume m := by
        intro m hm
        rw [hvol]
        exact (Volume.sameAt_setNode hm _).trans (Volume.sameAt_writeBytes hm _ _ _)
      have hnode : b'.volume.node k = { b₁.volume.node k with size := data.length } := by
        rw [hvol]
        exact update_self ..
      have hfile : (b₁.volume.node k).IsFile := by
        rw [hk]
        exact hsmall.2
      have htree : b'.volume.Tree := ha.tree.same (Volume.sameTree_of_file hused' hfile
        (by rw [hnode]) (by rw [hnode]) hother)
      have hnot : b.inodeUsed k = false := by rw [h.next]; simp
      refine Or.inr ⟨b', hrun, ⟨ha.below h.used hnot hok htree (fun m hm => hused' ▸ hm)
        fun m _ hm => hother m hm, hs, fun m => by rw [hused', ha.next], by omega⟩,
        ⟨hutf8, hlen⟩, hst, k, hlt, ?_, ?_, ?_, ?_, fun p => ?_⟩
      · rw [(hother parent (by omega)).entry, hentry]
      · exact (congrFun hused' k).trans hused
      · rw [hnode, hk, ← hmode]
        rfl
      · rw [hnode]
      · rw [hvol]
        exact byte_writeFile hblank data p

theorem importDir_cases {b : Builder} {parent i k : Nat} (h : b.Ready parent i k) :
    ∀ {dir : HostDir}, dir.Legal → Fresh b.volume parent dir.names →
      (∃ e, importDir b parent dir = .error e ∧ (dir.Storable → k + dir.inodes ≤ 256 →
        b.free + blocksFor (64 * i) < dir.blocks + blocksFor (64 * (i + dir.names.length)))) ∨
      ∃ b', importDir b parent dir = .ok b' ∧
        Added b b' parent i k dir.names.length dir.inodes dir.blocks ∧ dir.Storable ∧
        HoldsDir b'.volume parent i dir
  | .nil, _, _ =>
      Or.inr ⟨b, by rw [importDir], ⟨Imported.refl h.ok h.tree, h.snug, h.next, rfl⟩, trivial, trivial⟩
  | .cons name node rest, ⟨hname, hnot, hnode, hrest⟩, hfresh => by
      rw [importDir, HostDir.inodes, HostDir.blocks, HostDir.names, List.length_cons]
      have hmono := @blocksFor_mono (64 * (i + 1)) (64 * (i + (rest.names.length + 1))) (by omega)
      have hfresh1 : Fresh b.volume parent [name.bytes] := fun i e hn hmem =>
        hfresh i e hn (by
          rw [List.mem_singleton.mp hmem]
          exact List.mem_cons_self)
      rcases importNode_cases h hname hfresh1 hnode with
        ⟨e, hfirst, hbad⟩ | ⟨b₁, hfirst, ha, hname', hst, c, hc, hentry, hholds⟩
      · rw [hfirst]
        refine Or.inl ⟨e, rfl, fun ⟨⟨hutf8, hlen⟩, hst, _⟩ hin => ?_⟩
        have hless := hbad hutf8 hlen hst (by omega)
        omega
      rw [hfirst]
      have hfree := ha.free
      have hone : 1 ≤ node.inodes := by
        cases node <;> simp only [HostNode.inodes] <;> omega
      have hcount := h.count
      have hfresh2 := ha.fresh h.used h.dir (hcount.symm ▸ hentry) hname'.2 hname hnot
        fun i e hn hmem => hfresh i e hn (List.mem_cons_of_mem _ hmem)
      rcases importDir_cases (ha.ready h hone) hrest hfresh2 with
        ⟨e, hrun, hbad⟩ | ⟨b', hrun, ha', hst', hholds'⟩
      · refine Or.inl ⟨e, hrun, fun ⟨_, _, hst⟩ hin => ?_⟩
        have hless := hbad hst (by omega)
        rw [show i + 1 + rest.names.length = i + (rest.names.length + 1) by omega] at hless
        omega
      · refine Or.inr ⟨b', hrun, ha.cons ha', ⟨hname', hst, hst'⟩,
          ⟨hname'.2, c, hc, ?_, hholds.stable ha'.sameAbove hc⟩, hholds'⟩
        rw [ha'.entries i (by rw [ha.count, hcount]; omega), hentry]
end

end Builder
end MiniOs.Tools
