import MiniOs.Proofs.Mount

/-!
# How much fits in an image

The builder allocates as it goes and gives up in the middle of a tree when the
data area or the inode table is full. Whether it does can be told from the tree
alone: a file takes the blocks of its bytes and, past the tenth, one more for
the indirect table; a directory is a file of 64 bytes an entry. The builder
imports a tree in sorted order, which takes what the tree itself takes, and so a
tree that fits is imported (`importTree_fits`), with exactly its blocks gone.
-/

namespace MiniOs.Tools

open MiniOs.Lib MiniOs.Fs MiniOs.Spec Function

/-! ## Sorting takes nothing -/

theorem length_names_insert (name : HostName) (node : HostNode) :
    ∀ dir : HostDir, (HostDir.insert name node dir).names.length = dir.names.length + 1
  | .nil => rfl
  | .cons name' node' rest => by
      rw [HostDir.insert]
      split
      · rfl
      · exact congrArg (· + 1) (length_names_insert name node rest)

theorem length_names_sort : ∀ dir : HostDir, dir.sort.names.length = dir.names.length
  | .nil => rfl
  | .cons name node rest => by
      rw [HostDir.sort, length_names_insert, length_names_sort rest]
      rfl

theorem blocks_insert (name : HostName) (node : HostNode) :
    ∀ dir : HostDir, (HostDir.insert name node dir).blocks = node.blocks + dir.blocks
  | .nil => rfl
  | .cons name' node' rest => by
      rw [HostDir.insert]
      split
      · rfl
      · simp only [HostDir.blocks, blocks_insert name node rest]
        omega

theorem inodes_insert (name : HostName) (node : HostNode) :
    ∀ dir : HostDir, (HostDir.insert name node dir).inodes = node.inodes + dir.inodes
  | .nil => rfl
  | .cons name' node' rest => by
      rw [HostDir.insert]
      split
      · rfl
      · simp only [HostDir.inodes, inodes_insert name node rest]
        omega

theorem storable_insert (name : HostName) (node : HostNode) :
    ∀ dir : HostDir, (HostDir.insert name node dir).Storable ↔ (HostDir.cons name node dir).Storable
  | .nil => Iff.rfl
  | .cons name' node' rest => by
      rw [HostDir.insert]
      split
      · exact Iff.rfl
      · rw [HostDir.Storable, storable_insert name node rest]
        simp only [HostDir.Storable]
        tauto

mutual
theorem HostNode.blocks_sort : ∀ node : HostNode, node.sort.blocks = node.blocks
  | .symlink => rfl
  | .dir children => by
      simp only [HostNode.sort, HostNode.blocks, length_names_sort, children.blocks_sort]
  | .other => rfl
  | .file _ _ => rfl
theorem HostDir.blocks_sort : ∀ dir : HostDir, dir.sort.blocks = dir.blocks
  | .nil => rfl
  | .cons name node rest => by
      rw [HostDir.sort, blocks_insert, node.blocks_sort, rest.blocks_sort, HostDir.blocks]
end

mutual
theorem HostNode.inodes_sort : ∀ node : HostNode, node.sort.inodes = node.inodes
  | .symlink => rfl
  | .dir children => by simp only [HostNode.sort, HostNode.inodes, children.inodes_sort]
  | .other => rfl
  | .file _ _ => rfl
theorem HostDir.inodes_sort : ∀ dir : HostDir, dir.sort.inodes = dir.inodes
  | .nil => rfl
  | .cons name node rest => by
      rw [HostDir.sort, inodes_insert, node.inodes_sort, rest.inodes_sort, HostDir.inodes]
end

mutual
theorem HostNode.storable_sort : ∀ node : HostNode, node.sort.Storable ↔ node.Storable
  | .symlink => Iff.rfl
  | .dir children => children.storable_sort
  | .other => Iff.rfl
  | .file _ _ => Iff.rfl
theorem HostDir.storable_sort : ∀ dir : HostDir, dir.sort.Storable ↔ dir.Storable
  | .nil => Iff.rfl
  | .cons name node rest => by
      rw [HostDir.sort, storable_insert, HostDir.Storable, node.storable_sort, rest.storable_sort,
        HostDir.Storable]
end

/-! ## Whole trees -/

/-- A staging directory that fits: nothing in it is refused for what it is, and
there are blocks and inodes enough. -/
structure StagedTree.Fits (tree : StagedTree) : Prop where
  storable : tree.root.Storable
  inodes : tree.root.inodes ≤ 255
  blocks : (HostNode.dir tree.root).blocks ≤ 15322

/-- What fits is imported, and the rest of the disk is free. -/
theorem importTree_fits {tree : StagedTree} (h : tree.Fits) :
    ∃ img : Image, img.tree = tree ∧ img.builder.Snug ∧
      (∀ n, img.builder.inodeUsed n = decide (n < 1 + tree.root.inodes)) ∧
      img.builder.free + (HostNode.dir tree.root).blocks = 15322 := by
  have hblocks := h.blocks
  rw [← (HostNode.dir tree.root).blocks_sort, HostNode.sort, HostNode.blocks] at hblocks ⊢
  have hinodes := h.inodes
  rw [← tree.root.inodes_sort] at hinodes ⊢
  rcases Builder.importDir_cases Builder.new_ready tree.legal.sort
    (fun _ _ h => absurd h Builder.new_names) with ⟨e, -, hbad⟩ | ⟨b, hrun, ha, -, -⟩
  · have hless := hbad (tree.root.storable_sort.mpr h.storable) (by omega)
    rw [Builder.new_free, Nat.zero_add] at hless
    omega
  · have hfree := ha.free
    rw [Builder.new_free, Nat.zero_add, show blocksFor (64 * 0) = 0 from rfl] at hfree
    exact ⟨⟨tree, b, hrun⟩, rfl, ha.snug, ha.next, by dsimp only; omega⟩

/-- The builder accepts exactly the trees that fit. -/
theorem importTree_accepts_iff (tree : StagedTree) :
    (∃ b, Builder.new.importTree tree.root = .ok b) ↔ tree.Fits := by
  constructor
  · rintro ⟨b, hok⟩
    rcases Builder.importDir_cases Builder.new_ready tree.legal.sort
      (fun _ _ h => absurd h Builder.new_names) with ⟨e, hrun, -⟩ | ⟨b, hrun, ha, hst, -⟩
    · cases hok.symm.trans hrun
    have hfree := ha.free
    rw [Builder.new_free, Nat.zero_add, show blocksFor (64 * 0) = 0 from rfl] at hfree
    have hlast := ha.tree.bound tree.root.sort.inodes ((ha.next _).trans (decide_eq_true (by omega)))
    refine ⟨tree.root.storable_sort.mp hst, ?_, ?_⟩
    · rw [← tree.root.inodes_sort]
      omega
    · rw [← (HostNode.dir tree.root).blocks_sort, HostNode.sort, HostNode.blocks]
      omega
  · intro h
    obtain ⟨img, rfl, -⟩ := importTree_fits h
    exact ⟨_, img.built⟩

end MiniOs.Tools
