import MiniOs.Spec.Readers
import MiniOs.Tools.Mkfs

/-!
# A staged tree on a volume

What it means that a volume has a staging directory on it: a directory entry for
every name, in order, that leads to an inode of the right kind; for a file, its
bytes; for a directory, the same again below it.

The number of an inode is larger than that of its directory, since the builder
hands numbers out in order and files a directory before what is in it. It is part
of the definition because it makes `HoldsNode.stable` an easy induction: a
subtree only ever looks at numbers above the directory it hangs in, and
importing the next entry of that directory touches none of those.
-/

namespace MiniOs.Spec

open MiniOs.Lib MiniOs.Fs MiniOs.Tools

/-- The mode `import_tree` gives what is behind a path. -/
def stagedMode : HostNode → Nat
  | .symlink => 0
  | .dir _ => 2
  | .other => 0
  | .file _ exec => if exec then 0x101 else 1

/-- A file in whole blocks, the last one padded with zeros. -/
def paddedByte (data : List UInt8) (p : Nat) : Option UInt8 :=
  if p / 512 < (data.length + 511) / 512 then some (data.getD p 0) else none

theorem paddedByte_of_lt {data : List UInt8} {p : Nat} (h : p < data.length) :
    paddedByte data p = some (data.getD p 0) :=
  if_pos (by omega)

mutual
/-- Inode `k` is what is staged at a path. -/
def HoldsNode (V : Volume) (k : Nat) : HostNode → Prop
  | .symlink => False
  | .dir children =>
    V.ibit k = true ∧ (V.node k).mode = 2 ∧
      (V.node k).size = 64 * children.names.length ∧ HoldsDir V k 0 children
  | .other => False
  | .file data exec =>
    V.ibit k = true ∧ (V.node k).mode = stagedMode (.file data exec) ∧
      (V.node k).size = data.length ∧ ∀ p, V.byte k p = paddedByte data p
/-- The entries of directory `n` from `i` on are the staged ones. -/
def HoldsDir (V : Volume) (n i : Nat) : HostDir → Prop
  | .nil => True
  | .cons name node rest =>
    (name.bytes.length ≤ 55 ∧ ∃ k, n < k ∧
      V.entry n i = some (record k (stagedMode node) name.bytes) ∧ HoldsNode V k node) ∧
    HoldsDir V n (i + 1) rest
end

theorem HoldsNode.used {V : Volume} {k : Nat} {node : HostNode} (h : HoldsNode V k node) :
    V.ibit k = true := by
  cases node with
  | symlink => exact h.elim
  | dir children => exact h.1
  | other => exact h.elim
  | file data exec => exact h.1

theorem HoldsNode.mode {V : Volume} {k : Nat} {node : HostNode} (h : HoldsNode V k node) :
    (V.node k).mode = stagedMode node := by
  cases node with
  | symlink => exact h.elim
  | dir children => exact h.2.1
  | other => exact h.elim
  | file data exec => exact h.2.1

/-- `W` has the inodes of `V` above `p`. -/
def SameAbove (p : Nat) (V W : Volume) : Prop :=
  ∀ m, p < m → V.ibit m = true → W.ibit m = true ∧ W.SameAt V m

mutual
/-- A subtree below `p` survives whatever leaves the inodes above `p` alone. -/
theorem HoldsNode.stable {V W : Volume} {p k : Nat} (hW : SameAbove p V W) (hk : p < k) :
  ∀ {node : HostNode}, HoldsNode V k node → HoldsNode W k node
| .dir children, ⟨hused, hmode, hsize, hdir⟩ => by
    obtain ⟨hused', hsame⟩ := hW k hk hused
    refine ⟨hused', ?_, ?_, HoldsDir.stable hW hk hsame hdir⟩
    · rw [hsame.1, hmode]
    · rw [hsame.1, hsize]
| .file data exec, ⟨hused, hmode, hsize, hbytes⟩ => by
    obtain ⟨hused', hsame⟩ := hW k hk hused
    refine ⟨hused', ?_, ?_, fun q => ?_⟩
    · rw [hsame.1, hmode]
    · rw [hsame.1, hsize]
    · rw [hsame.byte, hbytes q]

theorem HoldsDir.stable {V W : Volume} {p n i : Nat} (hW : SameAbove p V W) (hn : p < n)
  (hsame : W.SameAt V n) : ∀ {dir : HostDir}, HoldsDir V n i dir → HoldsDir W n i dir
| .nil, _ => trivial
| .cons name node rest, ⟨⟨hlen, k, hk, hentry, hnode⟩, hrest⟩ =>
  ⟨⟨hlen, k, hk, by rw [hsame.entry, hentry], hnode.stable hW (by omega)⟩,
    HoldsDir.stable hW hn hsame hrest⟩
end

/-! ## Staged paths -/

/-- What a directory has under a name. -/
def stagedChild (name : List UInt8) : HostDir → Option HostNode
  | .nil => none
  | .cons name' node rest => if name'.bytes = name then some node else stagedChild name rest

/-- What is staged at the end of a path. -/
def stagedAt : HostNode → List (List UInt8) → Option HostNode
  | node, [] => some node
  | .dir children, name :: rest =>
    match stagedChild name children with
    | none => none
    | some node => stagedAt node rest
  | _, _ :: _ => none

/-- The children of a directory, by name and mode. -/
def stagedList : HostDir → List (List UInt8 × Nat)
  | .nil => []
  | .cons name node rest => (name.bytes, stagedMode node) :: stagedList rest

theorem length_stagedList : ∀ dir : HostDir, (stagedList dir).length = dir.names.length
  | .nil => rfl
  | .cons _ _ rest => congrArg (· + 1) (length_stagedList rest)

/-- A staged child has an entry of its own. -/
theorem HoldsDir.child {V : Volume} {n : Nat} {name : List UInt8} {node : HostNode} :
    ∀ {dir : HostDir} {i : Nat}, HoldsDir V n i dir → stagedChild name dir = some node →
      name.length ≤ 55 ∧ ∃ j k, i ≤ j ∧ j < i + dir.names.length ∧ n < k ∧
        V.entry n j = some (record k (stagedMode node) name) ∧ HoldsNode V k node
  | .cons name' node' rest, i, ⟨⟨hlen, k, hk, hentry, hnode⟩, hrest⟩, hfind => by
      rw [stagedChild] at hfind
      split at hfind
      · next hname =>
        cases hfind
        subst hname
        exact ⟨hlen, i, k, Nat.le_refl i, by simp [HostDir.names], hk, hentry, hnode⟩
      · obtain ⟨hlen, j, k, h1, h2, h3⟩ := HoldsDir.child hrest hfind
        refine ⟨hlen, j, k, by omega, ?_, h3⟩
        simp only [HostDir.names, List.length_cons]
        omega

/-- Every entry of a staged directory is a staged name. -/
theorem HoldsDir.entry {V : Volume} {n j : Nat} :
    ∀ {dir : HostDir} {i : Nat}, HoldsDir V n i dir → j < dir.names.length →
      ∃ k mode name node, V.entry n (i + j) = some (record k mode name) ∧ name ∈ dir.names ∧
        name.length ≤ 55 ∧ HoldsNode V k node
  | .cons name node rest, i, ⟨⟨hlen, k, _, hentry, hnode⟩, hrest⟩, hj => by
      cases j with
      | zero => exact ⟨k, _, name.bytes, node, hentry, List.mem_cons_self, hlen, hnode⟩
      | succ j =>
        obtain ⟨k, mode, x, node', hentry, hmem, hlen, hnode'⟩ :=
          hrest.entry (Nat.lt_of_succ_lt_succ hj)
        refine ⟨k, mode, x, node', ?_, List.mem_cons_of_mem _ hmem, hlen, hnode'⟩
        rw [← hentry]
        congr 1
        omega

end MiniOs.Spec
