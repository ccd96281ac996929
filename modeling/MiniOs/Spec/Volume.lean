import MiniOs.Fs.State

/-!
# The volume behind the sectors

What a MiniFS disk is about, with the sectors taken away: which inode numbers
are in use, what each inode says about itself, and the contents of its logical
blocks. Where a block lives, and that a block past the tenth is found through a
table, is not part of it. Two inodes of a volume cannot interfere, by
construction: a block belongs to the inode and the index it is filed under.

That is exactly what the code has to earn. The theorems of `Proofs/Ownership.lean`
say that as long as no sector has two owners, every function of `Fs/Blocks.lean`
acts on the disk as one of the operations below acts on the volume.

The readers of a volume are in `Spec/Readers.lean`: directory lookup, the path
walk and listing, written against logical blocks. They do not depend on a
well-formed volume, and the code's own scans compute the same answers on every
disk.
-/

namespace MiniOs.Spec

open MiniOs.Lib MiniOs.Fs Function

/-- What an inode says besides where its blocks are. -/
structure Node where
  mode : Nat
  size : Nat
  parent : Nat
  links : Nat
  deriving DecidableEq

/-- The node of a record of zero bytes. -/
def Node.zero : Node := ⟨0, 0, 0, 0⟩

/-- A regular file, with or without the exec bit. -/
def Node.IsFile (node : Node) : Prop := node.mode &&& 0xff = 1

/-- A directory. -/
def Node.IsDir (node : Node) : Prop := node.mode &&& 0xff = 2

instance (node : Node) : Decidable node.IsFile := inferInstanceAs (Decidable (_ = _))
instance (node : Node) : Decidable node.IsDir := inferInstanceAs (Decidable (_ = _))

/-- Inode numbers in use, inodes, and logical blocks. -/
structure Volume where
  ibit : Nat → Bool
  node : Nat → Node
  block : Nat → Nat → Option Region

namespace Volume

@[ext] theorem ext' {V W : Volume} (hibit : ∀ n, V.ibit n = W.ibit n)
    (hnode : ∀ n, V.node n = W.node n)
    (hblock : ∀ n i, V.block n i = W.block n i) : V = W := by
  cases V
  cases W
  simp only [mk.injEq]
  exact ⟨funext hibit, funext hnode, funext fun n => funext (hblock n)⟩

/-! ## Operations -/

/-- Mark an inode number used or free. -/
def setIbit (V : Volume) (n : Nat) (b : Bool) : Volume :=
  { V with ibit := update V.ibit n b }

/-- Rewrite an inode. -/
def setNode (V : Volume) (n : Nat) (node : Node) : Volume :=
  { V with node := update V.node n node }

/-- Map a logical block, or replace its contents. -/
def setBlock (V : Volume) (n i : Nat) (r : Region) : Volume :=
  { V with block := fun m j => if m = n ∧ j = i then some r else V.block m j }

/-- Unmap every block of an inode. -/
def clear (V : Volume) (n : Nat) : Volume :=
  { V with block := fun m j => if m = n then none else V.block m j }

/-- Map a logical block, zeroed, unless it is mapped already. -/
def ensureBlock (V : Volume) (n i : Nat) : Volume :=
  if V.block n i = none then V.setBlock n i Region.zero else V

/-- Block `j` holds one of the `len` bytes from `offset` on. -/
def Touches (offset len j : Nat) : Prop :=
  0 < len ∧ 512 * j < offset + len ∧ offset < 512 * j + 512

instance (offset len j : Nat) : Decidable (Touches offset len j) :=
  inferInstanceAs (Decidable (_ ∧ _))

/-- Write `len` bytes of `source` into a file from `offset` on; blocks that are
missing appear, zeroed around what is written. -/
def writeBytes (V : Volume) (n offset : Nat) (source : Region) (len : Nat) : Volume :=
  { V with
    block := fun m j =>
      if m = n ∧ Touches offset len j then
        some fun i =>
          if i < 512 ∧ offset ≤ 512 * j + i ∧ 512 * j + i < offset + len then
            source (512 * j + i - offset)
          else (V.block n j).getD Region.zero i
      else V.block m j }

section Simp

variable (V : Volume) (n m i j : Nat) (b : Bool) (node : Node) (r : Region)

@[simp] theorem setIbit_ibit : (V.setIbit n b).ibit = update V.ibit n b := rfl
@[simp] theorem setIbit_node : (V.setIbit n b).node = V.node := rfl
@[simp] theorem setIbit_block : (V.setIbit n b).block = V.block := rfl
@[simp] theorem setNode_ibit : (V.setNode n node).ibit = V.ibit := rfl
@[simp] theorem setNode_node :
    (V.setNode n node).node = update V.node n node := rfl
@[simp] theorem setNode_block : (V.setNode n node).block = V.block := rfl
@[simp] theorem setBlock_ibit : (V.setBlock n i r).ibit = V.ibit := rfl
@[simp] theorem setBlock_node : (V.setBlock n i r).node = V.node := rfl
@[simp] theorem clear_ibit : (V.clear n).ibit = V.ibit := rfl
@[simp] theorem clear_node : (V.clear n).node = V.node := rfl

@[simp] theorem setBlock_block_self : (V.setBlock n i r).block n i = some r :=
  if_pos ⟨rfl, rfl⟩

theorem setBlock_block :
    (V.setBlock n i r).block m j = if m = n ∧ j = i then some r else V.block m j := rfl

@[simp] theorem clear_block_self : (V.clear n).block n j = none := if_pos rfl

theorem clear_block :
    (V.clear n).block m j = if m = n then none else V.block m j := rfl

/-- Writing a block maps it, so there is no need to have mapped it before. -/
theorem setBlock_ensureBlock :
    (V.ensureBlock n i).setBlock n i r = V.setBlock n i r := by
  unfold ensureBlock
  split
  · refine ext' (fun _ => rfl) (fun _ => rfl) fun m j => ?_
    rw [setBlock_block, setBlock_block, setBlock_block]
    split <;> rfl
  · rfl

theorem ensureBlock_block_self :
    (V.ensureBlock n i).block n i = some ((V.block n i).getD Region.zero) := by
  unfold ensureBlock
  split
  · next h => rw [setBlock_block_self, h, Option.getD_none]
  · next h =>
    obtain ⟨r, hr⟩ := Option.ne_none_iff_exists'.mp h
    rw [hr, Option.getD_some]

@[simp] theorem writeBytes_node (offset : Nat) (source : Region) (len : Nat) :
    (V.writeBytes n offset source len).node = V.node := rfl

theorem writeBytes_block (offset : Nat) (source : Region) (len : Nat) :
    (V.writeBytes n offset source len).block m j =
      if m = n ∧ Touches offset len j then
        some fun i =>
          if i < 512 ∧ offset ≤ 512 * j + i ∧ 512 * j + i < offset + len then
            source (512 * j + i - offset)
          else (V.block n j).getD Region.zero i
      else V.block m j := rfl

@[simp] theorem writeBytes_zero (offset : Nat) (source : Region) :
    V.writeBytes n offset source 0 = V := by
  refine ext' (fun _ => rfl) (fun _ => rfl) fun m j => ?_
  rw [writeBytes_block, if_neg fun h => absurd h.2.1 (by omega)]

@[simp] theorem ensureBlock_node : (V.ensureBlock n i).node = V.node := by
  unfold ensureBlock
  split <;> rfl

end Simp

/-- Writing goes chunk by chunk: the next chunk, within one block, extends what
was written so far. -/
theorem writeBytes_step (V : Volume) (n offset : Nat) (source : Region) {done chunk : Nat}
    (hpos : 0 < chunk) (hfit : (offset + done) % 512 + chunk ≤ 512) :
    (V.writeBytes n offset source done).setBlock n ((offset + done) / 512)
      ((((V.writeBytes n offset source done).block n ((offset + done) / 512)).getD
        Region.zero).blit ((offset + done) % 512) (fun i => source (done + i)) chunk) =
      V.writeBytes n offset source (done + chunk) := by
  refine ext' (fun _ => rfl) (fun _ => rfl) fun m j => ?_
  rw [setBlock_block, writeBytes_block, writeBytes_block, writeBytes_block]
  by_cases hm : m = n
  · subst hm
    by_cases hj : j = (offset + done) / 512
    · subst hj
      rw [if_pos ⟨rfl, rfl⟩,
        if_pos (show m = m ∧ Touches offset (done + chunk) _ by unfold Touches; omega)]
      congr 1
      funext i
      by_cases hin : (offset + done) % 512 ≤ i ∧ i < (offset + done) % 512 + chunk
      · rw [Region.blit_in hin.1 hin.2, if_pos (by omega)]
        congr 1
        omega
      rw [Region.blit_out (by omega)]
      by_cases ht : Touches offset done ((offset + done) / 512)
      · rw [if_pos ⟨rfl, ht⟩, Option.getD_some]
        refine if_congr ?_ rfl rfl
        omega
      · rw [if_neg fun h => ht h.2, if_neg]
        unfold Touches at ht
        omega
    · rw [if_neg fun h => hj h.2]
      have ht : Touches offset (done + chunk) j ↔ Touches offset done j := by
        unfold Touches
        omega
      refine if_congr (by rw [ht]) ?_ rfl
      congr 1
      funext i
      refine if_congr ?_ rfl rfl
      omega
  · rw [if_neg fun h => hm h.1, if_neg fun h => hm h.1, if_neg fun h => hm h.1]

/-- A write that goes on where another ended. -/
theorem writeBytes_writeBytes (V : Volume) (n offset : Nat) {source rest : Region}
    {done more : Nat} (hrest : ∀ j, j < more → rest j = source (done + j)) :
    (V.writeBytes n offset source done).writeBytes n (offset + done) rest more =
      V.writeBytes n offset source (done + more) := by
  refine ext' (fun _ => rfl) (fun _ => rfl) fun m j => ?_
  by_cases hm : m = n
  · subst hm
    rw [writeBytes_block, writeBytes_block, writeBytes_block]
    have hboth : Touches offset (done + more) j ↔
        Touches (offset + done) more j ∨ Touches offset done j := by
      unfold Touches
      omega
    by_cases hmore : Touches (offset + done) more j
    · rw [if_pos ⟨rfl, hmore⟩,
        if_pos (show m = m ∧ Touches offset (done + more) j from ⟨rfl, hboth.mpr (Or.inl hmore)⟩)]
      congr 1
      funext i
      by_cases hin : i < 512 ∧ offset + done ≤ 512 * j + i ∧ 512 * j + i < offset + done + more
      · rw [if_pos hin, if_pos (by omega), hrest _ (by omega)]
        congr 1
        omega
      rw [if_neg hin]
      by_cases hdone : Touches offset done j
      · rw [if_pos ⟨rfl, hdone⟩, Option.getD_some]
        refine if_congr ?_ rfl rfl
        omega
      · rw [if_neg fun h => hdone h.2, if_neg]
        unfold Touches at hdone
        omega
    · rw [if_neg fun h => hmore h.2]
      refine if_congr (by rw [hboth, or_iff_right hmore]) ?_ rfl
      congr 1
      funext i
      refine if_congr ?_ rfl rfl
      unfold Touches at hmore
      omega
  · rw [writeBytes_block, if_neg fun h => hm h.1, writeBytes_block, if_neg fun h => hm h.1,
      writeBytes_block, if_neg fun h => hm h.1]

end Volume
end MiniOs.Spec
