import MiniOs.Fs.Names
import MiniOs.Lib.Scan
import MiniOs.Spec.Volume

/-!
# Reading a volume

Directory lookup, the path walk, listing and file contents, written against the
logical blocks of a volume. Nothing here depends on a well-formed volume: a
missing block is an outcome, and the code's own scans compute the same answers
on every disk (`Proofs/Readers.lean`).

A path is cut into its components before it is walked. Empty components, which
is what slashes in a row leave between them, disappear in the cut.
-/

namespace MiniOs.Spec

open MiniOs.Lib MiniOs.Fs

/-- The components of a path. -/
def components (path : List UInt8) : List (List UInt8) :=
  (path.splitOnP (· == slash)).filter (· ≠ [])

/-- The test of a lookup: a live entry under a name. -/
def named (name : List UInt8) (e : Dirent) : Bool := e.Live ∧ strEqual e.name name = true

/-- The test of the scan for an empty directory. -/
def live (e : Dirent) : Bool := e.Live

/-- The test of the scan for a slot to reuse. -/
def buried (e : Dirent) : Bool := ¬ e.Live

/-- The record a name is stored as. -/
def record (child mode : Nat) (name : List UInt8) : Dirent :=
  ⟨child, mode, (List.range 56).map fun i => name.getD i 0⟩

theorem named_iff {name : List UInt8} {e : Dirent} :
    named name e = true ↔ e.Live ∧ strEqual e.name name = true := decide_eq_true_iff

theorem live_iff {e : Dirent} : live e = true ↔ e.Live := decide_eq_true_iff

theorem buried_iff {e : Dirent} : buried e = true ↔ ¬ e.Live := decide_eq_true_iff

namespace Volume

/-- Entry `i` of a directory; eight to a block. -/
def entry (V : Volume) (n i : Nat) : Option Dirent :=
  (V.block n (i / 8)).map fun r => Dirent.decode r (i % 8 * 64)

/-- The number of entries of a directory, removed ones included. -/
def count (V : Volume) (n : Nat) : Nat := (V.node n).size / 64

/-- The inode a directory has under a name. -/
def lookup (V : Volume) (n : Nat) (name : List UInt8) : Option Nat :=
  if n < 256 ∧ (V.node n).IsDir then
    match scan (V.entry n) (named name) (V.count n) 0 with
    | .found _ e => asInt e.inode
    | _ => none
  else none

/-- The slot the next name of a directory goes to. -/
def slot (V : Volume) (n : Nat) : Option Nat :=
  match scan (V.entry n) buried (V.count n) 0 with
  | .found i _ => some i
  | .ended => some (V.count n)
  | .blocked => none

/-- No entry of a directory is live. -/
def vacant (V : Volume) (n : Nat) : Bool :=
  match scan (V.entry n) live (V.count n) 0 with
  | .ended => true
  | _ => false

/-- The volume with a new inode that nobody names yet. -/
def plant (V : Volume) (k : Nat) (node : Node) : Volume :=
  ((V.setIbit k true).clear k).setNode k node

/-- A directory with a name written to a slot; a slot at the end makes it one
entry longer. -/
def addEntry (V : Volume) (n index child mode : Nat) (name : List UInt8) : Volume :=
  (V.setBlock n (index / 8) (Dirent.put ((V.block n (index / 8)).getD Region.zero) (index % 8 * 64)
      child mode name)).setNode n
    { V.node n with
      size := if index = V.count n then (V.node n).size + 64 else (V.node n).size }

/-- A directory with an entry marked as removed. -/
def bury (V : Volume) (n index : Nat) : Volume :=
  V.setBlock n (index / 8) (Dirent.bury ((V.block n (index / 8)).getD Region.zero) (index % 8 * 64))

/-- Walk along components from an inode. -/
def walk (V : Volume) : Nat → List (List UInt8) → Option Nat
  | current, [] => asInt current
  | current, c :: rest =>
    if c.length > 55 then none
    else if strEqual c [dot] then V.walk current rest
    else if strEqual c [dot, dot] then
      if current < 256 then V.walk (V.node current).parent rest else none
    else
      match V.lookup current c with
      | none => none
      | some child => V.walk child rest

/-- The inode a path leads to. -/
def resolve (V : Volume) (cwd : Nat) (path : List UInt8) : Option Nat :=
  if path = [] ∨ path.length ≥ 256 then none
  else V.walk (if path.head? = some slash then 0 else cwd) (components path)

/-- The directory and the name a path is about, for the calls that add or
remove a name. -/
def resolveParent (V : Volume) (cwd : Nat) (path : List UInt8) :
    Option (Nat × List UInt8) :=
  if path.length = 0 ∨ path.length ≥ 256 then none
  else
    let path := stripSlashes path
    let name := path.rtakeWhile (· != slash)
    let head := path.rdropWhile (· != slash)
    if name.length = 0 ∨ name.length > 55 then none
    else if strEqual name [dot] ∨ strEqual name [dot, dot] then none
    else if head = [] then (asInt cwd).map fun cwd => (cwd, name)
    else if head.length = 1 then some (0, name)
    else (V.resolve cwd head.dropLast).map fun parent => (parent, name)

/-- Byte `p` of a file, where its block is there. -/
def byte (V : Volume) (n p : Nat) : Option UInt8 :=
  (V.block n (p / 512)).map fun r => r (p % 512)

/-- What reading `length` bytes of a file at an offset gives. -/
def pread (V : Volume) (n offset length : Nat) : Option (List UInt8) :=
  if n < 256 ∧ (V.node n).IsFile then
    (List.range' offset (min length ((V.node n).size - offset))).mapM (V.byte n)
  else none

/-- The live entries among `left` entries from `i` on, up to `room` of them. -/
def listFrom (V : Volume) (n : Nat) : Nat → Nat → Nat → Option (List Dirent)
  | 0, _, _ => some []
  | left + 1, i, room =>
    if room = 0 then some []
    else
      match V.entry n i with
      | none => none
      | some e =>
        if e.Live then (V.listFrom n left (i + 1) (room - 1)).map (e :: ·)
        else V.listFrom n left (i + 1) room

end Volume

/-! ## What a reader looks at

A directory is read through its own node and its own blocks. -/

namespace Volume

/-- Two volumes have the same inode `n`, blocks included. -/
def SameAt (V W : Volume) (n : Nat) : Prop := V.node n = W.node n ∧ V.block n = W.block n

section SameAt

variable {V W : Volume} {n : Nat}

theorem SameAt.entry (h : V.SameAt W n) : V.entry n = W.entry n := by
  funext i
  unfold Volume.entry
  rw [h.2]

theorem SameAt.count (h : V.SameAt W n) : V.count n = W.count n := by
  unfold Volume.count
  rw [h.1]

theorem SameAt.lookup (h : V.SameAt W n) (name : List UInt8) :
    V.lookup n name = W.lookup n name := by
  unfold Volume.lookup
  rw [h.entry, h.count, h.1]

theorem SameAt.slot (h : V.SameAt W n) : V.slot n = W.slot n := by
  unfold Volume.slot
  rw [h.entry, h.count]

theorem sameAt_setNode {m : Nat} (hn : n ≠ m) (node : Node) :
    (V.setNode m node).SameAt V n :=
  ⟨by rw [setNode_node, Function.update_of_ne hn], rfl⟩

theorem sameAt_clear {m : Nat} (hn : n ≠ m) : (V.clear m).SameAt V n :=
  ⟨rfl, funext fun i => by rw [clear_block, if_neg hn]⟩

theorem sameAt_setBlock {m i : Nat} {r : Region} (hn : n ≠ m) :
    (V.setBlock m i r).SameAt V n :=
  ⟨rfl, funext fun j => by rw [setBlock_block, if_neg fun h => hn h.1]⟩

theorem SameAt.trans {U : Volume} (h1 : U.SameAt V n) (h2 : V.SameAt W n) :
    U.SameAt W n := ⟨h1.1.trans h2.1, h1.2.trans h2.2⟩

theorem sameAt_setIbit (m : Nat) (b : Bool) : (V.setIbit m b).SameAt V n := ⟨rfl, rfl⟩

theorem sameAt_writeBytes {m : Nat} (hn : n ≠ m) (offset : Nat) (source : Region) (len : Nat) :
    (V.writeBytes m offset source len).SameAt V n :=
  ⟨rfl, funext fun j => by rw [writeBytes_block, if_neg fun h => hn h.1]⟩

theorem SameAt.byte (h : V.SameAt W n) : V.byte n = W.byte n := by
  funext p
  rw [Volume.byte, Volume.byte, h.2]

/-- A byte of a file after a write: written, or in a block that the write has
mapped, or as it was. -/
theorem byte_writeBytes (V : Volume) (n offset : Nat) (source : Region) (len p : Nat) :
    (V.writeBytes n offset source len).byte n p =
      if offset ≤ p ∧ p < offset + len then some (source (p - offset))
      else if Touches offset len (p / 512) then some ((V.byte n p).getD 0)
      else V.byte n p := by
  rw [Volume.byte, Volume.byte, writeBytes_block]
  by_cases ht : Touches offset len (p / 512)
  · rw [if_pos ⟨rfl, ht⟩, if_pos ht, Option.map_some]
    dsimp only
    rw [show 512 * (p / 512) + p % 512 = p by omega]
    by_cases hin : offset ≤ p ∧ p < offset + len
    · rw [if_pos hin, if_pos ⟨by omega, hin⟩]
    · rw [if_neg hin, if_neg fun h => hin h.2]
      cases V.block n (p / 512) <;> rfl
  · have hin : ¬ (offset ≤ p ∧ p < offset + len) := fun h => ht (by unfold Touches; omega)
    rw [if_neg fun h => ht h.2, if_neg ht, if_neg hin]

theorem plant_sameAt (V : Volume) {k : Nat} (node : Node) (hn : n ≠ k) :
    (V.plant k node).SameAt V n :=
  (sameAt_setNode hn node).trans ((sameAt_clear hn).trans (sameAt_setIbit k true))

end SameAt

/-! ## Entries after an edit -/

section Edit

variable {V : Volume} {n m i j index child mode : Nat} {name : List UInt8}

theorem exists_block_of_entry (h : V.entry n i ≠ none) :
    ∃ r, V.block n (i / 8) = some r := by
  cases hb : V.block n (i / 8) with
  | none =>
    unfold entry at h
    rw [hb] at h
    exact absurd rfl h
  | some r => exact ⟨r, rfl⟩

theorem entry_addEntry_self (hchild : child < 2 ^ 32) (hmode : mode < 2 ^ 32)
    (hname : name.length ≤ 55) :
    (V.addEntry n index child mode name).entry n index = some (record child mode name) := by
  unfold entry addEntry record
  rw [setNode_block, setBlock_block_self, Option.map_some, Dirent.decode_put _ _ _ _ hname,
    Nat.mod_eq_of_lt hchild, Nat.mod_eq_of_lt hmode]

theorem entry_addEntry_ne (hname : name.length ≤ 55) (hne : ¬ (m = n ∧ i = index))
    (hmapped : V.entry m i ≠ none) :
    (V.addEntry n index child mode name).entry m i = V.entry m i := by
  unfold entry addEntry
  rw [setNode_block, setBlock_block]
  by_cases hb : m = n ∧ i / 8 = index / 8
  · obtain ⟨rfl, hb⟩ := hb
    obtain ⟨r, hr⟩ := exists_block_of_entry hmapped
    rw [if_pos ⟨rfl, hb⟩, ← hb, hr, Option.getD_some, Option.map_some, Option.map_some,
      Dirent.decode_put_ne hname (by omega)]
  · rw [if_neg hb]

theorem entry_bury_self {e : Dirent} (h : V.entry n j = some e) :
    (V.bury n j).entry n j = some { e with inode := 0xffffffff } := by
  unfold entry at h ⊢
  unfold bury
  obtain ⟨r, hr, rfl⟩ := Option.map_eq_some_iff.mp h
  rw [setBlock_block_self, hr, Option.getD_some, Option.map_some, Dirent.decode_bury]

theorem entry_bury_ne (hne : ¬ (m = n ∧ i = j)) (hmapped : V.entry n j ≠ none) :
    (V.bury n j).entry m i = V.entry m i := by
  unfold entry bury
  rw [setBlock_block]
  by_cases hb : m = n ∧ i / 8 = j / 8
  · obtain ⟨rfl, hb⟩ := hb
    obtain ⟨r, hr⟩ := exists_block_of_entry hmapped
    rw [if_pos ⟨rfl, hb⟩, hb, hr, Option.getD_some, Option.map_some, Option.map_some,
      Dirent.decode_bury_ne (by omega)]
  · rw [if_neg hb]

end Edit
end Volume

/-! ## Components -/

@[simp] theorem components_nil : components [] = [] := rfl

theorem components_slash (rest : List UInt8) :
    components (slash :: rest) = components rest := by
  unfold components
  rw [List.splitOnP_cons_eq_if_modifyHead, if_pos (by simp)]
  simp

theorem components_dropWhile (path : List UInt8) :
    components (path.dropWhile (· == slash)) = components path := by
  induction path with
  | nil => rfl
  | cons c rest ih =>
    rw [List.dropWhile_cons]
    split
    · next hc =>
      obtain rfl : c = slash := by simpa using hc
      rw [ih, components_slash]
    · rfl

/-- A component in front of the rest of a path, which starts at a slash or is
empty. -/
theorem components_append {c rest : List UInt8} (hc : c ≠ []) (hslash : slash ∉ c)
    (hrest : rest = [] ∨ rest.head? = some slash) :
    components (c ++ rest) = c :: components rest := by
  have hnot : ∀ x ∈ c, (x == slash) = false := by
    intro x hx
    rw [beq_eq_false_iff_ne]
    rintro rfl
    exact hslash hx
  rcases hrest with rfl | hhead
  · unfold components
    rw [List.append_nil, List.splitOnP_eq_singleton hnot]
    simp [hc]
  obtain ⟨tail, rfl⟩ : ∃ tail, rest = slash :: tail := by
    cases rest with
    | nil => cases hhead
    | cons x tail => exact ⟨tail, by rw [show x = slash by simpa using hhead]⟩
  rw [components_slash]
  unfold components
  rw [List.splitOnP_append_cons_of_forall_mem hnot slash (by simp),
    List.filter_cons_of_pos (by simpa)]

end MiniOs.Spec
