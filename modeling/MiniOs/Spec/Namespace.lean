import MiniOs.Spec.Readers

/-!
# The tree of names

What it means for the directories of a volume to form a tree: the inodes in use
are the ones a walk from the root can reach, each of them has one name, and the
name, the parent field and the mode agree with each other.

Everything is said about live entries of directories in use, `Volume.Names`.
The operations of the file system change that relation in three ways: not at
all, by one entry for a fresh inode, or by taking the one entry of an inode
away that has no entries of its own. There is a lemma for each, first for the
relation and then for the invariant, and no other part of the development has to
look into a directory block again.
-/

namespace MiniOs.Spec

open MiniOs.Lib MiniOs.Fs Function

/-- What a name in a directory may be. -/
structure GoodName (name : List UInt8) : Prop where
  pos : 1 ≤ name.length
  short : name.length ≤ 55
  noSlash : slash ∉ name
  notDot : name ≠ [dot]
  notDots : name ≠ [dot, dot]

namespace Volume

/-- Slot `i` of the directory `d`, which is in use, holds the live entry `e`. -/
structure Names (V : Volume) (d i : Nat) (e : Dirent) : Prop where
  used : V.ibit d = true
  dir : (V.node d).IsDir
  lt : i < V.count d
  entry : V.entry d i = some e
  live : e.Live

/-- Reachable from the root through live entries. -/
inductive Reachable (V : Volume) : Nat → Prop
  | root : Reachable V 0
  | child {d i : Nat} {e : Dirent} :
      Reachable V d → V.Names d i e → Reachable V e.inode

/-- The directories form a tree of everything in use. -/
structure Tree (V : Volume) : Prop where
  rootUsed : V.ibit 0 = true
  rootDir : (V.node 0).IsDir
  rootParent : (V.node 0).parent = 0
  bound : ∀ n, V.ibit n = true → n < 256
  /-- The entries of a directory can all be read. -/
  mapped : ∀ d, V.ibit d = true → (V.node d).IsDir →
    ∀ i, i < V.count d → V.entry d i ≠ none
  pos : ∀ {d i e}, V.Names d i e → 1 ≤ e.inode
  childUsed : ∀ {d i e}, V.Names d i e → V.ibit e.inode = true
  childMode : ∀ {d i e}, V.Names d i e → (V.node e.inode).mode = e.mode
  childParent : ∀ {d i e}, V.Names d i e → (V.node e.inode).parent = d
  name : ∀ {d i e}, V.Names d i e → GoodName (cstr e.name)
  unique : ∀ {d i e d' i' e'}, V.Names d i e → V.Names d' i' e' →
    e.inode = e'.inode → d = d' ∧ i = i'
  distinct : ∀ {d i e i' e'}, V.Names d i e → V.Names d i' e' →
    cstr e.name = cstr e'.name → i = i'
  reach : ∀ n, V.ibit n = true → V.Reachable n

section Tree

variable {V : Volume}

variable {n d cwd : Nat} {name path : List UInt8}

/-- Everything in use but the root has a name. -/
theorem Tree.exists_names (h : V.Tree) (hn : V.ibit n = true) (h0 : n ≠ 0) :
    ∃ d i e, V.Names d i e ∧ e.inode = n := by
  cases h.reach n hn with
  | root => exact absurd rfl h0
  | child _ hnames => exact ⟨_, _, _, hnames, rfl⟩

theorem Tree.reachable_used (h : V.Tree) (hn : V.Reachable n) :
    V.ibit n = true := by
  cases hn with
  | root => exact h.rootUsed
  | child _ hnames => exact h.childUsed hnames

/-- The parent field leads to a directory in use. -/
theorem Tree.parent (h : V.Tree) (hn : V.ibit n = true) :
    V.ibit (V.node n).parent = true ∧ (V.node (V.node n).parent).IsDir := by
  by_cases h0 : n = 0
  · subst h0
    rw [h.rootParent]
    exact ⟨h.rootUsed, h.rootDir⟩
  · obtain ⟨d, i, e, hnames, rfl⟩ := h.exists_names hn h0
    rw [h.childParent hnames]
    exact ⟨hnames.used, hnames.dir⟩

/-! ## Lookup and paths -/

/-- What a lookup finds is an entry under that name. -/
theorem lookup_names {k : Nat} (hd : V.ibit d = true) (hl : V.lookup d name = some k) :
    ∃ i e, V.Names d i e ∧ e.inode = k ∧ cstr e.name = cstr name ∧
      scan (V.entry d) (named name) (V.count d) 0 = .found i e := by
  unfold lookup at hl
  split at hl
  · next hdir =>
    split at hl
    · next i e hs =>
      obtain ⟨-, hlt, hentry, hp, -⟩ := scan_found hs
      obtain ⟨hlive, heq⟩ := named_iff.mp hp
      have hk : e.inode = k := by
        unfold asInt at hl
        split at hl
        · exact Option.some.inj hl
        · cases hl
      exact ⟨i, e, ⟨hd, hdir.2, by omega, hentry, hlive⟩, hk, strEqual_iff.mp heq, hs⟩
    · cases hl
  · cases hl

/-- And where it finds nothing, no entry has the name. -/
theorem Tree.lookup_none (h : V.Tree) (hl : V.lookup d name = none) {i : Nat} {e : Dirent}
    (hnames : V.Names d i e) :
    cstr e.name ≠ cstr name := by
  intro heq
  have hfound : named name e = true := named_iff.mpr ⟨hnames.live, strEqual_iff.mpr heq⟩
  unfold lookup at hl
  rw [if_pos ⟨h.bound d hnames.used, hnames.dir⟩] at hl
  split at hl
  · next j e' hs =>
    obtain ⟨-, hlt, hentry, hp, -⟩ := scan_found hs
    have hnames' : V.Names d j e' :=
      ⟨hnames.used, hnames.dir, by omega, hentry, (named_iff.mp hp).1⟩
    have hbound := h.bound _ (h.childUsed hnames')
    rw [asInt_of_lt (by omega)] at hl
    cases hl
  · next hs =>
    cases hscan : scan (V.entry d) (named name) (V.count d) 0 with
    | found j e' => exact hs j e' hscan
    | ended =>
      obtain ⟨e', he', hp⟩ := scan_ended hscan i (by omega) (by have := hnames.lt; omega)
      rw [hnames.entry] at he'
      cases he'
      rw [hfound] at hp
      cases hp
    | blocked =>
      obtain ⟨j, -, hj, hnone⟩ := scan_blocked hscan
      exact h.mapped d hnames.used hnames.dir j (by omega) hnone

/-- A name leads to the entry that has it. -/
theorem Tree.lookup_some (h : V.Tree) {i : Nat} {e : Dirent} (hnames : V.Names d i e)
    (hname : cstr e.name = cstr name) :
    V.lookup d name = some e.inode := by
  cases hl : V.lookup d name with
  | none => exact absurd hname (h.lookup_none hl hnames)
  | some k =>
    obtain ⟨j, e', hnames', rfl, heq, -⟩ := lookup_names hnames.used hl
    have hij := h.distinct hnames' hnames (heq.trans hname.symm)
    subst hij
    have hentry := hnames'.entry
    rw [hnames.entry] at hentry
    rw [Option.some.inj hentry]

theorem Tree.walk_used (h : V.Tree) {current : Nat} {path : List (List UInt8)}
    (hc : V.ibit current = true) (hw : V.walk current path = some n) :
    V.ibit n = true := by
  induction path generalizing current with
  | nil =>
    unfold walk asInt at hw
    split at hw
    · rw [← Option.some.inj hw]
      exact hc
    · cases hw
  | cons c rest ih =>
    unfold walk at hw
    split at hw
    · cases hw
    split at hw
    · exact ih hc hw
    split at hw
    · split at hw
      · exact ih (h.parent hc).1 hw
      · cases hw
    · split at hw
      · cases hw
      · next child hl =>
        obtain ⟨i, e, hnames, rfl, -⟩ := lookup_names hc hl
        exact ih (h.childUsed hnames) hw

/-- A path, or the directory it starts from, that leads into the tree. -/
def Rooted (V : Volume) (cwd : Nat) (path : List UInt8) : Prop :=
  path.head? = some slash ∨ V.ibit cwd = true

theorem Tree.resolve_used (h : V.Tree) (hr : V.Rooted cwd path) (hw : V.resolve cwd path = some n) :
    V.ibit n = true := by
  unfold resolve at hw
  split at hw
  · cases hw
  · refine h.walk_used ?_ hw
    split
    · exact h.rootUsed
    · next hhead => exact hr.resolve_left hhead

/-- The name `resolveParent` cuts off is fit for a directory. -/
theorem resolveParent_name {parent : Nat} (hnul : 0 ∉ path)
    (hr : V.resolveParent cwd path = some (parent, name)) :
    GoodName name ∧ 0 ∉ name := by
  obtain ⟨p, hp⟩ : ∃ p, p = stripSlashes path := ⟨_, rfl⟩
  have hmem : ∀ x ∈ p, x ∈ path := by
    rw [hp]
    cases path with
    | nil => exact fun x hx => hx
    | cons c rest =>
      intro x hx
      rcases List.mem_cons.mp hx with rfl | hx
      · exact List.mem_cons_self
      · exact List.mem_cons_of_mem _ ((List.rdropWhile_prefix _ _).subset hx)
  have hsuffix := List.rtakeWhile_suffix (· != slash) p
  have hnul' : 0 ∉ p.rtakeWhile (· != slash) :=
    fun hx => hnul (hmem 0 (hsuffix.subset hx))
  have hslash : slash ∉ p.rtakeWhile (· != slash) := by
    intro hx
    have hne := List.mem_rtakeWhile_imp hx
    simp at hne
  suffices hname : name = p.rtakeWhile (· != slash) ∧
      ¬ (name.length = 0 ∨ name.length > 55) ∧
      ¬ (strEqual name [dot] = true ∨ strEqual name [dot, dot] = true) by
    obtain ⟨rfl, hlen, hdots⟩ := hname
    refine ⟨⟨by omega, by omega, hslash, fun h => hdots (Or.inl ?_),
      fun h => hdots (Or.inr ?_)⟩, hnul'⟩ <;> rw [h] <;> decide
  unfold resolveParent at hr
  dsimp only at hr
  rw [← hp] at hr
  split at hr
  · cases hr
  split at hr
  · cases hr
  next hlen =>
    split at hr
    · cases hr
    next hdots =>
      have hfst : ∀ o : Option Nat,
          (o.map fun x => (x, p.rtakeWhile (· != slash))) = some (parent, name) →
            name = p.rtakeWhile (· != slash) := by
        intro o ho
        obtain ⟨x, -, hx⟩ := Option.map_eq_some_iff.mp ho
        exact (congrArg Prod.snd hx).symm
      have hname : name = p.rtakeWhile (· != slash) := by
        split at hr
        · exact hfst _ hr
        · split at hr
          · exact (congrArg Prod.snd (Option.some.inj hr)).symm
          · exact hfst _ hr
      rw [hname]
      exact ⟨rfl, hlen, hdots⟩

/-- And the directory is in use. -/
theorem Tree.resolveParent_used (h : V.Tree) {parent : Nat} (hr : V.Rooted cwd path)
    (hp : V.resolveParent cwd path = some (parent, name)) :
    V.ibit parent = true := by
  obtain ⟨p, hp'⟩ : ∃ p, p = stripSlashes path := ⟨_, rfl⟩
  have hhead : path.head? = some slash → p.head? = some slash := by
    rw [hp']
    cases path with
    | nil => exact fun h => h
    | cons c rest => exact fun h => h
  have hcut : ∀ l, l <+: p → l ≠ [] → l.head? = p.head? := by
    rintro l ⟨t, rfl⟩ hne
    rw [List.head?_append_of_ne_nil _ hne]
  unfold resolveParent at hp
  dsimp only at hp
  rw [← hp'] at hp
  split at hp
  · cases hp
  split at hp
  · cases hp
  split at hp
  · cases hp
  split at hp
  · -- a bare name: the directory is the current one, and the path has no slash
    next hnil =>
      obtain ⟨c, hc, heq⟩ := Option.map_eq_some_iff.mp hp
      obtain ⟨rfl, -⟩ := Prod.mk.inj heq
      have habs : path.head? ≠ some slash := by
        intro habs
        have hmem := List.mem_of_mem_head? (hhead habs)
        have hall := List.rdropWhile_eq_nil_iff.mp hnil slash hmem
        simp at hall
      unfold asInt at hc
      split at hc
      · rw [← Option.some.inj hc]
        exact hr.resolve_left habs
      · cases hc
  · split at hp
    · obtain ⟨rfl, -⟩ := Prod.mk.inj (Option.some.inj hp)
      exact h.rootUsed
    · next hnil hone =>
      obtain ⟨c, hc, heq⟩ := Option.map_eq_some_iff.mp hp
      obtain ⟨rfl, -⟩ := Prod.mk.inj heq
      refine h.resolve_used ?_ hc
      rcases hr with habs | hcwd
      · left
        have hpos := List.length_pos_of_ne_nil hnil
        rw [hcut _ ((List.dropLast_prefix _).trans (List.rdropWhile_prefix _ _)), hhead habs]
        intro hempty
        have hlen := congrArg List.length hempty
        rw [List.length_dropLast] at hlen
        simp only [List.length_nil] at hlen
        omega
      · exact Or.inr hcwd

end Tree
/-! ## Changes outside the tree

Growing, writing and truncating files, and whatever happens to inodes that are
not in use, leave the directories alone. -/

/-- `W` has the directories of `V`, and files with the same mode and parent. -/
structure SameTree (V W : Volume) : Prop where
  ibit : W.ibit = V.ibit
  mode : ∀ n, V.ibit n = true → (W.node n).mode = (V.node n).mode
  parent : ∀ n, V.ibit n = true → (W.node n).parent = (V.node n).parent
  dir : ∀ n, V.ibit n = true → (V.node n).IsDir → W.SameAt V n

section SameTree

variable {V W : Volume}

theorem SameTree.names_iff (h : V.SameTree W) {d i : Nat} {e : Dirent} :
    W.Names d i e ↔ V.Names d i e := by
  have hdir : V.ibit d = true → ((W.node d).IsDir ↔ (V.node d).IsDir) := by
    intro hd
    unfold Node.IsDir
    rw [h.mode d hd]
  constructor
  · intro hn
    have hd : V.ibit d = true := h.ibit ▸ hn.used
    have hdir := (hdir hd).mp hn.dir
    have hsame := h.dir d hd hdir
    exact ⟨hd, hdir, hsame.count ▸ hn.lt, hsame.entry ▸ hn.entry, hn.live⟩
  · intro hn
    have hsame := h.dir d hn.used hn.dir
    exact ⟨h.ibit ▸ hn.used, (hdir hn.used).mpr hn.dir, hsame.count ▸ hn.lt,
      hsame.entry ▸ hn.entry, hn.live⟩

theorem SameTree.reachable (h : V.SameTree W) {n : Nat} (hn : V.Reachable n) :
    W.Reachable n := by
  induction hn with
  | root => exact .root
  | child _ hnames ih => exact .child ih (h.names_iff.mpr hnames)

theorem Tree.same (ht : V.Tree) (h : V.SameTree W) : W.Tree where
  rootUsed := h.ibit ▸ ht.rootUsed
  rootDir := by
    rw [(h.dir 0 ht.rootUsed ht.rootDir).1]
    exact ht.rootDir
  rootParent := (h.parent 0 ht.rootUsed).trans ht.rootParent
  bound n hn := ht.bound n (h.ibit ▸ hn)
  mapped d hd hdir i hi := by
    rw [h.ibit] at hd
    have hdir' : (V.node d).IsDir := by
      unfold Node.IsDir at hdir ⊢
      rwa [h.mode d hd] at hdir
    have hsame := h.dir d hd hdir'
    rw [hsame.entry]
    exact ht.mapped d hd hdir' i (hsame.count ▸ hi)
  pos hn := ht.pos (h.names_iff.mp hn)
  childUsed hn := h.ibit ▸ ht.childUsed (h.names_iff.mp hn)
  childMode hn := by
    have hn := h.names_iff.mp hn
    exact (h.mode _ (ht.childUsed hn)).trans (ht.childMode hn)
  childParent hn := by
    have hn := h.names_iff.mp hn
    exact (h.parent _ (ht.childUsed hn)).trans (ht.childParent hn)
  name hn := ht.name (h.names_iff.mp hn)
  unique hn hn' := ht.unique (h.names_iff.mp hn) (h.names_iff.mp hn')
  distinct hn hn' := ht.distinct (h.names_iff.mp hn) (h.names_iff.mp hn')
  reach n hn := h.reachable (ht.reach n (h.ibit ▸ hn))

/-- Whatever is done to an inode that is not in use. -/
theorem sameTree_of_unused {k : Nat} (hibit : W.ibit = V.ibit) (hk : V.ibit k = false)
    (hother : ∀ n, n ≠ k → W.SameAt V n) : V.SameTree W := by
  have hne : ∀ n, V.ibit n = true → n ≠ k := by
    rintro n hn rfl
    rw [hk] at hn
    cases hn
  exact ⟨hibit, fun n hn => by rw [(hother n (hne n hn)).1],
    fun n hn => by rw [(hother n (hne n hn)).1], fun n hn _ => hother n (hne n hn)⟩

/-- Whatever is done to the size and the blocks of a regular file. -/
theorem sameTree_of_file {n : Nat} (hibit : W.ibit = V.ibit) (hfile : (V.node n).IsFile)
    (hmode : (W.node n).mode = (V.node n).mode)
    (hparent : (W.node n).parent = (V.node n).parent)
    (hother : ∀ m, m ≠ n → W.SameAt V m) : V.SameTree W := by
  refine ⟨hibit, fun m _ => ?_, fun m _ => ?_, fun m _ hdir => ?_⟩
  · by_cases hm : m = n
    · rw [hm, hmode]
    · rw [(hother m hm).1]
  · by_cases hm : m = n
    · rw [hm, hparent]
    · rw [(hother m hm).1]
  · refine hother m ?_
    rintro rfl
    unfold Node.IsFile at hfile
    unfold Node.IsDir at hdir
    omega

end SameTree

/-! ## A new name -/

/-- A fresh inode `k` may be filed under `name` in slot `index` of `parent`. -/
structure Fileable (V : Volume) (k : Nat) (node : Node) (parent index : Nat)
    (name : List UInt8) : Prop where
  pos : 1 ≤ k
  lt : k < 256
  free : V.ibit k = false
  parentUsed : V.ibit parent = true
  parentDir : (V.node parent).IsDir
  mode : node.mode < 2 ^ 32
  size : node.size = 0
  parentField : node.parent = parent
  good : GoodName name
  noNul : 0 ∉ name
  fresh : ∀ i e, V.Names parent i e → cstr e.name ≠ name
  slot : index = V.count parent ∨
    index < V.count parent ∧ ∀ e, V.entry parent index = some e → ¬ e.Live

/-- The volume with the inode and its name. -/
def file (V : Volume) (k : Nat) (node : Node) (parent index : Nat) (name : List UInt8) :
    Volume :=
  (V.plant k node).addEntry parent index k node.mode name

section File

variable {V : Volume} {k parent index : Nat} {node : Node} {name : List UInt8}

theorem file_ibit : (V.file k node parent index name).ibit = update V.ibit k true :=
  rfl

theorem file_used_iff (n : Nat) :
    (V.file k node parent index name).ibit n = true ↔ n = k ∨ V.ibit n = true := by
  rw [file_ibit]
  by_cases hn : n = k
  · rw [hn, update_self]
    simp
  · rw [update_of_ne hn]
    simp [hn]

variable {n i : Nat}

theorem file_sameAt (hk : n ≠ k) (hp : n ≠ parent) : (V.file k node parent index name).SameAt V n :=
  (sameAt_setNode hp _).trans ((sameAt_setBlock hp).trans (plant_sameAt V node hk))

variable (h : V.Fileable k node parent index name)
include h

theorem Fileable.ne : parent ≠ k := by
  intro heq
  have hused := h.parentUsed
  rw [heq, h.free] at hused
  cases hused

theorem Fileable.node_new : (V.file k node parent index name).node k = node := by
  unfold file addEntry plant
  rw [setNode_node, update_of_ne h.ne.symm, setBlock_node, setNode_node,
    update_self]

theorem Fileable.block_new (j : Nat) : (V.file k node parent index name).block k j = none := by
  unfold file addEntry plant
  rw [setNode_block, setBlock_block, if_neg fun hk => h.ne hk.1.symm, setNode_block,
    clear_block_self]

theorem Fileable.node_parent :
    (V.file k node parent index name).node parent =
      { V.node parent with
        size := if index = V.count parent then (V.node parent).size + 64
          else (V.node parent).size } := by
  have hsame := plant_sameAt V node h.ne
  unfold file addEntry
  rw [setNode_node, update_self, hsame.count, hsame.1]

theorem Fileable.count_parent :
    (V.file k node parent index name).count parent =
      if index = V.count parent then V.count parent + 1 else V.count parent := by
  have hcount : (V.file k node parent index name).count parent =
    ((V.file k node parent index name).node parent).size / 64 := rfl
  rw [hcount, h.node_parent]
  by_cases heq : index = V.count parent
  · rw [if_pos heq, if_pos heq, Nat.add_div_right _ (by omega)]
    rfl
  · rw [if_neg heq, if_neg heq]
    rfl

theorem Fileable.entry_new :
    (V.file k node parent index name).entry parent index =
      some (record k node.mode name) :=
  entry_addEntry_self (by have := h.lt; omega) h.mode h.good.short

theorem Fileable.entry_old (ht : V.Tree) (hi : i < V.count parent) (hne : i ≠ index) :
    (V.file k node parent index name).entry parent i = V.entry parent i := by
  have hsame := plant_sameAt V node h.ne
  have hmapped := ht.mapped parent h.parentUsed h.parentDir i hi
  unfold file
  rw [entry_addEntry_ne h.good.short (fun hk => hne hk.2) (by rwa [hsame.entry]),
    hsame.entry]

/-- An entry of the directory is an old one or the new one. -/
theorem Fileable.lt_count (hi : i < (V.file k node parent index name).count parent)
    (hne : i ≠ index) :
    i < V.count parent := by
  rw [h.count_parent] at hi
  rcases h.slot with heq | ⟨hslot, -⟩
  · rw [if_pos heq] at hi
    omega
  · rw [if_neg (by omega)] at hi
    exact hi

theorem Fileable.mapped (ht : V.Tree) {d : Nat}
    (hd : (V.file k node parent index name).ibit d = true)
    (hdir : ((V.file k node parent index name).node d).IsDir)
    (hi : i < (V.file k node parent index name).count d) :
    (V.file k node parent index name).entry d i ≠ none := by
  by_cases hdk : d = k
  · unfold count at hi
    rw [hdk, h.node_new, h.size] at hi
    omega
  rw [file_ibit, update_of_ne hdk] at hd
  by_cases hdp : d = parent
  · subst hdp
    by_cases hne : i = index
    · rw [hne, h.entry_new]
      exact Option.some_ne_none _
    · have hlt := h.lt_count hi hne
      rw [h.entry_old ht hlt hne]
      exact ht.mapped d hd h.parentDir i hlt
  · have hs : (V.file k node parent index name).SameAt V d := file_sameAt hdk hdp
    rw [hs.entry]
    exact ht.mapped d hd (hs.1 ▸ hdir) i (hs.count ▸ hi)

/-- The names after filing: the old ones and the new one. -/
theorem Fileable.names_iff (ht : V.Tree) {d : Nat} {e : Dirent} :
    (V.file k node parent index name).Names d i e ↔
      V.Names d i e ∨ (d = parent ∧ i = index ∧ e = record k node.mode name) := by
  constructor
  · intro hn
    by_cases hdk : d = k
    · -- the new inode has no entries
      have hlt := hn.lt
      unfold count at hlt
      rw [hdk, h.node_new, h.size] at hlt
      omega
    · have hused : V.ibit d = true := by
        have hused := hn.used
        rwa [file_ibit, update_of_ne hdk] at hused
      by_cases hdp : d = parent
      · subst hdp
        by_cases hi : i = index
        · subst hi
          refine Or.inr ⟨rfl, rfl, ?_⟩
          have hentry := hn.entry
          rw [h.entry_new] at hentry
          exact (Option.some.inj hentry).symm
        · have hlt := h.lt_count hn.lt hi
          exact Or.inl ⟨hused, h.parentDir, hlt, h.entry_old ht hlt hi ▸ hn.entry, hn.live⟩
      · have hs : (V.file k node parent index name).SameAt V d := file_sameAt hdk hdp
        exact Or.inl ⟨hused, hs.1 ▸ hn.dir, hs.count ▸ hn.lt, hs.entry ▸ hn.entry, hn.live⟩
  · have hdirp : ((V.file k node parent index name).node parent).IsDir := by
      rw [h.node_parent]
      exact h.parentDir
    have husedp : (V.file k node parent index name).ibit parent = true := by
      rw [file_ibit, update_of_ne h.ne]
      exact h.parentUsed
    rintro (hn | ⟨rfl, rfl, rfl⟩)
    · have hdk : d ≠ k := by
        intro heq
        have hused := hn.used
        rw [heq, h.free] at hused
        cases hused
      by_cases hdp : d = parent
      · subst hdp
        have hi : i ≠ index := by
          rintro rfl
          rcases h.slot with heq | ⟨-, hdead⟩
          · exact absurd hn.lt (by omega)
          · exact hdead e hn.entry hn.live
        refine ⟨husedp, hdirp, ?_, (h.entry_old ht hn.lt hi).trans hn.entry, hn.live⟩
        have hlt := hn.lt
        rw [h.count_parent]
        split <;> omega
      · have hs : (V.file k node parent index name).SameAt V d := file_sameAt hdk hdp
        refine ⟨?_, hs.1 ▸ hn.dir, hs.count ▸ hn.lt, hs.entry ▸ hn.entry, hn.live⟩
        rw [file_ibit, update_of_ne hdk]
        exact hn.used
    · refine ⟨husedp, hdirp, ?_, h.entry_new, ?_⟩
      · rw [h.count_parent]
        rcases h.slot with heq | ⟨hslot, -⟩
        · rw [if_pos heq]
          omega
        · rw [if_neg (by omega)]
          exact hslot
      · have hlt := h.lt
        unfold Dirent.Live record
        dsimp only
        omega

theorem Fileable.cstr_record : cstr (record k node.mode name).name = name :=
  Dirent.cstr_name h.good.short h.noNul

theorem Fileable.mode_eq (hn : V.ibit n = true) :
    ((V.file k node parent index name).node n).mode = (V.node n).mode ∧
      ((V.file k node parent index name).node n).parent = (V.node n).parent := by
  have hnk : n ≠ k := by
    rintro rfl
    rw [h.free] at hn
    cases hn
  by_cases hnp : n = parent
  · rw [hnp, h.node_parent]
    exact ⟨rfl, rfl⟩
  · rw [(file_sameAt hnk hnp).1]
    exact ⟨rfl, rfl⟩

theorem Fileable.reachable (ht : V.Tree) (hn : V.Reachable n) :
    (V.file k node parent index name).Reachable n := by
  induction hn with
  | root => exact .root
  | child _ hnames ih => exact .child ih ((h.names_iff ht).mpr (Or.inl hnames))

theorem Tree.file (ht : V.Tree) : (V.file k node parent index name).Tree := by
  have hold : ∀ {d i e}, V.Names d i e → e.inode ≠ k := by
    intro d i e hn heq
    have hused := ht.childUsed hn
    rw [heq, h.free] at hused
    cases hused
  have hcases : ∀ {d i e}, (V.file k node parent index name).Names d i e →
      V.Names d i e ∨ (d = parent ∧ i = index ∧ e = record k node.mode name) :=
    fun hn => (h.names_iff ht).mp hn
  have hroot := h.mode_eq ht.rootUsed
  refine
    { rootUsed := (file_used_iff 0).mpr (Or.inr ht.rootUsed)
      rootDir := ?_
      rootParent := hroot.2.trans ht.rootParent
      bound := ?_, mapped := ?_, pos := ?_, childUsed := ?_, childMode := ?_
      childParent := ?_, name := ?_, unique := ?_, distinct := ?_, reach := ?_ }
  · unfold Node.IsDir
    rw [hroot.1]
    exact ht.rootDir
  · intro n hn
    rcases (file_used_iff n).mp hn with rfl | hn
    · exact h.lt
    · exact ht.bound n hn
  · intro d hd hdir i hi
    exact h.mapped ht hd hdir hi
  · intro d i e hn
    rcases hcases hn with hn | ⟨-, -, rfl⟩
    · exact ht.pos hn
    · exact h.pos
  · intro d i e hn
    rw [file_used_iff]
    rcases hcases hn with hn | ⟨-, -, rfl⟩
    · exact Or.inr (ht.childUsed hn)
    · exact Or.inl rfl
  · intro d i e hn
    rcases hcases hn with hn | ⟨-, -, rfl⟩
    · rw [(h.mode_eq (ht.childUsed hn)).1]
      exact ht.childMode hn
    · exact congrArg Node.mode h.node_new
  · intro d i e hn
    rcases hcases hn with hn | ⟨rfl, -, rfl⟩
    · rw [(h.mode_eq (ht.childUsed hn)).2]
      exact ht.childParent hn
    · exact (congrArg Node.parent h.node_new).trans h.parentField
  · intro d i e hn
    rcases hcases hn with hn | ⟨-, -, rfl⟩
    · exact ht.name hn
    · rw [h.cstr_record]
      exact h.good
  · intro d i e d' i' e' hn hn' heq
    rcases hcases hn with hV | ⟨rfl, rfl, rfl⟩
    · rcases hcases hn' with hV' | ⟨rfl, rfl, rfl⟩
      · exact ht.unique hV hV' heq
      · exact absurd heq (hold hV)
    · rcases hcases hn' with hV' | ⟨rfl, rfl, rfl⟩
      · exact absurd heq.symm (hold hV')
      · exact ⟨rfl, rfl⟩
  · intro d i e i' e' hn hn' heq
    rcases hcases hn with hV | ⟨rfl, rfl, rfl⟩
    · rcases hcases hn' with hV' | ⟨rfl, rfl, rfl⟩
      · exact ht.distinct hV hV' heq
      · rw [h.cstr_record] at heq
        exact absurd heq (h.fresh i e hV)
    · rcases hcases hn' with hV' | ⟨-, rfl, -⟩
      · rw [h.cstr_record] at heq
        exact absurd heq.symm (h.fresh i' e' hV')
      · rfl
  · intro n hn
    rcases (file_used_iff n).mp hn with rfl | hn
    · exact .child (h.reachable ht (ht.reach parent h.parentUsed))
        ((h.names_iff ht).mpr (Or.inr ⟨rfl, rfl, rfl⟩))
    · exact h.reachable ht (ht.reach n hn)

end File

/-! ## A name taken away -/

/-- Inode `k` has its name in slot `j` of `parent` and no entries of its own. -/
structure Prunable (V : Volume) (k parent j : Nat) (e : Dirent) : Prop where
  names : V.Names parent j e
  inode : e.inode = k
  childless : ∀ i e, ¬ V.Names k i e

/-- The volume without the inode and without its name. -/
def prune (V : Volume) (k parent j : Nat) : Volume :=
  (((V.clear k).setNode k Node.zero).bury parent j).setIbit k false

section Prune

variable {V : Volume} {k parent j : Nat} {e : Dirent}

theorem prune_ibit : (V.prune k parent j).ibit = update V.ibit k false := rfl

theorem prune_used_iff (n : Nat) :
    (V.prune k parent j).ibit n = true ↔ n ≠ k ∧ V.ibit n = true := by
  rw [prune_ibit]
  by_cases hn : n = k
  · rw [hn, update_self]
    simp
  · rw [update_of_ne hn]
    simp [hn]

variable {n : Nat}

theorem prune_node (hn : n ≠ k) : (V.prune k parent j).node n = V.node n := by
  unfold prune bury
  rw [setIbit_node, setBlock_node, setNode_node, update_of_ne hn, clear_node]

theorem prune_count (hn : n ≠ k) : (V.prune k parent j).count n = V.count n := by
  unfold count
  rw [prune_node hn]

theorem prune_sameAt (hk : n ≠ k) (hp : n ≠ parent) :
    (V.prune k parent j).SameAt V n :=
  (sameAt_setIbit k false).trans ((sameAt_setBlock hp).trans
    ((sameAt_setNode hk _).trans (sameAt_clear hk)))

variable (h : V.Prunable k parent j e)
include h

theorem Prunable.ne : parent ≠ k := by
  rintro rfl
  exact h.childless j e h.names

/-- The directory before the entry is buried is still what it was. -/
private theorem Prunable.entry_before :
    ((V.clear k).setNode k Node.zero).entry parent = V.entry parent :=
  ((sameAt_setNode h.ne _).trans (sameAt_clear h.ne)).entry

theorem Prunable.entry_gone :
    (V.prune k parent j).entry parent j = some { e with inode := 0xffffffff } := by
  have hentry := h.names.entry
  rw [← h.entry_before] at hentry
  exact entry_bury_self hentry

theorem Prunable.entry_kept {i : Nat} (hi : i ≠ j) :
    (V.prune k parent j).entry parent i = V.entry parent i := by
  have hentry := h.names.entry
  rw [← h.entry_before] at hentry
  rw [← h.entry_before]
  exact entry_bury_ne (fun hk => hi hk.2) (by rw [hentry]; exact Option.some_ne_none _)

theorem Prunable.names_iff {d i : Nat} {e' : Dirent} :
    (V.prune k parent j).Names d i e' ↔ V.Names d i e' ∧ ¬ (d = parent ∧ i = j) := by
  constructor
  · intro hn
    obtain ⟨hdk, hused⟩ := (prune_used_iff d).mp hn.used
    have hdir := hn.dir
    have hlt := hn.lt
    rw [prune_node hdk] at hdir
    rw [prune_count hdk] at hlt
    by_cases hdp : d = parent
    · subst hdp
      have hi : i ≠ j := by
        rintro rfl
        have hentry := hn.entry
        rw [h.entry_gone] at hentry
        have hlive := hn.live
        rw [← Option.some.inj hentry] at hlive
        exact hlive rfl
      exact ⟨⟨hused, hdir, hlt, h.entry_kept hi ▸ hn.entry, hn.live⟩, fun hk => hi hk.2⟩
    · have hs : (V.prune k parent j).SameAt V d := prune_sameAt hdk hdp
      exact ⟨⟨hused, hdir, hlt, hs.entry ▸ hn.entry, hn.live⟩, fun hk => hdp hk.1⟩
  · rintro ⟨hn, hnot⟩
    have hdk : d ≠ k := by
      rintro rfl
      exact h.childless i e' hn
    refine ⟨(prune_used_iff d).mpr ⟨hdk, hn.used⟩, ?_, ?_, ?_, hn.live⟩
    · rw [prune_node hdk]
      exact hn.dir
    · rw [prune_count hdk]
      exact hn.lt
    · by_cases hdp : d = parent
      · subst hdp
        rw [h.entry_kept fun hi => hnot ⟨rfl, hi⟩]
        exact hn.entry
      · have hs : (V.prune k parent j).SameAt V d := prune_sameAt hdk hdp
        rw [hs.entry]
        exact hn.entry

/-- Nothing was reached through the inode that is gone. -/
theorem Prunable.reachable (hn : V.Reachable n) (hnk : n ≠ k) :
    (V.prune k parent j).Reachable n := by
  induction hn with
  | root => exact .root
  | @child d i e' _ hnames ih =>
    have hdk : d ≠ k := by
      rintro rfl
      exact h.childless i e' hnames
    refine .child (ih hdk) (h.names_iff.mpr ⟨hnames, ?_⟩)
    rintro ⟨rfl, rfl⟩
    have hentry := hnames.entry
    rw [h.names.entry] at hentry
    rw [← Option.some.inj hentry] at hnk
    exact hnk h.inode

/-- Taking away an inode without entries keeps the tree. -/
theorem Tree.prune (ht : V.Tree) : (V.prune k parent j).Tree := by
  have h0 : (0 : Nat) ≠ k := by
    have hpos := ht.pos h.names
    rw [h.inode] at hpos
    omega
  have hcases : ∀ {d i e'}, (V.prune k parent j).Names d i e' →
      V.Names d i e' ∧ e'.inode ≠ k := by
    intro d i e' hn
    obtain ⟨hV, hnot⟩ := h.names_iff.mp hn
    exact ⟨hV, fun heq => hnot (ht.unique hV h.names (heq.trans h.inode.symm))⟩
  refine
    { rootUsed := (prune_used_iff 0).mpr ⟨h0, ht.rootUsed⟩
      rootDir := by rw [prune_node h0]; exact ht.rootDir
      rootParent := by rw [prune_node h0]; exact ht.rootParent
      bound := fun n hn => ht.bound n ((prune_used_iff n).mp hn).2
      mapped := ?_
      pos := fun hn => ht.pos (hcases hn).1
      childUsed := fun hn => ?_, childMode := fun hn => ?_, childParent := fun hn => ?_
      name := fun hn => ht.name (hcases hn).1
      unique := fun hn hn' => ht.unique (hcases hn).1 (hcases hn').1
      distinct := fun hn hn' => ht.distinct (hcases hn).1 (hcases hn').1
      reach := fun n hn => ?_ }
  · intro d hd hdir i hi
    obtain ⟨hdk, hused⟩ := (prune_used_iff d).mp hd
    rw [prune_node hdk] at hdir
    rw [prune_count hdk] at hi
    by_cases hdp : d = parent
    · subst hdp
      by_cases hij : i = j
      · rw [hij, h.entry_gone]
        exact Option.some_ne_none _
      · rw [h.entry_kept hij]
        exact ht.mapped d hused hdir i hi
    · have hs : (V.prune k parent j).SameAt V d := prune_sameAt hdk hdp
      rw [hs.entry]
      exact ht.mapped d hused hdir i hi
  · obtain ⟨hV, hne⟩ := hcases hn
    exact (prune_used_iff _).mpr ⟨hne, ht.childUsed hV⟩
  · obtain ⟨hV, hne⟩ := hcases hn
    rw [prune_node hne]
    exact ht.childMode hV
  · obtain ⟨hV, hne⟩ := hcases hn
    rw [prune_node hne]
    exact ht.childParent hV
  · obtain ⟨hnk, hused⟩ := (prune_used_iff n).mp hn
    exact h.reachable (ht.reach n hused) hnk

end Prune

/-! ## What outlives a change

Later results follow one inode or one name through many calls. They only need
to know that it is not the one a call takes away. -/

/-- `W` is a tree again, and everything in use in `V` except `gone` is still
there, under the same name. -/
structure Persists (V W : Volume) (gone : Nat → Prop) : Prop where
  tree : W.Tree
  used : ∀ {n}, V.ibit n = true → ¬ gone n → W.ibit n = true
  mode : ∀ {n}, V.ibit n = true → ¬ gone n → (W.node n).mode = (V.node n).mode
  names : ∀ {d i e}, V.Names d i e → ¬ gone e.inode → W.Names d i e

section Persists

variable {U V W : Volume} {gone gone' : Nat → Prop}

theorem Tree.refl (h : V.Tree) : V.Persists V gone :=
  ⟨h, fun hn _ => hn, fun _ _ => rfl, fun hn _ => hn⟩

theorem Persists.trans (h1 : U.Persists V gone) (h2 : V.Persists W gone') :
    U.Persists W fun n => gone n ∨ gone' n where
  tree := h2.tree
  used hn hg := h2.used (h1.used hn fun h => hg (Or.inl h)) fun h => hg (Or.inr h)
  mode hn hg := (h2.mode (h1.used hn fun h => hg (Or.inl h)) fun h => hg (Or.inr h)).trans
    (h1.mode hn fun h => hg (Or.inl h))
  names hn hg := h2.names (h1.names hn fun h => hg (Or.inl h)) fun h => hg (Or.inr h)

theorem Persists.mono (h : V.Persists W gone) (hg : ∀ n, gone n → gone' n) :
    V.Persists W gone' where
  tree := h.tree
  used hn hng := h.used hn fun h => hng (hg _ h)
  mode hn hng := h.mode hn fun h => hng (hg _ h)
  names hn hng := h.names hn fun h => hng (hg _ h)

theorem Persists.isFile (h : V.Persists W gone) {n : Nat} (hn : V.ibit n = true)
    (hg : ¬ gone n) : (W.node n).IsFile ↔ (V.node n).IsFile := by
  unfold Node.IsFile
  rw [h.mode hn hg]

theorem SameTree.persists (h : V.SameTree W) (ht : V.Tree) : V.Persists W gone :=
  ⟨ht.same h, fun hn _ => h.ibit ▸ hn, fun hn _ => h.mode _ hn,
    fun hn _ => h.names_iff.mpr hn⟩

theorem Fileable.persists {k parent index : Nat} {node : Node} {name : List UInt8}
    (h : V.Fileable k node parent index name) (ht : V.Tree) :
    V.Persists (V.file k node parent index name) gone :=
  ⟨ht.file h, fun hn _ => (file_used_iff _).mpr (Or.inr hn), fun hn _ => (h.mode_eq hn).1,
    fun hn _ => (h.names_iff ht).mpr (Or.inl hn)⟩

theorem Prunable.persists {k parent j : Nat} {e : Dirent} (h : V.Prunable k parent j e)
    (ht : V.Tree) : V.Persists (V.prune k parent j) (· = k) where
  tree := ht.prune h
  used hn hk := (prune_used_iff _).mpr ⟨hk, hn⟩
  mode _ hk := by rw [prune_node hk]
  names hn hk := by
    refine h.names_iff.mpr ⟨hn, ?_⟩
    rintro ⟨rfl, rfl⟩
    have hentry := hn.entry
    rw [h.names.entry] at hentry
    exact hk ((Option.some.inj hentry) ▸ h.inode)

end Persists

end Volume
end MiniOs.Spec
