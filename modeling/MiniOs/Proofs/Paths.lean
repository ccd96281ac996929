import MiniOs.Proofs.Agreement
import MiniOs.Proofs.Getcwd

/-!
# Paths read from both ends

Two functions take a path apart. `resolve` reads components from the front and walks
along them. `resolve_parent` drops the slashes at the end and cuts off what stands behind
the last slash that remains. Both are about one list, the components of the path: the
second function walks along all of them but the last, and `walk_append` is all it takes
to see that a lookup of the last one is the missing step. No well-formed volume is needed
for that.

`minifs_getcwd` puts a path together, from the end to the front. The names it collects
are those on the way from the root (`Leads`), and walking along them leads back. Its guard
and the one of `resolve` are written differently and admit the same paths, those of at
most 255 bytes.
-/

namespace MiniOs.Spec

open MiniOs.Lib MiniOs.Fs

/-! ## Components from the back -/

theorem components_append_slash (l r : List UInt8) :
    components (l ++ slash :: r) = components l ++ components r := by
  unfold components
  rw [List.splitOnP_append_cons _ _ (by simp), List.filter_append]

theorem components_single {c : List UInt8} (hc : c ≠ []) (hslash : slash ∉ c) :
    components c = [c] := by
  have h := components_append hc hslash (Or.inl rfl)
  rwa [List.append_nil] at h

theorem components_stripSlashes (path : List UInt8) :
    components (stripSlashes path) = components path := by
  cases path with
  | nil => rfl
  | cons c rest =>
    show components (c :: rest.rdropWhile (· == slash)) = _
    induction rest using List.reverseRecOn with
    | nil => rfl
    | append_singleton rest x ih =>
      by_cases hx : (x == slash) = true
      · have hback := components_append_slash (c :: rest) []
        rw [components_nil, List.append_nil, List.cons_append] at hback
        rw [List.rdropWhile_concat_pos (· == slash) _ _ hx, ih, eq_of_beq hx, hback]
      · rw [List.rdropWhile_concat_neg (· == slash) _ _ hx]

theorem head?_stripSlashes (path : List UInt8) : (stripSlashes path).head? = path.head? := by
  cases path <;> rfl

theorem length_stripSlashes (path : List UInt8) : (stripSlashes path).length ≤ path.length := by
  cases path with
  | nil => exact Nat.le_refl 0
  | cons c rest => exact Nat.succ_le_succ (List.rdropWhile_prefix _ _).length_le

/-- What stands in front of the last component: nothing, or something that ends in a slash. -/
theorem rdropWhile_ne_slash (p : List UInt8) :
    p.rdropWhile (· != slash) = [] ∨ ∃ front, p.rdropWhile (· != slash) = front ++ [slash] := by
  by_cases hnil : p.rdropWhile (· != slash) = []
  · exact Or.inl hnil
  · have hlast : (p.rdropWhile (· != slash)).getLast hnil = slash := by
      simpa using List.rdropWhile_last_not (· != slash) p hnil
    have hsplit := List.dropLast_append_getLast hnil
    rw [hlast] at hsplit
    exact Or.inr ⟨_, hsplit.symm⟩

namespace Volume

variable {V : Volume}

/-! ## Walks -/

variable {n d cwd : Nat} {name : List UInt8} {names : List (List UInt8)}

theorem walk_append {current : Nat} {l : List (List UInt8)} (h : V.walk current l = some n)
    (rest : List (List UInt8)) : V.walk current (l ++ rest) = V.walk n rest := by
  induction l generalizing current with
  | nil =>
    rw [walk, asInt] at h
    split at h
    · rw [Option.some.inj h, List.nil_append]
    · cases h
  | cons c l ih =>
    rw [walk] at h
    rw [List.cons_append, walk]
    by_cases hlong : c.length > 55
    · rw [if_pos hlong] at h
      cases h
    rw [if_neg hlong] at h ⊢
    by_cases hdot : strEqual c [dot] = true
    · rw [if_pos hdot] at h ⊢
      exact ih h
    rw [if_neg hdot] at h ⊢
    by_cases hdots : strEqual c [dot, dot] = true
    · rw [if_pos hdots] at h ⊢
      by_cases hlt : current < 256
      · rw [if_pos hlt] at h ⊢
        exact ih h
      · rw [if_neg hlt] at h
        cases h
    · rw [if_neg hdots] at h ⊢
      cases hl : V.lookup current c with
      | none =>
        rw [hl] at h
        cases h
      | some child =>
        rw [hl] at h
        exact ih h

/-- What a lookup finds is a number the calls can return. -/
theorem asInt_of_lookup {k : Nat} (h : V.lookup d name = some k) :
    asInt k = some k := by
  unfold lookup at h
  split at h
  · split at h
    · unfold asInt at h
      split at h
      · next hlt =>
        rw [← Option.some.inj h]
        exact asInt_of_lt hlt
      · cases h
    · cases h
  · cases h

/-- The last step of a walk is a lookup. -/
theorem walk_single (h : GoodName name) (hnul : 0 ∉ name) :
    V.walk d [name] = V.lookup d name := by
  have hne : ∀ other : List UInt8, 0 ∉ other → name ≠ other → ¬ strEqual name other = true := by
    intro other hother hne heq
    rw [strEqual_iff, cstr_of_noNul hnul, cstr_of_noNul hother] at heq
    exact hne heq
  have hshort := h.short
  rw [walk, if_neg (by omega), if_neg (hne [dot] (by decide) h.notDot),
    if_neg (hne [dot, dot] (by decide) h.notDots)]
  cases hl : V.lookup d name with
  | none => rfl
  | some child => exact asInt_of_lookup hl

/-- The walk of `resolve_parent`, for a path without slashes at its end. -/
theorem resolveParent_front {head : List UInt8} (hname : name ≠ []) (hslash : slash ∉ name)
    (hhead : head = [] ∨ ∃ front, head = front ++ [slash]) (hlen : head.length < 256)
    (h : (if head = [] then (asInt cwd).map fun cwd => (cwd, name)
      else if head.length = 1 then some (0, name)
      else (V.resolve cwd head.dropLast).map fun parent => (parent, name)) = some (d, name)) :
    ∃ front, components (head ++ name) = front ++ [name] ∧
      V.walk (if (head ++ name).head? = some slash then 0 else cwd) front = some d := by
  have hdir : ∀ {o : Option Nat}, (o.map fun x => (x, name)) = some (d, name) → o = some d := by
    intro o ho
    obtain ⟨x, hx, heq⟩ := Option.map_eq_some_iff.mp ho
    rw [hx, (Prod.mk.inj heq).1]
  rcases hhead with rfl | ⟨front, rfl⟩
  · have hfirst : ¬ name.head? = some slash := fun hin => hslash (List.mem_of_mem_head? hin)
    rw [if_pos rfl] at h
    rw [List.nil_append, components_single hname hslash, if_neg hfirst]
    exact ⟨[], rfl, hdir h⟩
  have hcomp : components (front ++ [slash] ++ name) = components front ++ [name] := by
    rw [List.append_assoc, ← components_single hname hslash]
    exact components_append_slash front name
  rw [if_neg (by simp)] at h
  refine ⟨components front, hcomp, ?_⟩
  by_cases hroot : front = []
  · subst hroot
    have h : some (0, name) = some (d, name) := h
    rw [← (Prod.mk.inj (Option.some.inj h)).1]
    rfl
  have hlong : ¬ (front ++ [slash]).length = 1 := by
    rw [List.length_append, List.length_singleton]
    have := List.length_pos_of_ne_nil hroot
    omega
  rw [List.length_append] at hlen
  rw [if_neg hlong, List.dropLast_concat, resolve, if_neg (not_or.mpr ⟨hroot, by omega⟩)] at h
  rw [List.append_assoc, List.head?_append_of_ne_nil _ hroot]
  exact hdir h

/-- `resolve_parent` walks along every component but the last. -/
theorem resolveParent_walk {path : List UInt8} (hnul : 0 ∉ path)
    (h : V.resolveParent cwd path = some (d, name)) :
    ¬ (path = [] ∨ path.length ≥ 256) ∧ ∃ front, components path = front ++ [name] ∧
      V.walk (if path.head? = some slash then 0 else cwd) front = some d := by
  have hgood := (resolveParent_name hnul h).1
  unfold resolveParent at h
  dsimp only at h
  split at h
  · cases h
  next hsize =>
  have hne : path ≠ [] := fun hnil => hsize (Or.inl (by rw [hnil]; rfl))
  refine ⟨not_or.mpr ⟨hne, fun hlong => hsize (Or.inr hlong)⟩, ?_⟩
  rw [← components_stripSlashes path, ← head?_stripSlashes path]
  have hlen := length_stripSlashes path
  generalize stripSlashes path = p at h hlen ⊢
  have hsplit : p.rdropWhile (· != slash) ++ p.rtakeWhile (· != slash) = p :=
    List.rdropWhile_append_rtakeWhile
  have hhead := rdropWhile_ne_slash p
  have hshort := (List.rdropWhile_prefix (· != slash) p).length_le
  generalize p.rtakeWhile (· != slash) = last at h hsplit
  split at h
  · cases h
  split at h
  · cases h
  obtain rfl : last = name := by
    split_ifs at h
    · obtain ⟨x, -, heq⟩ := Option.map_eq_some_iff.mp h
      exact (Prod.mk.inj heq).2
    · exact (Prod.mk.inj (Option.some.inj h)).2
    · obtain ⟨x, -, heq⟩ := Option.map_eq_some_iff.mp h
      exact (Prod.mk.inj heq).2
  have hwalk := resolveParent_front (List.ne_nil_of_length_pos hgood.pos) hgood.noSlash hhead
    (by omega) h
  rwa [hsplit] at hwalk

/-- The function that walks along the whole path finds what a lookup of the last component
finds. -/
theorem resolve_of_resolveParent {path : List UInt8} (hnul : 0 ∉ path)
    (h : V.resolveParent cwd path = some (d, name)) : V.resolve cwd path = V.lookup d name := by
  obtain ⟨hgood, hname⟩ := resolveParent_name hnul h
  obtain ⟨hsize, front, hcomp, hwalk⟩ := resolveParent_walk hnul h
  rw [resolve, if_neg hsize, hcomp, walk_append hwalk, walk_single hgood hname]

/-! ## The way down -/

/-- The names on the way from the root to an inode. -/
inductive Leads (V : Volume) : List (List UInt8) → Nat → Prop
  | root : Leads V [] 0
  | child {names : List (List UInt8)} {d i : Nat} {e : Dirent} :
      Leads V names d → V.Names d i e → Leads V (names ++ [cstr e.name]) e.inode

theorem Tree.exists_leads (h : V.Tree) (hn : V.ibit n = true) :
    ∃ names, V.Leads names n := by
  induction h.reach n hn with
  | root => exact ⟨[], .root⟩
  | child _ hnames ih =>
    obtain ⟨names, hleads⟩ := ih hnames.used
    exact ⟨_, hleads.child hnames⟩

theorem Tree.leads_unique (h : V.Tree) {names' : List (List UInt8)} (hn : V.Leads names n)
    (hn' : V.Leads names' n) : names = names' := by
  induction hn generalizing names' with
  | root =>
    generalize hzero : 0 = n at hn'
    cases hn' with
    | root => rfl
    | child _ hnames =>
      have := h.pos hnames
      omega
  | @child names d i e hd hnames ih =>
    generalize hchild : e.inode = n at hn'
    cases hn' with
    | root =>
      have := h.pos hnames
      omega
    | @child names' d' i' e' hd' hnames' =>
      obtain ⟨rfl, rfl⟩ := h.unique hnames hnames' hchild
      have hentry := hnames.entry.symm.trans hnames'.entry
      rw [ih hd', Option.some.inj hentry]

theorem Tree.leads_good (h : V.Tree) (hn : V.Leads names n) :
    ∀ name ∈ names, GoodName name := by
  induction hn with
  | root => exact nofun
  | child _ hnames ih =>
    intro name hin
    rcases List.mem_append.mp hin with hin | hin
    · exact ih name hin
    · rw [List.mem_singleton.mp hin]
      exact h.name hnames

/-- Walking along the names leads to the inode. -/
theorem Tree.walk_leads (h : V.Tree) (hn : V.Leads names n) : V.walk 0 names = some n := by
  induction hn with
  | root => rfl
  | child _ hnames ih =>
    rw [walk_append ih, walk_single (h.name hnames) (cstr_noNul _)]
    exact h.lookup_some hnames (cstr_of_noNul (cstr_noNul _)).symm

end Volume

/-- The names of a path, each behind a slash. -/
def joined (names : List (List UInt8)) : List UInt8 := names.flatMap (slash :: ·)

/-- The absolute path with these names. -/
def absolute (names : List (List UInt8)) : List UInt8 :=
  if names = [] then [slash] else joined names

theorem joined_append (names : List (List UInt8)) (name : List UInt8) :
    joined (names ++ [name]) = joined names ++ slash :: name := by
  simp [joined]

theorem components_joined {names : List (List UInt8)} (h : ∀ name ∈ names, GoodName name) :
    components (joined names) = names := by
  induction names using List.reverseRecOn with
  | nil => rfl
  | append_singleton names name ih =>
    have hgood := h name (by simp)
    rw [joined_append, components_append_slash, ih fun x hx => h x (by simp [hx]),
      components_single (List.ne_nil_of_length_pos hgood.pos) hgood.noSlash]

theorem components_absolute {names : List (List UInt8)} (h : ∀ name ∈ names, GoodName name) :
    components (absolute names) = names := by
  unfold absolute
  split
  · next hnil => rw [hnil]; rfl
  · exact components_joined h

theorem head?_absolute (names : List (List UInt8)) : (absolute names).head? = some slash := by
  cases names <;> rfl

namespace Volume

variable {V : Volume} {n : Nat} {names : List (List UInt8)}

/-- The way up collects the names in front of what it has. Every round adds two bytes at
least, so the 256 rounds outlast the guard. -/
theorem Tree.pathFrom_leads (h : V.Tree)
    (hn : V.Leads names n) {fuel : Nat} {below : List UInt8} (hbelow : below.length ≤ 255)
    (hfuel : 256 ≤ 2 * fuel + below.length) :
    V.pathFrom fuel n below =
      if (joined names ++ below).length ≤ 255 then some (joined names ++ below) else none := by
  induction hn generalizing fuel below with
  | root =>
    obtain ⟨fuel, rfl⟩ : ∃ k, fuel = k + 1 := ⟨fuel - 1, by omega⟩
    rw [pathFrom_root]
    exact (if_pos hbelow).symm
  | @child names d i e hd hnames ih =>
    obtain ⟨fuel, rfl⟩ : ∃ k, fuel = k + 1 := ⟨fuel - 1, by omega⟩
    have hpos := (h.name hnames).pos
    have hjoin : joined (names ++ [cstr e.name]) ++ below =
        joined names ++ (slash :: cstr e.name ++ below) := by
      rw [joined_append, List.append_assoc]
    have hsize : (slash :: cstr e.name ++ below).length =
        below.length + (cstr e.name).length + 1 := by
      rw [List.length_append, List.length_cons]
      omega
    rw [hjoin]
    by_cases hlen : below.length + (cstr e.name).length + 1 < 256
    · rw [h.pathFrom_child hnames hlen]
      exact ih (by omega) (by omega)
    -- the guard: the path is too long already
    have hused := h.childUsed hnames
    have hne := h.pos hnames
    have htotal : ¬ (joined names ++ (slash :: cstr e.name ++ below)).length ≤ 255 := by
      rw [List.length_append]
      omega
    rw [if_neg htotal, pathFrom, if_neg (by omega), h.childParent hnames,
      if_pos ⟨h.bound _ hused, h.bound _ hnames.used⟩, h.nameIn hnames]
    exact if_pos (Or.inr (by omega))

theorem Tree.getcwd_leads (h : V.Tree)
    (hn : V.Leads names n) :
    V.getcwd n 256 = if (absolute names).length ≤ 255 then some (absolute names) else none := by
  unfold getcwd
  rw [if_neg (by decide)]
  by_cases hroot : n = 0
  · subst hroot
    rw [h.leads_unique hn .root]
    rfl
  have hne : names ≠ [] := by
    rintro rfl
    generalize hnil : [] = names at hn
    cases hn with
    | root => exact hroot rfl
    | child => exact absurd hnil (by simp)
  have hpath := @Tree.pathFrom_leads V n names h hn 256 [] (by decide) (by decide)
  rw [List.append_nil] at hpath
  rw [if_neg hroot, hpath, absolute, if_neg hne]
  split
  · next hfits =>
    rw [Option.filter_some, if_pos (decide_eq_true (by omega))]
  · rfl

theorem Tree.resolve_absolute (h : V.Tree)
    (hn : V.Leads names n) (hlen : (absolute names).length ≤ 255) (cwd : Nat) :
    V.resolve cwd (absolute names) = some n := by
  have hne : absolute names ≠ [] := fun hnil => by
    have hhead := head?_absolute names
    rw [hnil] at hhead
    cases hhead
  rw [resolve, if_neg (not_or.mpr ⟨hne, by omega⟩), if_pos (head?_absolute names),
    components_absolute (h.leads_good hn)]
  exact h.walk_leads hn

end Volume

end MiniOs.Spec

namespace MiniOs.Fs

open MiniOs.Lib MiniOs.Spec MiniOs.Tools

/-- Where `resolve_parent` finds a directory and a name, `resolve` finds what is there under
that name, on any disk and for any path. -/
theorem parsers_agree (s : FsSt) (cwd : Nat) (path : CStr) {d : Nat} {name : List UInt8}
    (h : (resolveParent s cwd path.bytes).2 = some (d, name)) :
    (resolve s cwd path.bytes).2 = (dirLookup s d name).2 := by
  obtain ⟨b, hb⟩ := resolveParent_eq s cwd path.bytes
  obtain ⟨c, hc⟩ := resolve_eq s cwd path.bytes
  obtain ⟨e, he⟩ := dirLookup_eq s d name
  rw [hb] at h
  rw [hc, he]
  exact Volume.resolve_of_resolveParent path.noNul h

/-- Slashes in a row in front of a name and behind it. -/
theorem parsers_agree_slashes :
    ∃ (img : Image) (s : FsSt) (n : Nat), img.tree = stagedFile ∧
      s = img.mount bareSlot boot ∧
      (resolveParent s 0 [slash, slash, 97, slash, slash]).2 = some (0, [97]) ∧
      (resolve s 0 [slash, slash, 97, slash, slash]).2 = some n ∧
      (dirLookup s 0 [97]).2 = some n := by
  obtain ⟨img, htree, -⟩ := importTree_fits stagedFile_fits
  obtain ⟨n, -, hresolve, -⟩ := stagedFile_mounted htree bareSlot boot
  generalize hs : img.mount bareSlot boot = s at hresolve
  obtain ⟨b, hb⟩ := resolve_eq s 0 [slash, slash, 97, slash, slash]
  have hfound : (resolve s 0 [slash, slash, 97, slash, slash]).2 = some n := by
    rw [hb]
    exact hresolve
  have hparent : (resolveParent s 0 [slash, slash, 97, slash, slash]).2 = some (0, [97]) := rfl
  have hagree := parsers_agree s 0 ⟨[slash, slash, 97, slash, slash], by decide⟩ hparent
  exact ⟨img, s, n, htree, hs.symm, hparent, hfound, hagree.symm.trans hfound⟩

/-- On a tree: every inode in use has one path of names, `minifs_getcwd` succeeds just if that
path has at most 255 bytes, what it leaves is the path, and the path leads back from any
directory. -/
theorem getcwd_inverts {s : FsSt} (h : s.volume.Tree) {d : Nat} (hd : s.volume.ibit d = true) :
    ∃ names, s.volume.Leads names d ∧ (∀ names', s.volume.Leads names' d → names' = names) ∧
      ((∃ path, (minifsGetcwd s d 256).2 = some path) ↔ (absolute names).length ≤ 255) ∧
      ∀ path, (minifsGetcwd s d 256).2 = some path →
        path = absolute names ∧ ∀ cwd, (resolve s cwd path).2 = some d := by
  obtain ⟨names, hnames⟩ := h.exists_leads hd
  obtain ⟨b, hb⟩ := minifsGetcwd_eq s d 256
  have hcwd := h.getcwd_leads hnames
  refine ⟨names, hnames, fun names' h' => h.leads_unique h' hnames, ?_, fun path hpath => ?_⟩
  · rw [hb, hcwd]
    split
    · next hlen => exact iff_of_true ⟨_, rfl⟩ hlen
    · next hlen => exact iff_of_false nofun hlen
  rw [hb, hcwd] at hpath
  split at hpath
  · next hlen =>
    obtain rfl := Option.some.inj hpath
    refine ⟨rfl, fun cwd => ?_⟩
    obtain ⟨c, hc⟩ := resolve_eq s cwd (absolute names)
    rw [hc]
    exact h.resolve_absolute hnames hlen cwd
  · cases hpath

/-- A staging directory with a directory `d` and in it a directory `e`. -/
def stagedNest : StagedTree where
  root := .cons ⟨[100], true⟩ (.dir (.cons ⟨[101], true⟩ (.dir .nil) .nil)) .nil
  legal := ⟨by unfold HostName.Legal; decide, List.not_mem_nil,
    ⟨by unfold HostName.Legal; decide, List.not_mem_nil, trivial, trivial⟩, trivial⟩

theorem stagedNest_fits : stagedNest.Fits where
  storable := ⟨⟨rfl, by decide⟩, ⟨⟨rfl, by decide⟩, trivial, trivial⟩, trivial⟩
  inodes := by decide
  blocks := by decide

theorem getcwd_inverts_nested :
    ∃ (img : Image) (s : FsSt) (d : Nat) (names : List (List UInt8)), img.tree = stagedNest ∧
      s = img.mount bareSlot boot ∧
      s.volume.resolve 0 [slash, 100, slash, 101] = some d ∧ s.volume.Tree ∧
      (s.volume.node d).IsDir ∧ s.volume.Leads names d ∧
      ((∃ path, (minifsGetcwd s d 256).2 = some path) ↔ (absolute names).length ≤ 255) := by
  obtain ⟨img, htree, -⟩ := importTree_fits stagedNest_fits
  have hat : stagedAt (.dir img.tree.root) (components [slash, 100, slash, 101]) =
      some (.dir .nil) := by
    rw [htree]
    rfl
  obtain ⟨d, hresolve, hnode⟩ := @Image.mount_at img bareSlot boot
    ⟨[slash, 100, slash, 101], by decide⟩ _ (by decide) (by decide) hat
  have hmounted := img.mount_tree bareSlot boot
  obtain ⟨names, hleads, -, hlen, -⟩ := getcwd_inverts hmounted hnode.used
  refine ⟨img, _, d, names, htree, rfl, hresolve, hmounted, ?_, hleads, hlen⟩
  rw [Node.IsDir, hnode.mode]
  decide

end MiniOs.Fs
