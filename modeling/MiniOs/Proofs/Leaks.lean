import MiniOs.Proofs.Agreement
import MiniOs.Proofs.OpenFiles

/-!
# Space that is lost

`ensure_inode_block` may take two blocks in one call, one for the indirect table
and one for its first entry, and be refused the second. `write_at` stores the
inode in any case, so its table is empty but not lost. `dir_add` returns without
storing it, and the table's block stays marked with nobody to refer to it.

That is the only leak. A call that does not meet it leaves every marked block
with an owner in use (`step_tidy`), and one that meets it loses a block
(`step_leaks`).
-/

namespace MiniOs.Fs

open MiniOs.Lib MiniOs.Spec MiniOs.Tools

/-- The directory and the name, for a call that gets as far as adding a name. -/
def Creates (s : FsSt) : Call → Option (Nat × List UInt8)
  | .mkdir cwd path => s.volume.resolveParent cwd (pathBytes path)
  | .open pid cwd path flags =>
    if findProcess s.toFdTables pid ≠ none ∧ badFlags flags = false ∧
        wantsCreate flags = true ∧ s.volume.resolve cwd (pathBytes path) = none then
      s.volume.resolveParent cwd (pathBytes path)
    else none
  | _ => none

/-- A call that adds a name to a directory with no indirect table whose next
entry needs one, when there is one free block and a free inode. -/
def Leaks (s : FsSt) (call : Call) : Prop :=
  ∃ parent name, Creates s call = some (parent, name) ∧ CreateLeaks s.toStore parent name

section Step

variable {s s' : FsSt} {call : Call}

theorem Store.Tidy.of_store (h : s.Tidy) (hstore : s'.toStore = s.toStore) : s'.Tidy := by
  rw [hstore]
  exact h

theorem getOpenFile_used {t : FdTables} {pid fd : Int} {i : Fin 64}
    (h : getOpenFile t pid fd = some i) : (t.openFiles i).used = true := by
  rw [getOpenFile] at h
  repeat' split at h
  all_goals cases h
  next hused => exact hused

theorem minifsOpen_tidy (h : Held s) (hs : s.Tidy) (pid : Int) {cwd : Nat} {path : Option CStr}
    (hr : s.volume.Rooted cwd (pathBytes path)) (flags : BitVec 32)
    (hno : ¬ Leaks s (.open pid cwd path flags)) : (minifsOpen s pid cwd path flags).1.Tidy := by
  obtain ⟨s1, V, hb, -, heq⟩ := minifsOpen_tree h.sound h.tree pid hr flags
  have htidy : s1.Tidy := by
    refine hb.tidy (fun hp hflags hwants hnone parent name htarget hleak => hno ?_) hs
    refine ⟨parent, name, ?_, hleak⟩
    rw [Creates, if_pos ⟨hp, hflags, hwants, hnone⟩]
    exact htarget
  rcases heq with heq | ⟨p, n, size, -, -, -, -, heq⟩
  · rw [heq]
    exact htidy
  · rw [heq]
    exact htidy

theorem minifsWrite_tidy (h : Held s) (hs : s.Tidy) (pid fd : Int) (buffer : Option Region)
    (length : Nat) : (minifsWrite s pid fd buffer length).1.Tidy := by
  rcases minifsWrite_cases h.sound pid fd buffer length with
    ⟨s', r, hc, hstore, -, -⟩ | ⟨i, buf, s', done, hwritable, -, hw, hc⟩
  · rw [hc]
    exact hs.of_store hstore
  · rw [hc]
    obtain ⟨s1, hstore, -, hb⟩ := hw.becomes
    have hused := (h.files i ⟨getOpenFile_used hwritable.open_, hwritable.file⟩).1
    exact hb.tidy hused (hs.of_store hstore)

/-- A call that does not leak keeps every block accounted for. -/
theorem step_tidy (h : Held s) (hs : s.Tidy) (hr : call.Rooted s.volume)
    (hno : ¬ Leaks s call) : (step s call).Tidy := by
  cases call with
  | «open» pid cwd path flags => exact minifsOpen_tidy h hs pid hr flags hno
  | write pid fd buffer length => exact minifsWrite_tidy h hs pid fd buffer length
  | mkdir cwd path =>
    obtain ⟨V, hb, -⟩ := minifsMkdir_tree h.sound h.tree hr
    exact hb.tidy (fun parent name htarget hleak => hno ⟨parent, name, htarget, hleak⟩) hs
  | unlink cwd path =>
    rcases minifsUnlink_tree h.sound h.tree hr with
      ⟨⟨b, hc⟩, -⟩ | ⟨s', parent, name, k, j, e, -, hc, -, hb⟩
    · exact hs.of_store (congrArg (fun r => r.1.toStore) hc)
    · rw [show step s (.unlink cwd path) = s' from congrArg Prod.fst hc]
      exact hb.tidy trivial hs
  | _ => exact hs.of_store (step_store trivial)

/-- A call that leaks loses a block. -/
theorem step_leaks (h : Held s) (hr : call.Rooted s.volume) (hleak : Leaks s call) :
    ∃ c, (step s call).Lost c := by
  obtain ⟨parent, name, hcreates, hspare, hleak⟩ := hleak
  cases call with
  | mkdir cwd path =>
    have hp := h.tree.resolveParent_used hr hcreates
    rcases minifsMkdir_cases s cwd path with ⟨b, -, hnone⟩ | ⟨b, parent', name', htarget, hc⟩
    · cases hnone.symm.trans hcreates
    · cases htarget.symm.trans hcreates
      obtain ⟨s', c, hcreate, hlost⟩ := @createNode_leaks (s.withBuffer b) 2 parent name h.sound
        hp (by decide) hspare hleak
      rw [step, hc, hcreate]
      exact ⟨c, hlost⟩
  | «open» pid cwd path flags =>
    rw [Creates] at hcreates
    split at hcreates
    · next hgo =>
      obtain ⟨hproc, hflags, hwants, hnone⟩ := hgo
      have hp := h.tree.resolveParent_used hr hcreates
      rcases minifsOpen_cases s pid cwd path flags with
        ⟨-, hbad | hbad⟩ | ⟨p, -, -, hc⟩
      · exact absurd hbad hproc
      · cases hbad.symm.trans hflags
      · rcases openTarget_cases s cwd (pathBytes path) flags with
          ⟨b, -, hbad⟩ | ⟨b, parent', name', -, -, htarget, heq⟩
        · cases (hbad hwants hnone).symm.trans hcreates
        · cases htarget.symm.trans hcreates
          obtain ⟨s', c, hcreate, hlost⟩ := @createNode_leaks (s.withBuffer b) 1 parent name
            h.sound hp (by decide) hspare hleak
          rw [heq, hcreate] at hc
          rcases hc with ⟨s1, heq1, hc⟩ | ⟨s1, n, heq1, -⟩
          · cases heq1
            rw [step, hc]
            exact ⟨c, hlost⟩
          · cases heq1
    · cases hcreates
  | _ => cases hcreates

end Step

theorem runCalls_tidy {s : FsSt} (h : Held s) (hs : s.Tidy) {calls : List Call}
    (habs : ∀ call ∈ calls, call.Absolute)
    (hno : Meets step (fun s call => ¬ Leaks s call) s calls) : (runCalls s calls).Tidy := by
  induction calls generalizing s with
  | nil => exact hs
  | cons call rest ih =>
    have hr := (habs call List.mem_cons_self).rooted s.volume
    exact ih (step_held h hr) (step_tidy h hs hr hno.1)
      (fun c hc => habs c (List.mem_cons_of_mem call hc)) hno.2

/-- The accounting of a run: as long as no call meets the one leak, every marked
block of the data area is a direct block, the indirect block or an entry of the
indirect table of an inode in use. -/
theorem runCalls_leaks_nothing (img : Image) (slot : Disk) (s₀ : FsSt) (calls : List Call)
    (habs : ∀ call ∈ calls, call.Absolute)
    (hno : Meets step (fun s call => ¬ Leaks s call) (img.mount slot s₀) calls) :
    let s := runCalls (img.mount slot s₀) calls
    ∀ c, 38 ≤ c → c < 15360 → s.bit c = true →
      ∃ n ptr, s.ibit n = true ∧ slotPtr s.disk (s.table n) ptr = c := by
  have htidy := runCalls_tidy (Image.mount_held img slot s₀) (img.mount_tidy slot s₀) habs hno
  intro s c h₁ h₂ hbit
  obtain ⟨⟨n, ptr⟩, howner⟩ := htidy.tight c ⟨h₁, h₂⟩ hbit
  obtain ⟨hptr, hne⟩ := owner_eq_some.mp howner
  refine ⟨n, ptr, ?_, hptr⟩
  by_contra hfree
  exact hne (hptr.symm.trans (htidy.bare n (eq_false_of_ne_true hfree) s.disk ptr))

theorem runCalls_leaks_nothing_mkdir :
    ∃ calls s, calls = [Call.mkdir 0 (some ⟨[slash, 100], by decide⟩)] ∧
      s = Image.empty.mount bareSlot boot ∧
      Meets step (fun s call => ¬ Leaks s call) s calls ∧
      ∀ c, 38 ≤ c → c < 15360 → (runCalls s calls).bit c = true →
        ∃ n ptr, (runCalls s calls).ibit n = true ∧
          slotPtr (runCalls s calls).disk ((runCalls s calls).table n) ptr = c := by
  have hno : ¬ Leaks (Image.empty.mount bareSlot boot)
      (.mkdir 0 (some ⟨[slash, 100], by decide⟩)) := by
    rintro ⟨parent, name, -, -, -, -, -, -, -, hfree, -⟩
    rw [Image.mount_free] at hfree
    exact absurd (Builder.new_free.symm.trans hfree) (by decide)
  exact ⟨_, _, rfl, rfl, ⟨hno, trivial⟩, runCalls_leaks_nothing Image.empty _ boot _
    (List.forall_mem_singleton.mpr rfl) ⟨hno, trivial⟩⟩

/-! ## A disk with one block left -/

/-- A name of two letters. -/
def fileName (i : Nat) : HostName :=
  ⟨[UInt8.ofNat (65 + i / 16), UInt8.ofNat (65 + i % 16)], true⟩

/-- `count` files of `size` bytes each. -/
def stagedFiles (size : Nat) : Nat → HostDir
  | 0 => .nil
  | count + 1 =>
    .cons (fileName count) (.file (List.replicate size 0) false) (stagedFiles size count)

section StagedFiles

variable {size count : Nat}

theorem mem_names_stagedFiles {x : List UInt8} (h : x ∈ (stagedFiles size count).names) :
    ∃ i, i < count ∧ x = (fileName i).bytes := by
  induction count with
  | zero => cases h
  | succ count ih =>
    rcases List.mem_cons.mp h with rfl | hmem
    · exact ⟨count, by omega, rfl⟩
    · obtain ⟨i, hi, hx⟩ := ih hmem
      exact ⟨i, by omega, hx⟩

theorem fileName_inj {i j : Nat} (hi : i < 256) (hj : j < 256)
    (h : (fileName i).bytes = (fileName j).bytes) : i = j := by
  simp only [fileName, List.cons.injEq, and_true] at h
  have h1 := congrArg UInt8.toNat h.1
  have h2 := congrArg UInt8.toNat h.2
  simp only [UInt8.toNat_ofNat'] at h1 h2
  omega

theorem fileName_legal {i : Nat} (hi : i < 256) : (fileName i).Legal := by
  have hlarge : ∀ b ∈ (fileName i).bytes, 65 ≤ b.toNat := by
    intro b hb
    simp only [fileName, List.mem_cons, List.not_mem_nil, or_false] at hb
    rcases hb with rfl | rfl <;> simp only [UInt8.toNat_ofNat'] <;> omega
  refine ⟨by simp [fileName], fun h => ?_, fun h => ?_, by simp [fileName], fun h => ?_⟩
  · exact absurd (hlarge 0 h) (by decide)
  · exact absurd (hlarge slash h) (by decide)
  · exact absurd (hlarge dot (h ▸ List.mem_cons_self)) (by decide)

theorem stagedFiles_legal (h : count ≤ 256) : (stagedFiles size count).Legal := by
  induction count with
  | zero => trivial
  | succ count ih =>
    refine ⟨fileName_legal (by omega), fun hmem => ?_, trivial, ih (by omega)⟩
    obtain ⟨i, hi, heq⟩ := mem_names_stagedFiles hmem
    have := fileName_inj (by omega) (by omega) heq
    omega

theorem stagedFiles_storable (h : size ≤ 65536) : (stagedFiles size count).Storable := by
  induction count with
  | zero => trivial
  | succ count ih =>
    refine ⟨⟨rfl, by simp [fileName]⟩, ?_, ih⟩
    show (List.replicate size 0).length ≤ 65536
    rwa [List.length_replicate]

theorem stagedFiles_names : (stagedFiles size count).names.length = count := by
  induction count with
  | zero => rfl
  | succ count ih => exact congrArg (· + 1) ih

theorem stagedFiles_inodes : (stagedFiles size count).inodes = count := by
  induction count with
  | zero => rfl
  | succ count ih =>
    rw [stagedFiles, HostDir.inodes, HostNode.inodes, ih]
    omega

theorem stagedFiles_blocks : (stagedFiles size count).blocks = count * blocksFor size := by
  induction count with
  | zero => rw [stagedFiles, HostDir.blocks, Nat.zero_mul]
  | succ count ih =>
    rw [stagedFiles, HostDir.blocks, HostNode.blocks, List.length_replicate, ih, Nat.succ_mul,
      Nat.add_comm]

end StagedFiles

/-- A directory `d` of 80 empty files, and files that leave one block of the disk. -/
def crowded : StagedTree where
  root := .cons ⟨[100], true⟩ (.dir (stagedFiles 0 80))
    (.cons ⟨[122], true⟩ (.file (List.replicate 36864 0) false) (stagedFiles 65536 118))
  legal := by
    have hshort : ∀ c : UInt8, [c] ∉ (stagedFiles 65536 118).names := by
      intro c hmem
      obtain ⟨i, -, heq⟩ := mem_names_stagedFiles hmem
      simp [fileName] at heq
    refine ⟨by unfold HostName.Legal; decide, ?_, stagedFiles_legal (by decide),
      by unfold HostName.Legal; decide, hshort _, trivial, stagedFiles_legal (by decide)⟩
    simp only [HostDir.names, List.mem_cons, not_or]
    exact ⟨by decide, hshort _⟩

theorem crowded_root : crowded.root = .cons ⟨[100], true⟩ (.dir (stagedFiles 0 80))
    (.cons ⟨[122], true⟩ (.file (List.replicate 36864 0) false) (stagedFiles 65536 118)) := rfl

theorem crowded_blocks : (HostNode.dir crowded.root).blocks = 15321 := by
  rw [crowded_root, HostNode.blocks, HostDir.blocks, HostNode.blocks, HostDir.blocks,
    HostNode.blocks, HostDir.names, HostDir.names, List.length_cons, List.length_cons,
    stagedFiles_names, stagedFiles_names, stagedFiles_blocks, stagedFiles_blocks,
    List.length_replicate]
  decide

theorem crowded_inodes : crowded.root.inodes = 200 := by
  simp only [crowded, HostNode.inodes, HostDir.inodes, stagedFiles_inodes]

theorem crowded_fits : crowded.Fits where
  storable := by
    refine ⟨⟨rfl, by decide⟩, stagedFiles_storable (by decide), ⟨rfl, by decide⟩, ?_,
      stagedFiles_storable (by decide)⟩
    show (List.replicate 36864 0).length ≤ 65536
    rw [List.length_replicate]
    decide
  inodes := by
    rw [crowded_inodes]
    decide
  blocks := by
    rw [crowded_blocks]
    decide

/-- A directory of live entries takes its next one at the end. -/
theorem slot_eq_count {V : Volume} (ht : V.Tree) {n : Nat} {dir : HostDir}
    (h : HoldsDir V n 0 dir) (hcount : V.count n = dir.names.length) :
    V.slot n = some (V.count n) := by
  rw [Volume.slot, scan_eq_ended]
  intro j _ hj
  obtain ⟨k, mode, name, node, hentry, -, -, hnode⟩ :=
    h.entry (show j < dir.names.length by omega)
  rw [Nat.zero_add] at hentry
  have hk := ht.bound k hnode.used
  refine ⟨_, hentry, ?_⟩
  rw [buried, decide_eq_false_iff_not, not_not]
  show k ≠ 0xffffffff
  omega

theorem noNul_of_legal {x : List UInt8} :
    ∀ {dir : HostDir}, dir.Legal → x ∈ dir.names → 0 ∉ x
  | .cons name node rest, ⟨hname, _, _, hrest⟩, hmem => by
      rcases List.mem_cons.mp hmem with rfl | hmem
      · exact hname.2.1
      · exact noNul_of_legal hrest hmem

/-- A name nobody staged is not there. -/
theorem lookup_eq_none {V : Volume} {n : Nat} {dir : HostDir} {x : List UInt8}
    (hused : V.ibit n = true) (h : HoldsDir V n 0 dir) (hcount : V.count n = dir.names.length)
    (hlegal : dir.Legal) (hnul : 0 ∉ x) (hx : x ∉ dir.names) : V.lookup n x = none := by
  by_contra hsome
  obtain ⟨k, hk⟩ := Option.ne_none_iff_exists'.mp hsome
  obtain ⟨i, e, hnames, -, heq, -⟩ := Volume.lookup_names hused hk
  obtain ⟨k', mode, name, -, hentry, hmem, hlen, -⟩ := h.entry (hcount ▸ hnames.lt)
  rw [Nat.zero_add, hnames.entry] at hentry
  rw [Option.some.inj hentry, cstr_of_noNul hnul, show cstr (record k' mode name).name = name from
    Dirent.cstr_name hlen (noNul_of_legal hlegal hmem)] at heq
  exact hx (heq ▸ hmem)

theorem resolveParent_child {V : Volume} {n : Nat} (h : V.resolve 0 [slash, 100] = some n) :
    V.resolveParent 0 [slash, 100, slash, 120] = some (n, [120]) := by
  show (V.resolve 0 [slash, 100]).map _ = _
  rw [h]
  rfl

/-- In the image, the next name in `d` loses a block. -/
theorem crowded_leaks {img : Image} (htree : img.tree = crowded) (hsnug : img.builder.Snug)
    (hused : ∀ n, img.builder.inodeUsed n = decide (n < 1 + crowded.root.inodes))
    (hfree : img.builder.free = 1) (slot : Disk) (s0 : FsSt) :
    Leaks (img.mount slot s0) (.mkdir 0 (some ⟨[slash, 100, slash, 120], by decide⟩)) := by
  have ht := img.mount_tree slot s0
  have hat : stagedAt (.dir img.tree.root) (components [slash, 100]) =
      some (.dir (stagedFiles 0 80)) := by
    rw [htree, crowded_root]
    rfl
  obtain ⟨n, hresolve, hn, hmode, hsize, hdir⟩ :=
    @Image.mount_at img slot s0 ⟨[slash, 100], by decide⟩ _ (by decide) (by decide) hat
  rw [length_names_sort, stagedFiles_names] at hsize
  have hcount : (img.mount slot s0).volume.count n = 80 := by
    rw [Volume.count, hsize]
  have hlen : (img.mount slot s0).volume.count n = (stagedFiles 0 80).sort.names.length := by
    rw [length_names_sort, stagedFiles_names, hcount]
  refine ⟨n, [120], resolveParent_child hresolve, ⟨201, by decide, by decide, ?_⟩, ?_, by decide,
    by decide, ht.bound n hn, ?_, ?_, ?_, 80, ?_, by decide, by decide⟩
  · rw [img.mount_ibit, hused, crowded_inodes]
    decide
  · refine lookup_eq_none hn hdir hlen (stagedFiles_legal (by decide)).sort (by decide) fun hmem => ?_
    rw [mem_names_sort] at hmem
    obtain ⟨i, -, heq⟩ := mem_names_stagedFiles hmem
    simp [fileName] at heq
  · rw [Node.IsDir, hmode]
    decide
  · rw [img.mount_free, hfree]
  · have htable := (hsnug n).table
    rw [← img.mount_table slot s0] at htable
    rw [htable, show ((img.mount slot s0).table n).size = 64 * 80 from hsize]
  · rw [slot_eq_count ht hdir hlen, hcount]

/-- The block that `mkdir("/d/x")` takes for an indirect table of `d`, and drops
when it is refused one for the entry, is marked and nobody's. -/
theorem runCalls_loses_block :
    ∃ (img : Image) (s : FsSt) (c : Nat), img.tree = crowded ∧
      s = runCalls (img.mount bareSlot boot)
        [.mkdir 0 (some ⟨[slash, 100, slash, 120], by decide⟩)] ∧
      38 ≤ c ∧ c < 15360 ∧ s.bit c = true ∧
      ∀ n ptr, slotPtr s.disk (s.table n) ptr ≠ c := by
  obtain ⟨img, htree, hsnug, hused, hfree⟩ := importTree_fits crowded_fits
  rw [crowded_blocks] at hfree
  have hleak := crowded_leaks htree hsnug hused (by omega) bareSlot boot
  have habs : Call.Absolute (.mkdir 0 (some ⟨[slash, 100, slash, 120], by decide⟩)) := rfl
  obtain ⟨c, ⟨h₁, h₂⟩, hbit, hnone⟩ :=
    step_leaks (Image.mount_held img bareSlot boot) (habs.rooted _) hleak
  refine ⟨img, _, c, htree, rfl, h₁, h₂, hbit, fun n ptr heq => ?_⟩
  exact hnone (n, ptr) (owner_eq_some.mpr ⟨heq, by omega⟩)

end MiniOs.Fs
