import MiniOs.Proofs.Frame
import MiniOs.Proofs.OpenFiles
import MiniOs.Proofs.WorkingDirs

/-!
# An open file is the file that was opened

`step_held` says that an entry of the open-file table names a regular file in use.
That alone would allow the inode to have gone and come back as another file in the
meantime. It has not: the entry came from one `open`, and in every state since, the
inode is in use and has the name it had then, in the same entry of the same directory.

`Follows` is what one turn does to open files and their names. The history of an entry
is then put together from the end of a run backwards.

Working directories matter, since a relative path starts in one. From a directory that
was unlinked `create_node` writes the new file's inode over the directory's, cannot add
the name to it and frees the number again; `.` is then a file that is not in use, and it
can be opened. So the result is about runs in which no turn strands a task.
-/

namespace MiniOs.Fs

open MiniOs.Lib MiniOs.Spec

/-- Entry `i` is open on inode `n`, a regular file in use that has its name in place `j`
of directory `d`. -/
structure OpenOn (s : FsSt) (i : Fin 64) (n d j : Nat) (e : Dirent) : Prop where
  isOpen : s.toFdTables.OpenAt i
  inode : (s.openFiles i).inode = n
  used : s.volume.ibit n = true
  file : (s.volume.node n).IsFile
  names : s.volume.Names d j e
  named : e.inode = n

/-- What is open afterwards was open before on the same file, or was opened; and the
files that were open keep their names. -/
structure Follows (s s' : FsSt) (opens : Prop) : Prop where
  held : Held s'
  source : ∀ i, s'.toFdTables.OpenAt i →
    (s.toFdTables.OpenAt i ∧ SameFile (s.openFiles i) (s'.openFiles i)) ∨
      (opens ∧ (s.openFiles i).used = false)
  names : ∀ {i d j e}, s.toFdTables.OpenAt i → s.volume.Names d j e →
    e.inode = (s.openFiles i).inode → s'.volume.Names d j e

section Follows

variable {s s' : FsSt} {opens : Prop} {i : Fin 64} {n d j : Nat} {e : Dirent}

theorem Held.openOn (h : Held s) (hi : s.toFdTables.OpenAt i) :
    ∃ n d j e, OpenOn s i n d j e := by
  obtain ⟨hused, hfile⟩ := h.files i hi
  have hne : (s.openFiles i).inode ≠ 0 := by
    intro h0
    rw [h0] at hfile
    exact absurd (h.tree.rootDir.symm.trans hfile) (by decide)
  obtain ⟨d, j, e, hnames, hnamed⟩ := h.tree.exists_names hused hne
  exact ⟨_, d, j, e, hi, rfl, hused, hfile, hnames, hnamed⟩

theorem Follows.openOn (h : Follows s s' opens) (ho : OpenOn s i n d j e)
    (hi : s'.toFdTables.OpenAt i) : OpenOn s' i n d j e := by
  rcases h.source i hi with ⟨-, hsame⟩ | ⟨-, hfree⟩
  · have hinode : (s'.openFiles i).inode = n := hsame.inode.trans ho.inode
    obtain ⟨hused, hfile⟩ := h.held.files i hi
    rw [hinode] at hused hfile
    exact ⟨hi, hinode, hused, hfile, h.names ho.isOpen ho.names (ho.named.trans ho.inode.symm),
      ho.named⟩
  · exact absurd (hfree.symm.trans ho.isOpen.1) Bool.false_ne_true

theorem Follows.refl (h : Held s) : Follows s s opens :=
  ⟨h, fun _ hi => Or.inl ⟨hi, .refl _⟩, fun _ hn _ => hn⟩

/-- A call leaves the names of open files alone, whatever it unlinks. -/
theorem step_follows (h : Held s) {call : Call} (hr : call.Rooted s.volume) :
    Follows s (step s call) (∃ pid cwd path flags, call = .open pid cwd path flags) where
  held := step_held h hr
  source i hi := by
    rcases step_files h.sound h.tree hr hi with hold | ⟨hfree, hopen, -⟩
    · exact Or.inl hold
    · exact Or.inr ⟨hopen, hfree⟩
  names hi hnames heq :=
    (step_persists h.sound h.tree hr).names hnames fun hgone => hgone.not_open hi heq.symm

end Follows

end MiniOs.Fs

namespace MiniOs.Kernel

open MiniOs.Lib MiniOs.Fs MiniOs.Spec MiniOs.Tools Function

/-! ## Turns -/

theorem Nameless.rooted {call : Call} (h : Nameless call) (V : Volume) : call.Rooted V := by
  cases call <;> trivial

/-- Calls that change no name open nothing. -/
theorem runCalls_nameless_files {s : FsSt} (hs : Held s) {calls : List Call}
    (h : ∀ call ∈ calls, Nameless call) :
    Held (runCalls s calls) ∧ ∀ i, (runCalls s calls).toFdTables.OpenAt i →
      s.toFdTables.OpenAt i ∧ SameFile (s.openFiles i) ((runCalls s calls).openFiles i) := by
  induction calls generalizing s with
  | nil => exact ⟨hs, fun i hi => ⟨hi, .refl _⟩⟩
  | cons call rest ih =>
    have hcall := h call List.mem_cons_self
    have hfirst := step_follows hs (hcall.rooted s.volume)
    obtain ⟨hheld, hrest⟩ := ih hfirst.held fun c hc => h c (List.mem_cons_of_mem call hc)
    refine ⟨hheld, fun i hi => ?_⟩
    obtain ⟨hmid, hsame⟩ := hrest i hi
    rcases hfirst.source i hmid with ⟨hold, hsame'⟩ | ⟨⟨pid, cwd, path, flags, rfl⟩, -⟩
    · exact ⟨hold, hsame'.trans hsame⟩
    · exact hcall.elim

theorem Nameless.Reaches.follows {s s' : FsSt} (h : Nameless.Reaches s s') (hs : Held s) :
    Follows s s' False := by
  have hpers := (h.persists hs.sound hs.tree).2
  obtain ⟨sector, calls, hcalls, rfl⟩ := h
  have hs1 : Held (s.withBuffer sector) := ⟨hs.sound, hs.tree, hs.files⟩
  obtain ⟨hheld, hfiles⟩ := runCalls_nameless_files hs1 hcalls
  exact ⟨hheld, fun i hi => Or.inl (hfiles i hi), fun _ hnames _ => hpers.names hnames id⟩

/-- The turn is an `open`. -/
def Turn.Opens (t : Turn) : Prop := ∃ userPath flags, t.request = .open userPath flags

variable {k : System}

/-- What a turn does to open files, while everybody stands on the ground. -/
theorem turn_follows (h : Grounded k) (hs : Held k.fs) (t : Turn) :
    Follows k.fs (turn k t).fs t.Opens := by
  rw [turn]
  split
  · next hrun =>
    rcases serve_fs k t.current t.mem t.request with ⟨call, hcall, hfs⟩ | ⟨-, hreach⟩
    · rw [hfs]
      have hstep := step_follows hs (nameCall_rooted (h.cwd t.current hrun.live).1 hcall)
      refine ⟨hstep.held, fun i hi => ?_, hstep.names⟩
      rcases hstep.source i hi with hold | ⟨⟨pid, cwd, path, flags, rfl⟩, hfree⟩
      · exact Or.inl hold
      · obtain ⟨_, ⟨userPath, flags, hreq, -⟩ | ⟨_, -, hne⟩ | ⟨_, -, hne⟩⟩ := nameCall_cases hcall
        · exact Or.inr ⟨⟨userPath, flags, hreq⟩, hfree⟩
        · cases hne
        · cases hne
    · have hcalls := hreach.follows hs
      refine ⟨hcalls.held, fun i hi => ?_, hcalls.names⟩
      exact Or.inl ((hcalls.source i hi).resolve_right fun hno => hno.1)
  · exact .refl hs

/-! ## The history of an open file -/

/-- Entry `i` was taken by the turn after `before`, an `open`, and has been open on one
file in every state since. -/
structure OpenedAt (k₀ : System) (i : Fin 64) (before : List Turn) (t : Turn)
    (after : List Turn) : Prop where
  opens : t.Opens
  free : ((runTurns k₀ before).fs.openFiles i).used = false
  same : ∃ n d j e, ∀ since, since <+: after →
    OpenOn (runTurns k₀ (before ++ t :: since)).fs i n d j e

/-- One more turn, that leaves the file open. -/
theorem OpenedAt.snoc {k0 : System} {i : Fin 64} {before after : List Turn} {t t' : Turn}
    (h : OpenedAt k0 i before t after)
    (hturn : Follows (runTurns k0 (before ++ t :: after)).fs
      (turn (runTurns k0 (before ++ t :: after)) t').fs t'.Opens)
    (hi : (turn (runTurns k0 (before ++ t :: after)) t').fs.toFdTables.OpenAt i) :
    OpenedAt k0 i before t (after ++ [t']) := by
  obtain ⟨n, d, j, e, hopen⟩ := h.same
  refine ⟨h.opens, h.free, n, d, j, e, fun since hsince => ?_⟩
  rcases List.prefix_concat_iff.mp hsince with rfl | hsince
  · have hlast : runTurns k0 (before ++ t :: (after ++ [t'])) =
        turn (runTurns k0 (before ++ t :: after)) t' := by
      rw [← List.cons_append, ← List.append_assoc, runTurns, run_append]
      rfl
    rw [hlast]
    exact hturn.openOn (hopen after List.prefix_rfl) hi
  · exact hopen since hsince

/-- Everything open at the end of a run that strands nobody has a history. -/
theorem runTurns_opened {k0 : System} (h : Grounded k0) (hs : Held k0.fs)
    (hclosed : ∀ i, ¬ k0.fs.toFdTables.OpenAt i) {turns : List Turn}
    (hkeep : Meets turn (fun k t => ∀ i, ¬ Strands k t i) k0 turns) :
    Held (runTurns k0 turns).fs ∧ ∀ i, (runTurns k0 turns).fs.toFdTables.OpenAt i →
        ∃ before t after, turns = before ++ t :: after ∧ OpenedAt k0 i before t after := by
  induction turns using List.reverseRecOn with
  | nil => exact ⟨hs, fun i hi => absurd hi (hclosed i)⟩
  | append_singleton turns t ih =>
    obtain ⟨hheld, hopened⟩ := ih hkeep.append_left
    have hground : Grounded (runTurns k0 turns) :=
      @run_meets _ _ turn _ Grounded (fun k t h hkeep => turn_grounded h hkeep) _ turns h
        hkeep.append_left
    have hturn := turn_follows hground hheld t
    have hlast : runTurns k0 (turns ++ [t]) = turn (runTurns k0 turns) t := run_append ..
    rw [hlast]
    refine ⟨hturn.held, fun i hi => ?_⟩
    rcases hturn.source i hi with ⟨hold, -⟩ | ⟨hopens, hfree⟩
    · obtain ⟨before, t0, after, rfl, hat⟩ := hopened i hold
      exact ⟨before, t0, after ++ [t], by simp, hat.snoc hturn hi⟩
    · obtain ⟨n, d, j, e, hopen⟩ := hturn.held.openOn hi
      refine ⟨turns, t, [], rfl, hopens, hfree, n, d, j, e, fun since hsince => ?_⟩
      rw [List.prefix_nil.mp hsince, hlast]
      exact hopen

theorem started_held (img : Image) (slot : Disk) (k0 : System) :
    Held (started img slot k0).fs := by
  rw [started_fs]
  exact step_held (Image.mount_held img slot k0.fs) trivial

theorem turn_sound (h : k.fs.Sound) (t : Turn) : (turn k t).fs.Sound := by
  rw [turn]
  split
  · rcases serve_fs k t.current t.mem t.request with
      ⟨call, -, hfs⟩ | ⟨-, sector, calls, -, hfs⟩
    · rw [hfs]
      exact (step_sealed h call).sound
    · rw [hfs]
      exact (@runCalls_sealed (k.fs.withBuffer sector) h calls).sound
  · exact h

theorem runTurns_sound (img : Image) (slot : Disk) (k0 : System) (turns : List Turn) :
    (runTurns (started img slot k0) turns).fs.Sound :=
  @run_inv _ _ turn (fun k => k.fs.Sound) (fun _ t h => turn_sound h t) _
    (started_held img slot k0).sound turns

theorem started_closed (img : Image) (slot : Disk) (k0 : System) (i : Fin 64) :
    ¬ (started img slot k0).fs.toFdTables.OpenAt i := by
  rw [started_fs]
  intro hi
  have hopen := (keeps_minifsProcessInit (img.mount slot k0.fs).toFdTables 0 i hi).1
  rw [img.mount_tables] at hopen
  exact Bool.false_ne_true hopen.1

/-- No descriptor refers to an inode that went or was used again: through any turns of
any processes none of which strands a task, an open file is a regular file in use, and has
been the same file, under the same name, since the `open` that made its entry. -/
theorem open_files_stay (img : Image) (slot : Disk) (k₀ : System) (turns : List Turn)
    (hkeep : Meets turn (fun k t => ∀ i, ¬ Strands k t i) (started img slot k₀) turns) :
    let s := (runTurns (started img slot k₀) turns).fs
    ∀ i, (s.openFiles i).used = true → (s.openFiles i).type = .file →
      s.volume.ibit (s.openFiles i).inode = true ∧ (s.volume.node (s.openFiles i).inode).IsFile ∧
        ∃ before t after, turns = before ++ t :: after ∧
          OpenedAt (started img slot k₀) i before t after := by
  intro s i hused htype
  obtain ⟨hheld, hopened⟩ := runTurns_opened (started_grounded img slot k₀)
    (started_held img slot k₀) (started_closed img slot k₀) hkeep
  obtain ⟨hbit, hfile⟩ := hheld.files i ⟨hused, htype⟩
  exact ⟨hbit, hfile, hopened i ⟨hused, htype⟩⟩

section Open

variable {userPath flags n : Nat} {current p : Fin 16} {mem : UserMemory} {path : CStr}
  (hrun : Runnable (k.tasks current)) (hcopy : copyPath mem userPath = some path)
include hrun hcopy

theorem turn_open_fs : turn k ⟨current, mem, .open userPath flags⟩ = { k with
    fs := (minifsOpen k.fs (k.tasks current).pid (k.tasks current).cwdInode (some path)
      (BitVec.ofNat 32 flags)).1 } := by
  rw [turn, if_pos hrun]
  simp only [serve, sysOpen, hcopy, currentPid, currentCwd]

theorem turn_open (hs : k.fs.Sound) (hfind : findProcess k.fs.toFdTables (k.tasks current).pid = some p)
    (hbad : badFlags (BitVec.ofNat 32 flags) = false)
    (hresolve : k.fs.volume.resolve (k.tasks current).cwdInode path.bytes = some n) (hlt : n < 256)
    (hfile : (k.fs.volume.node n).IsFile) (htrunc : wantsTrunc (BitVec.ofNat 32 flags) = false) :
    ∃ b, turn k ⟨current, mem, .open userPath flags⟩ = { k with
      fs := (k.fs.withBuffer b).onTables
        (openInstall k.fs.toFdTables p n (k.fs.table n).size (BitVec.ofNat 32 flags)).1 } := by
  obtain ⟨b, hopen⟩ := @minifsOpen_existing n _ k.fs hs _ p (some path) (BitVec.ofNat 32 flags)
    hfind hbad hresolve hlt hfile htrunc
  exact ⟨b, by rw [turn_open_fs hrun hcopy, hopen]⟩

end Open

theorem copyPath_file : copyPath pathPage 8 = some ⟨[slash, 97], by decide⟩ := rfl

/-- The shell makes its requests on an image that has the file `/a`. -/
theorem shell_runs (requests : List Request) : ∃ (img : Image) (k : System),
    img.tree = stagedFile ∧ k = runTurns (started img bareSlot powerOn) (shellTurns requests) := by
  obtain ⟨img, htree, -⟩ := importTree_fits stagedFile_fits
  exact ⟨img, _, htree, rfl⟩

theorem shell_opened {img : Image} (htree : img.tree = stagedFile) (slot : Disk) {flags : Nat}
    (hbad : badFlags (BitVec.ofNat 32 flags) = false)
    (htrunc : wantsTrunc (BitVec.ofNat 32 flags) = false)
    (hruns : k = runTurns (started img slot powerOn) (shellTurns [.open 8 flags])) :
    ∃ n size, k.fs.toFdTables = (openInstall shellTables 1 n size (BitVec.ofNat 32 flags)).1 ∧
      k.fs.toStore = (img.mount slot boot).toStore ∧ (k.tasks 1).pid = 1 ∧
      Runnable (k.tasks 1) ∧ (img.mount slot boot).volume.resolve 0 [slash, 97] = some n := by
  obtain ⟨hready, hpid, hcwd, hstore, htables⟩ := shell_created img slot
  obtain ⟨k1, hk1⟩ : ∃ k1, k1 = turn (started img slot powerOn)
    ⟨0, pathPage, .create shellName⟩ := ⟨_, rfl⟩
  rw [← hk1] at hready hpid hcwd hstore htables
  obtain ⟨n, hlt, hresolve, hfile, -⟩ := stagedFile_mounted htree slot boot
  have hsound := (img.mount_sound slot boot)
  rw [← hstore] at hresolve hfile hsound
  have hfind : findProcess k1.fs.toFdTables 1 = some 1 := by
    rw [htables]
    decide
  have hrun : Runnable (k1.tasks 1) := Or.inl hready
  obtain ⟨b, hopened⟩ := turn_open hrun copyPath_file hsound (hpid ▸ hfind) hbad
    (hcwd ▸ hresolve) hlt hfile htrunc
  rw [htables] at hopened
  replace hopened := (show k = _ by rw [hruns, runTurns, shellTurns, List.map_cons, List.map_nil,
    run_cons, run_cons, run_nil, ← hk1]).trans hopened
  refine ⟨n, (k1.fs.table n).size, ?_, ?_, ?_, ?_, ?_⟩
  · rw [hopened]
    rfl
  · rw [hopened]
    exact hstore
  · rw [hopened]
    exact hpid
  · rw [hopened]
    exact hrun
  · rw [← hstore]
    exact hresolve

/-- The shell opens a file and unlinks it, which is refused, and has it open. -/
theorem open_files_stay_shell :
    ∃ (img : Image) (turns : List Turn) (k₀ k : System), img.tree = stagedFile ∧
      turns = shellTurns [.open 8 0, .unlink 8] ∧ k₀ = started img bareSlot powerOn ∧
      Meets turn (fun k t => ∀ i, ¬ Strands k t i) k₀ turns ∧ k = runTurns k₀ turns ∧
      (k.fs.openFiles 6).used = true ∧ (k.fs.openFiles 6).type = .file ∧
      k.fs.volume.ibit (k.fs.openFiles 6).inode = true ∧
      ∃ before t after, turns = before ++ t :: after ∧ OpenedAt k₀ 6 before t after := by
  obtain ⟨img, htree, -⟩ := importTree_fits stagedFile_fits
  obtain ⟨k₀, hk₀⟩ : ∃ k₀, k₀ = started img bareSlot powerOn := ⟨_, rfl⟩
  have hroot : AtRoot k₀ := fun i hi => by
    subst hk₀
    exact started_live img _ powerOn hi
  obtain ⟨n, size, htables, -, -, hrun, -⟩ := @shell_opened _ img htree bareSlot 0 rfl
    rfl rfl
  rw [← hk₀] at htables hrun
  obtain ⟨turns, hturns⟩ : ∃ turns, turns = shellTurns [.open 8 0, .unlink 8] := ⟨_, rfl⟩
  have hkeep := @AtRoot.meets _ hroot turns (by rw [hturns]; simp [shellTurns])
  have hentry : (runTurns k₀ turns).fs.openFiles 6 = ⟨true, 1, .file, 0, n, 0⟩ := by
    rw [hturns]
    show (turn (runTurns k₀ (shellTurns [.open 8 0])) _).fs.openFiles 6 = _
    rw [turn, if_pos hrun]
    simp only [serve, sysUnlink, copyPath_file]
    rw [minifsUnlink_tables, htables]
    rfl
  rw [hk₀] at hkeep
  have hopen := open_files_stay img bareSlot powerOn turns hkeep 6
  rw [← hk₀] at hopen hkeep
  have hstays := hopen (by rw [hentry]) (by rw [hentry])
  exact ⟨img, turns, k₀, _, htree, hturns, hk₀, hkeep, rfl, by rw [hentry], by rw [hentry],
    hstays.1, hstays.2.2⟩

/-! ## From a directory that went -/

section Onto

variable {s : FsSt} {n : Nat} (h : s.Sound) (hpos : 1 ≤ n) (hlt : n < 256)
  (hfree : s.volume.ibit n = false) (hleast : ∀ m, 1 ≤ m → m < n → s.volume.ibit m = true)
  (hdir : ¬ (s.volume.node n).IsDir)
include h hpos hlt hfree hleast hdir

/-- In an inode that is free, and the first that is, `create_node` fails and leaves a file. -/
theorem createNode_onto (name : List UInt8) :
    ∃ s', createNode s n name 1 = (s', none) ∧
      Becomes s s' ((s.volume.clear n).setNode n (freshInode 1 n).node) False := by
  rcases createNode_cases h name (show n < 2 ^ 32 by omega) (show 1 < 2 ^ 32 by decide) with
    ⟨s', -, -, hfull⟩ | ⟨s', k, hk1, -, hkfree, hc, hb, hkleast⟩ | ⟨s', k, j, -, -, -, -, hadd, -⟩
  · exact absurd ((hfull n hpos hlt).symm.trans hfree) (by decide)
  · have hle : k ≤ n := by
      by_contra hgt
      exact absurd ((hkleast n hpos (by omega)).symm.trans hfree) (by decide)
    have hge : n ≤ k := by
      by_contra hgt
      exact absurd ((hleast k hk1 (by omega)).symm.trans hkfree) (by decide)
    obtain rfl : k = n := by omega
    exact ⟨s', hc, hb.mono False.elim⟩
  · -- neither what was there nor a file takes a name
    have hparent := hadd.dir
    rw [Volume.plant, Volume.setNode_node] at hparent
    by_cases hk : n = k
    · rw [hk, update_self] at hparent
      exact absurd (show 1 &&& 0xff = 2 from hparent) (by decide)
    · rw [update_of_ne hk] at hparent
      exact absurd hparent hdir

/-- So does an `open` that is to make `x` in it. -/
theorem minifsOpen_onto {pid : Int} {p : Fin 16} (hfind : findProcess s.toFdTables pid = some p) :
    ∃ s', minifsOpen s pid n (some ⟨[120], by decide⟩) 0x40#32 = (s', none) ∧
      Becomes s s' ((s.volume.clear n).setNode n (freshInode 1 n).node) False := by
  have hnone : s.volume.resolve n [120] = none := by
    show s.volume.walk n [[120]] = none
    rw [Volume.walk, if_neg (by decide), if_neg (by decide), if_neg (by decide), Volume.lookup,
      if_neg fun h => hdir h.2]
  have hname : s.volume.resolveParent n [120] = some (n, [120]) := by
    show (asInt n).map (·, [120]) = _
    rw [asInt_of_lt (by omega), Option.map_some]
  rcases openTarget_cases s n [120] 0x40#32 with ⟨b, -, hno⟩ | ⟨b, d, name, -, -, hparent, htarget⟩
  · cases hname.symm.trans (hno (by decide) hnone)
  cases hname.symm.trans hparent
  obtain ⟨s', hcreate, hb⟩ := @createNode_onto (s.withBuffer b) n h hpos hlt hfree hleast hdir [120]
  refine ⟨s', ?_, hb.withBuffer⟩
  simp only [minifsOpen, hfind, pathBytes, htarget.trans hcreate]
  exact if_neg (by decide)

end Onto

/-- The shell changes to `/d`, unlinks it, fails to create `x` there, and opens `.`: it holds
an inode that is free. -/
theorem open_holds_free_inode :
    ∃ (img : Image) (k : System), img.tree = stagedDir ∧
      k = runTurns (started img bareSlot powerOn)
        (shellTurns [.chdir 1, .unlink 1, .open 4 0x40, .open 6 0]) ∧
      (k.fs.openFiles 6).used = true ∧ (k.fs.openFiles 6).type = .file ∧
      k.fs.volume.ibit (k.fs.openFiles 6).inode = false := by
  obtain ⟨img, htree, himage⟩ := stagedDir_image
  obtain ⟨hlookup, hdir, hcount⟩ := himage bareSlot boot
  obtain ⟨k₁, hk₁⟩ : ∃ k₁, k₁ = runTurns (started img bareSlot powerOn)
    (shellTurns [.chdir 1, .unlink 1]) := ⟨_, rfl⟩
  obtain ⟨hready, hpid, hcwd, hsound, htables, parent, j, hvol⟩ :=
    shell_stranded hlookup hdir hcount hk₁
  have hfree : k₁.fs.volume.ibit 1 = false := by rw [hvol]; rfl
  have hnode : ¬ (k₁.fs.volume.node 1).IsDir := by
    rw [hvol]
    show ¬ Node.zero.IsDir
    decide
  have hfind : findProcess k₁.fs.toFdTables 1 = some 1 := by
    rw [htables]
    decide
  -- `x` is made in the inode of the directory and given up
  obtain ⟨s₁, hfails, hb⟩ := minifsOpen_onto hsound (by decide) (by decide) hfree
    (fun m hm hlt => by omega) hnode hfind
  have hopen₁ : turn k₁ ⟨1, pathPage, .open 4 0x40⟩ = { k₁ with fs := s₁ } := by
    rw [turn_open_fs (Or.inl hready) (show copyPath pathPage 4 = some ⟨[120], by decide⟩ from rfl),
      hpid, hcwd, hfails]
  -- and `.` is a file
  have hfile : (s₁.volume.node 1).IsFile := by
    rw [hb.volume, Volume.setNode_node, update_self]
    rfl
  obtain ⟨b, hopen₂⟩ := @turn_open { k₁ with fs := s₁ } 6 0 1 1 1 pathPage ⟨[dot], by decide⟩
    (Or.inl hready) rfl hb.sound (by rw [hb.tables, hpid]; exact hfind) rfl (by rw [hcwd]; rfl)
    (by decide) hfile rfl
  have hruns : runTurns (started img bareSlot powerOn)
      (shellTurns [.chdir 1, .unlink 1, .open 4 0x40, .open 6 0]) =
        turn (turn k₁ ⟨1, pathPage, .open 4 0x40⟩) ⟨1, pathPage, .open 6 0⟩ := by
    simp only [hk₁, runTurns, shellTurns, List.map_cons, List.map_nil, run_cons, run_nil]
  refine ⟨img, _, htree, rfl, ?_⟩
  rw [hruns, hopen₁, hopen₂, hb.tables, htables]
  refine ⟨rfl, rfl, ?_⟩
  show s₁.volume.ibit 1 = false
  rw [hb.volume]
  exact hfree

end MiniOs.Kernel
