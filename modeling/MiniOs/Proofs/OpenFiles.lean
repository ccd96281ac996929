import MiniOs.Proofs.Descriptors
import MiniOs.Proofs.Namespace

/-!
# Open files and the disk

An open file is an inode number. It stays good because the two functions that
could spoil it check: `minifs_unlink` looks through the open-file table before
it takes an inode away, and `create_node` only ever takes a number that is free.

`step_files` says where an open file comes from, and `step_held` that it always
names a regular file in use.
-/

namespace MiniOs.Fs

open MiniOs.Lib MiniOs.Spec MiniOs.Tools

/-- Every open regular file is one on the disk. -/
def OpenSound (s : FsSt) : Prop :=
  ∀ i, s.toFdTables.OpenAt i → s.volume.ibit (s.openFiles i).inode = true ∧
      (s.volume.node (s.openFiles i).inode).IsFile

/-- A sound store, a tree of names, and open files that are in it. -/
structure Held (s : FsSt) : Prop where
  sound : s.Sound
  tree : s.volume.Tree
  files : OpenSound s

/-- A file that is open after a call was open before, in the same entry, or is
what the call opened, in an entry that was free. -/
def FileFrom (s s' : FsSt) (call : Call) (i : Fin 64) : Prop :=
  (s.toFdTables.OpenAt i ∧ SameFile (s.openFiles i) (s'.openFiles i)) ∨
    (s.openFiles i).used = false ∧ (∃ pid cwd path flags, call = .open pid cwd path flags) ∧
      s'.volume.ibit (s'.openFiles i).inode = true ∧
      (s'.volume.node (s'.openFiles i).inode).IsFile

section Step

variable {s s' : FsSt} {call : Call} {i : Fin 64}

theorem Keeps.fileFrom (h : Keeps s.toFdTables s'.toFdTables) (hi : s'.toFdTables.OpenAt i) :
    FileFrom s s' call i := by
  obtain ⟨hopen, hsame⟩ := h i hi
  exact Or.inl ⟨hopen, hsame.toSameFile⟩

theorem SameSlots.fileFrom (h : SameSlots s.toFdTables s'.toFdTables)
    (hi : s'.toFdTables.OpenAt i) : FileFrom s s' call i := by
  obtain ⟨hused, -, htype, hflags, hinode, -⟩ := OpenFile.mk.inj (h.2 i)
  exact Or.inl ⟨⟨hused ▸ hi.1, htype ▸ hi.2⟩, htype, hflags, hinode⟩

theorem minifsOpen_files (h : s.Sound) (ht : s.volume.Tree) (pid : Int) {cwd : Nat}
    {path : Option CStr} (hr : s.volume.Rooted cwd (pathBytes path)) (flags : BitVec 32)
    (hi : (minifsOpen s pid cwd path flags).1.toFdTables.OpenAt i) :
    FileFrom s (minifsOpen s pid cwd path flags).1 (.open pid cwd path flags) i := by
  obtain ⟨s1, V, hb, -, heq | ⟨p, n, size, -, -, hV, hfile, heq⟩⟩ :=
    minifsOpen_tree h ht pid hr flags
  · rw [heq] at hi ⊢
    refine Keeps.fileFrom (Keeps.of_files ?_) hi
    rw [hb.tables]
  have hopen : Keeps s.toFdTables (minifsOpen s pid cwd path flags).1.toFdTables ∨
      ∃ j, Opens s.toFdTables (minifsOpen s pid cwd path flags).1.toFdTables j
        (openedFile flags n size) := by
    rw [heq, hb.tables]
    rcases openInstall_cases s.toFdTables p n size flags with ⟨-, hk⟩ | ⟨j, fd, -, ho⟩
    · exact Or.inl hk
    · exact Or.inr ⟨j, ho⟩
  have hvol : (minifsOpen s pid cwd path flags).1.volume = V := by
    rw [heq]
    exact hb.volume
  rcases hopen with hkeeps | ⟨j, ho⟩
  · exact hkeeps.fileFrom hi
  by_cases hij : i = j
  · subst hij
    refine Or.inr ⟨ho.free, ⟨pid, cwd, path, flags, rfl⟩, ?_⟩
    rw [hvol, ho.entry]
    exact ⟨hV, hfile⟩
  · have hsame := ho.others i hij
    unfold FdTables.OpenAt at hi
    rw [hsame] at hi
    exact Or.inl ⟨hi, hsame ▸ SameFile.refl _⟩

/-- Where every open file comes from. -/
theorem step_files (h : s.Sound) (ht : s.volume.Tree) (hr : call.Rooted s.volume)
    (hi : (step s call).toFdTables.OpenAt i) : FileFrom s (step s call) call i := by
  have hquiet : ∀ {s' : FsSt}, s'.toFdTables = s.toFdTables → s'.toFdTables.OpenAt i →
      FileFrom s s' call i := fun heq hi => Keeps.fileFrom (Keeps.of_files (by rw [heq])) hi
  cases call with
  | processInit pid => exact (keeps_minifsProcessInit s.toFdTables pid).fileFrom hi
  | processFork parentPid childPid =>
    exact (keeps_minifsProcessFork s.toFdTables parentPid childPid).fileFrom hi
  | closeAll pid => exact (keeps_minifsCloseAll s.toFdTables pid).fileFrom hi
  | setCloexec pid fd on => exact (keeps_minifsSetCloexec s.toFdTables pid fd on).fileFrom hi
  | closeExecFds pid => exact (keeps_minifsCloseExecFds s.toFdTables pid).fileFrom hi
  | «open» pid cwd path flags => exact minifsOpen_files h ht pid hr flags hi
  | close pid fd => exact (keeps_minifsClose s.toFdTables pid fd).fileFrom hi
  | pread inode offset length =>
    obtain ⟨b, hb⟩ := minifsPread_eq s inode offset length
    exact hquiet (congrArg (fun r => r.1.toFdTables) hb) hi
  | read pid fd length => exact (minifsRead_quiet s pid fd length).2.fileFrom hi
  | write pid fd buffer length =>
    rcases minifsWrite_cases h pid fd buffer length with
      ⟨s', r, hc, -, hslots, -⟩ | ⟨j, buf, s', done, -, -, hw, hc⟩
    · have hstep : step s (.write pid fd buffer length) = s' := congrArg Prod.fst hc
      rw [hstep] at hi ⊢
      exact hslots.fileFrom hi
    · have hstep : step s (.write pid fd buffer length) =
          s'.setOffset j (writeOffset s j + done) := congrArg Prod.fst hc
      rw [hstep] at hi ⊢
      exact (hw.slots.trans (sameSlots_setOffset s' j _)).fileFrom hi
  | lseek pid fd offset whence =>
    exact (minifsLseek_quiet s pid fd offset whence).2.fileFrom hi
  | dup2 pid oldfd newfd => exact (keeps_minifsDup2 s.toFdTables pid oldfd newfd).fileFrom hi
  | getdents cwd path capacity =>
    obtain ⟨b, hb⟩ := minifsGetdents_quiet s cwd path capacity
    exact hquiet (congrArg (fun r => r.toFdTables) hb) hi
  | mkdir cwd path =>
    obtain ⟨V, hb, -⟩ := minifsMkdir_tree h ht hr
    exact hquiet hb.tables hi
  | unlink cwd path =>
    rcases minifsUnlink_tree h ht hr with
      ⟨⟨b, hc⟩, -⟩ | ⟨s', parent, name, k, j, e, -, hc, -, hb⟩
    · exact hquiet (congrArg (fun r => r.1.toFdTables) hc) hi
    · have hstep : step s (.unlink cwd path) = s' := congrArg Prod.fst hc
      rw [hstep] at hi ⊢
      exact hquiet hb.tables hi
  | chdir cwd path =>
    obtain ⟨b, hb⟩ := minifsChdir_eq s cwd path
    exact hquiet (congrArg (fun r => r.1.toFdTables) hb) hi

/-- An unlink spares what is open. -/
theorem Removes.not_open {n : Nat} (h : Removes s call n) (hi : s.toFdTables.OpenAt i) :
    (s.openFiles i).inode ≠ n := by
  obtain ⟨cwd, path, parent, name, -, hu⟩ := h
  rintro rfl
  have hclosed := hu.closed
  rw [inodeIsOpen, List.any_eq_false] at hclosed
  exact hclosed i (List.mem_finRange i) (by simp [hi.1, hi.2])

/-- A call leaves open files on the disk. -/
theorem step_held (h : Held s) (hr : call.Rooted s.volume) : Held (step s call) := by
  have hpers := step_persists h.sound h.tree hr
  refine ⟨(step_sealed h.sound call).sound, hpers.tree, fun i hi => ?_⟩
  rcases step_files h.sound h.tree hr hi with ⟨hold, hsame⟩ | ⟨-, -, hnew⟩
  · obtain ⟨hused, hfile⟩ := h.files i hold
    have hstay : ¬ Removes s call (s.openFiles i).inode := fun hgone => hgone.not_open hold rfl
    rw [hsame.inode]
    exact ⟨hpers.used hused hstay, (hpers.isFile hused hstay).mpr hfile⟩
  · exact hnew

end Step

/-- A fresh mount has nothing open. -/
theorem Image.mount_held (img : Image) (slot : Disk) (s0 : FsSt) : Held (img.mount slot s0) where
  sound := img.mount_sound slot s0
  tree := img.mount_tree slot s0
  files i hi := by
    rw [img.mount_tables] at hi
    exact absurd hi.1 Bool.false_ne_true

end MiniOs.Fs
