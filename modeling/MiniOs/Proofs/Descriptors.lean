import MiniOs.Fs.Calls

/-!
# What becomes of an open file

An entry of the open-file table that stands for a regular file comes from one
place, `minifs_open`. The other functions of the descriptor tables add and drop
references to it, drop it with the last one, and open consoles in entries that
are free. `Keeps` says that once, and holds function by function.
-/

namespace MiniOs.Fs

open MiniOs.Lib

/-- Two states of one open file, but for its references and its offset. -/
structure SameFile (a b : OpenFile) : Prop where
  type : b.type = a.type
  flags : b.flags = a.flags
  inode : b.inode = a.inode

theorem SameFile.refl (a : OpenFile) : SameFile a a := ⟨rfl, rfl, rfl⟩

theorem SameFile.trans {a b c : OpenFile} (h1 : SameFile a b) (h2 : SameFile b c) :
    SameFile a c :=
  ⟨h2.type.trans h1.type, h2.flags.trans h1.flags, h2.inode.trans h1.inode⟩

/-- Two states of one open file, but for its references. -/
structure SameOpen (a b : OpenFile) : Prop extends SameFile a b where
  offset : b.offset = a.offset

theorem SameOpen.refl (a : OpenFile) : SameOpen a a := ⟨.refl a, rfl⟩

theorem SameOpen.trans {a b c : OpenFile} (h1 : SameOpen a b) (h2 : SameOpen b c) :
    SameOpen a c := ⟨h1.toSameFile.trans h2.toSameFile, h2.offset.trans h1.offset⟩

/-- Entry `i` stands for a regular file. -/
def FdTables.OpenAt (t : FdTables) (i : Fin 64) : Prop :=
  (t.openFiles i).used = true ∧ (t.openFiles i).type = .file

/-- Every regular file that is open was open before, in the same entry. -/
def Keeps (t t' : FdTables) : Prop :=
  ∀ i, t'.OpenAt i → t.OpenAt i ∧ SameOpen (t.openFiles i) (t'.openFiles i)

section Keeps

variable {t t₁ t₂ : FdTables}

theorem Keeps.refl (t : FdTables) : Keeps t t := fun _ h => ⟨h, .refl _⟩

theorem Keeps.trans (h1 : Keeps t t₁) (h2 : Keeps t₁ t₂) : Keeps t t₂ := by
  intro i hi
  obtain ⟨hi1, hsame2⟩ := h2 i hi
  obtain ⟨hi0, hsame1⟩ := h1 i hi1
  exact ⟨hi0, hsame1.trans hsame2⟩

theorem Keeps.of_files (h : t₁.openFiles = t.openFiles) : Keeps t t₁ := by
  intro i hi
  unfold FdTables.OpenAt at hi ⊢
  rw [h] at hi ⊢
  exact ⟨hi, .refl _⟩

theorem Keeps.foldl {α : Type} {f : FdTables → α → FdTables} (h : ∀ t x, Keeps t (f t x))
    (l : List α) (t : FdTables) : Keeps t (l.foldl f t) := by
  induction l generalizing t with
  | nil => exact .refl t
  | cons x rest ih => exact (h t x).trans (ih (f t x))

theorem openFiles_setFile (t : FdTables) (i j : Fin 64) (file : OpenFile) :
    (t.setFile i file).openFiles j = if j = i then file else t.openFiles j := by
  by_cases hj : j = i
  · rw [if_pos hj, hj]
    exact Function.update_self ..
  · rw [if_neg hj]
    exact Function.update_of_ne hj ..

theorem Keeps.setFile {i : Fin 64} {file : OpenFile}
    (h : file.used = true → file.type = .file →
      t.OpenAt i ∧ SameOpen (t.openFiles i) file) : Keeps t (t.setFile i file) := by
  intro j hj
  unfold FdTables.OpenAt at hj
  rw [openFiles_setFile] at hj ⊢
  split at hj
  · next heq =>
    rw [if_pos heq, heq]
    exact h hj.1 hj.2
  · next hne =>
    rw [if_neg hne]
    exact ⟨hj, .refl _⟩

theorem Keeps.setProcess (h : Keeps t t₁) (p : Fin 16) (process : ProcessFds) :
    Keeps t (t₁.setProcess p process) := h.trans (.of_files rfl)

theorem Keeps.putOfd (h : Keeps t t₁) (ofd : Option (Fin 64)) : Keeps t (putOfd t₁ ofd) := by
  cases ofd with
  | none => exact h
  | some i =>
    rw [Fs.putOfd]
    split
    · next hused =>
      exact h.trans (.setFile fun _ htype => ⟨⟨hused, htype⟩, ⟨⟨rfl, rfl, rfl⟩, rfl⟩⟩)
    · exact h

theorem Keeps.addRef (h : Keeps t t₁) (ofd : Option (Fin 64)) : Keeps t (addRef t₁ ofd) := by
  cases ofd with
  | none => exact h
  | some i =>
    exact h.trans (.setFile fun hused htype => ⟨⟨hused, htype⟩, ⟨⟨rfl, rfl, rfl⟩, rfl⟩⟩)

/-- What is opened as a console is no regular file. -/
theorem Keeps.allocOfd {type : OfdType} (h : Keeps t t₁) (htype : type ≠ .file)
    (flags : BitVec 32) (inode : Nat) : Keeps t (allocOfd t₁ type flags inode).1 := by
  rw [Fs.allocOfd]
  split
  · exact h
  · exact h.trans (.setFile fun _ hfile => absurd hfile htype)

variable (t)

theorem keeps_minifsProcessInit (pid : Int) :
    Keeps t (minifsProcessInit t pid).1 := by
  rw [minifsProcessInit]
  split
  · exact .refl t
  split
  · exact .refl t
  next p hp =>
    have hin : OfdType.consoleIn ≠ .file := by decide
    have hout : OfdType.consoleOut ≠ .file := by decide
    have hopen := ((((Keeps.refl t).setProcess p ⟨true, pid, fun _ => none, 0⟩).allocOfd
      hin 0 0).allocOfd hout 1 0).allocOfd hout 1 0
    dsimp only
    split
    · exact (((hopen.putOfd _).putOfd _).putOfd _).setProcess _ _
    · exact ((hopen.setProcess _ _).setProcess _ _).setProcess _ _

theorem keeps_minifsProcessFork (parentPid childPid : Int) :
    Keeps t (minifsProcessFork t parentPid childPid).1 := by
  rw [minifsProcessFork]
  split
  · exact .refl t
  next parent hparent =>
    have hinit := keeps_minifsProcessInit t childPid
    split
    · next t₁ heq => rwa [heq] at hinit
    · next t₁ heq =>
      rw [heq] at hinit
      split
      · exact hinit
      · next child hchild =>
        exact (hinit.setProcess _ _).trans
          (.foldl (fun t fd => (((Keeps.refl t).putOfd _).setProcess _ _).addRef _) _ _)

theorem keeps_minifsCloseAll (pid : Int) : Keeps t (minifsCloseAll t pid) := by
  rw [minifsCloseAll]
  split
  · exact .refl t
  · next p hp =>
    have hslots := Keeps.foldl (fun t fd => show Keeps t (closeSlot p t fd) from
      ((Keeps.refl t).putOfd _).setProcess _ _) (List.finRange 16) t
    exact hslots.setProcess _ _

theorem keeps_minifsSetCloexec (pid fd : Int) (on : Bool) :
    Keeps t (minifsSetCloexec t pid fd on).1 := by
  refine .of_files ?_
  rw [minifsSetCloexec]
  repeat' split
  all_goals rfl

theorem keeps_minifsCloseExecFds (pid : Int) :
    Keeps t (minifsCloseExecFds t pid) := by
  rw [minifsCloseExecFds]
  split
  · exact .refl t
  · next p hp =>
    refine .foldl (fun t fd => ?_) _ t
    rw [closeExecSlot]
    split
    · exact (((Keeps.refl t).putOfd _).setProcess _ _).setProcess _ _
    · exact .refl t

theorem keeps_minifsClose (pid fd : Int) : Keeps t (minifsClose t pid fd).1 := by
  rw [minifsClose]
  repeat' split
  all_goals first
    | exact .refl t
    | exact (((Keeps.refl t).putOfd _).setProcess _ _).setProcess _ _

theorem keeps_minifsDup2 (pid oldfd newfd : Int) :
    Keeps t (minifsDup2 t pid oldfd newfd).1 := by
  rw [minifsDup2]
  repeat' split
  all_goals first
    | exact .refl t
    | exact ((((Keeps.refl t).putOfd _).setProcess _ _).addRef _).setProcess _ _

end Keeps

/-- While only consoles were opened, no inode is open. -/
theorem not_inodeIsOpen {t : FdTables} (h : Keeps FdTables.zero t) (n : Nat) :
    inodeIsOpen t n = false := by
  rw [inodeIsOpen, List.any_eq_false]
  intro i _ hopen
  simp only [Bool.and_eq_true, beq_iff_eq] at hopen
  exact absurd (h i hopen.1).1.1 Bool.false_ne_true

/-! ## Opening -/

/-- The entry `minifs_open` makes. -/
def openedFile (flags : BitVec 32) (number size : Nat) : OpenFile :=
  ⟨true, 1, .file, flags, number, if wantsAppend flags then size else 0⟩

/-- A new entry for a regular file, in a place that was free. -/
structure Opens (t t' : FdTables) (i : Fin 64) (file : OpenFile) : Prop where
  free : (t.openFiles i).used = false
  entry : t'.openFiles i = file
  others : ∀ j, j ≠ i → t'.openFiles j = t.openFiles j

/-- Without a free entry or descriptor nothing is open that was not. -/
theorem openInstall_cases (t : FdTables) (p : Fin 16) (number size : Nat) (flags : BitVec 32) :
    ((openInstall t p number size flags).2 = none ∧ Keeps t (openInstall t p number size flags).1) ∨
    ∃ i fd, (openInstall t p number size flags).2 = some fd ∧
      Opens t (openInstall t p number size flags).1 i (openedFile flags number size) := by
  rw [openInstall, allocOfd]
  cases hfind : (List.finRange 64).find? fun i => !(t.openFiles i).used with
  | none => exact Or.inl ⟨rfl, .refl t⟩
  | some i =>
    have hfree : (t.openFiles i).used = false := by simpa using List.find?_some hfind
    dsimp only
    obtain ⟨t₁, ht1⟩ : ∃ t₁, t₁ = t.setFile i (openedFile flags number size) := ⟨_, rfl⟩
    have hset : (if wantsAppend flags = true then
        (t.setFile i ⟨true, 1, .file, flags, number, 0⟩).setFile i
          { (t.setFile i ⟨true, 1, .file, flags, number, 0⟩).openFiles i with offset := size }
        else t.setFile i ⟨true, 1, .file, flags, number, 0⟩) = t₁ := by
      rw [ht1, openedFile]
      split
      · simp only [FdTables.setFile, Function.update_self, Function.update_idem]
      · rfl
    rw [hset, installFd]
    cases (List.finRange 16).find? fun fd => ((t₁.processFds p).fd fd).isNone with
    | none =>
      -- the new entry goes again with its only reference
      refine Or.inl ⟨rfl, fun j hj => ?_⟩
      have hput : putOfd t₁ (some i) =
          t.setFile i { openedFile flags number size with refs := 0, used := false } := by
        rw [putOfd, ht1, openFiles_setFile, if_pos rfl,
          if_pos (show (openedFile flags number size).used = true from rfl)]
        simp only [FdTables.setFile, Function.update_idem]
        rfl
      dsimp only at hj ⊢
      rw [hput] at hj ⊢
      exact Keeps.setFile (fun hused => absurd hused Bool.false_ne_true) j hj
    | some fd =>
      refine Or.inr ⟨i, fd, rfl, hfree, ?_, fun j hj => ?_⟩
      · rw [ht1]
        exact Function.update_self ..
      · rw [ht1]
        exact Function.update_of_ne hj ..

end MiniOs.Fs
