import Mathlib.Algebra.Group.Pi.Basic
import Mathlib.Data.Fintype.Prod
import MiniOs.Lib.References
import MiniOs.Proofs.Descriptors
import MiniOs.Proofs.Entries
import MiniOs.Proofs.Mount

/-!
# The reference counts of open files

An entry of `open_files` counts the descriptors that refer to it, in all processes.
`slot` collects the descriptors and `Balanced` says that the counts are right. In the
middle of a function they are not: an open file has been taken and no descriptor
refers to it yet, or the other way round. `Counted` says by how much, and every
function of `minifs.c` below ends balanced again.

One does not. `minifs_process_fork` drops what the child had before it adds what the
parent has, and when the child is the parent the first may have been the last
reference.
-/

namespace MiniOs.Fs

open MiniOs.Lib
open Function (update update_apply update_eq_self update_idem update_of_ne update_self)

namespace FdTables

/-- What a descriptor refers to. The descriptors of an entry that is not in use refer
to nothing. -/
def slot (t : FdTables) (k : Fin 16 × Fin 16) : Option (Fin 64) :=
  if (t.processFds k.1).used then (t.processFds k.1).fd k.2 else none

/-- The close-on-exec bits. -/
def marks (t : FdTables) (p : Fin 16) : BitVec 16 := (t.processFds p).cloexec

/-- The open files are counted, if they should have that many references. -/
def Counted (t : FdTables) (count : Fin 64 → Nat) : Prop :=
  Lib.Counted (fun i => (t.openFiles i).used) (fun i => (t.openFiles i).refs) count

/-- Every open file counts its descriptors. -/
def Balanced (t : FdTables) : Prop := t.Counted (holders t.slot)

end FdTables

section Parts

variable {t t' : FdTables} {p : Fin 16} {pid : Int}

theorem slot_of_holder (h : t.holder p = some pid) (fd : Fin 16) :
    t.slot (p, fd) = (t.processFds p).fd fd := if_pos (holder_eq_some.mp h).1

theorem slot_of_free (h : t.holder p = none) (fd : Fin 16) : t.slot (p, fd) = none :=
  if_neg (by simp [holder_eq_none.mp h])

theorem slot_ne_none {fd : Fin 16} :
    t.slot (p, fd) ≠ none ↔ (t.processFds p).used = true ∧ (t.processFds p).fd fd ≠ none := by
  simp [FdTables.slot]

theorem slot_setProcess_same {process : ProcessFds}
    (h : ∀ fd, (if process.used then process.fd fd else none) = t.slot (p, fd)) :
    (t.setProcess p process).slot = t.slot := by
  funext ⟨q, fd⟩
  rcases eq_or_ne q p with rfl | hq
  · rw [← h fd]
    simp [FdTables.slot, FdTables.setProcess]
  · simp [FdTables.slot, FdTables.setProcess, hq]

theorem slot_setFd (h : t.holder p = some pid) (fd : Fin 16) (ofd : Option (Fin 64)) :
    (t.setFd p fd ofd).slot = update t.slot (p, fd) ofd := by
  have hused := (holder_eq_some.mp h).1
  funext ⟨q, gd⟩
  rcases eq_or_ne q p with rfl | hq
  · simp [FdTables.slot, FdTables.setFd, FdTables.setProcess, update_apply, hused]
  · simp [FdTables.slot, FdTables.setFd, FdTables.setProcess, hq]

@[simp] theorem processFds_putOfd (t : FdTables) (ofd : Option (Fin 64)) :
    (putOfd t ofd).processFds = t.processFds := by
  cases ofd with
  | none => rfl
  | some i =>
    rw [putOfd]
    split <;> rfl

@[simp] theorem processFds_addRef (t : FdTables) (ofd : Option (Fin 64)) :
    (addRef t ofd).processFds = t.processFds := by
  cases ofd <;> rfl

@[simp] theorem processFds_allocOfd (t : FdTables) (type : OfdType) (flags : BitVec 32)
    (inode : Nat) : (allocOfd t type flags inode).1.processFds = t.processFds := by
  rw [allocOfd]
  split <;> rfl

theorem fd_setFd (t : FdTables) (p fd : Fin 16) (ofd : Option (Fin 64)) :
    ((t.setFd p fd ofd).processFds p).fd fd = ofd := by
  simp [FdTables.setFd, FdTables.setProcess]

theorem slot_of_processFds (h : t'.processFds = t.processFds) : t'.slot = t.slot := by
  funext k
  rw [FdTables.slot, h]
  rfl

theorem holder_of_processFds (h : t'.processFds = t.processFds) : t'.holder = t.holder := by
  funext q
  rw [FdTables.holder, h]
  rfl

end Parts

/-! ## What a function does to the counts -/

section Counts

variable {t t' : FdTables} {count : Fin 64 → Nat} {ofd : Option (Fin 64)}

theorem FdTables.Counted.of_files (h : t.Counted count) (hfiles : t'.openFiles = t.openFiles) :
    t'.Counted count := by
  unfold FdTables.Counted at h ⊢
  rwa [hfiles]

theorem add_unit_none (count : Fin 64 → Nat) : count + unit none = count := by
  funext i
  rw [Pi.add_apply, unit_none, Nat.add_zero]

theorem FdTables.Counted.putOfd (h : t.Counted (count + unit ofd)) :
    (putOfd t ofd).Counted count := by
  cases ofd with
  | none => rwa [add_unit_none] at h
  | some i =>
    have hused : (t.openFiles i).used = true := (h.taken_iff i).mpr (by simp [unit_self])
    rw [Fs.putOfd, if_pos hused]
    refine Lib.Counted.drop (i := i) h (fun j hj => ?_) ?_ ?_
    · simp [openFiles_setFile, hj]
    · simp [openFiles_setFile]
    · simp [openFiles_setFile]

theorem FdTables.Counted.addRef (h : t.Counted count) (hpos : ∀ i, ofd = some i → 0 < count i) :
    (addRef t ofd).Counted (count + unit ofd) := by
  cases ofd with
  | none => rwa [add_unit_none]
  | some i =>
    refine Lib.Counted.add (i := i) h (hpos i rfl) (fun j hj => ?_) ?_ ?_
    · simp [Fs.addRef, openFiles_setFile, hj]
    · simp [Fs.addRef, openFiles_setFile]
    · simp [Fs.addRef, openFiles_setFile]

theorem FdTables.Counted.allocOfd (h : t.Counted count) (type : OfdType) (flags : BitVec 32)
    (inode : Nat) :
    (allocOfd t type flags inode).1.Counted (count + unit (allocOfd t type flags inode).2) := by
  rw [Fs.allocOfd]
  split
  · rwa [add_unit_none]
  · next i hi =>
    have hfree : (t.openFiles i).used = false := by simpa using List.find?_some hi
    refine Lib.Counted.take (i := i) h hfree (fun j hj => ?_) ?_ ?_
    · simp [openFiles_setFile, hj]
    · simp [openFiles_setFile]
    · simp [openFiles_setFile]

variable {p fd : Fin 16} {pid : Int}

/-- A descriptor that is free takes over a reference nobody holds. -/
theorem FdTables.Counted.setFd (h : t.Counted (holders t.slot + (unit ofd + count)))
    (hp : t.holder p = some pid) (hfree : t.slot (p, fd) = none) :
    (t.setFd p fd ofd).Counted (holders (t.setFd p fd ofd).slot + count) := by
  have hsame : update t.slot (p, fd) none = t.slot := by
    rw [← hfree]
    exact update_eq_self ..
  rw [slot_setFd hp, holders_acquire, hsame, add_assoc]
  exact h.of_files rfl

/-- One descriptor refers to something else now. -/
structure Exchanged (t t' : FdTables) (p fd : Fin 16) (ofd : Option (Fin 64)) : Prop where
  balanced : t'.Balanced
  processFds : t'.processFds = (t.setFd p fd ofd).processFds

theorem Exchanged.holder (hx : Exchanged t t' p fd ofd) : t'.holder = t.holder :=
  (holder_of_processFds hx.processFds).trans (holder_setFd ..)

/-- A descriptor drops its open file and takes another, which somebody else refers to. -/
theorem exchanged (h : t.Balanced) (hp : t.holder p = some pid)
    (hkeep : ∀ i, ofd = some i → 0 < holders (update t.slot (p, fd) none) i) :
    Exchanged t (addRef ((putOfd t ((t.processFds p).fd fd)).setFd p fd ofd) ofd) p fd ofd := by
  have hcount : (putOfd t ((t.processFds p).fd fd)).Counted
      (holders (update t.slot (p, fd) none)) := by
    rw [← slot_of_holder hp]
    refine FdTables.Counted.putOfd ?_
    rw [← holders_release]
    exact h
  have hprocs : (addRef ((putOfd t ((t.processFds p).fd fd)).setFd p fd ofd) ofd).processFds =
      (t.setFd p fd ofd).processFds := by
    simp [FdTables.setFd, FdTables.setProcess]
  refine ⟨?_, hprocs⟩
  unfold FdTables.Balanced
  rw [slot_of_processFds hprocs, slot_setFd hp, holders_acquire]
  exact FdTables.Counted.addRef (hcount.of_files rfl) hkeep

theorem exchanged_none (h : t.Balanced) (hp : t.holder p = some pid) (fd : Fin 16) :
    Exchanged t ((putOfd t ((t.processFds p).fd fd)).setFd p fd none) p fd none := by
  have hkeep : ∀ i, (none : Option (Fin 64)) = some i →
      0 < holders (update t.slot (p, fd) none) i := nofun
  exact exchanged h hp hkeep

/-- An entry with other descriptors. -/
def ProcessFds.withFds (entry : ProcessFds) (fd : Fin 16 → Option (Fin 64)) : ProcessFds :=
  ⟨entry.used, entry.pid, fd, entry.cloexec⟩

/-- A loop over descriptors that gives each of them something. -/
theorem exchanged_foldl {f : FdTables → Fin 16 → FdTables} {g : Fin 16 → Option (Fin 64)}
    (hf : ∀ t' (done : List (Fin 16)) fd, t'.Balanced → t'.holder = t.holder →
      t'.processFds = update t.processFds p ((t.processFds p).withFds fun gd =>
        if gd ∈ done then g gd else (t.processFds p).fd gd) →
      Exchanged t' (f t' fd) p fd (g fd)) (l : List (Fin 16)) (h : t.Balanced) :
    (l.foldl f t).Balanced ∧
      (l.foldl f t).processFds = update t.processFds p ((t.processFds p).withFds
        fun gd => if gd ∈ l then g gd else (t.processFds p).fd gd) := by
  induction l using List.reverseRecOn with
  | nil => exact ⟨h, by simp [ProcessFds.withFds]⟩
  | append_singleton l fd ih =>
    have hholder : (l.foldl f t).holder = t.holder :=
      (holder_of_processFds (t := t.setProcess p _) ih.2).trans (holder_setProcess_same t p rfl)
    have hx := hf _ l fd ih.1 hholder ih.2
    rw [List.foldl_append]
    refine ⟨hx.balanced, hx.processFds.trans ?_⟩
    rw [FdTables.setFd, FdTables.setProcess, ih.2, update_self, update_idem]
    show update t.processFds p ((t.processFds p).withFds _) = _
    refine congrArg (fun fds => update t.processFds p ((t.processFds p).withFds fds))
      (funext fun gd => ?_)
    rcases eq_or_ne gd fd with rfl | hne
    · simp [ProcessFds.withFds]
    · simp [ProcessFds.withFds, hne]

end Counts

/-! ## Tables that are in order -/

/-- The counts are right, no two entries belong to one process, and what is marked is
open. -/
structure FdTables.Exact (t : FdTables) : Prop where
  balanced : t.Balanced
  holder_inj : ∀ {p q pid}, t.holder p = some pid → t.holder q = some pid → p = q
  marked : ∀ {p fd}, (t.marks p).getLsbD fd.val = true → t.slot (p, fd) ≠ none

theorem getLsbD_bit (fd gd : Fin 16) : (1#16 <<< fd.val).getLsbD gd.val = decide (gd = fd) := by
  rw [BitVec.getLsbD_shiftLeft, BitVec.getLsbD_one]
  have := gd.isLt
  grind

theorem getLsbD_clear (m : BitVec 16) (fd gd : Fin 16) :
    (m &&& ~~~(1#16 <<< fd.val)).getLsbD gd.val = (m.getLsbD gd.val && !decide (gd = fd)) := by
  rw [BitVec.getLsbD_and, BitVec.getLsbD_not, getLsbD_bit, decide_eq_true gd.isLt, Bool.true_and]

theorem getLsbD_mark (m : BitVec 16) (fd gd : Fin 16) :
    (m ||| (1#16 <<< fd.val)).getLsbD gd.val = (m.getLsbD gd.val || decide (gd = fd)) := by
  rw [BitVec.getLsbD_or, getLsbD_bit]

section Exact

variable {t t' : FdTables} {p fd : Fin 16} {pid : Int} {ofd : Option (Fin 64)}

namespace FdTables.Exact

theorem marks_open (h : t.Exact) (hm : (t.processFds p).cloexec.getLsbD fd.val = true) :
    (t.processFds p).used = true ∧ (t.processFds p).fd fd ≠ none :=
  slot_ne_none.mp (h.marked hm)

/-- One entry is replaced. Whatever a function does to the tables, that is what has become of
the entries in the end. -/
theorem replace {entry : ProcessFds} (h : t.Exact) (hb : t'.Balanced)
    (hprocs : t'.processFds = update t.processFds p entry)
    (hpid : ∀ pid, entry.holder = some pid → ∀ q, q ≠ p → t.holder q ≠ some pid)
    (hmarked : ∀ fd : Fin 16, entry.cloexec.getLsbD fd.val = true →
      entry.used = true ∧ entry.fd fd ≠ none) : t'.Exact := by
  have hself : t'.processFds p = entry := by rw [hprocs, update_self]
  have hother : ∀ {q}, q ≠ p → t'.processFds q = t.processFds q := fun hq => by
    rw [hprocs, update_of_ne hq]
  refine ⟨hb, fun {q r pid} hq hr => ?_, fun {q gd} hm => slot_ne_none.mpr ?_⟩
  · unfold FdTables.holder at hq hr
    rcases eq_or_ne q p with rfl | hqp
    · rw [hself] at hq
      by_contra hne
      rw [hother (Ne.symm hne)] at hr
      exact hpid pid hq r (Ne.symm hne) hr
    · rw [hother hqp] at hq
      rcases eq_or_ne r p with rfl | hrp
      · rw [hself] at hr
        exact absurd hq (hpid pid hr q hqp)
      · rw [hother hrp] at hr
        exact h.holder_inj hq hr
  · unfold FdTables.marks at hm
    rcases eq_or_ne q p with rfl | hq
    · rw [hself] at hm ⊢
      exact hmarked gd hm
    · rw [hother hq] at hm ⊢
      exact h.marks_open hm

theorem rewrite {entry : ProcessFds} (h : t.Exact) (hb : t'.Balanced)
    (hprocs : t'.processFds = update t.processFds p entry)
    (hholder : entry.holder = t.holder p)
    (hmarked : ∀ fd : Fin 16, entry.cloexec.getLsbD fd.val = true →
      entry.used = true ∧ entry.fd fd ≠ none) : t'.Exact :=
  h.replace hb hprocs (fun _ hid _ hq hq' => hq (h.holder_inj hq' (hholder ▸ hid))) hmarked

/-- The same entries, with open files that are counted. -/
theorem of_processFds (h : t.Exact) (hprocs : t'.processFds = t.processFds)
    (hcount : t'.Counted (holders t.slot)) : t'.Exact := by
  refine h.rewrite (p := 0) ?_ (hprocs.trans (update_eq_self 0 _).symm) rfl
    fun fd => h.marks_open
  unfold FdTables.Balanced
  rwa [slot_of_processFds hprocs]

theorem sameSlots (h : t.Exact) (hs : SameSlots t t') : t'.Exact := by
  refine h.of_processFds hs.1 ?_
  have hfile : ∀ i, (t'.openFiles i).used = (t.openFiles i).used ∧
      (t'.openFiles i).refs = (t.openFiles i).refs := fun i => by
    obtain ⟨hused, hrefs, -⟩ := OpenFile.mk.inj (hs.2 i)
    exact ⟨hused, hrefs⟩
  unfold FdTables.Counted
  simp only [hfile]
  exact h.balanced

theorem foldl {f : FdTables → Fin 16 → FdTables}
    (hf : ∀ t fd, t.Exact → t.holder p = some pid →
      (f t fd).Exact ∧ (f t fd).holder = t.holder) (l : List (Fin 16)) (h : t.Exact)
    (hp : t.holder p = some pid) : (l.foldl f t).Exact := by
  induction l generalizing t with
  | nil => exact h
  | cons fd rest ih =>
    obtain ⟨hexact, hholder⟩ := hf t fd h hp
    exact ih hexact (hholder ▸ hp)

end FdTables.Exact

/-- An entry that is replaced by one with the same descriptors leaves the counts right. -/
theorem balanced_setProcess {process : ProcessFds} (h : t.Counted (holders t.slot))
    (hsame : ∀ fd, (if process.used then process.fd fd else none) = t.slot (p, fd)) :
    (t.setProcess p process).Balanced := by
  unfold FdTables.Balanced
  rw [slot_setProcess_same hsame]
  exact h.of_files rfl

/-- A descriptor that refers to something else loses its mark. -/
theorem Exchanged.exact (hx : Exchanged t t' p fd ofd) (h : t.Exact) :
    (t'.clearCloexec p fd).Exact := by
  have hprocs : (t'.clearCloexec p fd).processFds = update t.processFds p
      { t.processFds p with
        fd := update (t.processFds p).fd fd ofd
        cloexec := (t.processFds p).cloexec &&& ~~~(1#16 <<< fd.val) } := by
    simp [FdTables.clearCloexec, FdTables.setProcess, FdTables.setFd, hx.processFds]
  refine h.rewrite (balanced_setProcess hx.balanced fun _ => rfl) hprocs rfl fun gd hm => ?_
  obtain ⟨hmark, hne⟩ := Bool.and_eq_true_iff.mp ((getLsbD_clear ..).symm.trans hm)
  obtain ⟨hused, hopen⟩ := h.marks_open hmark
  refine ⟨hused, ?_⟩
  dsimp only
  rwa [update_of_ne (by simpa using hne)]

/-! ## Function by function -/

theorem minifsClose_exact (h : t.Exact) (pid fd : Int) : (minifsClose t pid fd).1.Exact := by
  fun_cases minifsClose t pid fd with
  | case4 p hp fd => exact (exchanged_none h.balanced (findProcess_holder hp) fd).exact h
  | _ => exact h

theorem minifsDup2_exact (h : t.Exact) (pid oldfd newfd : Int) :
    (minifsDup2 t pid oldfd newfd).1.Exact := by
  fun_cases minifsDup2 t pid oldfd newfd with
  | case4 p hp old new hold hnew hopen hne t1 t2 t3 =>
    have hholder := findProcess_holder hp
    -- the old descriptor keeps the open file alive when the new one lets go
    have hkeep : ∀ i, (t.processFds p).fd old = some i →
        0 < holders (update t.slot (p, new) none) i := by
      intro i hi
      refine holders_pos.mpr ⟨(p, old), ?_⟩
      rw [update_of_ne (by simp [hne]), slot_of_holder hholder, hi]
    have hx := exchanged h.balanced hholder hkeep
    simp only [t3, t2, t1, fd_setFd, processFds_putOfd]
    exact hx.exact h
  | _ => exact h

theorem minifsSetCloexec_exact (h : t.Exact) (pid fd : Int) (on : Bool) :
    (minifsSetCloexec t pid fd on).1.Exact := by
  fun_cases minifsSetCloexec t pid fd on with
  | case4 p hp fd hfd hopen =>
    -- a mark is set where the descriptor is open
    refine h.rewrite (balanced_setProcess h.balanced fun _ => rfl) rfl rfl fun gd hm => ?_
    rcases Bool.or_eq_true_iff.mp ((getLsbD_mark ..).symm.trans hm) with hm | hm
    · exact h.marks_open hm
    · rw [of_decide_eq_true hm]
      exact ⟨(holder_eq_some.mp (findProcess_holder hp)).1, by simpa using hopen⟩
  | case5 p hp fd hfd hopen =>
    have hx : Exchanged t t p fd ((t.processFds p).fd fd) :=
      ⟨h.balanced, by simp [FdTables.setFd, FdTables.setProcess]⟩
    exact hx.exact h
  | _ => exact h

theorem minifsCloseExecFds_exact (h : t.Exact) (pid : Int) :
    (minifsCloseExecFds t pid).Exact := by
  fun_cases minifsCloseExecFds t pid with
  | case1 => exact h
  | case2 p hp =>
    refine h.foldl (fun t fd h hp => ?_) _ (findProcess_holder hp)
    fun_cases closeExecSlot p t fd with
    | case1 =>
      have hx := exchanged_none h.balanced hp fd
      exact ⟨hx.exact h, by rw [holder_clearCloexec, hx.holder]⟩
    | case2 => exact ⟨h, rfl⟩

theorem minifsCloseAll_exact (h : t.Exact) (pid : Int) : (minifsCloseAll t pid).Exact := by
  rw [minifsCloseAll]
  split
  · exact h
  next p hp =>
    have hclose : ∀ t' (done : List (Fin 16)) fd, t'.Balanced → t'.holder = t.holder →
        t'.processFds = update t.processFds p ((t.processFds p).withFds fun gd =>
          if gd ∈ done then none else (t.processFds p).fd gd) →
        Exchanged t' (closeSlot p t' fd) p fd none := fun t' _ fd hb hholder _ =>
      exchanged_none hb (hholder ▸ findProcess_holder hp) fd
    obtain ⟨hb, hprocs⟩ := exchanged_foldl hclose (List.finRange 16) h.balanced
    generalize (List.finRange 16).foldl (closeSlot p) t = t1 at hb hprocs
    have hnone : ∀ fd, t1.slot (p, fd) = none := by
      simp [FdTables.slot, hprocs, ProcessFds.withFds]
    have hentry : (t1.setProcess p { t1.processFds p with cloexec := 0, used := false }).processFds =
        update t.processFds p ⟨false, (t1.processFds p).pid, (t1.processFds p).fd, 0⟩ := by
      rw [FdTables.setProcess, hprocs, update_idem]
    exact h.replace (balanced_setProcess hb fun fd => (hnone fd).symm) hentry
      (by simp [ProcessFds.holder]) (by simp)

/-- Three references that were taken for the descriptors of a new entry. -/
theorem FdTables.Counted.setFds {a b c : Option (Fin 64)}
    (h : t.Counted (holders t.slot + unit a + unit b + unit c)) (hp : t.holder p = some pid)
    (hfree : ∀ fd, t.slot (p, fd) = none) :
    (((t.setFd p 0 a).setFd p 1 b).setFd p 2 c).Balanced := by
  have h0 : (t.setFd p 0 a).Counted (holders (t.setFd p 0 a).slot + (unit b + (unit c + 0))) :=
    FdTables.Counted.setFd (by rwa [add_zero, ← add_assoc, ← add_assoc]) hp (hfree 0)
  have hp0 : (t.setFd p 0 a).holder p = some pid := by rw [holder_setFd, hp]
  have hfree0 : ∀ fd, fd ≠ 0 → (t.setFd p 0 a).slot (p, fd) = none := by
    intro fd hne
    rw [slot_setFd hp, update_of_ne (by simp [hne]), hfree]
  have h1 := h0.setFd hp0 (hfree0 1 (by decide))
  have hp1 : ((t.setFd p 0 a).setFd p 1 b).holder p = some pid := by rw [holder_setFd, hp0]
  have hfree1 : ((t.setFd p 0 a).setFd p 1 b).slot (p, 2) = none := by
    rw [slot_setFd hp0, update_of_ne (by simp), hfree0 2 (by decide)]
  have h2 := h1.setFd hp1 hfree1
  rwa [add_zero] at h2

/-- The three consoles `minifs_process_init` opens for a new entry before it has descriptors
for them. -/
theorem FdTables.Exact.consoles {t1 t2 t3 : FdTables} {input output error : Option (Fin 64)}
    (h : t.Exact) (hplace : (List.finRange 16).find? (fun i => !(t.processFds i).used) = some p)
    (h1 : allocOfd (t.setProcess p ⟨true, pid, fun _ => none, 0⟩) .consoleIn 0 0 = (t1, input))
    (h2 : allocOfd t1 .consoleOut 1 0 = (t2, output))
    (h3 : allocOfd t2 .consoleOut 1 0 = (t3, error)) :
    t3.Counted (holders t3.slot + unit input + unit output + unit error) ∧
      t3.processFds = update t.processFds p ⟨true, pid, fun _ => none, 0⟩ ∧
      ∀ fd, t3.slot (p, fd) = none := by
  have hnone : ∀ fd, none = t.slot (p, fd) := fun fd => (slot_of_free (holder_eq_none.mpr
    (by simpa using (find?_finRange_eq_some.mp hplace).1)) fd).symm
  have hcount : (t.setProcess p ⟨true, pid, fun _ => none, 0⟩).Counted (holders t.slot) :=
    h.balanced.of_files rfl
  replace hcount := ((hcount.allocOfd .consoleIn 0 0).allocOfd .consoleOut 1 0).allocOfd
    .consoleOut 1 0
  have hprocs := processFds_allocOfd (t.setProcess p ⟨true, pid, fun _ => none, 0⟩) .consoleIn 0 0
  have hprocs1 := processFds_allocOfd t1 .consoleOut 1 0
  have hprocs2 := processFds_allocOfd t2 .consoleOut 1 0
  simp only [h1, h2, h3] at hcount hprocs hprocs1 hprocs2
  replace hprocs := hprocs2.trans (hprocs1.trans hprocs)
  have hslot : t3.slot = t.slot :=
    (slot_of_processFds hprocs).trans (slot_setProcess_same fun fd => hnone fd)
  rw [hslot]
  exact ⟨hcount, hprocs, fun fd => (hnone fd).symm⟩

theorem minifsProcessInit_exact (h : t.Exact) (pid : Int) : (minifsProcessInit t pid).1.Exact := by
  fun_cases minifsProcessInit t pid with
  | case3 hfind p hplace t0 t1 input h1 t2 output h2 t3 error h3 hany t4 =>
    -- the references that were had go first, and then the entry
    obtain ⟨hcount, hprocs, hnone⟩ := h.consoles hplace h1 h2 h3
    rw [add_right_comm, add_right_comm (holders t3.slot), add_right_comm] at hcount
    have hprocs4 : t4.processFds = t3.processFds := by simp [t4]
    have hslot := slot_of_processFds hprocs4
    have hput : t4.Counted (holders t4.slot) := by
      rw [hslot]
      exact hcount.putOfd.putOfd.putOfd
    have hentry : (t4.setProcess p { t4.processFds p with used := false }).processFds =
        update t.processFds p ⟨false, pid, fun _ => none, 0⟩ := by
      simp [FdTables.setProcess, hprocs4, hprocs]
    refine h.replace (balanced_setProcess hput fun fd => ?_) hentry (by simp [ProcessFds.holder])
      (by simp)
    rw [hslot]
    exact (hnone fd).symm
  | case4 hfind p hplace t0 t1 input h1 t2 output h2 t3 error h3 hany =>
    obtain ⟨hcount, hprocs, hnone⟩ := h.consoles hplace h1 h2 h3
    have hp : t3.holder p = some pid := by simp [FdTables.holder, ProcessFds.holder, hprocs]
    have hentry : (((t3.setFd p 0 input).setFd p 1 output).setFd p 2 error).processFds =
        update t.processFds p ⟨true, pid, update (update
          (update (fun _ => none) 0 input) 1 output) 2 error, 0⟩ := by
      simp [FdTables.setFd, FdTables.setProcess, hprocs]
    refine h.replace (hcount.setFds hp hnone) hentry ?_ (by simp)
    rintro _ ⟨rfl⟩ q -
    exact findProcess_eq_none.mp hfind q
  | _ => exact h

theorem FdTables.Counted.setOffset {count : Fin 64 → Nat} (h : t.Counted count) (i : Fin 64)
    (offset : Nat) : (t.setFile i { t.openFiles i with offset := offset }).Counted count := by
  refine Lib.Counted.of_others (i := i) h (fun j hj => ?_) ?_ ?_
  · simp [openFiles_setFile, hj]
  · simpa [openFiles_setFile] using h.taken_iff i
  · simpa [openFiles_setFile] using h.refs_eq i

theorem openInstall_exact (h : t.Exact) (hp : t.holder p = some pid) (number size : Nat)
    (flags : BitVec 32) : (openInstall t p number size flags).1.Exact := by
  have hcount := h.balanced.allocOfd .file flags number
  have hprocs := processFds_allocOfd t .file flags number
  rw [openInstall]
  generalize allocOfd t .file flags number = r at hcount hprocs
  obtain ⟨t1, _ | i⟩ := r
  · exact h.of_processFds hprocs (by rwa [add_unit_none] at hcount)
  dsimp only at hcount hprocs ⊢
  generalize hmove : (if wantsAppend flags = true then
    t1.setFile i { t1.openFiles i with offset := size } else t1) = t2
  have hmoved : t2.Counted (holders t.slot + unit (some i)) ∧ t2.processFds = t.processFds := by
    rw [← hmove]
    split
    · exact ⟨hcount.setOffset i size, hprocs⟩
    · exact ⟨hcount, hprocs⟩
  obtain ⟨hcount2, hprocs2⟩ := hmoved
  fun_cases installFd t2 p i with
  | case1 => exact h.of_processFds ((processFds_putOfd ..).trans hprocs2) hcount2.putOfd
  | case2 fd hfind =>
    have hp2 : t2.holder p = some pid := by rw [holder_of_processFds hprocs2, hp]
    have hfree : t2.slot (p, fd) = none := by
      rw [slot_of_holder hp2]
      simpa using List.find?_some hfind
    have hready : t2.Counted (holders t2.slot + (unit (some i) + 0)) := by
      rwa [slot_of_processFds hprocs2, add_zero]
    have hx : Exchanged t (t2.setFd p fd (some i)) p fd (some i) :=
      ⟨hready.setFd hp2 hfree, by simp [FdTables.setFd, FdTables.setProcess, hprocs2]⟩
    exact hx.exact h

/-! ## Forking -/

theorem forkSlot_eq (parent child : Fin 16) (t : FdTables) (fd : Fin 16) :
    forkSlot parent child t fd =
      addRef ((putOfd t ((t.processFds child).fd fd)).setFd child fd ((t.processFds parent).fd fd))
        ((t.processFds parent).fd fd) := by
  rw [forkSlot, processFds_putOfd, fd_setFd]

variable {parent child : Fin 16} {a b : Int} {i : Fin 64}

/-- One descriptor of the child, if another descriptor keeps the open file it takes. -/
theorem forkSlot_exchanged (h : t.Balanced) (hparent : t.holder parent = some a)
    (hchild : t.holder child = some b)
    (hkeep : parent = child → ∀ i, t.slot (child, fd) = some i → 2 ≤ holders t.slot i) :
    Exchanged t (forkSlot parent child t fd) child fd ((t.processFds parent).fd fd) := by
  rw [forkSlot_eq]
  refine exchanged h hchild fun i hi => ?_
  rw [← slot_of_holder hparent] at hi
  rcases eq_or_ne parent child with rfl | hne
  · have hrelease := congrFun (holders_release t.slot (parent, fd)) i
    rw [Pi.add_apply, hi, unit_self] at hrelease
    have htwo := hkeep rfl i hi
    omega
  · refine holders_pos.mpr ⟨(parent, fd), ?_⟩
    rw [update_of_ne (by simp [hne]), hi]

/-- A process is forked into its own entry, and one of its descriptors is the only one
that refers to an open file. -/
def SelfFork (t : FdTables) : Call → Prop
  | .processFork parentPid childPid =>
    parentPid = childPid ∧ ∃ p fd i, findProcess t parentPid = some p ∧
      (t.processFds p).fd fd = some i ∧ (t.openFiles i).refs = 1
  | _ => False

/-- Parent and child after the child has an entry. -/
theorem minifsProcessInit_found {t1 : FdTables} (hinit : minifsProcessInit t b = (t1, true))
    (hparent : t.holder parent = some a) (hchild : t1.holder child = some b) :
    t1.holder parent = some a ∧ (parent = child → a = b ∧ t1 = t) := by
  have hcases := minifsProcessInit_cases t b
  rw [hinit] at hcases
  rcases hcases with ⟨-, ht, -⟩ | ⟨hfail, -⟩ | ⟨-, p, hin⟩
  · obtain rfl : t1 = t := ht
    refine ⟨hparent, ?_⟩
    rintro rfl
    exact ⟨Option.some.inj (hparent.symm.trans hchild), rfl⟩
  · cases hfail
  · have hne : parent ≠ p := fun heq => nomatch (heq ▸ hparent).symm.trans hin.free
    have hsame : t1.holder parent = some a := by
      rw [show t1.holder = _ from hin.holder, update_of_ne hne, hparent]
    refine ⟨hsame, ?_⟩
    rintro rfl
    cases hsame.symm.trans hchild
    exact absurd hparent (hin.new parent)

/-- The child inherits descriptors and marks. -/
theorem FdTables.Exact.inherit (h : t.Exact) (hparent : t.holder parent = some a)
    (hchild : t.holder child = some b)
    (hkeep : parent = child → ∀ fd i, t.slot (child, fd) = some i → 2 ≤ holders t.slot i) :
    ((List.finRange 16).foldl (forkSlot parent child) (t.setProcess child
      { t.processFds child with cloexec := (t.processFds parent).cloexec })).Exact := by
  generalize ht1 : t.setProcess child
    { t.processFds child with cloexec := (t.processFds parent).cloexec } = t1
  have hprocs1 : t1.processFds = update t.processFds child
      { t.processFds child with cloexec := (t.processFds parent).cloexec } := by
    rw [← ht1]
    rfl
  have hb1 : t1.Balanced := ht1 ▸ balanced_setProcess h.balanced fun _ => rfl
  have hslot1 : t1.slot = t.slot := ht1 ▸ slot_setProcess_same fun _ => rfl
  have hholder1 : t1.holder = t.holder := ht1 ▸ holder_setProcess_same t child rfl
  have hfork : ∀ t' (done : List (Fin 16)) fd, t'.Balanced → t'.holder = t1.holder →
      t'.processFds = update t1.processFds child ((t1.processFds child).withFds fun gd =>
        if gd ∈ done then (t.processFds parent).fd gd else (t1.processFds child).fd gd) →
      Exchanged t' (forkSlot parent child t' fd) child fd ((t.processFds parent).fd fd) := by
    intro t' done fd hb hholder hprocs
    -- a process that forks itself takes what it had
    have hsame : (t'.processFds parent).fd = (t.processFds parent).fd ∧
        (parent = child → t'.slot = t.slot) := by
      rcases eq_or_ne parent child with rfl | hne
      · have hprocs' : t'.processFds = t1.processFds := by
          rw [hprocs]
          simp [hprocs1, ProcessFds.withFds]
        refine ⟨?_, fun _ => (slot_of_processFds hprocs').trans hslot1⟩
        rw [hprocs', hprocs1, update_self]
      · refine ⟨?_, fun heq => absurd heq hne⟩
        rw [hprocs, update_of_ne hne, hprocs1, update_of_ne hne]
    rw [← hsame.1]
    refine forkSlot_exchanged hb (by rw [hholder, hholder1, hparent])
      (by rw [hholder, hholder1, hchild]) fun heq i hi => ?_
    rw [hsame.2 heq] at hi ⊢
    exact hkeep heq fd i hi
  obtain ⟨hb, hprocs⟩ := exchanged_foldl hfork (List.finRange 16) hb1
  have hentry : ((List.finRange 16).foldl (forkSlot parent child) t1).processFds =
      update t.processFds child ⟨(t.processFds child).used, (t.processFds child).pid,
        (t.processFds parent).fd, (t.processFds parent).cloexec⟩ := by
    rw [hprocs, hprocs1]
    simp [ProcessFds.withFds]
  refine h.rewrite hb hentry rfl fun fd hm => ⟨(holder_eq_some.mp hchild).1, ?_⟩
  exact (h.marks_open hm).2

theorem minifsProcessFork_exact (h : t.Exact) (hself : ¬ SelfFork t (.processFork a b)) :
    (minifsProcessFork t a b).1.Exact := by
  have h1 := minifsProcessInit_exact h b
  fun_cases minifsProcessFork t a b with
  | case1 => exact h
  | case2 parent hfind t1 hinit => rwa [hinit] at h1
  | case3 parent hfind t1 hinit hchild => rwa [hinit] at h1
  | case4 parent hfind t1 hinit child hchild =>
    rw [hinit] at h1
    dsimp only at h1
    obtain ⟨hp, hsame⟩ := minifsProcessInit_found hinit (findProcess_holder hfind)
      (findProcess_holder hchild)
    refine h1.inherit hp (findProcess_holder hchild) ?_
    rintro rfl fd i hi
    obtain ⟨rfl, rfl⟩ := hsame rfl
    have hpos := holders_pos.mpr ⟨_, hi⟩
    have hrefs : (t1.openFiles i).refs = holders t1.slot i :=
      h.balanced.refs_eq i ((h.balanced.taken_iff i).mpr hpos)
    have hone : (t1.openFiles i).refs ≠ 1 := fun hone =>
      hself ⟨rfl, parent, fd, i, hfind, slot_of_holder hp fd ▸ hi, hone⟩
    omega

/-! ## A process that is its own child -/

theorem forkSlot_self (p : Fin 16) (t : FdTables) (fd : Fin 16) :
    (forkSlot p p t fd).processFds = t.processFds := by
  rw [forkSlot_eq, processFds_addRef]
  show update (putOfd t _).processFds p _ = _
  rw [processFds_putOfd]
  simp

theorem putOfd_used (ofd : Option (Fin 64)) (h : (t.openFiles i).used = false) :
    ((putOfd t ofd).openFiles i).used = false := by
  fun_cases putOfd t ofd with
  | case2 j hused =>
    rw [openFiles_setFile]
    grind
  | _ => exact h

theorem addRef_used (t : FdTables) (ofd : Option (Fin 64)) (i : Fin 64) :
    ((addRef t ofd).openFiles i).used = (t.openFiles i).used := by
  fun_cases addRef t ofd with
  | case1 => rfl
  | case2 j =>
    rw [openFiles_setFile]
    grind

theorem putOfd_other (h : ofd ≠ some i) :
    (putOfd t ofd).openFiles i = t.openFiles i := by
  fun_cases putOfd t ofd with
  | case2 j hused => rw [openFiles_setFile, if_neg (by grind)]
  | _ => rfl

theorem addRef_other (h : ofd ≠ some i) :
    (addRef t ofd).openFiles i = t.openFiles i := by
  fun_cases addRef t ofd with
  | case1 => rfl
  | case2 j => rw [openFiles_setFile, if_neg (by grind)]

/-- An open file that has gone does not come back. -/
theorem forkSlot_used (h : (t.openFiles i).used = false) :
    ((forkSlot p p t fd).openFiles i).used = false := by
  rw [forkSlot_eq, addRef_used]
  exact putOfd_used _ h

theorem forkSlot_last (hfd : (t.processFds p).fd fd = some i)
    (hrefs : (t.openFiles i).refs = 1) : ((forkSlot p p t fd).openFiles i).used = false := by
  rw [forkSlot_eq, hfd, putOfd]
  split
  · simp [addRef, FdTables.setFd, FdTables.setProcess, FdTables.setFile, hrefs]
  · next hused => simpa [addRef, FdTables.setFd, FdTables.setProcess, FdTables.setFile] using hused

theorem forkSlot_other (hfd : (t.processFds p).fd fd ≠ some i) :
    (forkSlot p p t fd).openFiles i = t.openFiles i := by
  rw [forkSlot_eq, addRef_other hfd]
  exact putOfd_other hfd

/-- The first descriptor that refers to an open file with one reference takes it down. -/
theorem forkSlots_last (l : List (Fin 16))
    (hfd : ∃ fd ∈ l, (t.processFds p).fd fd = some i) (hrefs : (t.openFiles i).refs = 1) :
    ((l.foldl (forkSlot p p) t).openFiles i).used = false := by
  have hstay : ∀ (l : List (Fin 16)) (t : FdTables), (t.openFiles i).used = false →
      ((l.foldl (forkSlot p p) t).openFiles i).used = false := by
    intro l
    induction l with
    | nil => exact fun t h => h
    | cons fd rest ih => exact fun t h => ih _ (forkSlot_used h)
  induction l generalizing t with
  | nil =>
    obtain ⟨fd, hmem, -⟩ := hfd
    cases hmem
  | cons gd rest ih =>
    by_cases hgd : (t.processFds p).fd gd = some i
    · exact hstay rest _ (forkSlot_last hgd hrefs)
    · obtain ⟨fd, hmem, hfd⟩ := hfd
      have hne : fd ≠ gd := by
        rintro rfl
        exact hgd hfd
      refine ih ⟨fd, List.mem_of_ne_of_mem hne hmem, ?_⟩ ?_
      · rw [forkSlot_self, hfd]
      · rw [forkSlot_other hgd, hrefs]

theorem minifsProcessFork_self (hfind : findProcess t a = some p) :
    (minifsProcessFork t a a).1 = (List.finRange 16).foldl (forkSlot p p) t := by
  have hinit : minifsProcessInit t a = (t, true) := by rw [minifsProcessInit, hfind]
  rw [minifsProcessFork, hfind, hinit]
  dsimp only
  rw [hfind]
  have hsame : t.setProcess p { t.processFds p with cloexec := (t.processFds p).cloexec } = t := by
    rw [FdTables.setProcess, update_eq_self]
  exact congrArg ((List.finRange 16).foldl (forkSlot p p)) hsame

theorem minifsProcessFork_inexact (hself : SelfFork t (.processFork a b)) :
    ¬ (minifsProcessFork t a b).1.Exact := by
  obtain ⟨rfl, p, fd, i, hfind, hfd, hrefs⟩ := hself
  have hholder := findProcess_holder hfind
  have hprocs : ∀ (l : List (Fin 16)) (t : FdTables),
      (l.foldl (forkSlot p p) t).processFds = t.processFds := by
    intro l
    induction l with
    | nil => exact fun t => rfl
    | cons fd rest ih => exact fun t => (ih _).trans (forkSlot_self p t fd)
  have hgone := forkSlots_last (List.finRange 16) ⟨fd, List.mem_finRange fd, hfd⟩ hrefs
  rw [minifsProcessFork_self hfind]
  intro h
  have hslot : ((List.finRange 16).foldl (forkSlot p p) t).slot (p, fd) = some i := by
    rw [slot_of_processFds (hprocs _ _), slot_of_holder hholder, hfd]
  have hused := (h.balanced.taken_iff i).mpr (holders_pos.mpr ⟨_, hslot⟩)
  exact Bool.false_ne_true (hgone.symm.trans hused)

end Exact

/-! ## Runs -/

theorem minifsOpen_exact {s : FsSt} (h : s.Exact) (pid : Int) (cwd : Nat) (path : Option CStr)
    (flags : BitVec 32) : (minifsOpen s pid cwd path flags).1.Exact := by
  have htarget := openTarget_tables s cwd (pathBytes path) flags
  rcases minifsOpen_cases s pid cwd path flags with ⟨heq, -⟩ | ⟨p, hp, -, hcases⟩
  · rwa [heq]
  rcases hcases with ⟨s1, ht, heq⟩ | ⟨s1, n, ht, hcases⟩
  · rw [ht] at htarget
    rw [heq]
    exact htarget ▸ h
  rw [ht] at htarget
  have htruncate := openTruncate_tables s1 n flags
  rcases hcases with ⟨s2, htr, heq⟩ | ⟨s2, inode, htr, heq⟩
  · rw [htr] at htruncate
    rw [heq]
    exact (htruncate.trans htarget) ▸ h
  · rw [htr] at htruncate
    have hsame : s2.toFdTables = s.toFdTables := htruncate.trans htarget
    rw [heq]
    show (openInstall s2.toFdTables p n inode.size flags).1.Exact
    rw [hsame]
    exact openInstall_exact h (findProcess_holder hp) n inode.size flags

theorem step_exact {s : FsSt} (h : s.Exact) {call : Call} (hself : ¬ SelfFork s.toFdTables call) :
    (step s call).Exact := by
  have hquiet : ∀ {t}, t = s.toFdTables → t.Exact := fun heq => heq ▸ h
  cases call with
  | processFork parentPid childPid => exact minifsProcessFork_exact h hself
  | processInit pid => exact minifsProcessInit_exact h pid
  | closeAll pid => exact minifsCloseAll_exact h pid
  | setCloexec pid fd on => exact minifsSetCloexec_exact h pid fd on
  | closeExecFds pid => exact minifsCloseExecFds_exact h pid
  | «open» pid cwd path flags => exact minifsOpen_exact h pid cwd path flags
  | close pid fd => exact minifsClose_exact h pid fd
  | pread inode offset length => exact hquiet (minifsPread_tables ..)
  | read pid fd length => exact h.sameSlots (minifsRead_quiet s pid fd length).2
  | write pid fd buffer length => exact h.sameSlots (minifsWrite_sameSlots s pid fd buffer length)
  | lseek pid fd offset whence => exact h.sameSlots (minifsLseek_quiet s pid fd offset whence).2
  | dup2 pid oldfd newfd => exact minifsDup2_exact h pid oldfd newfd
  | getdents cwd path capacity => exact hquiet (minifsGetdents_tables ..)
  | mkdir cwd path => exact hquiet (minifsMkdir_tables ..)
  | unlink cwd path => exact hquiet (minifsUnlink_tables ..)
  | chdir cwd path => exact hquiet (minifsChdir_tables ..)

/-- A call leaves tables that are in order, unless a process is forked into itself. -/
theorem step_exact_iff {s : FsSt} (h : s.Exact) (call : Call) :
    (step s call).Exact ↔ ¬ SelfFork s.toFdTables call := by
  refine ⟨fun hexact hself => ?_, step_exact h⟩
  cases call with
  | processFork parentPid childPid => exact minifsProcessFork_inexact hself hexact
  | _ => exact hself

theorem exact_zero : FdTables.zero.Exact := by
  have hholder : ∀ p, FdTables.zero.holder p = none := fun _ => rfl
  have hslot : ∀ k, FdTables.zero.slot k = none := fun _ => rfl
  refine ⟨⟨fun i => ?_, fun i hi => absurd hi Bool.false_ne_true⟩, fun hp _ => ?_, fun hm => ?_⟩
  · rw [holders_pos]
    simp only [hslot]
    exact iff_of_false Bool.false_ne_true (by simp)
  · rw [hholder] at hp
    cases hp
  · simp [FdTables.marks, FdTables.zero] at hm

/-- The tables as a reader of the source checks them. An open file is in use when a
descriptor of an entry in use refers to it, and counts those descriptors; such a
descriptor refers to an open file in use; no two entries in use have one pid; and a
close-on-exec bit stands for an open descriptor. -/
structure RefsExact (t : FdTables) : Prop where
  used_iff : ∀ i, (t.openFiles i).used = true ↔
    ∃ p fd, (t.processFds p).used = true ∧ (t.processFds p).fd fd = some i
  refs_eq : ∀ i, (t.openFiles i).used = true → (t.openFiles i).refs =
    (Finset.univ.filter fun k : Fin 16 × Fin 16 =>
      (t.processFds k.1).used = true ∧ (t.processFds k.1).fd k.2 = some i).card
  refers : ∀ p fd i, (t.processFds p).used = true → (t.processFds p).fd fd = some i →
    (t.openFiles i).used = true
  pids : ∀ p q, (t.processFds p).used = true → (t.processFds q).used = true →
    (t.processFds p).pid = (t.processFds q).pid → p = q
  cloexec : ∀ p fd, (t.processFds p).cloexec.getLsbD fd.val = true →
    (t.processFds p).used = true ∧ (t.processFds p).fd fd ≠ none

theorem slot_eq_some {t : FdTables} {k : Fin 16 × Fin 16} {i : Fin 64} :
    t.slot k = some i ↔ (t.processFds k.1).used = true ∧ (t.processFds k.1).fd k.2 = some i := by
  simp [FdTables.slot]

theorem refsExact_iff {t : FdTables} : RefsExact t ↔ t.Exact := by
  have hholders : ∀ i, holders t.slot i = (Finset.univ.filter fun k : Fin 16 × Fin 16 =>
      (t.processFds k.1).used = true ∧ (t.processFds k.1).fd k.2 = some i).card := by
    intro i
    simp only [holders, slot_eq_some]
  have hpos : ∀ i, 0 < holders t.slot i ↔
      ∃ p fd, (t.processFds p).used = true ∧ (t.processFds p).fd fd = some i := by
    intro i
    simp only [holders_pos, slot_eq_some, Prod.exists]
  constructor
  · intro h
    refine ⟨⟨fun i => (h.used_iff i).trans (hpos i).symm, fun i hi => ?_⟩, fun {p q pid} hp hq => ?_,
      fun {p fd} hm => ?_⟩
    · rw [hholders]
      exact h.refs_eq i hi
    · rw [holder_eq_some] at hp hq
      exact h.pids p q hp.1 hq.1 (hp.2.trans hq.2.symm)
    · obtain ⟨hused, hopen⟩ := h.cloexec p fd hm
      simpa [FdTables.slot, hused] using hopen
  · intro h
    have hused : ∀ i, (t.openFiles i).used = true ↔
        ∃ p fd, (t.processFds p).used = true ∧ (t.processFds p).fd fd = some i :=
      fun i => (h.balanced.taken_iff i).trans (hpos i)
    refine ⟨hused, fun i hi => ?_, fun p fd i hp hfd => (hused i).mpr ⟨p, fd, hp, hfd⟩,
      fun p q hp hq heq => ?_, fun p fd hm => ?_⟩
    · rw [← hholders]
      exact h.balanced.refs_eq i hi
    · exact h.holder_inj (holder_eq_some.mpr ⟨hp, rfl⟩) (holder_eq_some.mpr ⟨hq, heq.symm⟩)
    · obtain ⟨i, hi⟩ := Option.ne_none_iff_exists'.mp (h.marked hm)
      obtain ⟨hp, hfd⟩ := slot_eq_some.mp hi
      exact ⟨hp, by simp [hfd]⟩

/-- From the mount on, the reference counts are exact in every state of a run exactly when
no process is forked into its own entry while it alone refers to an open file. -/
theorem references_exact_iff (s₀ : FsSt) (calls : List Call) :
    Meets step (fun s call => ¬ SelfFork s.toFdTables call) (minifsInit s₀).1 calls ↔
      ∀ served, served <+: calls → RefsExact (runCalls (minifsInit s₀).1 served).toFdTables := by
  have hinit : (minifsInit s₀).1.Exact := minifsInit_tables s₀ ▸ exact_zero
  have hstep : ∀ (s : FsSt) (call : Call), s.Exact →
      ((step s call).Exact ↔ ¬ SelfFork s.toFdTables call) := fun _ call h => step_exact_iff h call
  simp only [refsExact_iff]
  exact meets_iff hstep hinit calls

/-- A process that was just made and is forked into itself has descriptors that refer to
nothing. -/
theorem fork_self_inexact :
    ¬ RefsExact (runCalls (minifsInit Tools.boot).1
      [.processInit 1, .processFork 1 1]).toFdTables := by
  have htables : (runCalls (minifsInit Tools.boot).1
      [.processInit 1, .processFork 1 1]).toFdTables =
      (minifsProcessFork (minifsProcessInit FdTables.zero 1).1 1 1).1 := by
    rw [← minifsInit_tables Tools.boot]
    rfl
  rw [htables]
  intro h
  exact absurd (h.refers 0 0 0 (by decide) (by decide)) (by decide)

end MiniOs.Fs
