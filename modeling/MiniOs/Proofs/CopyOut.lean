import MiniOs.Proofs.ByteStrings
import MiniOs.Proofs.Openings
import MiniOs.Proofs.UserCopies
import MiniOs.Proofs.Waitpid

/-!
# Answers that cannot be delivered

A call that hands something to its caller does its work first and copies afterwards,
and the copy can fail: the buffer may be unmapped or read-only. `sys_waitpid` has then
reaped the child whose status nobody gets, and `sys_read` has moved the offset past bytes
that nobody gets.

`sys_read` works in pieces of 512 bytes, and a piece that cannot be stored ends the call
with the pieces before it. Whether bytes are lost is therefore a question of the pieces:
one that the file delivers and the buffer does not take. A piece that the file does not
deliver, because a block is missing, leaves the offset alone.
-/

namespace MiniOs.Kernel

open MiniOs.Lib MiniOs.Fs MiniOs.Spec MiniOs.Tools

namespace Machine

/-- Nothing that a process could notice has changed, and the next `waitpid` finds what
this one could have found. -/
structure Unaffected (m m' : Machine) : Prop where
  tasks : m'.tasks = m.tasks
  count : m'.taskCount = m.taskCount
  spaces : ∀ i, (m'.threads i).addressSpace = (m.threads i).addressSpace
  fds : m'.fs.toFdTables = m.fs.toFdTables
  free : memFreePages m'.memory.toHeap = memFreePages m.memory.toHeap
  later : ∀ mem pid userStatus options,
    (m'.sysWaitpid mem pid userStatus options).2 = (m.sysWaitpid mem pid userStatus options).2

/-- `sys_waitpid` has no effect where it returns -1. -/
def FailsQuietly (m : Machine) (mem : UserMemory) (pid userStatus options : Nat) : Prop :=
  (m.sysWaitpid mem pid userStatus options).2.1 = -1 →
    m.Unaffected (m.sysWaitpid mem pid userStatus options).1

/-- A child can be reaped, but its status cannot be stored where the caller wants it. A
child with pid -1, in no table that a run reaches, would make its own pid read as a
failure. -/
def Swallows (m : Machine) (mem : UserMemory) (pid userStatus : Nat) : Prop :=
  ∃ child, m.zombieChild (toInt pid) = some child ∧ ((m.tasks child).pid = -1 ∨
      0 < (m.tasks child).pid ∧ userStatus ≠ 0 ∧ copyToUser mem userStatus 4 = false)

theorem Unaffected.state {m m' : Machine} (h : m.Unaffected m') (i : Fin 16) :
    m'.state i = m.state i := by
  rw [Machine.state, h.tasks, ← Machine.state]

theorem Unaffected.refl (m : Machine) : m.Unaffected m :=
  ⟨rfl, rfl, fun _ => rfl, rfl, rfl, fun _ _ _ _ => rfl⟩

/-- The answer of `sys_waitpid` where there is a child to reap. -/
theorem sysWaitpid_reaps {m : Machine} {mem : UserMemory} {pid userStatus options : Nat}
    {child : Fin 16} (h : m.zombieChild (toInt pid) = some child) :
    (m.sysWaitpid mem pid userStatus options).2.1 =
      if 0 < (m.tasks child).pid ∧ userStatus ≠ 0 ∧ copyToUser mem userStatus 4 = false then -1
      else (m.tasks child).pid := by
  rw [sysWaitpid]
  rcases taskWaitpid_cases m (toInt pid) (options % 2 = 1) with
    ⟨child', m', hfind, heq, -⟩ | ⟨m', hnone, -⟩ | ⟨hnone, -⟩
  · obtain rfl : child = child' := Option.some.inj (h.symm.trans hfind)
    rw [heq]
    dsimp only
    split <;> rfl
  · rw [h] at hnone
    cases hnone
  · rw [h] at hnone
    cases hnone

/-- Whatever the process table: a `waitpid` that fails has no effect, unless it reaped a
child on the way. -/
theorem waitpid_fails_quietly_iff (m : Machine) (mem : UserMemory)
    (pid userStatus options : Nat) :
    m.FailsQuietly mem pid userStatus options ↔ ¬ m.Swallows mem pid userStatus := by
  obtain ⟨m', answer, heq, hcases⟩ := sysWaitpid_cases m mem pid userStatus options
  rw [FailsQuietly, heq]
  rcases hcases with ⟨child, hfind, hsched, -⟩ | ⟨hnone, -, -, -, hblocks⟩ | ⟨hnone, rfl, -⟩
  · -- a child is reaped, so the call had better not fail
    have hanswer := @sysWaitpid_reaps m mem pid userStatus options child hfind
    rw [heq] at hanswer
    have hzombie := (zombieChild_eq_some hfind).2.1
    have hreaped : ¬ m.Unaffected m' := by
      intro hsame
      have hstate := congrArg (fun s : Sched => (s.slots child).state) hsched
      have hunused : m'.state child = .unused := by
        refine Eq.trans hstate ?_
        simp [Sched.reap, Sched.set]
      rw [hsame.state, hzombie] at hunused
      cases hunused
    have hfails : answer.1 = -1 ↔ m.Swallows mem pid userStatus := by
      rw [hanswer]
      constructor
      · intro h
        refine ⟨child, hfind, ?_⟩
        split at h
        · next hlost => exact Or.inr hlost
        · exact Or.inl h
      · rintro ⟨child', hfind', hlost⟩
        obtain rfl : child = child' := Option.some.inj (hfind.symm.trans hfind')
        rcases hlost with hpid | hlost
        · rw [hpid, if_neg fun h => absurd h.1 (by decide)]
        · rw [if_pos hlost]
    rw [← hfails]
    exact ⟨fun h hfail => hreaped (h hfail), fun h hfail => absurd hfail h⟩
  · -- the caller sleeps; that is no failure
    refine iff_of_true (fun h => absurd (hblocks.symm.trans h) (by decide)) ?_
    rintro ⟨child, hfind, -⟩
    rw [hnone] at hfind
    cases hfind
  · refine iff_of_true (fun _ => Unaffected.refl _) ?_
    rintro ⟨child, hfind, -⟩
    rw [hnone] at hfind
    cases hfind

/-- The shell forks, the child exits with status 7, and the shell waits for it with a
pointer to no page. The child is gone, its pages are free, and the next call finds
nobody. -/
theorem waitpid_swallows_status :
    let m := withShell.taskInit.runEvents Observed.oneChild
    let after := m.sysWaitpid ⟨fun _ => none, fun _ => false⟩ 2 0x1000 0
    ¬ m.FailsQuietly ⟨fun _ => none, fun _ => false⟩ 2 0x1000 0 ∧ after.2.1 = -1 ∧
      (m.sysWaitpid ⟨fun _ => none, fun _ => true⟩ 2 0x1000 0).2 = (2, some 7) ∧
      (after.1.sysWaitpid ⟨fun _ => none, fun _ => true⟩ 2 0x1000 0).2.1 = -1 := by
  refine ⟨fun h => ?_, by decide +kernel, by decide +kernel, by decide +kernel⟩
  have hstate := (h (by decide +kernel)).state 2
  exact absurd hstate (by decide +kernel)

end Machine

/-! ## Reading -/

variable {s : FsSt} {pid fd : Int} {i : Fin 64} {k : System} {mem : UserMemory}

theorem minifsRead_length {length : Nat} {bytes : List UInt8}
    (h : (minifsRead s pid fd length).2 = some bytes) : bytes.length ≤ length := by
  have hconsole : ∀ (left : Nat) (u : Uart), (consoleRead left u).2.length ≤ left := by
    intro left
    induction left with
    | zero => exact fun u => Nat.le_refl 0
    | succ left ih =>
      intro u
      rw [consoleRead]
      split
      · exact Nat.succ_le_succ (Nat.zero_le left)
      · exact Nat.succ_le_succ (ih _)
  unfold minifsRead at h
  cases hopen : getOpenFile s.toFdTables pid fd with
  | none =>
    rw [hopen] at h
    cases h
  | some i =>
    rw [hopen] at h
    dsimp only at h
    split at h
    · cases h
      exact hconsole length s.uart
    split at h
    · cases h
    obtain ⟨b, hread⟩ := minifsPread_eq s (s.openFiles i).inode (s.openFiles i).offset
      (min length 0xffffffff)
    rw [hread] at h
    cases hpread : s.volume.pread (s.openFiles i).inode (s.openFiles i).offset
        (min length 0xffffffff) with
    | none =>
      rw [hpread] at h
      cases h
    | some found =>
      rw [hpread] at h
      cases h
      have hlen := (pread_eq_some.mp hpread).2.1
      omega

section Layers

variable {space : AddressSpace} {pid fd : Int} {userBuffer length : Nat}

/-- On the pages of a process `sys_read` does what it does on the bytes at their addresses. -/
theorem sysReadPagesLoop_peek {layout : Layout} {others : List Nat} {mem : UserMemory}
    (hmem : mem.writable = pageAllows space pteW) (fuel : Nat) :
    ∀ (s : FsSt) {m : Memory} (done : Nat), OwnPages layout others m space →
      sysReadIntoLoop mem pid fd userBuffer length fuel s (peek m space) done =
        ((sysReadPagesLoop space pid fd userBuffer length fuel s m done).1,
          peek (sysReadPagesLoop space pid fd userBuffer length fuel s m done).2.1 space,
          (sysReadPagesLoop space pid fd userBuffer length fuel s m done).2.2) := by
  induction fuel with
  | zero => exact fun s m done _ => rfl
  | succ fuel ih =>
    intro s m done hown
    rw [sysReadIntoLoop, sysReadPagesLoop]
    by_cases hdone : length ≤ done
    · rw [if_pos hdone, if_pos hdone]
    rw [if_neg hdone, if_neg hdone]
    dsimp only
    cases hread : minifsRead s pid fd (min (length - done) 512) with
    | mk s1 found =>
      cases found with
      | none => rfl
      | some bytes =>
        have hshort := minifsRead_length (congrArg Prod.snd hread)
        dsimp only
        split
        · rfl
        obtain ⟨hok, hown', hpeek⟩ := copyToUserPages_eq hown
          (Nat.mod_lt (userBuffer + done) (show 0 < 2 ^ 64 by decide))
          (show bytes.length < 2 ^ 64 by omega)
        have hsame : copyToUser mem ((userBuffer + done) % 2 ^ 64) bytes.length =
            copyToUser (userMemory m space) ((userBuffer + done) % 2 ^ 64) bytes.length := by
          unfold copyToUser
          rw [hmem]
          rfl
        rw [hsame, ← hok]
        rw [← hok] at hpeek
        cases hcopy : copyToUserPages m space ((userBuffer + done) % 2 ^ 64) bytes with
        | mk m1 ok =>
          rw [hcopy] at hown' hpeek
          cases ok with
          | false =>
            rw [if_pos rfl, hpeek]
            rfl
          | true =>
            dsimp only at hpeek ⊢
            rw [if_neg (by decide), ← show peek m1 space = overlay (peek m space)
              ((userBuffer + done) % 2 ^ 64) bytes from hpeek]
            split
            · rfl
            · exact ih s1 (done + bytes.length) hown'

/-- And on the file system it does what `sysReadLoop` says. -/
theorem sysReadIntoLoop_eq (fuel : Nat) :
    ∀ (s : FsSt) (contents : Nat → Option UInt8) (done : Nat),
      sysReadLoop mem pid fd userBuffer length fuel s done =
        ((sysReadIntoLoop mem pid fd userBuffer length fuel s contents done).1,
          (sysReadIntoLoop mem pid fd userBuffer length fuel s contents done).2.2) := by
  induction fuel with
  | zero => exact fun s contents done => rfl
  | succ fuel ih =>
    intro s contents done
    rw [sysReadLoop, sysReadIntoLoop]
    by_cases hdone : length ≤ done
    · rw [if_pos hdone, if_pos hdone]
    rw [if_neg hdone, if_neg hdone]
    dsimp only
    cases hread : minifsRead s pid fd (min (length - done) 512) with
    | mk s1 found =>
      cases found with
      | none => rfl
      | some bytes =>
        dsimp only
        split
        · rfl
        · split
          · rfl
          · split
            · rfl
            · exact ih s1 _ (done + bytes.length)

theorem sysReadInto_eq (k : System) (current : Fin 16) (mem : UserMemory)
    (fd userBuffer length : Nat) (contents : Nat → Option UInt8) :
    sysRead k current mem fd userBuffer length =
      ((sysReadInto k current mem fd userBuffer length contents).1,
        (sysReadInto k current mem fd userBuffer length contents).2.2) := by
  rw [sysRead, sysReadInto]
  split
  · rfl
  · split
    · rfl
    · rw [sysReadIntoLoop_eq length k.fs contents 0]

end Layers

/-- A descriptor through which a process may read a regular file. -/
structure Readable (s : FsSt) (pid fd : Int) (i : Fin 64) : Prop where
  open_ : getOpenFile s.toFdTables pid fd = some i
  file : (s.openFiles i).type = .file
  access : (s.openFiles i).flags &&& 3 ≠ 1
  lt : (s.openFiles i).inode < 256
  regular : (s.volume.node (s.openFiles i).inode).IsFile

/-- What stands in the file from the offset on. -/
def ahead (s : FsSt) (i : Fin 64) (length : Nat) : Option (List UInt8) :=
  s.volume.pread (s.openFiles i).inode (s.openFiles i).offset length

namespace Readable

variable (h : Readable s pid fd i)
include h

theorem ahead_zero : ahead s i 0 = some [] :=
  pread_eq_some.mpr ⟨⟨h.lt, h.regular⟩, (Nat.zero_min _).symm, nofun⟩

/-- As many bytes as there were can be had again. -/
theorem ahead_whole {length : Nat} {bytes : List UInt8} (hbytes : ahead s i length = some bytes) :
    ahead s i bytes.length = some bytes := by
  obtain ⟨-, hlen, hall⟩ := pread_eq_some.mp hbytes
  exact pread_eq_some.mpr ⟨⟨h.lt, h.regular⟩, by omega, hall⟩

end Readable

/-- The buffer takes every piece the file delivers: a piece of 512 bytes, or of what is
asked for or there at the end, behind pieces of 512 bytes. -/
def Takes (mem : UserMemory) (V : Volume) (n offset buffer length : Nat) : Prop :=
  ∀ k piece, 512 * k < length →
    (∀ j, j < k → ∃ full, V.pread n (offset + 512 * j) 512 = some full ∧ full.length = 512) →
    V.pread n (offset + 512 * k) (min (length - 512 * k) 512) = some piece →
    copyToUser mem ((buffer + 512 * k) % 2 ^ 64) piece.length = true

section Pieces

variable {V : Volume} {n offset buffer length : Nat} {piece : List UInt8}

theorem takes_zero : Takes mem V n offset buffer 0 :=
  fun _ _ hk => absurd hk (Nat.not_lt_zero _)

theorem takes_of_none (h : V.pread n offset (min length 512) = none) :
    Takes mem V n offset buffer length := by
  intro k piece hk hfull hpiece
  cases k with
  | zero =>
    rw [Nat.mul_zero, Nat.add_zero, Nat.sub_zero, h] at hpiece
    cases hpiece
  | succ k =>
    obtain ⟨full, hread, -⟩ := hfull 0 (Nat.succ_pos k)
    rw [Nat.mul_zero, Nat.add_zero, ← Nat.min_eq_right (show 512 ≤ length by omega), h] at hread
    cases hread

/-- The first piece, and the others behind it. -/
theorem takes_cons (hpos : 0 < length) (hpiece : V.pread n offset (min length 512) = some piece) :
    Takes mem V n offset buffer length ↔ copyToUser mem (buffer % 2 ^ 64) piece.length = true ∧
        (piece.length = 512 → Takes mem V n (offset + 512) (buffer + 512) (length - 512)) := by
  constructor
  · intro h
    refine ⟨h 0 piece (by omega) nofun hpiece, fun hlen k rest hk hfull hrest => ?_⟩
    have hmin := (pread_eq_some.mp hpiece).2.1
    rw [Nat.min_eq_right (show 512 ≤ length by omega)] at hpiece
    have hshift : ∀ b, b + 512 + 512 * k = b + 512 * (k + 1) := fun b => by omega
    rw [hshift, show length - 512 - 512 * k = length - 512 * (k + 1) by omega] at hrest
    rw [hshift]
    refine h (k + 1) rest (by omega) (fun j hj => ?_) hrest
    cases j with
    | zero => exact ⟨piece, hpiece, hlen⟩
    | succ j =>
      obtain ⟨full, hread, hlen⟩ := hfull j (by omega)
      exact ⟨full, by rw [← hread]; congr 1; omega, hlen⟩
  · rintro ⟨hfirst, hothers⟩ k rest hk hfull hrest
    cases k with
    | zero =>
      rw [Nat.mul_zero, Nat.add_zero, Nat.sub_zero, hpiece] at hrest
      cases hrest
      exact hfirst
    | succ k =>
      obtain ⟨full, hread, hlen⟩ := hfull 0 (Nat.succ_pos k)
      rw [Nat.min_eq_right (show 512 ≤ length by omega)] at hpiece
      rw [Nat.mul_zero, Nat.add_zero, hpiece] at hread
      cases hread
      have hshift : ∀ b, b + 512 * (k + 1) = b + 512 + 512 * k := fun b => by omega
      rw [hshift, show length - 512 * (k + 1) = length - 512 - 512 * k by omega] at hrest
      rw [hshift]
      refine hothers hlen k rest (by omega) (fun j hj => ?_) hrest
      obtain ⟨full, hread, hlen⟩ := hfull (j + 1) (by omega)
      exact ⟨full, by rw [← hread]; congr 1; omega, hlen⟩

end Pieces

/-- What `minifs_read` does with a regular file. -/
theorem minifsRead_file (h : Readable s pid fd i) {length : Nat} (hshort : length ≤ 512) :
    (ahead s i length = none ∧ ∃ b, minifsRead s pid fd length = (s.withBuffer b, none)) ∨
    ∃ bytes b, ahead s i length = some bytes ∧
      minifsRead s pid fd length =
        ((s.withBuffer b).setOffset i ((s.openFiles i).offset + bytes.length), some bytes) := by
  have hmin : min length 0xffffffff = length := Nat.min_eq_left (by omega)
  have hconsole : ¬ (s.openFiles i).type = .consoleIn := by
    rw [h.file]
    decide
  have hallowed : ¬ ((s.openFiles i).type ≠ .file ∨ (s.openFiles i).flags &&& 3 = 1) :=
    not_or.mpr ⟨not_not_intro h.file, h.access⟩
  obtain ⟨b, hread⟩ := minifsPread_eq s (s.openFiles i).inode (s.openFiles i).offset length
  unfold minifsRead
  rw [h.open_]
  dsimp only
  rw [if_neg hconsole, if_neg hallowed, hmin, hread, ← ahead]
  cases ahead s i length with
  | none => exact Or.inl ⟨rfl, b, rfl⟩
  | some bytes => exact Or.inr ⟨bytes, b, rfl, rfl⟩

theorem Readable.setOffset (h : Readable s pid fd i) (b : Region) (offset : Nat) :
    Readable ((s.withBuffer b).setOffset i offset) pid fd i := by
  have hfile := setOffset_openFiles_self (s.withBuffer b) i offset
  refine ⟨?_, ?_, ?_, ?_, ?_⟩
  · rw [(sameSlots_setOffset (s.withBuffer b) i offset).getOpenFile]
    exact h.open_
  · rw [hfile]
    exact h.file
  · rw [hfile]
    exact h.access
  · rw [hfile]
    exact h.lt
  · rw [hfile]
    exact h.regular

/-- The call has moved the offset by what it returned and stored what stood there; or it has
moved it further. -/
theorem sysReadIntoLoop_spec {userBuffer length : Nat} (fuel : Nat) :
    ∀ {s : FsSt} (contents : Nat → Option UInt8) {done : Nat}, Readable s pid fd i →
      length - done ≤ fuel → userBuffer + done < 2 ^ 64 →
      let V := s.volume
      let n := (s.openFiles i).inode
      let offset := (s.openFiles i).offset
      let outcome := sysReadIntoLoop mem pid fd userBuffer length fuel s contents done
      (Takes mem V n offset (userBuffer + done) (length - done) ∧
        ∃ bytes, V.pread n offset bytes.length = some bytes ∧
          outcome.2.2.toNat = done + bytes.length ∧
          (outcome.1.openFiles i).offset = offset + bytes.length ∧
          outcome.2.1 = overlay contents (userBuffer + done) bytes) ∨
      ¬ Takes mem V n offset (userBuffer + done) (length - done) ∧ done ≤ outcome.2.2.toNat ∧
        offset + (outcome.2.2.toNat - done) < (outcome.1.openFiles i).offset := by
  have hreturn : ∀ done : Nat, (if done = 0 then (-1 : Int) else (done : Int)).toNat = done := by
    intro done
    split
    · next h => rw [h]; rfl
    · exact Int.toNat_natCast done
  induction fuel with
  | zero =>
    intro s contents done hread hfuel hlt
    have hnothing := hread.ahead_zero
    refine Or.inl ⟨?_, [], hnothing, Int.toNat_natCast done, rfl, (overlay_nil _ _).symm⟩
    rw [show length - done = 0 by omega]
    exact takes_zero
  | succ fuel ih =>
    intro s contents done hread hfuel hlt
    have hnothing := hread.ahead_zero
    rw [sysReadIntoLoop]
    by_cases hdone : length ≤ done
    · rw [if_pos hdone]
      refine Or.inl ⟨?_, [], hnothing, Int.toNat_natCast done, rfl, (overlay_nil _ _).symm⟩
      rw [show length - done = 0 by omega]
      exact takes_zero
    rw [if_neg hdone]
    dsimp only
    have hpos : 0 < length - done := by omega
    have hmod : (userBuffer + done) % 2 ^ 64 = userBuffer + done := Nat.mod_eq_of_lt hlt
    rcases minifsRead_file hread (Nat.min_le_right (length - done) 512) with
      ⟨hnone, b, heq⟩ | ⟨bytes, b, hbytes, heq⟩
    · rw [heq]
      exact Or.inl ⟨takes_of_none hnone, [], hnothing, hreturn done, rfl, (overlay_nil _ _).symm⟩
    rw [heq]
    dsimp only
    have hfirst := @takes_cons mem s.volume (s.openFiles i).inode (s.openFiles i).offset
      (userBuffer + done) (length - done) bytes hpos hbytes
    have hlen := (pread_eq_some.mp hbytes).2.1
    have hmoved : (((s.withBuffer b).setOffset i
        ((s.openFiles i).offset + bytes.length)).openFiles i).offset =
          (s.openFiles i).offset + bytes.length := by
      rw [setOffset_openFiles_self]
    rw [hmod] at hfirst ⊢
    by_cases hempty : bytes.length = 0
    · -- the end of the file
      rw [if_pos hempty]
      refine Or.inl ⟨hfirst.mpr ⟨decide_eq_true (Or.inl hempty), fun h => by omega⟩, [],
        hnothing, Int.toNat_natCast done, ?_, (overlay_nil _ _).symm⟩
      rw [hmoved, hempty]
      rfl
    · rw [if_neg hempty]
      by_cases hcopy : copyToUser mem (userBuffer + done) bytes.length = true
      · rw [if_neg (by rw [hcopy]; decide)]
        obtain ⟨hend, -⟩ := (copyToUser_iff (by omega) hlt (by omega)).mp hcopy
        by_cases hlast : bytes.length < min (length - done) 512
        · rw [if_pos hlast]
          exact Or.inl ⟨hfirst.mpr ⟨hcopy, fun h => by omega⟩, bytes, hread.ahead_whole hbytes,
            Int.toNat_natCast _, hmoved, rfl⟩
        · rw [if_neg hlast]
          have hiff : Takes mem s.volume (s.openFiles i).inode (s.openFiles i).offset
              (userBuffer + done) (length - done) ↔
            Takes mem s.volume (s.openFiles i).inode ((s.openFiles i).offset + bytes.length)
              (userBuffer + (done + bytes.length)) (length - (done + bytes.length)) := by
            rw [hfirst]
            by_cases hfull : bytes.length = 512
            · rw [show (s.openFiles i).offset + bytes.length = (s.openFiles i).offset + 512 by
                omega, show userBuffer + (done + bytes.length) = userBuffer + done + 512 by
                omega, show length - (done + bytes.length) = length - done - 512 by omega]
              exact ⟨fun h => h.2 hfull, fun h => ⟨hcopy, fun _ => h⟩⟩
            · rw [show length - (done + bytes.length) = 0 by omega]
              exact iff_of_true ⟨hcopy, fun h => absurd h hfull⟩ takes_zero
          have hrest := @ih ((s.withBuffer b).setOffset i ((s.openFiles i).offset + bytes.length))
            (overlay contents (userBuffer + done) bytes) (done + bytes.length)
            (hread.setOffset b _) (by omega) (by omega)
          have hinode : (((s.withBuffer b).setOffset i
              ((s.openFiles i).offset + bytes.length)).openFiles i).inode =
                (s.openFiles i).inode := by
            rw [setOffset_openFiles_self]
            rfl
          have hvol : ((s.withBuffer b).setOffset i
              ((s.openFiles i).offset + bytes.length)).volume = s.volume := rfl
          rw [hinode, hvol, hmoved] at hrest
          generalize sysReadIntoLoop mem pid fd userBuffer length fuel _ _ _ = outcome at hrest ⊢
          rcases hrest with ⟨htakes, rest, hpread, hreturned, hoffset, hstored⟩ | ⟨hnot, hle, hmore⟩
          · refine Or.inl ⟨hiff.mpr htakes, bytes ++ rest, ?_, ?_, ?_, ?_⟩
            · rw [List.length_append]
              exact pread_append (hread.ahead_whole hbytes) hpread
            · rw [hreturned, List.length_append, Nat.add_assoc]
            · rw [hoffset, List.length_append, Nat.add_assoc]
            · rw [hstored, ← Nat.add_assoc, overlay_overlay]
          · exact Or.inr ⟨fun h => hnot (hiff.mp h), by omega, by omega⟩
      · rw [if_pos (Bool.of_not_eq_true hcopy)]
        refine Or.inr ⟨fun h => hcopy (hfirst.mp h).1, ?_, ?_⟩
        · rw [hreturn]
        · rw [hreturn, hmoved]
          omega

/-- `sys_read` has moved the offset by what it returned, where -1 counts as nothing, and that
many bytes of the file, from where the offset was, are in the buffer. -/
def LosesNothing (k : System) (current : Fin 16) (mem : UserMemory) (fd userBuffer length : Word)
    (contents : Nat → Option UInt8) (i : Fin 64) : Prop :=
  let outcome := sysReadInto k current mem fd.toNat userBuffer.toNat length.toNat contents
  let file := k.fs.openFiles i
  (outcome.1.fs.openFiles i).offset = file.offset + outcome.2.2.toNat ∧
    ∃ bytes, (minifsPread k.fs file.inode file.offset outcome.2.2.toNat).2 = some bytes ∧
      bytes.length = outcome.2.2.toNat ∧
      ∀ j, j < bytes.length → outcome.2.1 (userBuffer.toNat + j) = bytes[j]?

theorem losesNothing_of_takes {current : Fin 16} {fd userBuffer length : Word}
    {contents : Nat → Option UInt8}
    (hread : Readable k.fs (currentPid k current) (toInt fd.toNat) i)
    (h : length = 0 ∨ userBuffer = 0 ∨ Takes mem k.fs.volume (k.fs.openFiles i).inode
      (k.fs.openFiles i).offset userBuffer.toNat length.toNat) :
    LosesNothing k current mem fd userBuffer length contents i := by
  have hpread : ∀ count, (minifsPread k.fs (k.fs.openFiles i).inode (k.fs.openFiles i).offset
      count).2 = ahead k.fs i count := by
    intro count
    obtain ⟨b, hb⟩ := minifsPread_eq k.fs (k.fs.openFiles i).inode (k.fs.openFiles i).offset count
    rw [hb]
    rfl
  have hnothing := hread.ahead_zero
  unfold LosesNothing sysReadInto
  by_cases hlength : length.toNat = 0
  · rw [if_pos hlength]
    exact ⟨rfl, [], (hpread 0).trans hnothing, rfl, nofun⟩
  rw [if_neg hlength]
  by_cases hbuffer : userBuffer.toNat = 0
  · rw [if_pos hbuffer]
    exact ⟨rfl, [], (hpread 0).trans hnothing, rfl, nofun⟩
  rw [if_neg hbuffer]
  have htakes : Takes mem k.fs.volume (k.fs.openFiles i).inode (k.fs.openFiles i).offset
      userBuffer.toNat length.toNat := by
    rcases h with rfl | rfl | h
    · exact absurd rfl hlength
    · exact absurd rfl hbuffer
    · exact h
  rcases @sysReadIntoLoop_spec _ _ i mem userBuffer.toNat length.toNat length.toNat k.fs contents
    0 hread (Nat.le_refl _) userBuffer.isLt with
    ⟨-, bytes, hbytes, hreturned, hoffset, hstored⟩ | ⟨hnot, -⟩
  · rw [Nat.zero_add] at hreturned
    refine ⟨by rw [hoffset, hreturned], bytes, ?_, hreturned.symm, fun j hj => ?_⟩
    · rw [hreturned, hpread]
      exact hbytes
    · dsimp only at hstored ⊢
      rw [hstored, overlay, if_pos (by omega)]
      congr 1
      omega
  · exact absurd htakes hnot

/-- A piece that the buffer does not take is lost. -/
theorem not_losesNothing {current : Fin 16} {fd userBuffer length : Word}
    {contents : Nat → Option UInt8}
    (hread : Readable k.fs (currentPid k current) (toInt fd.toNat) i) (hlength : length ≠ 0)
    (hbuffer : userBuffer ≠ 0) (hnot : ¬ Takes mem k.fs.volume (k.fs.openFiles i).inode
      (k.fs.openFiles i).offset userBuffer.toNat length.toNat) :
    ¬ LosesNothing k current mem fd userBuffer length contents i := by
  have hzero : ∀ {w : Word}, w ≠ 0 → w.toNat ≠ 0 := fun hw h => hw (BitVec.eq_of_toNat_eq h)
  rintro ⟨hoffset, -⟩
  unfold sysReadInto at hoffset
  rw [if_neg (hzero hlength), if_neg (hzero hbuffer)] at hoffset
  rcases @sysReadIntoLoop_spec _ _ i mem userBuffer.toNat length.toNat length.toNat k.fs contents
    0 hread (Nat.le_refl _) userBuffer.isLt with ⟨htakes, -⟩ | ⟨-, -, hmore⟩
  · exact hnot htakes
  · exact absurd hoffset (Nat.ne_of_gt hmore)

/-- Whatever the state: `sys_read` loses no bytes where the buffer takes every piece the file
delivers, and only there. -/
theorem sys_read_loses_nothing_iff (k : System) (current : Fin 16) (mem : UserMemory)
    (fd userBuffer length : Word) (contents : Nat → Option UInt8) {i : Fin 64}
    (hread : Readable k.fs (currentPid k current) (toInt fd.toNat) i) :
    LosesNothing k current mem fd userBuffer length contents i ↔
      length = 0 ∨ userBuffer = 0 ∨ Takes mem k.fs.volume (k.fs.openFiles i).inode
        (k.fs.openFiles i).offset userBuffer.toNat length.toNat := by
  refine ⟨fun h => ?_, losesNothing_of_takes hread⟩
  by_contra hno
  rw [not_or, not_or] at hno
  exact not_losesNothing hread hno.1 hno.2.1 hno.2.2 h

/-- The shell has opened the file `/a`, with the bytes `hi`. -/
theorem shell_reads {img : Image} (htree : img.tree = stagedFile)
    (hk : k = runTurns (started img bareSlot powerOn) (shellTurns [.open 8 0])) :
    Readable k.fs (currentPid k 1) (toInt (3 : Word).toNat) 6 ∧ (k.fs.openFiles 6).offset = 0 ∧
      Reads k.fs.volume (k.fs.openFiles 6).inode [104, 105] := by
  obtain ⟨n, size, htables, hstore, hpid, -, hresolve⟩ :=
    @shell_opened k img htree bareSlot 0 rfl rfl hk
  obtain ⟨n', hresolve', -, hcontent⟩ := mount_content htree bareSlot boot
  obtain rfl : n = n' := Option.some.inj (hresolve.symm.trans hresolve')
  have hreads := content_iff.mp hcontent
  rw [← hstore] at hreads
  have hentry : k.fs.openFiles 6 = ⟨true, 1, .file, 0, n, 0⟩ := by
    rw [htables]
    rfl
  have hopen : getOpenFile k.fs.toFdTables (currentPid k 1) (toInt (3 : Word).toNat) = some 6 := by
    rw [currentPid, hpid, htables]
    rfl
  refine ⟨⟨hopen, ?_, ?_, ?_, ?_⟩, ?_, ?_⟩ <;> rw [hentry]
  · show (0 : BitVec 32) &&& 3 ≠ 1
    decide
  · exact hreads.lt
  · exact hreads.file
  · exact hreads

/-- The shell reads two bytes into a page that it may write, -/
theorem sys_read_delivers_hi :
    ∃ (img : Image) (k : System), img.tree = stagedFile ∧
      k = runTurns (started img bareSlot powerOn) (shellTurns [.open 8 0]) ∧
      Readable k.fs (currentPid k 1) (toInt (3 : Word).toNat) 6 ∧
      LosesNothing k 1 ⟨fun _ => none, fun _ => true⟩ 3 0x10000 2 (fun _ => none) 6 := by
  obtain ⟨img, k, htree, hk⟩ := shell_runs [.open 8 0]
  obtain ⟨hread, hoffset, hreads⟩ := shell_reads htree hk
  refine ⟨img, k, htree, hk, hread, (sys_read_loses_nothing_iff k 1 _ 3 0x10000 2 _ hread).mpr
    (Or.inr (Or.inr fun j piece hj hfull hpiece => ?_))⟩
  obtain rfl : j = 0 := by
    have hlt : 512 * j < 2 := hj
    omega
  rw [hoffset] at hpiece
  obtain rfl := Option.some.inj (hpiece.symm.trans (hreads.pread 0 2))
  decide

/-- and into one that is not there: the call fails, and the bytes are gone. -/
theorem sys_read_loses_hi :
    ∃ (img : Image) (k : System), img.tree = stagedFile ∧
      k = runTurns (started img bareSlot powerOn) (shellTurns [.open 8 0]) ∧
      Readable k.fs (currentPid k 1) (toInt (3 : Word).toNat) 6 ∧
      ¬ LosesNothing k 1 ⟨fun _ => none, fun _ => false⟩ 3 0x10000 2 (fun _ => none) 6 := by
  obtain ⟨img, k, htree, hk⟩ := shell_runs [.open 8 0]
  obtain ⟨hread, hoffset, hreads⟩ := shell_reads htree hk
  refine ⟨img, k, htree, hk, hread, not_losesNothing hread (by decide) (by decide) fun h => ?_⟩
  have hpiece := hreads.pread 0 2
  have htaken := h 0 [104, 105] (by decide) nofun (by rw [hoffset]; exact hpiece)
  exact absurd htaken (by decide)

/-- With the pages of a process the bytes are in the page it has at `0x10000`. -/
theorem sysReadPagesLoop_peek_page :
    ∃ (img : Image) (k : System), img.tree = stagedFile ∧
      k = runTurns (started img bareSlot powerOn) (shellTurns [.open 8 0]) ∧
      let out := sysReadPagesLoop onePageSpace (currentPid k 1) 3 0x10000 2 2 k.fs
        (Spaces.after sampleMemory onePageEvents).memory 0
      out.2.2 = 2 ∧ peek out.2.1 onePageSpace 0x10000 = some 104 ∧
        peek out.2.1 onePageSpace 0x10001 = some 105 := by
  obtain ⟨rest, hown⟩ := after_own (memInit_uses sampleLayout) rfl onePageEvents onePageSpace_mem
  generalize (Spaces.after sampleMemory onePageEvents).memory = m at hown ⊢
  obtain ⟨img, k, htree, hk⟩ := shell_runs [.open 8 0]
  obtain ⟨hread, hoffset, hreads⟩ := shell_reads htree hk
  have hbytes : ahead k.fs 6 2 = some [104, 105] := by
    rw [ahead, hoffset]
    exact hreads.pread 0 2
  rcases minifsRead_file hread (show 2 ≤ 512 by decide) with ⟨hnone, -⟩ | ⟨bytes, b, hsome, heq⟩
  · cases hnone.symm.trans hbytes
  obtain rfl := Option.some.inj (hsome.symm.trans hbytes)
  have hpages := @sysReadPagesLoop_peek onePageSpace (currentPid k 1) 3 0x10000 2 sampleLayout rest
    ⟨fun _ => none, pageAllows onePageSpace pteW⟩ rfl 2 k.fs m 0 hown
  have hinto : (sysReadIntoLoop ⟨fun _ => none, pageAllows onePageSpace pteW⟩ (currentPid k 1) 3
      0x10000 2 2 k.fs (peek m onePageSpace) 0).2 =
        (overlay (peek m onePageSpace) 0x10000 [104, 105], 2) := by
    rw [sysReadIntoLoop, if_neg (by decide)]
    dsimp only
    rw [show minifsRead k.fs (currentPid k 1) 3 (min (2 - 0) 512) = _ from heq]
    exact congrArg Prod.snd ((if_neg (by decide)).trans (if_neg (by decide +kernel)))
  rw [hpages] at hinto
  obtain ⟨hpeek, hresult⟩ := Prod.mk.inj hinto
  exact ⟨img, k, htree, hk, hresult, congrFun hpeek _, congrFun hpeek _⟩

end MiniOs.Kernel
