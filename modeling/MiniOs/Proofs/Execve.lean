import MiniOs.Proofs.Conservation
import MiniOs.Proofs.Orphans

/-!
# An `execve` that fails

A new program is put together in a space of its own, and the caller's is exchanged for it
only when nothing can fail any more. So there is one thing to know about a failure, wherever
it comes from: what `prepare_program` has changed when it gives up. It has read sectors into
`block_buffer`, and it has taken pages that were nobody's and given them all back. The first
is an equation about the file system and the second is `Spares`.
-/

namespace MiniOs.Kernel

open MiniOs.Lib MiniOs.Fs MiniOs.Spec

/-! ## The machine -/

namespace Machine

variable {layout : Layout} {m m' : Machine}

/-- What a call that fails leaves as it was. Of the machine, everything but the file system and
memory: the mappings of every process with their flags, `satp`, the trap frame and the pc, the
names, the working directories. Of the file system, everything but the sector it read last. Of
memory, the number of free pages and every byte of a page or a page table in use, and so what
the caller reads. -/
structure Untouched (m m' : Machine) : Prop where
  rest : m' = { m with fs := m'.fs, memory := m'.memory }
  files : ∃ buffer, m'.fs = m.fs.withBuffer buffer
  freePages : memFreePages m'.memory.toHeap = memFreePages m.memory.toHeap
  kernel : kernelPages m'.memory = kernelPages m.memory
  pages : ∀ p ∈ m.userPages ++ kernelPages m.memory, ∀ i, i < pageSize →
    m'.memory.ram (p + i) = m.memory.ram (p + i)
  contents : ∀ i, (m.tasks i).hasUserSpace = true → ∀ a,
    peek m'.memory (m.threads i).addressSpace a = peek m.memory (m.threads i).addressSpace a

/-- What was taken has been given back. -/
theorem Conserves.untouched (h : Conserves layout m) {s : FsSt} {memory : Memory}
    (hfs : s.lasting = m.fs.lasting) (hspares : Spares [] [] m.memory memory) :
    Untouched m { m with fs := s, memory := memory } := by
  have hafter := (hspares.uses h.uses).memFreePages_add
  have hpages := hspares.spared h.uses
  refine ⟨rfl, ⟨_, FsSt.eq_of_lasting hfs⟩, ?_, hspares.kernel, hpages, fun i hi => ?_⟩
  · rw [← h.uses.memFreePages_add] at hafter
    exact add_right_cancel hafter
  · exact peek_eq_of_pages fun p hp =>
      hpages p (List.mem_append_left _ (mem_userPages ⟨hi, hp⟩))

theorem Conserves.userExecve_untouched (h : Conserves layout m) {path : CStr}
    {argv envp : List CStr} (hfail : m.userExecve path argv envp = (m', false)) :
    Untouched m m' := by
  have hspares := prepareProgram_spares m.fs m.memory (m.tasks m.current).cwdInode path argv envp
  have hfs := prepareProgram_lasting m.fs m.memory (m.tasks m.current).cwdInode path argv envp
  rw [userExecve] at hfail
  split at hfail
  · next s memory heq =>
    rw [heq] at hspares hfs
    cases hfail
    exact h.untouched hfs hspares
  · next s memory program heq =>
    rw [heq] at hspares hfs
    split at hfail
    · -- the program was loaded for nobody
      cases hfail
      exact h.untouched hfs (hspares.trans (userSpaceDestroy_spares memory program.space))
    · cases hfail

theorem Conserves.sysExecve_untouched (h : Conserves layout m) {mem : UserMemory}
    {userPath userArgv userEnvp : Nat}
    (hfail : m.sysExecve mem userPath userArgv userEnvp = (m', false)) : Untouched m m' := by
  have hsame : Untouched m m := h.untouched rfl (.refl [] m.memory)
  rw [sysExecve] at hfail
  split at hfail
  · cases hfail
    exact hsame
  split at hfail
  · cases hfail
    exact hsame
  split at hfail
  · cases hfail
    exact hsame
  · split at hfail
    · next heq =>
      cases hfail
      exact h.userExecve_untouched heq
    · cases hfail

/-- Whoever calls `execve`, with whatever pointers, and whatever is on the disk and in memory:
where it fails, nothing has happened. -/
theorem execve_fails_untouched (m₀ : Machine) (entry : Word) (events : List Event) (ram : Region)
    (t : Trap) (hm : m = (((m₀.kernelMain entry).runEvents events).withRam ram).trapped t)
    (userPath userArgv userEnvp : Nat)
    (hfail : m.sysExecve t.mem userPath userArgv userEnvp = (m', false)) : Untouched m m' := by
  subst hm
  exact (((reached_conserves m₀ entry events).2.withRam ram).trapped t).sysExecve_untouched hfail

/-- The shell tries to run the directory it was loaded from. -/
def execBin : Trap :=
  { userCall 221 0x10000 with
    mem := ⟨fun a => (ascii "/bin" ++ [0])[a - 0x10000]?, fun _ => false⟩ }

def atExecve : Machine :=
  (((beforeMount.kernelMain 0x80200000).runEvents [.trap timerTrap, .userTaskEntry]).withRam
    Region.zero).trapped execBin

theorem execve_fails_untouched_directory :
    (copyPath execBin.mem 0x10000).isSome = true ∧
      (atExecve.tasks atExecve.current).hasUserSpace = true ∧
      (atExecve.sysExecve execBin.mem 0x10000 0 0).2 = false ∧
      Untouched atExecve (atExecve.sysExecve execBin.mem 0x10000 0 0).1 := by
  have hfail : (atExecve.sysExecve execBin.mem 0x10000 0 0).2 = false := by decide +kernel
  generalize hresult : atExecve.sysExecve execBin.mem 0x10000 0 0 = result at hfail ⊢
  have hrun : atExecve.sysExecve execBin.mem 0x10000 0 0 = (result.1, false) := by
    rw [hresult, ← hfail]
  exact ⟨by decide +kernel, by decide +kernel, hfail, execve_fails_untouched beforeMount 0x80200000
    [.trap timerTrap, .userTaskEntry] Region.zero execBin (by rw [atExecve]) 0x10000 0 0 hrun⟩

end Machine

end MiniOs.Kernel
