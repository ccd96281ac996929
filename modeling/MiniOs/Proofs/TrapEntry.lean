import MiniOs.Kernel.TrapEntry

/-!
# What a trap does to the registers

`trap_entry` hands the registers of the code it interrupted to `trap_handler`, as
the frame, and returns with the registers that the handler left there. The way in
is different for the two modes, and the same from the point where `t0` and `sp` are
in the frame and `sp` points to it.

The temporary copy of `t0` lies on the stack of the interrupted code, in the S-mode
case within the frame. It is read back before anything is written to the frame.
-/

namespace MiniOs.Kernel

open MiniOs.Lib Function

namespace Hart

variable {h : Hart}

theorem run_append (h : Hart) (code1 code2 : List Instr) :
    h.run (code1 ++ code2) = (h.run code1).run code2 := List.foldl_append

theorem run_saveReg (h : Hart) (l : List (Fin 32)) :
    h.run (l.map TrapEntry.saveReg) = { h with mem := Ram.storeRow h.mem (h.regs 2) h.regs l } := by
  induction l generalizing h with
  | nil => rfl
  | cons i rest ih =>
    rw [List.map_cons, run, List.foldl_cons]
    exact ih _

/-- Registers are loaded, all but `sp`. -/
theorem run_loadReg (h : Hart) {l : List (Fin 32)} (hsp : 2 ∉ l) (hzero : 0 ∉ l) :
    (h.run (l.map TrapEntry.loadReg)).mem = h.mem ∧
      ∀ j, (h.run (l.map TrapEntry.loadReg)).regs j = if j ∈ l then h.frame j else h.regs j := by
  induction l generalizing h with
  | nil => exact ⟨rfl, fun j => by simp [run]⟩
  | cons i rest ih =>
    rw [List.mem_cons, not_or] at hsp hzero
    have hexec : h.exec (TrapEntry.loadReg i) = { h with regs := update h.regs i (h.frame i) } :=
      if_neg (Ne.symm hzero.1)
    rw [List.map_cons, run, List.foldl_cons, hexec]
    obtain ⟨hmem, hregs⟩ :=
      ih { h with regs := update h.regs i (h.frame i) } hsp.2 hzero.2
    refine ⟨hmem, fun j => (hregs j).trans ?_⟩
    have hframe : frame { h with regs := update h.regs i (h.frame i) } j = h.frame j := by
      simp only [frame, update_of_ne hsp.1]
    rw [hframe]
    by_cases hj : j ∈ rest
    · simp [hj]
    · by_cases hji : j = i
      · subst hji
        simp [hj]
      · simp [hj, hji]

end Hart

namespace TrapEntry

variable {h : Hart} {i : Fin 32}

/-- Where the frame lies. -/
def base (h : Hart) : Word :=
  (if h.sstatus &&& 0x100 = 0 then h.sscratch else h.regs 2) + (-256)

/-- The processor at `save_remaining_registers`: `sp` and `t0` are in the frame, and
all registers but `sp` are what they were. -/
structure Framed (h h₁ : Hart) : Prop where
  regs : h₁.regs = update h.regs 2 (base h)
  sp : h₁.frame 2 = h.regs 2
  t0 : h₁.frame 5 = h.regs 5

/-- `t0` is put into the frame, then `sp`. -/
theorem load_t0 (mem : Ram) (b t0 sp : Word) :
    ((mem.store (b + 40#64) t0).store (b + 16#64) sp).load (b + 40#64) = t0 := by
  have hapart : Ram.Apart (b + 16#64) (b + 40#64) :=
    Ram.apart_place (i := 2) (j := 5) (by decide)
  rw [Ram.load_store_of_apart hapart, Ram.load_store]

theorem framed_of_mem (mem : Ram) {h1 : Hart} (hregs : h1.regs = update h.regs 2 (base h))
    (hmem : h1.mem = (mem.store (base h + 40#64) (h.regs 5)).store (base h + 16#64) (h.regs 2)) :
    Framed h h1 := by
  refine ⟨hregs, ?_, ?_⟩ <;> rw [Hart.frame, hregs, hmem, update_self]
  · exact Ram.load_store ..
  · exact load_t0 ..

theorem framed_fromUser (hspp : h.sstatus &&& 0x100 = 0) :
    Framed h ((h.run entry).run fromUser) := by
  have hbase : base h = h.sscratch + (-256) := by rw [base, if_pos hspp]
  -- `sscratch` holds the interrupted `sp` minus 16
  have hsp : h.regs 2 + 0xfffffffffffffff0#64 + 16#64 = h.regs 2 := by bv_omega
  refine framed_of_mem (h.mem.store (h.regs 2 + (-16)) (h.regs 5)) ?_ ?_
  · funext j
    by_cases h5 : j = 5 <;> by_cases h2 : j = 2 <;>
      simp [Hart.run, entry, fromUser, Hart.exec, Hart.setReg, Hart.readCsr, Hart.writeCsr,
        Ram.load_store, load_t0, hbase, h5, h2]
  · simp [Hart.run, entry, fromUser, Hart.exec, Hart.setReg, Hart.readCsr, Hart.writeCsr,
      Ram.load_store, hbase, hsp]

theorem framed_fromKernel (hspp : h.sstatus &&& 0x100 ≠ 0) :
    Framed h ((h.run entry).run fromKernel) := by
  have hbase : base h = h.regs 2 + (-256) := by rw [base, if_neg hspp]
  have hdown : h.regs 2 + 0xfffffffffffffff0#64 + 16#64 = h.regs 2 := by bv_omega
  have hsp : h.regs 2 + 0xffffffffffffff00#64 + 256#64 = h.regs 2 := by bv_omega
  refine framed_of_mem (h.mem.store (h.regs 2 + (-16)) (h.regs 5)) ?_ ?_
  · funext j
    by_cases h5 : j = 5 <;> by_cases h2 : j = 2 <;>
      simp [Hart.run, entry, fromKernel, Hart.exec, Hart.setReg, Hart.readCsr,
        Ram.load_store, load_t0, hbase, hdown, h5, h2]
  · simp [Hart.run, entry, fromKernel, Hart.exec, Hart.setReg, Hart.readCsr, Ram.load_store,
      hbase, hdown, hsp]

/-- The two ways in meet. -/
theorem framed_entry (h : Hart) :
    ∃ h1, Framed h h1 ∧ atCall h = h1.run saveRemaining := by
  have hspp : (h.run entry).regs 5 = h.sstatus &&& 0x100 := by
    simp [Hart.run, entry, Hart.exec, Hart.setReg, Hart.readCsr]
  rw [atCall, hspp]
  split
  · next hzero => exact ⟨_, framed_fromUser hzero, rfl⟩
  · next hzero => exact ⟨_, framed_fromKernel hzero, rfl⟩

/-- The frame `trap_handler` finds: every register as it was. -/
theorem atCall_frame (h : Hart) (hi : i ≠ 0) : (atCall h).frame i = h.regs i := by
  obtain ⟨h1, hframed, heq⟩ := framed_entry h
  have hframe : ∀ (h' : Hart), (h'.run [.addi 10 2 0]).frame i = h'.frame i := by
    intro h'
    simp [Hart.run, Hart.exec, Hart.setReg, Hart.frame]
  rw [heq, saveRemaining, Hart.run_append, hframe, Hart.run_saveReg, Hart.frame,
    Ram.load_storeRow, hframed.regs]
  split
  · next hmem =>
    have h2 : i ≠ 2 := by
      rintro rfl
      exact absurd hmem (by decide)
    exact update_of_ne h2 ..
  · next hmem =>
    have hrest : i = 2 ∨ i = 5 := by
      clear hframe
      revert i
      decide
    rcases hrest with rfl | rfl
    · rw [← hframed.regs]
      exact hframed.sp
    · rw [← hframed.regs]
      exact hframed.t0

/-- What `trap_entry` returns with: every register as `trap_handler` left it in the
frame. -/
theorem restore_regs (h : Hart) (hi : i ≠ 0) : (h.run restore).regs i = h.frame i := by
  rw [restore, Hart.run_append]
  obtain ⟨hmem, hregs⟩ := h.run_loadReg (l := [1, 3, 4, 5, 6, 7, 8, 9, 10, 11, 12, 13, 14, 15, 16,
    17, 18, 19, 20, 21, 22, 23, 24, 25, 26, 27, 28, 29, 30, 31]) (by decide) (by decide)
  generalize h.run _ = h1 at hmem hregs ⊢
  have hlast : (h1.run [.ld 2 16 2]).regs = update h1.regs 2 (h1.frame 2) := rfl
  rw [hlast]
  by_cases h2 : i = 2
  · subst h2
    rw [update_self, Hart.frame, hmem, hregs 2, if_neg (by decide)]
    rfl
  · rw [update_of_ne h2, hregs i, if_pos]
    revert i
    decide

end TrapEntry

variable {trapHandler : Hart → Hart} {frame frame' : Fin 32 → Word}

/-- A function that is called with `sp` at one frame and returns with `sp` at another.
The place of `x0` is not part of it: nobody writes it on the way in or reads it on the
way out. -/
def Handles (trapHandler : Hart → Hart) (frame frame' : Fin 32 → Word) : Prop :=
  ∀ h : Hart, (∀ i, i ≠ 0 → h.frame i = frame i) → ∀ i, i ≠ 0 → (trapHandler h).frame i = frame' i

/-- `trap_entry` around such a function turns the registers into the new frame. -/
theorem trapEntry_regs (hhandler : Handles trapHandler frame frame') {h : Hart}
    (hregs : ∀ i, i ≠ 0 → h.regs i = frame i) {i : Fin 32} (hi : i ≠ 0) :
    (trapEntry trapHandler h).regs i = frame' i := by
  rw [trapEntry, TrapEntry.restore_regs _ hi]
  refine hhandler _ (fun j hj => ?_) i hi
  rw [TrapEntry.atCall_frame h hj, hregs j hj]

end MiniOs.Kernel
