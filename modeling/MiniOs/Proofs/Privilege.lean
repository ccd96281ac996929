import MiniOs.Proofs.Decode

/-!
# What an instruction does to the privilege level

No handler looks at the mode. The handlers of the six CSR instructions and of `sret`
and `mret` write control registers and the mode whoever runs them; the others touch
neither. So a word keeps a user program where it is unless it is dispatched to one of
the eight, and then only by luck: the bits it writes are those that are there.

The views `sie`, `sip` and `sstatus` make this more than a comparison. A write goes to
some bits of one register of machine mode, and these bits have to agree.
-/

namespace MiniOs.Cemu

open MiniOs.Lib

namespace Csr

variable {csrs : Csr} {addr : CsrAddr} {v : Word}

/-- The register a write ends up in, and the bits of it that the write reaches. -/
def target (addr : CsrAddr) : CsrAddr :=
  if addr = SIE then MIE else if addr = SIP then MIP else if addr = SSTATUS then MSTATUS else addr

def writable (csrs : Csr) (addr : CsrAddr) : Word :=
  if addr = SIE then csrs MIDELEG
  else if addr = SIP then csrs MIDELEG
  else if addr = SSTATUS then maskSstatus
  else BitVec.allOnes 64

theorem store_eq : csrs.store addr v = merge csrs (target addr) (writable csrs addr) v := by
  unfold store target writable
  split
  · rfl
  · split
    · rfl
    · split
      · rfl
      · rw [merge, BitVec.and_allOnes, BitVec.not_allOnes, BitVec.and_zero, BitVec.zero_or]

/-- The value has the bits that are there. -/
def Has (csrs : Csr) (addr : CsrAddr) (v : Word) : Prop :=
  v &&& writable csrs addr = csrs (target addr) &&& writable csrs addr

instance : Decidable (csrs.Has addr v) :=
  inferInstanceAs (Decidable (v &&& writable csrs addr = csrs (target addr) &&& writable csrs addr))

theorem store_same_iff : csrs.store addr v = csrs ↔ csrs.Has addr v := by
  rw [store_eq, merge, Function.update_eq_self_iff, Has]
  generalize csrs (target addr) = c
  generalize writable csrs addr = m
  constructor
  · intro h
    rw [← h]
    ext k hk
    simp
    grind
  · intro h
    rw [h]
    ext k hk
    simp
    grind

end Csr

/-! ## The two returns -/

/-- The status register after `sret`, from the one before. -/
def sretStatus (sstatus : Word) : Word :=
  ((sstatus &&& ~~~maskSie) ||| ((sstatus &&& maskSpie) >>> 5) <<< 1 ||| maskSpie) &&& ~~~maskSpp

theorem getLsbD_sretStatus (s : Word) {k : Nat} (hk : k < 64) :
    (sretStatus s).getLsbD k =
      if k = 1 then s.getLsbD 5 else if k = 5 then true else if k = 8 then false
      else s.getLsbD k := by
  have hsie : maskSie = BitVec.twoPow 64 1 := rfl
  have hspie : maskSpie = BitVec.twoPow 64 5 := rfl
  have hspp : maskSpp = BitVec.twoPow 64 8 := rfl
  simp only [sretStatus, hsie, hspie, hspp, BitVec.getLsbD_and, BitVec.getLsbD_or,
    BitVec.getLsbD_not, BitVec.getLsbD_shiftLeft, BitVec.getLsbD_ushiftRight,
    BitVec.getLsbD_twoPow, hk, decide_true, Bool.true_and]
  grind

/-- The status register after `mret`. The bits of `MPP` are cleared before they are
compared, so `MPRV` always goes. -/
def mretStatus (mstatus : Word) : Word :=
  ((mstatus &&& ~~~maskMie) ||| ((mstatus &&& maskMpie) >>> 7) <<< 3 ||| maskMpie) &&&
    ~~~maskMpp &&& ~~~maskMprv

theorem maskMpp_eq : maskMpp = BitVec.twoPow 64 11 ||| BitVec.twoPow 64 12 := rfl

theorem getLsbD_mretStatus (s : Word) {k : Nat} (hk : k < 64) :
    (mretStatus s).getLsbD k =
      if k = 3 then s.getLsbD 7 else if k = 7 then true
      else if k = 11 ∨ k = 12 ∨ k = 17 then false else s.getLsbD k := by
  have hmie : maskMie = BitVec.twoPow 64 3 := rfl
  have hmpie : maskMpie = BitVec.twoPow 64 7 := rfl
  have hmprv : maskMprv = BitVec.twoPow 64 17 := rfl
  rw [mretStatus, hmie, hmpie, maskMpp_eq, hmprv]
  simp only [BitVec.getLsbD_and, BitVec.getLsbD_or, BitVec.getLsbD_not,
    BitVec.getLsbD_shiftLeft, BitVec.getLsbD_ushiftRight, BitVec.getLsbD_twoPow, hk, decide_true,
    Bool.true_and, Nat.reduceLT, Bool.not_or]
  grind

theorem executeMRET_eq (cpu : Cpu) (inst : BitVec 32) :
    (executeMRET cpu inst).2 = { cpu with
        mode := (cpu.csr.load MSTATUS &&& maskMpp) >>> 11
        csr := cpu.csr.store MSTATUS (mretStatus (cpu.csr.load MSTATUS)) } := by
  have hcleared : ∀ s : Word, s &&& ~~~maskMpp &&& maskMpp ≠ modeMachine := by
    intro s
    rw [BitVec.and_assoc, show ~~~maskMpp &&& maskMpp = 0#64 from rfl, BitVec.and_zero]
    decide
  simp only [executeMRET, hcleared, ne_eq, not_false_eq_true, if_true]
  rfl

/-- A field of one bit, shifted down. -/
theorem bit_shifted (s : Word) {n : Nat} (hn : n < 64) :
    (s &&& BitVec.twoPow 64 n) >>> n = 0 ↔ s.getLsbD n = false := by
  constructor
  · intro h
    have hbit := congrArg (fun x => x.getLsbD 0) h
    simpa [BitVec.getLsbD_twoPow, hn] using hbit
  · intro h
    rw [BitVec.and_twoPow, h]
    simp

theorem load_sstatus (csrs : Csr) : csrs.load SSTATUS = csrs MSTATUS &&& maskSstatus := rfl

theorem has_sstatus (csrs : Csr) (v : Word) :
    csrs.Has SSTATUS v ↔ v &&& maskSstatus = csrs MSTATUS &&& maskSstatus := Iff.rfl

theorem has_mstatus (csrs : Csr) (v : Word) : csrs.Has MSTATUS v ↔ v = csrs MSTATUS := by
  show v &&& BitVec.allOnes 64 = csrs MSTATUS &&& BitVec.allOnes 64 ↔ _
  rw [BitVec.and_allOnes, BitVec.and_allOnes]

/-- `sret` changes nothing where it returns to user mode, with interrupts enabled before
and after. -/
theorem sret_same_iff (csrs : Csr) :
    ((csrs.load SSTATUS &&& maskSpp) >>> 8 = modeUser ∧
        csrs.Has SSTATUS (sretStatus (csrs.load SSTATUS))) ↔
      (csrs MSTATUS).getLsbD 1 = true ∧ (csrs MSTATUS).getLsbD 5 = true ∧
        (csrs MSTATUS).getLsbD 8 = false := by
  rw [has_sstatus, load_sstatus, show maskSpp = BitVec.twoPow 64 8 from rfl, modeUser,
    bit_shifted _ (by decide)]
  generalize csrs MSTATUS = m
  have hbits : ∀ k, k < 64 → (sretStatus (m &&& maskSstatus) &&& maskSstatus).getLsbD k =
      ((if k = 1 then m.getLsbD 5 else if k = 5 then true else if k = 8 then false
        else m.getLsbD k) && maskSstatus.getLsbD k) := by
    intro k hk
    rw [BitVec.getLsbD_and, getLsbD_sretStatus _ hk]
    have h5 : maskSstatus.getLsbD 5 = true := rfl
    simp only [BitVec.getLsbD_and, h5]
    grind
  have hm8 : (m &&& maskSstatus).getLsbD 8 = m.getLsbD 8 := by
    rw [BitVec.getLsbD_and, show maskSstatus.getLsbD 8 = true from rfl, Bool.and_true]
  rw [hm8]
  constructor
  · rintro ⟨h8, heq⟩
    have hread : ∀ k, k < 64 → maskSstatus.getLsbD k = true →
        (if k = 1 then m.getLsbD 5 else if k = 5 then true else if k = 8 then false
          else m.getLsbD k) = m.getLsbD k := by
      intro k hk hmask
      have hk' := hbits k hk
      rw [heq, BitVec.getLsbD_and, hmask, Bool.and_true, Bool.and_true] at hk'
      exact hk'.symm
    have h5 := hread 5 (by decide) rfl
    have h1 := hread 1 (by decide) rfl
    exact ⟨h1.symm.trans h5.symm, h5.symm, h8⟩
  · rintro ⟨h1, h5, h8⟩
    refine ⟨h8, BitVec.eq_of_getLsbD_eq fun k hk => ?_⟩
    rw [hbits k hk, BitVec.getLsbD_and]
    grind

/-- `mret` changes nothing where it returns to user mode, with interrupts enabled before
and after and `MPRV` clear. -/
theorem mret_same_iff (csrs : Csr) :
    ((csrs.load MSTATUS &&& maskMpp) >>> 11 = modeUser ∧
        csrs.Has MSTATUS (mretStatus (csrs.load MSTATUS))) ↔
      (csrs MSTATUS).getLsbD 3 = true ∧ (csrs MSTATUS).getLsbD 7 = true ∧
        (csrs MSTATUS).getLsbD 11 = false ∧ (csrs MSTATUS).getLsbD 12 = false ∧
        (csrs MSTATUS).getLsbD 17 = false := by
  rw [has_mstatus, show csrs.load MSTATUS = csrs MSTATUS from rfl]
  generalize csrs MSTATUS = m
  constructor
  · rintro ⟨-, heq⟩
    have hread : ∀ k, k < 64 → m.getLsbD k =
        if k = 3 then m.getLsbD 7 else if k = 7 then true
        else if k = 11 ∨ k = 12 ∨ k = 17 then false else m.getLsbD k := by
      intro k hk
      rw [← getLsbD_mretStatus m hk, heq]
    have h7 := hread 7 (by decide)
    exact ⟨(hread 3 (by decide)).trans h7, h7, hread 11 (by decide), hread 12 (by decide),
      hread 17 (by decide)⟩
  · rintro ⟨h3, h7, h11, h12, h17⟩
    constructor
    · have hzero : m &&& maskMpp = 0 := by
        rw [maskMpp_eq, BitVec.and_or_distrib_left, BitVec.and_twoPow, BitVec.and_twoPow, h11, h12]
        rfl
      rw [hzero]
      rfl
    · refine BitVec.eq_of_getLsbD_eq fun k hk => ?_
      rw [getLsbD_mretStatus m hk]
      grind

/-! ## The other handlers -/

/-- The mode and the control registers are as they were. -/
def SamePrivilege (cpu cpu' : Cpu) : Prop := cpu'.mode = cpu.mode ∧ cpu'.csr = cpu.csr

theorem load_samePrivilege (cpu : Cpu) (addr : Word) (size : Nat) :
    SamePrivilege cpu (cpu.load addr size).2 := by
  rw [Cpu.load, Cpu.translate]
  generalize Mmu.translate cpu.csr cpu.bus.dram addr .load cpu.mode = result
  obtain ⟨paddr | e, dram⟩ := result
  · exact ⟨rfl, rfl⟩
  · dsimp only
    rw [Cpu.busLoad]
    split <;> exact ⟨rfl, rfl⟩

theorem store_samePrivilege (cpu : Cpu) (addr : Word) (size : Nat) (value : Word) :
    SamePrivilege cpu (cpu.store addr size value).2 := by
  rw [Cpu.store, Cpu.translate]
  generalize Mmu.translate cpu.csr cpu.bus.dram addr .store cpu.mode = result
  obtain ⟨paddr | e, dram⟩ := result
  · exact ⟨rfl, rfl⟩
  · dsimp only
    split <;> exact ⟨rfl, rfl⟩

theorem loadWith_samePrivilege (size : Nat) (extend : Word → Word) (cpu : Cpu) (inst : BitVec 32) :
    SamePrivilege cpu (loadWith size extend cpu inst).2 := by
  have h := load_samePrivilege cpu (cpu.regs (rs1 inst) + immI inst) size
  rw [loadWith]
  split <;> next heq => rw [heq] at h; exact h

theorem storeWith_samePrivilege (size : Nat) (cpu : Cpu) (inst : BitVec 32) :
    SamePrivilege cpu (storeWith size cpu inst).2 := by
  have h := store_samePrivilege cpu (cpu.regs (rs1 inst) + immS inst) size (cpu.regs (rs2 inst))
  rw [storeWith]
  split <;> next heq => rw [heq] at h; exact h

/-- The handlers that write control registers or the mode. -/
def Op.writesCsr : Op → Bool
  | .csrRw | .csrRs | .csrRc | .csrRwi | .csrRsi | .csrRci | .sret | .mret => true
  | _ => false

variable {op : Op} {cpu : Cpu} {inst : BitVec 32}

theorem handler_samePrivilege (h : op.writesCsr = false) (cpu : Cpu) (inst : BitVec 32) :
    SamePrivilege cpu (op.handler cpu inst).2 := by
  cases op with
  | csrRw | csrRs | csrRc | csrRwi | csrRsi | csrRci | sret | mret => cases h
  | lb | lh | lw | ld | lbu | lhu | lwu => exact loadWith_samePrivilege _ _ cpu inst
  | sb | storeByte | storeHalf | storeWord | storeDouble => exact storeWith_samePrivilege _ cpu inst
  | _ => exact ⟨rfl, rfl⟩

/-! ## Every instruction -/

/-- The value a handler writes to the control register its instruction names. -/
def Op.written (op : Op) (cpu : Cpu) (inst : BitVec 32) : Option Word :=
  let t := cpu.csr.load (csrAddr inst)
  let rs := (cpu.setReg (rd inst) t).regs (rs1 inst)
  match op with
  | .csrRw => some (cpu.regs (rs1 inst))
  | .csrRs => some (t ||| rs)
  | .csrRc => some (t &&& ~~~rs)
  | .csrRwi => some ((uimm inst).setWidth 64)
  | .csrRsi => some (t ||| ((1 : BitVec 32) <<< (uimm inst).toNat).signExtend 64)
  | .csrRci => some (t &&& (~~~uimm inst).setWidth 64)
  | _ => none

theorem handler_written {v : Word} (h : op.written cpu inst = some v) :
    (∃ pc, (op.handler cpu inst).1 = .done pc) ∧ (op.handler cpu inst).2.mode = cpu.mode ∧
      (op.handler cpu inst).2.csr = cpu.csr.store (csrAddr inst) v := by
  cases op with
  | csrRw | csrRs | csrRc | csrRwi | csrRsi | csrRci => cases h; exact ⟨⟨_, rfl⟩, rfl, rfl⟩
  | _ => cases h

/-- The instruction throws, or leaves the mode and the control registers as they are. -/
def KeepsPrivilege (cpu : Cpu) (inst : BitVec 32) : Prop :=
  (∃ e, (execute cpu inst).1 = .thrown e) ∨ SamePrivilege cpu (execute cpu inst).2

/-- The instruction is none of those that write control registers, or what it would
write is there already. -/
def Harmless (cpu : Cpu) (inst : BitVec 32) : Prop :=
  match dispatch inst with
  | none => True
  | some .sret =>
    (cpu.csr MSTATUS).getLsbD 1 = true ∧ (cpu.csr MSTATUS).getLsbD 5 = true ∧
      (cpu.csr MSTATUS).getLsbD 8 = false
  | some .mret =>
    (cpu.csr MSTATUS).getLsbD 3 = true ∧ (cpu.csr MSTATUS).getLsbD 7 = true ∧
      (cpu.csr MSTATUS).getLsbD 11 = false ∧ (cpu.csr MSTATUS).getLsbD 12 = false ∧
      (cpu.csr MSTATUS).getLsbD 17 = false
  | some op => ∀ v, op.written (cpu.setReg 0 0) inst = some v → cpu.csr.Has (csrAddr inst) v

theorem execute_some (h : dispatch inst = some op) :
    execute cpu inst = op.handler (cpu.setReg 0 0) inst := by
  rw [execute, h]

theorem execute_none (h : dispatch inst = none) :
    execute cpu inst = (.aborted, cpu.setReg 0 0) := by
  rw [execute, h]

/-- A handler that returns keeps privilege just where it changes nothing. -/
theorem keepsPrivilege_of_done {pc : Word} (h : (execute cpu inst).1 = .done pc) :
    KeepsPrivilege cpu inst ↔ SamePrivilege cpu (execute cpu inst).2 := by
  constructor
  · rintro (⟨e, he⟩ | hsame)
    · rw [h] at he
      cases he
    · exact hsame
  · exact Or.inr

theorem written_keeps_iff (hop : dispatch inst = some op) {v : Word}
    (hv : op.written (cpu.setReg 0 0) inst = some v) :
    KeepsPrivilege cpu inst ↔ cpu.csr.Has (csrAddr inst) v := by
  obtain ⟨⟨pc, hdone⟩, hmode, hcsr⟩ := handler_written hv
  rw [← execute_some hop] at hdone hmode hcsr
  rw [keepsPrivilege_of_done hdone, ← Csr.store_same_iff, SamePrivilege, hmode, hcsr]
  exact and_iff_right rfl

/-- In user mode an instruction keeps to its privilege where it writes no control
register or writes what is there. -/
theorem keepsPrivilege_iff (huser : cpu.mode = modeUser) (inst : BitVec 32) :
    KeepsPrivilege cpu inst ↔ Harmless cpu inst := by
  cases hop : dispatch inst with
  | none =>
    have hsame : SamePrivilege cpu (execute cpu inst).2 := by
      rw [execute_none hop]
      exact ⟨rfl, rfl⟩
    simp only [Harmless, hop, iff_true]
    exact .inr hsame
  | some op =>
    cases hw : op.writesCsr with
    | false =>
      have hsame : SamePrivilege cpu (execute cpu inst).2 := by
        rw [execute_some hop]
        exact handler_samePrivilege hw (cpu.setReg 0 0) inst
      have hharmless : Harmless cpu inst := by
        rw [Harmless, hop]
        cases op with
        | csrRw | csrRs | csrRc | csrRwi | csrRsi | csrRci | sret | mret => cases hw
        | _ => exact fun v hv => by cases hv
      exact iff_of_true (.inr hsame) hharmless
    | true =>
      cases op with
      | sret =>
        obtain ⟨pc, hdone⟩ : ∃ pc, (execute cpu inst).1 = .done pc := by
          rw [execute_some hop]
          exact ⟨_, rfl⟩
        rw [keepsPrivilege_of_done hdone, Harmless, hop, ← sret_same_iff, SamePrivilege,
          execute_some hop, ← Csr.store_same_iff, huser]
        exact Iff.rfl
      | mret =>
        obtain ⟨pc, hdone⟩ : ∃ pc, (execute cpu inst).1 = .done pc := by
          rw [execute_some hop]
          exact ⟨_, rfl⟩
        rw [keepsPrivilege_of_done hdone, Harmless, hop, ← mret_same_iff, SamePrivilege,
          execute_some hop, ← Csr.store_same_iff, huser, show Op.mret.handler = executeMRET from rfl,
          executeMRET_eq]
        exact Iff.rfl
      | csrRw | csrRs | csrRc | csrRwi | csrRsi | csrRci =>
        rw [written_keeps_iff hop rfl, Harmless, hop]
        exact ⟨fun h v hv => Option.some.inj hv ▸ h, fun h => h _ rfl⟩
      | _ => cases hw

/-- The round ends in a trap. -/
def Cpu.Traps (cpu : Cpu) : Prop :=
  (∃ cause, cpu.round.1 = cpu.tick.handleInterrupt cause) ∨
    ∃ (cpu' : Cpu) (e : Exception), cpu.round.1 = cpu'.handleException e

theorem fetch_samePrivilege (cpu : Cpu) : SamePrivilege cpu cpu.fetch.2 := by
  rw [Cpu.fetch, Cpu.translate]
  generalize Mmu.translate cpu.csr cpu.bus.dram cpu.pc .instruction cpu.mode = result
  obtain ⟨e | paddr, dram⟩ := result
  · exact ⟨rfl, rfl⟩
  · dsimp only
    rw [Cpu.busLoad]
    generalize Bus.load _ paddr 32 = loaded
    obtain e | ⟨value, bus⟩ := loaded <;> exact ⟨rfl, rfl⟩

/-- A round from user mode whose instruction keeps to its privilege ends in user mode
or in a trap. -/
theorem round_user_or_traps (huser : cpu.mode = modeUser)
    (hkeeps : ∀ inst cpu', cpu.tick.fetch = (.done inst, cpu') → KeepsPrivilege cpu' inst) :
    cpu.round.1.mode = modeUser ∨ cpu.Traps := by
  have hfetch := fetch_samePrivilege cpu.tick
  unfold Cpu.Traps
  rw [Cpu.round]
  split
  · exact .inl huser
  dsimp only
  split
  · exact .inr (.inl ⟨_, rfl⟩)
  rw [Cpu.instruction]
  split
  · exact .inr (.inr ⟨_, _, rfl⟩)
  · next heq =>
    rw [heq] at hfetch
    exact .inl (hfetch.1.trans huser)
  · next inst cpu' heq =>
    rw [heq] at hfetch
    have hmode : cpu'.mode = modeUser := hfetch.1.trans huser
    have hkeep := hkeeps inst cpu' heq
    split
    · exact .inr (.inr ⟨_, _, rfl⟩)
    · next hexec =>
      obtain ⟨e, he⟩ | hsame := hkeep
      · rw [hexec] at he
        cases he
      · rw [hexec] at hsame
        exact .inl (hsame.1.trans hmode)
    · next hexec =>
      obtain ⟨e, he⟩ | hsame := hkeep
      · rw [hexec] at he
        cases he
      · rw [hexec] at hsame
        exact .inl (hsame.1.trans hmode)

/-- User programs have no way up but traps as long as their instructions write no
control register, or only what is there; any other word breaks this. -/
theorem privilege_kept_iff_harmless {cpu : Cpu} (huser : cpu.mode = modeUser) :
    (∀ inst, KeepsPrivilege cpu inst ↔ Harmless cpu inst) ∧
      ((∀ inst cpu', cpu.tick.fetch = (.done inst, cpu') → Harmless cpu' inst) →
        cpu.round.1.mode = modeUser ∨ cpu.Traps) := by
  refine ⟨keepsPrivilege_iff huser, fun hharmless => ?_⟩
  refine round_user_or_traps huser fun inst cpu' hfetched => ?_
  have hmode : cpu'.mode = modeUser := by
    have hfetch := fetch_samePrivilege cpu.tick
    rw [hfetched] at hfetch
    exact hfetch.1.trans huser
  exact (keepsPrivilege_iff hmode inst).mpr (hharmless inst cpu' hfetched)

/-- A processor in user mode with translation on. -/
def userCpu : Cpu :=
  { (default : Cpu) with
    mode := modeUser, csr := fun addr => if addr = SATP then Mmu.satpModeSv39 else 0 }

-- `csrrs t0, sepc, zero`
theorem user_may_read_sepc : userCpu.mode = modeUser ∧ KeepsPrivilege userCpu 0x141022f3 :=
  ⟨rfl, ((privilege_kept_iff_harmless rfl).1 0x141022f3).mpr fun v hv => by cases hv; decide +kernel⟩

-- `csrrw zero, satp, zero`
theorem user_turns_translation_off :
    userCpu.mode = modeUser ∧ ¬ KeepsPrivilege userCpu 0x18001073 := by
  refine ⟨rfl, ?_⟩
  rintro (⟨e, he⟩ | ⟨-, hcsr⟩)
  · cases he
  · have hsatp := congrFun hcsr SATP
    revert hsatp
    decide +kernel

end MiniOs.Cemu
