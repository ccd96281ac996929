import MiniOs.Proofs.Precise

/-!
# Accesses that straddle two pages

`Cpu::load` and `Cpu::store` translate the address of the first byte and hand the
whole access to the bus. Within a page nothing is lost: the walk reads only the page
number, and the other bytes are where the first one is. An access that runs over the
end of a page takes its last bytes from behind the first page in physical memory,
whatever the second page is mapped to, or if it is mapped at all.

A store shows the difference for some value, unless the two pages are neighbours. A
load may still be right by what the bytes happen to be, so its condition compares
them.
-/

namespace MiniOs.Cemu

open MiniOs.Lib

namespace Mmu

variable {satp : Word} {dram : Ram} {v w : Word}

/-- The walk reads the page number. -/
theorem walk_same_page (h : w >>> 12 = v >>> 12) :
    (walk satp dram w).toOption = (walk satp dram v).toOption := by
  have h2 : vpn2 w = vpn2 v := by
    rw [vpn2, vpn2, show (30 : Nat) = 12 + 18 from rfl, BitVec.shiftRight_add, h,
      ← BitVec.shiftRight_add]
  have h1 : vpn1 w = vpn1 v := by
    rw [vpn1, vpn1, show (21 : Nat) = 12 + 9 from rfl, BitVec.shiftRight_add, h,
      ← BitVec.shiftRight_add]
  have h0 : vpn0 w = vpn0 v := by rw [vpn0, vpn0, h]
  have hentry : ∀ addr, (entry dram w addr).toOption = (entry dram v addr).toOption := by
    intro addr
    unfold entry
    split
    · rfl
    · split <;> rfl
  have hcases : ∀ addr, (∃ pte, entry dram w addr = .ok pte ∧ entry dram v addr = .ok pte) ∨
      ∃ e e', entry dram w addr = .error e ∧ entry dram v addr = .error e' := by
    intro addr
    have hopt := hentry addr
    cases hw : entry dram w addr <;> cases hv : entry dram v addr <;> rw [hw, hv] at hopt <;>
      cases hopt
    · exact .inr ⟨_, _, rfl, rfl⟩
    · exact .inl ⟨_, rfl, rfl⟩
  unfold walk
  rw [h2, h1, h0]
  obtain ⟨pte, hw, hv⟩ | ⟨e, e', hw, hv⟩ := hcases ((satp &&& 0xfffffffffff) * 4096 + vpn2 v * 8)
  · rw [hw, hv]
    dsimp only
    split
    · rfl
    obtain ⟨pte', hw', hv'⟩ | ⟨e, e', hw', hv'⟩ := hcases (tableOf pte + vpn1 v * 8)
    · rw [hw', hv']
      dsimp only
      split
      · rfl
      · obtain ⟨pte'', hw'', hv''⟩ | ⟨e, e', hw'', hv''⟩ := hcases (tableOf pte' + vpn0 v * 8)
        · rw [hw'', hv'']
        · rw [hw'', hv'']
          rfl
    · rw [hw', hv']
      rfl
  · rw [hw, hv]
    rfl

theorem toNat_offset (v : Word) : (offset v).toNat = v.toNat % 4096 := by
  rw [offset, BitVec.toNat_and]
  exact Nat.and_two_pow_sub_one_eq_mod v.toNat 12

/-- The page and the offset have no bit in common. -/
theorem page_or_offset (ppn v : Word) : ppn * 4096 ||| offset v = ppn * 4096 + offset v := by
  rw [BitVec.add_eq_or_of_and_eq_zero]
  have hshift : ppn * (4096 : Word) = ppn <<< 12 := by
    rw [BitVec.shiftLeft_eq_mul_twoPow]
    rfl
  rw [hshift, offset]
  refine BitVec.eq_of_getLsbD_eq fun k hk => ?_
  have hmask : (0xfff : Word) = (BitVec.allOnes 12).setWidth 64 := rfl
  simp only [hmask, BitVec.getLsbD_and, BitVec.getLsbD_shiftLeft, BitVec.getLsbD_setWidth,
    BitVec.getLsbD_allOnes, BitVec.getLsbD_zero]
  grind

variable {i : Nat}

theorem same_page (h : v.toNat % 4096 + i < 4096) :
    (v + BitVec.ofNat 64 i) >>> 12 = v >>> 12 := by
  apply BitVec.eq_of_toNat_eq
  rw [BitVec.toNat_ushiftRight, BitVec.toNat_ushiftRight, BitVec.toNat_add, BitVec.toNat_ofNat,
    Nat.shiftRight_eq_div_pow, Nat.shiftRight_eq_div_pow]
  have hv := v.isLt
  omega

theorem offset_add (h : v.toNat % 4096 + i < 4096) :
    offset (v + BitVec.ofNat 64 i) = offset v + BitVec.ofNat 64 i := by
  apply BitVec.eq_of_toNat_eq
  rw [toNat_offset, BitVec.toNat_add, BitVec.toNat_add, toNat_offset, BitVec.toNat_ofNat]
  have hv := v.isLt
  omega

/-- The physical address, if the translation goes through. -/
def physical (csrs : Csr) (dram : Ram) (v : Word) (type : AccessType) (mode : Word) :
    Option Word :=
  (translate csrs dram v type mode).1.toOption

/-- The bytes of a page stay together. -/
theorem physical_add {csrs : Csr} {type : AccessType} {mode : Word}
    (hon : isEnabled (csrs.load SATP) = true) (h : v.toNat % 4096 + i < 4096) :
    physical csrs dram (v + BitVec.ofNat 64 i) type mode =
      (physical csrs dram v type mode).map (· + BitVec.ofNat 64 i) := by
  have hwalk : (walk (csrs.load SATP) dram (v + BitVec.ofNat 64 i)).toOption =
      (walk (csrs.load SATP) dram v).toOption := walk_same_page (same_page h)
  unfold physical translate
  rw [hon]
  simp only [Bool.true_eq_false, if_false]
  cases hv : walk (csrs.load SATP) dram v with
  | error e =>
    cases hw : walk (csrs.load SATP) dram (v + BitVec.ofNat 64 i) with
    | error e' => rfl
    | ok leaf =>
      rw [hv, hw] at hwalk
      cases hwalk
  | ok leaf =>
    cases hw : walk (csrs.load SATP) dram (v + BitVec.ofNat 64 i) with
    | error e' =>
      rw [hv, hw] at hwalk
      cases hwalk
    | ok leaf' =>
      rw [hv, hw] at hwalk
      cases hwalk
      dsimp only
      split
      · rfl
      · cases Dram.store dram leaf.addr 64 (mark leaf.pte type) with
        | error e => rfl
        | ok dram' =>
          show some _ = some _
          rw [page_or_offset, page_or_offset, offset_add h, ← BitVec.add_assoc]

theorem physical_offset {csrs : Csr} {type : AccessType} {mode p : Word}
    (hon : isEnabled (csrs.load SATP) = true) (h : physical csrs dram v type mode = some p) :
    p.toNat % 4096 = v.toNat % 4096 := by
  unfold physical translate at h
  rw [hon] at h
  simp only [Bool.true_eq_false, if_false] at h
  split at h
  · cases h
  split at h
  · cases h
  split at h
  · cases h
  · next leaf _ _ _ _ _ =>
    cases h
    rw [page_or_offset, BitVec.toNat_add, BitVec.toNat_mul, toNat_offset]
    have hpage : (4096 : Word).toNat = 4096 := rfl
    rw [hpage]
    omega

end Mmu

/-! ## The bus -/

/-- The address is one of DRAM. -/
def InDram (a : Word) : Prop := targetAt a = some .dram

instance (a : Word) : Decidable (InDram a) := inferInstanceAs (Decidable (_ = _))

theorem inDram_iff {a : Word} : InDram a ↔ dramBase ≤ a ∧ a ≤ dramEnd := by
  unfold InDram targetAt
  split
  · next h => exact ⟨fun _ => h, fun _ => rfl⟩
  · next h =>
    refine ⟨fun htarget => ?_, fun hin => absurd hin h⟩
    repeat' split at htarget
    all_goals cases htarget

/-- An access that is not refused is in DRAM as a whole. -/
theorem inDram_add {p : Word} {n i : Nat} (hp : InDram p)
    (hbound : ¬ p - dramBase + BitVec.ofNat 64 n > dramSize) (hn : n ≤ 8) (hi : i < n) :
    InDram (p + BitVec.ofNat 64 i) := by
  rw [inDram_iff] at hp ⊢
  unfold dramBase dramEnd dramSize at *
  bv_omega

/-- DRAM consists of pages. -/
theorem inDram_page {q : Word} {j : Nat} (hq : InDram q) (halign : q.toNat % 4096 = 0)
    (hj : j < 4096) : InDram (q + BitVec.ofNat 64 j) := by
  rw [inDram_iff] at hq ⊢
  unfold dramBase dramEnd at *
  bv_omega

namespace Bus

variable {b : Bus} {p : Word} {size : Nat} {dram : Ram}

theorem load_dram (hp : InDram p) (hsize : sizeOk size = true) :
    b.load p size =
      if p - dramBase + BitVec.ofNat 64 (size / 8) > dramSize then .error ⟨.loadAccessFault, p⟩
      else .ok (b.dram.loadLe p (size / 8), b) := by
  unfold Bus.load Dram.load
  rw [hp, if_neg (by rw [hsize]; decide)]
  dsimp only
  split <;> rfl

theorem store_dram (hp : InDram p) (hsize : sizeOk size = true) (value : Word) :
    b.store p size value =
      if p - dramBase + BitVec.ofNat 64 (size / 8) > dramSize then
        .error ⟨.storeAMOAccessFault, p⟩
      else .ok { b with dram := b.dram.storeLe p (size / 8) value } := by
  unfold Bus.store Dram.store
  rw [hp, if_neg (by rw [hsize]; decide)]
  dsimp only
  split <;> rfl

variable {e : Exception}

theorem map_error {α β : Type} {x : Except Exception α} {f : α → β} :
    x.map f = .error e ↔ x = .error e := by
  cases x with
  | error e' => exact ⟨fun h => (by cases h; rfl), fun h => (by cases h; rfl)⟩
  | ok a => exact ⟨nofun, nofun⟩

/-- Whether the bus refuses depends neither on what is in memory nor on the value. -/
theorem load_refused :
    { b with dram := dram }.load p size = .error e ↔ b.load p size = .error e := by
  unfold Bus.load
  cases targetAt p with
  | none => exact Iff.rfl
  | some t =>
    cases t with
    | testFinish => exact ⟨nofun, nofun⟩
    | dram =>
      simp only [map_error, Dram.load]
      grind
    | _ => simp only [map_error]

theorem store_refused {value value' : Word} :
    { b with dram := dram }.store p size value = .error e ↔ b.store p size value' = .error e := by
  unfold Bus.store
  cases targetAt p with
  | none => exact Iff.rfl
  | some t =>
    cases t with
    | testFinish => exact ⟨nofun, nofun⟩
    | _ =>
      simp only [map_error, Dram.store, Uart.store, Clint.store, Plic.store, BlockDevice.store]
      grind

end Bus

/-! ## The processor -/

namespace Cpu

variable {cpu : Cpu} {v : Word} {size : Nat}

/-- Where a byte is, if it can be reached. -/
def physical (cpu : Cpu) (v : Word) (type : AccessType) : Option Word :=
  Mmu.physical cpu.csr cpu.bus.dram v type cpu.mode

/-- Every byte of a load comes from where its own address leads, and a byte that cannot
be reached makes it fault. -/
def LoadsBytes (cpu : Cpu) (v : Word) (size : Nat) : Prop :=
  (∀ x cpu', cpu.load v size = (.done x, cpu') → ∀ i, i < size / 8 →
    ∃ q, cpu.physical (v + BitVec.ofNat 64 i) .load = some q ∧ InDram q ∧
      byte x i = cpu'.bus.dram q) ∧
  ((∃ i, i < size / 8 ∧ cpu.physical (v + BitVec.ofNat 64 i) .load = none) →
    ∃ e, (cpu.load v size).1 = .thrown e)

/-- The same of stores: the bytes are written where their addresses lead, and no others. -/
def StoresBytes (cpu : Cpu) (v : Word) (size : Nat) : Prop :=
  ∀ value, (∀ cpu', cpu.store v size value = (.done ⟨⟩, cpu') →
      (∀ i, i < size / 8 → ∃ q, cpu.physical (v + BitVec.ofNat 64 i) .store = some q ∧
        InDram q ∧ cpu'.bus.dram q = byte value i) ∧
      cpu'.bus = { cpu.bus with dram := cpu'.bus.dram } ∧
      ∀ a, (∀ i, i < size / 8 → cpu.physical (v + BitVec.ofNat 64 i) .store ≠ some a) →
        Mmu.KeptButMarks (cpu.csr.load SATP) cpu.bus.dram cpu'.bus.dram a) ∧
    ((∃ i, i < size / 8 ∧ cpu.physical (v + BitVec.ofNat 64 i) .store = none) →
      ∃ e, (cpu.store v size value).1 = .thrown e)

/-- The bytes from an address to the end of its page. -/
def inPage (v : Word) : Nat := 4096 - v.toNat % 4096

/-- The memory a load reads: the one the translation leaves. -/
def marked (cpu : Cpu) (v : Word) : Ram := (cpu.translate v .load).2.bus.dram

/-- The first byte cannot be reached, or the bus refuses, or it is in DRAM and the bytes
behind the first page are those of the second. -/
def LoadFits (cpu : Cpu) (v : Word) (size : Nat) : Prop :=
  ∀ p, cpu.physical v .load = some p → (∃ e, cpu.bus.load p size = .error e) ∨
      InDram p ∧ (inPage v < size / 8 →
        ∃ q, cpu.physical (v + BitVec.ofNat 64 (inPage v)) .load = some q ∧ InDram q ∧
          ∀ j, j < size / 8 - inPage v → cpu.marked v (q + BitVec.ofNat 64 j) =
              cpu.marked v (p + BitVec.ofNat 64 (inPage v + j)))

/-- The first byte cannot be reached, or the bus refuses, or it is in DRAM and the second
page comes right behind the first. -/
def StoreFits (cpu : Cpu) (v : Word) (size : Nat) : Prop :=
  ∀ p, cpu.physical v .store = some p → (∃ e, ∀ value, cpu.bus.store p size value = .error e) ∨
      InDram p ∧ (inPage v < size / 8 → cpu.physical (v + BitVec.ofNat 64 (inPage v)) .store =
          some (p + BitVec.ofNat 64 (inPage v)))

/-! ### Where the bytes are -/

theorem toNat_add_mod (v : Word) (i : Nat) :
    (v + BitVec.ofNat 64 i).toNat % 4096 = (v.toNat + i) % 4096 := by
  rw [BitVec.toNat_add, BitVec.toNat_ofNat]
  omega

theorem second_aligned (v : Word) : (v + BitVec.ofNat 64 (inPage v)).toNat % 4096 = 0 := by
  rw [toNat_add_mod, inPage]
  omega

section Places

variable {type : AccessType} {p : Word} (hon : Mmu.isEnabled (cpu.csr.load SATP) = true)
include hon

theorem physical_first {i : Nat} (hp : cpu.physical v type = some p) (hi : i < inPage v) :
    cpu.physical (v + BitVec.ofNat 64 i) type = some (p + BitVec.ofNat 64 i) := by
  unfold inPage at hi
  unfold physical at hp ⊢
  rw [Mmu.physical_add hon (by omega), hp]
  rfl

theorem physical_second {j : Nat} (hj : j < 4096) :
    cpu.physical (v + BitVec.ofNat 64 (inPage v + j)) type =
      (cpu.physical (v + BitVec.ofNat 64 (inPage v)) type).map (· + BitVec.ofNat 64 j) := by
  have hsum : v + BitVec.ofNat 64 (inPage v + j) =
      v + BitVec.ofNat 64 (inPage v) + BitVec.ofNat 64 j := by
    rw [BitVec.ofNat_add, BitVec.add_assoc]
  have halign := second_aligned v
  unfold physical
  rw [hsum, Mmu.physical_add hon (by omega)]

end Places

/-! ### Loads -/

variable {p : Word} {e : Exception}

/-- The address is translated and the bus does the rest. -/
theorem translate_of_physical {type : AccessType} (hp : cpu.physical v type = some p) :
    cpu.translate v type = (.ok p, (cpu.translate v type).2) := by
  unfold physical Mmu.physical at hp
  unfold translate
  cases hr : Mmu.translate cpu.csr cpu.bus.dram v type cpu.mode with
  | mk result dram =>
    rw [hr] at hp
    cases result with
    | error e => cases hp
    | ok q => cases hp; rfl

theorem translate_of_none {type : AccessType} (hp : cpu.physical v type = none) :
    ∃ e, cpu.translate v type = (.error e, (cpu.translate v type).2) := by
  unfold physical Mmu.physical at hp
  unfold translate
  cases hr : Mmu.translate cpu.csr cpu.bus.dram v type cpu.mode with
  | mk result dram =>
    rw [hr] at hp
    cases result with
    | error e => exact ⟨e, rfl⟩
    | ok q => cases hp

theorem load_of_none (hp : cpu.physical v .load = none) :
    ∃ e, (cpu.load v size).1 = .thrown e := by
  obtain ⟨e, he⟩ := translate_of_none hp
  unfold load
  rw [he]
  exact ⟨e, rfl⟩

theorem load_of_refused (hp : cpu.physical v .load = some p) (hb : cpu.bus.load p size = .error e) :
    (cpu.load v size).1 = .thrown e := by
  have hb' : (cpu.translate v .load).2.bus.load p size = .error e := Bus.load_refused.mpr hb
  unfold load
  rw [translate_of_physical hp]
  dsimp only [busLoad]
  rw [hb']

theorem load_of_accepted {r : Word × Bus} (hp : cpu.physical v .load = some p)
    (hb : cpu.bus.load p size = .ok r) : ∃ x cpu', cpu.load v size = (.done x, cpu') := by
  unfold load
  rw [translate_of_physical hp]
  dsimp only [busLoad]
  cases hr : (cpu.translate v .load).2.bus.load p size with
  | ok r => exact ⟨_, _, rfl⟩
  | error e =>
    have hrefused : cpu.bus.load p size = .error e := Bus.load_refused.mp hr
    rw [hb] at hrefused
    cases hrefused

/-- A load that throws has every byte it returns. -/
theorem loadsBytes_of_thrown (h : (cpu.load v size).1 = .thrown e) :
    cpu.LoadsBytes v size := by
  refine ⟨fun x cpu' hload => ?_, fun _ => ⟨e, h⟩⟩
  rw [hload] at h
  cases h

/-- A load that returns has its bytes where they belong if they are found there. -/
theorem loadsBytes_iff_of_done {x : Word} {cpu' : Cpu} (h : cpu.load v size = (.done x, cpu')) :
    cpu.LoadsBytes v size ↔ ∀ i, i < size / 8 →
      ∃ q, cpu.physical (v + BitVec.ofNat 64 i) .load = some q ∧ InDram q ∧
        byte x i = cpu'.bus.dram q := by
  constructor
  · intro hbytes
    exact hbytes.1 x cpu' h
  intro hfound
  refine ⟨fun x' cpu'' h' => ?_, ?_⟩
  · rw [h] at h'
    cases h'
    exact hfound
  · rintro ⟨i, hi, hnone⟩
    obtain ⟨q, hq, -⟩ := hfound i hi
    rw [hnone] at hq
    cases hq

/-- An access to DRAM that the bus accepts. -/
structure Accepted (cpu : Cpu) (v : Word) (type : AccessType) (size : Nat) (p : Word) : Prop where
  width : sizeOk size = true
  place : cpu.physical v type = some p
  dram : InDram p
  bound : ¬ p - dramBase + BitVec.ofNat 64 (size / 8) > dramSize

theorem load_dram (h : cpu.Accepted v .load size p) :
    cpu.load v size = (.done ((cpu.marked v).loadLe p (size / 8)), (cpu.translate v .load).2) := by
  unfold load
  rw [translate_of_physical h.place]
  dsimp only [busLoad]
  rw [Bus.load_dram h.dram h.width, if_neg h.bound]
  rfl

theorem size_div_le (hsize : sizeOk size = true) : 0 < size / 8 ∧ size / 8 ≤ 8 := by
  have hcases : size = 8 ∨ size = 16 ∨ size = 32 ∨ size = 64 := of_decide_eq_true hsize
  omega

/-- A load in DRAM, byte by byte. -/
theorem loadsBytes_dram_iff (hon : Mmu.isEnabled (cpu.csr.load SATP) = true)
    (h : cpu.Accepted v .load size p) :
    cpu.LoadsBytes v size ↔ (inPage v < size / 8 →
      ∃ q, cpu.physical (v + BitVec.ofNat 64 (inPage v)) .load = some q ∧ InDram q ∧
        ∀ j, j < size / 8 - inPage v → cpu.marked v (q + BitVec.ofNat 64 j) =
            cpu.marked v (p + BitVec.ofNat 64 (inPage v + j))) := by
  obtain ⟨-, hn⟩ := size_div_le h.width
  have hbyte : ∀ i, i < size / 8 →
      byte ((cpu.marked v).loadLe p (size / 8)) i = cpu.marked v (p + BitVec.ofNat 64 i) :=
    fun i hi => byte_ofBytes hi hn
  rw [loadsBytes_iff_of_done (load_dram h)]
  constructor
  · intro hfound hcross
    obtain ⟨q, hq, hqin, -⟩ := hfound (inPage v) hcross
    refine ⟨q, hq, hqin, fun j hj => ?_⟩
    obtain ⟨q', hq', -, hval⟩ := hfound (inPage v + j) (by omega)
    rw [physical_second hon (by omega), hq] at hq'
    cases hq'
    exact hval.symm.trans (hbyte _ (by omega))
  · intro hsecond i hi
    by_cases hfirst : i < inPage v
    · exact ⟨_, physical_first hon h.place hfirst, inDram_add h.dram h.bound hn hi, hbyte i hi⟩
    obtain ⟨q, hq, hqin, hsame⟩ := hsecond (by omega)
    obtain ⟨j, rfl⟩ : ∃ j, i = inPage v + j := ⟨i - inPage v, by omega⟩
    have halign : q.toNat % 4096 = 0 :=
      (Mmu.physical_offset hon hq).trans (second_aligned v)
    refine ⟨q + BitVec.ofNat 64 j, ?_, inDram_page hqin halign (by omega), ?_⟩
    · rw [physical_second hon (by omega), hq]
      rfl
    · exact (hbyte _ hi).trans (hsame j (by omega)).symm

theorem loadsBytes_iff_fits (hon : Mmu.isEnabled (cpu.csr.load SATP) = true)
    (hsize : sizeOk size = true) : cpu.LoadsBytes v size ↔ cpu.LoadFits v size := by
  cases hp : cpu.physical v .load with
  | none =>
    obtain ⟨e, he⟩ : ∃ e, (cpu.load v size).1 = .thrown e := load_of_none hp
    refine iff_of_true (loadsBytes_of_thrown he) fun p hp' => ?_
    rw [hp] at hp'
    cases hp'
  | some p =>
    have hfits : cpu.LoadFits v size ↔ (∃ e, cpu.bus.load p size = .error e) ∨ _ :=
      ⟨fun h => h p hp, fun h p' hp' => by rw [hp] at hp'; cases hp'; exact h⟩
    rw [hfits]
    cases hb : cpu.bus.load p size with
    | error e => exact iff_of_true (loadsBytes_of_thrown (load_of_refused hp hb)) (.inl ⟨e, rfl⟩)
    | ok result =>
      have hnot : ¬ ∃ e, (.ok result : Except Exception (Word × Bus)) = .error e := nofun
      rw [or_iff_right hnot]
      by_cases hin : InDram p
      · have hbound : ¬ p - dramBase + BitVec.ofNat 64 (size / 8) > dramSize := by
          intro hover
          rw [Bus.load_dram hin hsize, if_pos hover] at hb
          cases hb
        rw [and_iff_right hin]
        exact loadsBytes_dram_iff hon ⟨hsize, hp, hin, hbound⟩
      · -- a device has answered
        refine iff_of_false (fun hbytes => ?_) (fun h => hin h.1)
        obtain ⟨x, cpu', hdone⟩ := load_of_accepted hp hb
        obtain ⟨q, hq, hqin, -⟩ := hbytes.1 _ _ hdone 0 (size_div_le hsize).1
        rw [BitVec.add_zero, hp] at hq
        cases hq
        exact hin hqin

/-! ### Stores -/

theorem store_of_none (hp : cpu.physical v .store = none) (value : Word) :
    ∃ e, (cpu.store v size value).1 = .thrown e := by
  obtain ⟨e, he⟩ := translate_of_none hp
  unfold store
  rw [he]
  exact ⟨e, rfl⟩

theorem store_of_refused {value value' : Word} (hp : cpu.physical v .store = some p)
    (hb : cpu.bus.store p size value' = .error e) :
    (cpu.store v size value).1 = .thrown e := by
  have hb' : (cpu.translate v .store).2.bus.store p size value = .error e :=
    Bus.store_refused.mpr hb
  unfold store
  rw [translate_of_physical hp]
  dsimp only
  rw [hb']

theorem store_of_accepted {value value' : Word} {b : Bus} (hp : cpu.physical v .store = some p)
    (hb : cpu.bus.store p size value' = .ok b) :
    ∃ cpu', cpu.store v size value = (.done ⟨⟩, cpu') := by
  unfold store
  rw [translate_of_physical hp]
  dsimp only
  cases hr : (cpu.translate v .store).2.bus.store p size value with
  | ok r => exact ⟨_, rfl⟩
  | error e =>
    have hrefused : cpu.bus.store p size value' = .error e := Bus.store_refused.mp hr
    rw [hb] at hrefused
    cases hrefused

theorem storesBytes_of_thrown (h : ∀ value, ∃ e, (cpu.store v size value).1 = .thrown e) :
    cpu.StoresBytes v size := by
  intro value
  obtain ⟨e, he⟩ := h value
  refine ⟨fun cpu' hstore => ?_, fun _ => ⟨e, he⟩⟩
  rw [hstore] at he
  cases he

theorem store_dram (h : cpu.Accepted v .store size p) (value : Word) :
    cpu.store v size value = (.done ⟨⟩, { cpu with bus := { cpu.bus with
        dram := (cpu.translate v .store).2.bus.dram.storeLe p (size / 8) value } }) := by
  unfold store
  rw [translate_of_physical h.place]
  dsimp only
  rw [Bus.store_dram h.dram h.width, if_neg h.bound]
  rfl

/-- A store whose bytes are together in DRAM is right. -/
theorem storesBytes_of_together (h : cpu.Accepted v .store size p)
    (htogether : ∀ i, i < size / 8 →
      cpu.physical (v + BitVec.ofNat 64 i) .store = some (p + BitVec.ofNat 64 i)) :
    cpu.StoresBytes v size := by
  obtain ⟨-, hn⟩ := size_div_le h.width
  intro value
  constructor
  · intro cpu' hstore
    rw [store_dram h] at hstore
    cases hstore
    refine ⟨fun i hi => ?_, rfl, fun a hother => ?_⟩
    · exact ⟨_, htogether i hi, inDram_add h.dram h.bound hn hi, Ram.storeLe_in hi hn⟩
    have hout : size / 8 ≤ (a - p).toNat := by
      by_contra hlt
      refine hother (a - p).toNat (by omega) ?_
      rw [htogether _ (by omega), BitVec.ofNat_toNat, BitVec.setWidth_eq, BitVec.add_comm,
        BitVec.sub_add_cancel]
    have hmarks := Mmu.translate_sameButMarks cpu.csr cpu.bus.dram v .store cpu.mode a
    unfold Mmu.KeptButMarks
    dsimp only
    rw [Ram.storeLe_out hout]
    exact hmarks
  · rintro ⟨i, hi, hnone⟩
    rw [htogether i hi] at hnone
    cases hnone

/-- Behind the end of the first page the store has written to the wrong place, and some
value shows. -/
theorem not_storesBytes_of_apart (hon : Mmu.isEnabled (cpu.csr.load SATP) = true)
    (h : cpu.Accepted v .store size p) (hcross : inPage v < size / 8)
    (hapart : cpu.physical (v + BitVec.ofNat 64 (inPage v)) .store ≠
      some (p + BitVec.ofNat 64 (inPage v))) : ¬ cpu.StoresBytes v size := by
  obtain ⟨-, hn⟩ := size_div_le h.width
  intro hbytes
  obtain ⟨a, ha⟩ : ∃ a, a = p + BitVec.ofNat 64 (inPage v) := ⟨_, rfl⟩
  -- every byte is the complement of the one behind the page
  obtain ⟨value, hvalue⟩ : ∃ value, value = ofBytes (fun _ => ~~~cpu.bus.dram a) 8 := ⟨_, rfl⟩
  obtain ⟨-, -, hkept⟩ := (hbytes value).1 _ (store_dram h value)
  have hother : ∀ i, i < size / 8 → cpu.physical (v + BitVec.ofNat 64 i) .store ≠ some a := by
    intro i hi hpa
    by_cases hfirst : i < inPage v
    · rw [physical_first hon h.place hfirst, ha] at hpa
      have hsum : BitVec.ofNat 64 i = BitVec.ofNat 64 (inPage v) :=
        (BitVec.add_right_inj p).mp (Option.some.inj hpa)
      have hnat := congrArg BitVec.toNat hsum
      rw [BitVec.toNat_ofNat, BitVec.toNat_ofNat] at hnat
      omega
    · obtain ⟨j, rfl⟩ : ∃ j, i = inPage v + j := ⟨i - inPage v, by omega⟩
      rw [physical_second hon (by omega)] at hpa
      obtain ⟨q, hq, hsum⟩ := Option.map_eq_some_iff.mp hpa
      -- both ends of the sum are at the start of a page
      have hj : j = 0 := by
        have hqalign := (Mmu.physical_offset hon hq).trans (second_aligned v)
        have hpalign := Mmu.physical_offset hon h.place
        have hmod := congrArg (fun x => x.toNat % 4096) hsum
        rw [ha, toNat_add_mod, toNat_add_mod, inPage] at hmod
        omega
      subst hj
      rw [BitVec.add_zero] at hsum
      exact hapart (by rw [hq, hsum, ha])
  have hkeep := hkept a hother
  have hnew : (cpu.translate v .store).2.bus.dram.storeLe p (size / 8) value a =
      ~~~cpu.bus.dram a := by
    rw [ha, Ram.storeLe_in hcross hn, ← ha, hvalue, byte_ofBytes (by omega) (by decide)]
  have hbit : (~~~cpu.bus.dram a).toBitVec.getLsbD 0 = (cpu.bus.dram a).toBitVec.getLsbD 0 := by
    obtain hsame | ⟨-, hbits⟩ := hkeep
    · rw [← hnew]
      exact congrArg (fun b => b.toBitVec.getLsbD 0) hsame
    · rw [← hnew]
      exact hbits 0 (by decide) (by decide)
  simp at hbit

theorem storesBytes_iff_fits (hon : Mmu.isEnabled (cpu.csr.load SATP) = true)
    (hsize : sizeOk size = true) : cpu.StoresBytes v size ↔ cpu.StoreFits v size := by
  cases hp : cpu.physical v .store with
  | none =>
    refine iff_of_true (storesBytes_of_thrown (store_of_none hp)) fun p hp' => ?_
    rw [hp] at hp'
    cases hp'
  | some p =>
    have hfits : cpu.StoreFits v size ↔ (∃ e, ∀ value, cpu.bus.store p size value = .error e) ∨ _ :=
      ⟨fun h => h p hp, fun h p' hp' => by rw [hp] at hp'; cases hp'; exact h⟩
    rw [hfits]
    cases hb : cpu.bus.store p size 0 with
    | error e =>
      refine iff_of_true (storesBytes_of_thrown fun value => ⟨e, store_of_refused hp hb⟩)
        (.inl ⟨e, fun value => Bus.store_refused.mp hb⟩)
    | ok b =>
      have hnot : ¬ ∃ e, ∀ value, cpu.bus.store p size value = .error e := by
        rintro ⟨e, he⟩
        have hzero := he 0
        rw [hb] at hzero
        cases hzero
      rw [or_iff_right hnot]
      by_cases hin : InDram p
      · have hbound : ¬ p - dramBase + BitVec.ofNat 64 (size / 8) > dramSize := by
          intro hover
          rw [Bus.store_dram hin hsize, if_pos hover] at hb
          cases hb
        have haccepted : cpu.Accepted v .store size p := ⟨hsize, hp, hin, hbound⟩
        rw [and_iff_right hin]
        by_cases hcross : inPage v < size / 8
        · by_cases hapart : cpu.physical (v + BitVec.ofNat 64 (inPage v)) .store =
              some (p + BitVec.ofNat 64 (inPage v))
          · refine iff_of_true (storesBytes_of_together haccepted fun i hi => ?_)
              fun _ => hapart
            by_cases hfirst : i < inPage v
            · exact physical_first hon hp hfirst
            · obtain ⟨j, rfl⟩ : ∃ j, i = inPage v + j := ⟨i - inPage v, by omega⟩
              have hn := (size_div_le hsize).2
              rw [physical_second hon (by omega), hapart, BitVec.ofNat_add, ← BitVec.add_assoc]
              rfl
          · exact iff_of_false (not_storesBytes_of_apart hon haccepted hcross hapart)
              fun h => hapart (h hcross)
        · refine iff_of_true (storesBytes_of_together haccepted fun i hi => ?_)
            fun h => absurd h hcross
          exact physical_first hon hp (by omega)
      · refine iff_of_false (fun hbytes => ?_) (fun h => hin h.1)
        obtain ⟨cpu', hdone⟩ : ∃ cpu', cpu.store v size 0 = (.done ⟨⟩, cpu') :=
          store_of_accepted hp hb
        obtain ⟨q, hq, hqin, -⟩ := ((hbytes 0).1 _ hdone).1 0 (size_div_le hsize).1
        rw [BitVec.add_zero, hp] at hq
        cases hq
        exact hin hqin

/-- Loads and stores treat each byte as an access of its own just where the access stays
in its page or what lies behind the page is what the next page leads to. -/
theorem bytes_respect_pages_iff (hon : Mmu.isEnabled (cpu.csr.load SATP) = true)
    (hsize : sizeOk size = true) :
    (cpu.LoadsBytes v size ↔ cpu.LoadFits v size) ∧
      (cpu.StoresBytes v size ↔ cpu.StoreFits v size) :=
  ⟨loadsBytes_iff_fits hon hsize, storesBytes_iff_fits hon hsize⟩

/-- One page at address 0, for user mode; the next one is not mapped. -/
def onePage : Cpu :=
  let table (ppn : Word) : Word := ppn <<< 10 ||| pteV
  let leaf (ppn : Word) : Word := ppn <<< 10 ||| pteU ||| pteX ||| pteW ||| pteR ||| pteV
  let dram : Ram := fun _ => 0
  let dram := dram.storeLe 0x80001000 8 (table 0x80002)
  let dram := dram.storeLe 0x80002000 8 (table 0x80003)
  let dram := dram.storeLe 0x80003000 8 (leaf 0x80004)
  { (default : Cpu) with
    mode := modeUser
    csr := fun addr => if addr = SATP then Mmu.satpModeSv39 ||| 0x80001 else 0
    bus := { (default : Bus) with dram := dram } }

theorem bytes_respect_pages_aligned :
    onePage.LoadsBytes 0x100 64 ∧ onePage.StoresBytes 0x100 64 := by
  have hfar : ¬ inPage 0x100 < 64 / 8 := by decide
  have hload : onePage.physical 0x100 .load = some 0x80004100 := by decide +kernel
  have hstore : onePage.physical 0x100 .store = some 0x80004100 := by decide +kernel
  obtain ⟨hloads, hstores⟩ : (onePage.LoadsBytes 0x100 64 ↔ onePage.LoadFits 0x100 64) ∧
      (onePage.StoresBytes 0x100 64 ↔ onePage.StoreFits 0x100 64) :=
    bytes_respect_pages_iff rfl rfl
  constructor
  · refine hloads.mpr fun p hp => ?_
    cases hload.symm.trans hp
    exact .inr ⟨by decide, fun h => absurd h hfar⟩
  · refine hstores.mpr fun p hp => ?_
    cases hstore.symm.trans hp
    exact .inr ⟨by decide, fun h => absurd h hfar⟩

-- the last four bytes have no page, and the load returns
theorem straddling_load_returns : ¬ onePage.LoadsBytes 0xffc 64 := by
  rintro ⟨-, hfaults⟩
  have hnone : onePage.physical (0xffc + BitVec.ofNat 64 4) .load = none := by decide +kernel
  have hdone : (onePage.load 0xffc 64).1 = .done 0 := by decide +kernel
  obtain ⟨e, he⟩ := hfaults ⟨4, by decide, hnone⟩
  rw [hdone] at he
  cases he

end Cpu

end MiniOs.Cemu
