import MiniOs.Kernel.Machine
import MiniOs.Proofs.Pages
import MiniOs.Proofs.Straddle

/-!
# What page tables say

The kernel writes page tables as rows of numbers and the emulator reads them as
entries with fields. Between the two stands the table as a function: `Table ram base t`
says that entry `j` of the page at `base` leads to the address `t j` has, with its
flags, or to nothing. The bits A and D are left out, because they are the emulator's
and come and go; the kernel never looks at them.

Every way the kernel changes a table is a change of the function: an entry set is an
update, a page cleared is the empty function and a page copied is the same function
in another place. What happens elsewhere in memory changes nothing, and neither does
a mark.
-/

namespace MiniOs.Kernel

open MiniOs.Lib
open MiniOs.Cemu (Word)

/-! ## Entries -/

/-- The doubleword at an address. -/
def entryAt (ram : Region) (a : Nat) : Word := ofBytes (fun i => ram (a + i)) 8

variable {ram : Region} {a addr flags base j : Nat} {idx : Word}

theorem entryAt_congr {ram' : Region} (h : ∀ i, a ≤ i → i < a + 8 → ram' i = ram i) :
    entryAt ram' a = entryAt ram a :=
  ofBytes_congr fun i hi => h (a + i) (by omega) (by omega)

/-- The bytes of a number, as the kernel's compiler lays them down. -/
theorem byte_ofNat (v : Nat) {i : Nat} (hi : i < 8) :
    byte (BitVec.ofNat 64 v) i = Region.wordByte (v / 2 ^ (32 * (i / 4))) (i % 4) := by
  apply UInt8.toNat_inj.mp
  unfold byte Region.wordByte
  rw [UInt8.toNat_ofNat', Nat.div_div_eq_div_mul]
  show ((BitVec.ofNat 64 v >>> (8 * i)).setWidth 8).toNat = _
  rw [BitVec.toNat_setWidth, BitVec.toNat_ushiftRight, BitVec.toNat_ofNat,
    Nat.shiftRight_eq_div_pow]
  have hpow : 2 ^ (32 * (i / 4)) * 256 ^ (i % 4) = 2 ^ (8 * i) := by
    rw [show (256 : Nat) = 2 ^ 8 from rfl, ← Nat.pow_mul, ← Nat.pow_add]
    congr 1
    omega
  rw [hpow]
  apply Nat.eq_of_testBit_eq
  intro k
  simp only [Nat.testBit_mod_two_pow, Nat.testBit_div_two_pow]
  grind

theorem entryAt_putDword (ram : Region) (a v : Nat) :
    entryAt (ram.putDword a v) a = BitVec.ofNat 64 v := by
  rw [← ofBytes_byte (BitVec.ofNat 64 v)]
  refine ofBytes_congr fun i hi => ?_
  unfold Region.putDword Region.putWords
  rw [if_pos (by omega), Nat.add_sub_cancel_left, byte_ofNat v hi]

theorem putDword_out {v i : Nat} (h : i < a ∨ a + 8 ≤ i) :
    ram.putDword a v i = ram i :=
  if_neg (by omega)

/-- The entry leads to a page, with these flags; A and D may be anything. -/
structure Leads (e : Word) (addr flags : Nat) : Prop where
  ppn : e >>> 10 = BitVec.ofNat 64 (addr / pageSize)
  flags : e &&& 0x33f = BitVec.ofNat 64 flags

theorem pte_leads (haddr : addr < 2 ^ 56) (hflags : flags < 32) :
    Leads (BitVec.ofNat 64 (pte addr flags)) addr flags := by
  have hlow : BitVec.ofNat 64 flags = (BitVec.ofNat 5 flags).setWidth 64 := by
    apply BitVec.eq_of_toNat_eq
    simp only [BitVec.toNat_ofNat, BitVec.toNat_setWidth]
    omega
  have hhigh : BitVec.ofNat 64 (addr / pageSize) =
      (BitVec.ofNat 44 (addr / pageSize)).setWidth 64 := by
    apply BitVec.eq_of_toNat_eq
    simp only [BitVec.toNat_ofNat, BitVec.toNat_setWidth]
    unfold pageSize
    omega
  have hpte : BitVec.ofNat 64 (pte addr flags) =
      BitVec.ofNat 64 (addr / pageSize) <<< 10 ||| BitVec.ofNat 64 flags := by
    apply BitVec.eq_of_toNat_eq
    have hdiv : addr >>> 12 = addr / pageSize := Nat.shiftRight_eq_div_pow addr 12
    have hpage : addr / pageSize < 2 ^ 44 := by unfold pageSize; omega
    have hshift : (addr / pageSize) <<< 10 < 2 ^ 64 := by
      rw [Nat.shiftLeft_eq]
      omega
    rw [pte, BitVec.toNat_ofNat, BitVec.toNat_or, BitVec.toNat_shiftLeft, BitVec.toNat_ofNat,
      BitVec.toNat_ofNat, hdiv, Nat.mod_eq_of_lt (Nat.lt_trans hpage (by decide)),
      Nat.mod_eq_of_lt hshift, Nat.mod_eq_of_lt (Nat.lt_trans hflags (by decide))]
    exact Nat.mod_eq_of_lt (Nat.or_lt_two_pow hshift (Nat.lt_trans hflags (by decide)))
  have hmask : (0x33f : Word) = (0x33f : BitVec 10).setWidth 64 := rfl
  constructor
  · rw [hpte, hlow, hhigh]
    refine BitVec.eq_of_getLsbD_eq fun k hk => ?_
    simp only [BitVec.getLsbD_ushiftRight, BitVec.getLsbD_or, BitVec.getLsbD_shiftLeft,
      BitVec.getLsbD_setWidth]
    have hbit : (BitVec.ofNat 5 flags).getLsbD (10 + k) = false :=
      BitVec.getLsbD_of_ge _ _ (by omega)
    have hbit' : 44 ≤ k → (BitVec.ofNat 44 (addr / pageSize)).getLsbD k = false :=
      BitVec.getLsbD_of_ge _ _
    rw [hbit, Nat.add_sub_cancel_left]
    grind
  · rw [hpte, hlow]
    refine BitVec.eq_of_getLsbD_eq fun k hk => ?_
    have hfive : ∀ k, k < 5 → (0x33f : Word).getLsbD k = true := by decide
    have hbit : 5 ≤ k → (BitVec.ofNat 5 flags).getLsbD k = false := BitVec.getLsbD_of_ge _ _
    have hten : 10 ≤ k → (0x33f : Word).getLsbD k = false := by
      intro h
      rw [hmask, BitVec.getLsbD_setWidth, BitVec.getLsbD_of_ge _ _ h, Bool.and_false]
    simp only [BitVec.getLsbD_and, BitVec.getLsbD_or, BitVec.getLsbD_shiftLeft,
      BitVec.getLsbD_setWidth]
    have hk5 := hfive k
    grind

namespace Leads

variable {e : Word} {addr flags : Nat} (h : Leads e addr flags)
include h

theorem bit {k : Nat} (hk : k < 6) : e.getLsbD k = flags.testBit k := by
  have hmask : ∀ k, k < 6 → (0x33f : Word).getLsbD k = true := by decide
  have hbit := congrArg (fun x : Word => x.getLsbD k) h.flags
  rw [BitVec.getLsbD_and, hmask k hk, Bool.and_true, BitVec.getLsbD_ofNat] at hbit
  rw [hbit, decide_eq_true (by omega), Bool.true_and]

theorem and_twoPow {k : Nat} (hk : k < 6) :
    e &&& BitVec.twoPow 64 k = 0 ↔ flags.testBit k = false := by
  rw [BitVec.and_twoPow, h.bit hk]
  cases flags.testBit k with
  | false => exact iff_of_true rfl rfl
  | true =>
    refine iff_of_false (fun hzero => ?_) (by decide)
    have hbit := congrArg (fun x : Word => x.getLsbD k) hzero
    simp [show k < 64 by omega] at hbit

theorem valid (hv : flags.testBit 0 = true) : e &&& Cemu.pteV ≠ 0 := by
  rw [show Cemu.pteV = BitVec.twoPow 64 0 from rfl, ne_eq, h.and_twoPow (by decide), hv]
  decide

/-- The page the entry leads to, by its address. -/
theorem tableOf (haddr : addr % pageSize = 0) :
    Cemu.Mmu.tableOf e = BitVec.ofNat 64 addr := by
  unfold Cemu.Mmu.tableOf
  rw [h.ppn]
  apply BitVec.eq_of_toNat_eq
  rw [BitVec.toNat_mul, BitVec.toNat_ofNat, BitVec.toNat_ofNat]
  show addr / pageSize % 2 ^ 64 * 4096 % 2 ^ 64 = _
  unfold pageSize at *
  omega

/-- Marks do not show. -/
theorem mark (type : Cemu.AccessType) :
    Leads (Cemu.Mmu.mark e type) addr flags := by
  have hmask : (0x33f : Word).getLsbD 6 = false ∧ (0x33f : Word).getLsbD 7 = false := by decide
  constructor
  · rw [← h.ppn]
    refine BitVec.eq_of_getLsbD_eq fun k hk => ?_
    rw [BitVec.getLsbD_ushiftRight, BitVec.getLsbD_ushiftRight,
      Cemu.Mmu.getLsbD_mark _ _ (by omega) (by omega)]
  rw [← h.flags]
  refine BitVec.eq_of_getLsbD_eq fun k hk => ?_
  rw [BitVec.getLsbD_and, BitVec.getLsbD_and]
  by_cases h6 : k = 6
  · rw [h6, hmask.1, Bool.and_false, Bool.and_false]
  · by_cases h7 : k = 7
    · rw [h7, hmask.2, Bool.and_false, Bool.and_false]
    · rw [Cemu.Mmu.getLsbD_mark _ _ h6 h7]

end Leads

/-! ## Tables -/

/-- Where the entries of a table lead, and with which flags. -/
abbrev TableFn := Nat → Option (Nat × Nat)

/-- What one entry says. -/
def Says (e : Word) : Option (Nat × Nat) → Prop
  | none => e &&& Cemu.pteV = 0
  | some (addr, flags) => Leads e addr flags

/-- The page at `base` is this table. -/
def Table (ram : Region) (base : Nat) (t : TableFn) : Prop :=
  ∀ j, j < 512 → Says (entryAt ram (base + 8 * j)) (t j)

namespace Table

variable {ram ram' : Region} {base : Nat} {t : TableFn}

theorem congr (h : Table ram base t)
    (hsame : ∀ i, base ≤ i → i < base + pageSize → ram' i = ram i) : Table ram' base t := by
  intro j hj
  rw [entryAt_congr fun i hlo hhi => hsame i (by omega) (by unfold pageSize; omega)]
  exact h j hj

theorem set (h : Table ram base t) (haddr : addr < 2 ^ 56) (hflags : flags < 32) :
    Table (ram.putDword (base + 8 * j) (pte addr flags)) base
      (Function.update t j (some (addr, flags))) := by
  intro k hk
  by_cases hkj : k = j
  · subst hkj
    rw [entryAt_putDword, Function.update_self]
    exact pte_leads haddr hflags
  · rw [entryAt_congr fun i hlo hhi => putDword_out (by omega), Function.update_of_ne hkj]
    exact h k hk

theorem zero (ram : Region) (base : Nat) :
    Table (ram.blit base Region.zero pageSize) base fun _ => none := by
  intro j hj
  have hbytes : entryAt (ram.blit base Region.zero pageSize) (base + 8 * j) =
      ofBytes (fun _ => 0) 8 :=
    ofBytes_congr fun i hi => Region.blit_in (by omega) (by unfold pageSize; omega)
  rw [hbytes]
  rfl

theorem copy (h : Table ram base t) (destination : Nat) :
    Table (ram.blit destination (fun i => ram (base + i)) pageSize) destination t := by
  intro j hj
  have hbytes : entryAt (ram.blit destination (fun i => ram (base + i)) pageSize)
      (destination + 8 * j) = entryAt ram (base + 8 * j) := by
    refine ofBytes_congr fun i hi => ?_
    rw [Region.blit_in (by omega) (by unfold pageSize; omega)]
    congr 1
    omega
  rw [hbytes]
  exact h j hj

end Table

/-! ## Walks -/

/-- Memory as the emulator has it. -/
def dramOf (ram : Region) : Ram := fun a => ram a.toNat

theorem loadLe_dramOf (ha : a + 8 ≤ 2 ^ 64) :
    (dramOf ram).loadLe (BitVec.ofNat 64 a) 8 = entryAt ram a := by
  refine ofBytes_congr fun i hi => ?_
  have haddr : (BitVec.ofNat 64 a + BitVec.ofNat 64 i).toNat = a + i := by
    rw [BitVec.toNat_add, BitVec.toNat_ofNat, BitVec.toNat_ofNat]
    omega
  exact congrArg ram haddr

/-- A page of DRAM. -/
structure InRam (base : Nat) : Prop where
  aligned : base % pageSize = 0
  lo : 0x80000000 ≤ base
  hi : base + pageSize ≤ 0x88000000

/-- An entry that leads to a page and not to a table. -/
def isLeaf (flags : Nat) : Bool := flags.testBit 1 || flags.testBit 2 || flags.testBit 3

theorem Leads.isTable {e : Word} (h : Leads e addr flags) :
    Cemu.Mmu.isTable e = !isLeaf flags := by
  have hbits : Cemu.pteR ||| Cemu.pteW ||| Cemu.pteX =
      BitVec.twoPow 64 1 ||| BitVec.twoPow 64 2 ||| BitVec.twoPow 64 3 := rfl
  have hzero : e &&& (Cemu.pteR ||| Cemu.pteW ||| Cemu.pteX) = 0 ↔
      flags.testBit 1 = false ∧ flags.testBit 2 = false ∧ flags.testBit 3 = false := by
    rw [hbits, BitVec.and_or_distrib_left, BitVec.and_or_distrib_left, BitVec.ofNat_eq_ofNat,
      BitVec.or_eq_zero_iff, BitVec.or_eq_zero_iff, ← h.and_twoPow (by decide),
      ← h.and_twoPow (by decide), ← h.and_twoPow (by decide), and_assoc]
    exact Iff.rfl
  unfold Cemu.Mmu.isTable isLeaf
  rw [Bool.eq_iff_iff, decide_eq_true_iff, hzero]
  simp [and_assoc]

/-- The index of a page at each level. -/
def index2 (v : Word) : Nat := v.toNat / 2 ^ 30 % 512
def index1 (v : Word) : Nat := v.toNat / 2 ^ 21 % 512
def index0 (v : Word) : Nat := v.toNat / 2 ^ 12 % 512

theorem toNat_vpn (v : Word) (n : Nat) : (v >>> n &&& 0x1ff).toNat = v.toNat / 2 ^ n % 512 := by
  rw [BitVec.toNat_and, BitVec.toNat_ushiftRight, Nat.shiftRight_eq_div_pow]
  exact Nat.and_two_pow_sub_one_eq_mod _ 9

theorem entry_eq (hin : InRam base) (hidx : idx.toNat = j) (hj : j < 512) (v : Word) :
    Cemu.Mmu.entry (dramOf ram) v (BitVec.ofNat 64 base + idx * 8) =
      if entryAt ram (base + 8 * j) &&& Cemu.pteV = 0 then .error ⟨.loadPageFault, v⟩
      else .ok (entryAt ram (base + 8 * j)) := by
  obtain ⟨haligned, hlo, hhi⟩ := hin
  have haddr : BitVec.ofNat 64 base + idx * 8 = BitVec.ofNat 64 (base + 8 * j) := by
    apply BitVec.eq_of_toNat_eq
    rw [BitVec.toNat_add, BitVec.toNat_mul, BitVec.toNat_ofNat, BitVec.toNat_ofNat, hidx]
    show (_ + j * 8 % _) % _ = _
    omega
  have hbound : ¬ BitVec.ofNat 64 (base + 8 * j) - Cemu.dramBase + BitVec.ofNat 64 (64 / 8) >
      Cemu.dramSize := by
    unfold Cemu.dramBase Cemu.dramSize
    unfold pageSize at *
    bv_omega
  unfold Cemu.Mmu.entry Cemu.Dram.load
  rw [haddr, if_neg (by decide), if_neg hbound]
  rw [loadLe_dramOf (by unfold pageSize at *; omega)]

/-- The tables under a root, in three levels; entries that lead nowhere may be
anything but valid. -/
structure Tree (ram : Region) (tables : Nat → TableFn) (root : Nat) : Prop where
  root_in : InRam root
  root_table : Table ram root (tables root)
  mid : ∀ i b f, tables root i = some (b, f) → isLeaf f = false → InRam b ∧ Table ram b (tables b)
  low : ∀ i b f j a g, tables root i = some (b, f) → isLeaf f = false →
    tables b j = some (a, g) → isLeaf g = false → InRam a ∧ Table ram a (tables a)
  -- large pages lie where large pages lie
  mega : ∀ i b f j a g, tables root i = some (b, f) → isLeaf f = false →
    tables b j = some (a, g) → isLeaf g = true → a % 2 ^ 21 = 0
  valid : ∀ b j a f, tables b j = some (a, f) → f.testBit 0 = true
  aligned : ∀ b j a f, tables b j = some (a, f) → a % pageSize = 0

/-- The walk, over tables as functions: the page and the flags. -/
def walkTables (tables : Nat → TableFn) (root i₂ i₁ i₀ : Nat) : Option (Nat × Nat) :=
  match tables root i₂ with
  | none => none
  | some (b, f) =>
    if isLeaf f then none
    else
      match tables b i₁ with
      | none => none
      | some (a, g) => if isLeaf g then some (a + i₀ * pageSize, g) else tables a i₀

/-- The page number of a small page of a large one. -/
theorem mega_ppn {e : Word} (h : Leads e addr flags) (halign : addr % 2 ^ 21 = 0)
    (hidx : idx.toNat = j) (hj : j < 512) :
    (e >>> 10 &&& ~~~0x1ff) ||| idx = BitVec.ofNat 64 ((addr + j * pageSize) / pageSize) := by
  have hpage : addr / pageSize % 512 = 0 := by unfold pageSize; omega
  have hclear : BitVec.ofNat 64 (addr / pageSize) &&& ~~~(0x1ff : Word) =
      BitVec.ofNat 64 (addr / pageSize) := by
    refine BitVec.eq_of_getLsbD_eq fun k hk => ?_
    have hmask : (0x1ff : Word) = (BitVec.allOnes 9).setWidth 64 := rfl
    have hlow : k < 9 → (addr / pageSize).testBit k = false := by
      intro hk9
      have hmod : (addr / pageSize % 2 ^ 9).testBit k = (addr / pageSize).testBit k := by
        rw [Nat.testBit_mod_two_pow, decide_eq_true hk9, Bool.true_and]
      rw [← hmod, show addr / pageSize % 2 ^ 9 = 0 from hpage, Nat.zero_testBit]
    simp only [hmask, BitVec.getLsbD_and, BitVec.getLsbD_not, BitVec.getLsbD_setWidth,
      BitVec.getLsbD_allOnes, BitVec.getLsbD_ofNat]
    grind
  rw [h.ppn, hclear, ← BitVec.add_eq_or_of_and_eq_zero]
  · apply BitVec.eq_of_toNat_eq
    rw [BitVec.toNat_add, BitVec.toNat_ofNat, BitVec.toNat_ofNat, hidx]
    unfold pageSize
    omega
  refine BitVec.eq_of_getLsbD_eq fun k hk => ?_
  have hsmall : idx = (BitVec.ofNat 9 j).setWidth 64 := by
    apply BitVec.eq_of_toNat_eq
    rw [hidx, BitVec.toNat_setWidth, BitVec.toNat_ofNat]
    omega
  rw [← hclear, hsmall]
  have hmask : (0x1ff : Word) = (BitVec.allOnes 9).setWidth 64 := rfl
  have hge : 9 ≤ k → (BitVec.ofNat 9 j).getLsbD k = false := BitVec.getLsbD_of_ge _ _
  simp only [hmask, BitVec.getLsbD_and, BitVec.getLsbD_not, BitVec.getLsbD_setWidth,
    BitVec.getLsbD_allOnes, BitVec.getLsbD_zero]
  grind

/-- The entry `e` is where the walk ends, and this is its page. -/
structure LeafAt (leaf : Cemu.Mmu.Leaf) (page flags : Nat) : Prop where
  bits : ∀ k, k < 6 → leaf.pte.getLsbD k = flags.testBit k
  ppn : leaf.ppn = BitVec.ofNat 64 (page / pageSize)
  aligned : page % pageSize = 0
  bound : ¬ leaf.addr - Cemu.dramBase + BitVec.ofNat 64 (64 / 8) > Cemu.dramSize

theorem entry_bound (hin : InRam base) (hidx : idx.toNat = j) (hj : j < 512) :
    ¬ BitVec.ofNat 64 base + idx * 8 - Cemu.dramBase + BitVec.ofNat 64 (64 / 8) >
      Cemu.dramSize := by
  obtain ⟨haligned, hlo, hhi⟩ := hin
  unfold Cemu.dramBase Cemu.dramSize
  unfold pageSize at *
  bv_omega

section Walk

variable {ram : Region} {tables : Nat → TableFn} {root : Nat} {satp : Word}

theorem entry_none {t : TableFn} (htable : Table ram base t) (hin : InRam base)
    (hidx : idx.toNat = j) (hj : j < 512) (hnone : t j = none) (v : Word) :
    Cemu.Mmu.entry (dramOf ram) v (BitVec.ofNat 64 base + idx * 8) =
      .error ⟨.loadPageFault, v⟩ := by
  have hsaid := htable j hj
  rw [hnone] at hsaid
  rw [entry_eq hin hidx hj]
  exact if_pos hsaid

theorem entry_some {t : TableFn} (htable : Table ram base t) (hin : InRam base)
    (hidx : idx.toNat = j) (hj : j < 512)
    (hsome : t j = some (addr, flags)) (hvalid : flags.testBit 0 = true) (v : Word) :
    ∃ e, Leads e addr flags ∧
      Cemu.Mmu.entry (dramOf ram) v (BitVec.ofNat 64 base + idx * 8) = .ok e := by
  have hsaid := htable j hj
  rw [hsome] at hsaid
  refine ⟨_, hsaid, ?_⟩
  rw [entry_eq hin hidx hj]
  exact if_neg (hsaid.valid hvalid)

/-- The emulator's walk is the walk over tables as functions. -/
theorem walk_eq (htree : Tree ram tables root)
    (hsatp : (satp &&& 0xfffffffffff) * 4096 = BitVec.ofNat 64 root) (v : Word) :
    match walkTables tables root (index2 v) (index1 v) (index0 v) with
    | none => ∃ e, Cemu.Mmu.walk satp (dramOf ram) v = .error e
    | some (page, flags) =>
      ∃ leaf, Cemu.Mmu.walk satp (dramOf ram) v = .ok leaf ∧ LeafAt leaf page flags := by
  have h2 : (Cemu.Mmu.vpn2 v).toNat = index2 v := toNat_vpn v 30
  have h1 : (Cemu.Mmu.vpn1 v).toNat = index1 v := toNat_vpn v 21
  have h0 : (Cemu.Mmu.vpn0 v).toNat = index0 v := toNat_vpn v 12
  have hlt : ∀ n, n % 512 < 512 := fun n => Nat.mod_lt n (by decide)
  unfold walkTables Cemu.Mmu.walk
  rw [hsatp]
  cases hroot : tables root (index2 v) with
  | none =>
    rw [entry_none htree.root_table htree.root_in h2 (hlt _) hroot]
    exact ⟨_, rfl⟩
  | some p2 =>
    obtain ⟨b, f⟩ := p2
    obtain ⟨e2, hleads2, he2⟩ := entry_some htree.root_table htree.root_in h2 (hlt _) hroot
      (htree.valid _ _ _ _ hroot) v
    rw [he2]
    dsimp only
    rw [hleads2.isTable]
    cases hf : isLeaf f with
    | true => exact ⟨_, rfl⟩
    | false =>
      obtain ⟨hbin, hbtable⟩ := htree.mid _ _ _ hroot hf
      rw [hleads2.tableOf hbin.aligned]
      cases hmid : tables b (index1 v) with
      | none =>
        rw [entry_none hbtable hbin h1 (hlt _) hmid]
        exact ⟨_, rfl⟩
      | some p1 =>
        obtain ⟨a, g⟩ := p1
        obtain ⟨e1, hleads1, he1⟩ := entry_some hbtable hbin h1 (hlt _) hmid
          (htree.valid _ _ _ _ hmid) v
        rw [he1]
        dsimp only
        rw [hleads1.isTable]
        cases hg : isLeaf g with
        | true =>
          have hmega := htree.mega _ _ _ _ _ _ hroot hf hmid hg
          refine ⟨_, rfl, fun k hk => hleads1.bit hk, ?_, ?_, entry_bound hbin h1 (hlt _)⟩
          · exact mega_ppn hleads1 hmega h0 (hlt _)
          · rw [Nat.add_mul_mod_self_right]
            exact htree.aligned _ _ _ _ hmid
        | false =>
          obtain ⟨hain, hatable⟩ := htree.low _ _ _ _ _ _ hroot hf hmid hg
          rw [hleads1.tableOf hain.aligned]
          cases hlow : tables a (index0 v) with
          | none =>
            rw [entry_none hatable hain h0 (hlt _) hlow]
            exact ⟨_, rfl⟩
          | some p0 =>
            obtain ⟨page, flags⟩ := p0
            obtain ⟨e0, hleads0, he0⟩ := entry_some hatable hain h0 (hlt _) hlow
              (htree.valid _ _ _ _ hlow) v
            rw [he0]
            exact ⟨_, rfl, fun k hk => hleads0.bit hk, hleads0.ppn, htree.aligned _ _ _ _ hlow,
              entry_bound hain h0 (hlt _)⟩

/-- The flag an access needs, by its place. -/
def accessBit : Cemu.AccessType → Nat
  | .instruction => 3
  | .load => 1
  | .store => 2

/-- The flags let the access through. -/
def allows (flags : Nat) (type : Cemu.AccessType) (mode : Word) : Prop :=
  flags.testBit (accessBit type) = true ∧ (mode = Cemu.modeUser → flags.testBit 4 = true)

instance (flags : Nat) (type : Cemu.AccessType) (mode : Word) : Decidable (allows flags type mode) :=
  inferInstanceAs (Decidable (_ ∧ _))

theorem permits_iff {leaf : Cemu.Mmu.Leaf} {page : Nat} (h : LeafAt leaf page flags)
    (type : Cemu.AccessType) (mode : Word) :
    Cemu.Mmu.permits leaf.pte type mode = true ↔ allows flags type mode := by
  have hbit : ∀ k, k < 6 → (leaf.pte &&& BitVec.twoPow 64 k ≠ 0 ↔ flags.testBit k = true) := by
    intro k hk
    rw [← h.bits k hk, BitVec.and_twoPow]
    cases leaf.pte.getLsbD k with
    | false => exact iff_of_false (fun hne => hne rfl) (by decide)
    | true =>
      refine iff_of_true (fun hzero => ?_) rfl
      have hone := congrArg (fun x : Word => x.getLsbD k) hzero
      simp [show k < 64 by omega] at hone
  have htype : type.flag = BitVec.twoPow 64 (accessBit type) := by cases type <;> rfl
  have hsmall : accessBit type < 6 := by cases type <;> decide
  unfold Cemu.Mmu.permits allows
  rw [decide_eq_true_iff, htype, show Cemu.pteU = BitVec.twoPow 64 4 from rfl, hbit _ hsmall,
    hbit 4 (by decide)]

theorem satpOf_eq (hin : InRam root) :
    satpOf root = Cemu.Mmu.satpModeSv39 ||| (BitVec.ofNat 44 (root / pageSize)).setWidth 64 := by
  have hroot : root / pageSize < 2 ^ 44 := by
    have hhi := hin.hi
    unfold pageSize at *
    omega
  have hdiv : root >>> 12 = root / pageSize := Nat.shiftRight_eq_div_pow root 12
  apply BitVec.eq_of_toNat_eq
  rw [satpOf, BitVec.toNat_ofNat, BitVec.toNat_or, BitVec.toNat_setWidth, BitVec.toNat_ofNat,
    hdiv, Nat.mod_eq_of_lt hroot, Nat.mod_eq_of_lt (Nat.lt_trans hroot (by decide))]
  exact Nat.mod_eq_of_lt (Nat.or_lt_two_pow (by decide) (Nat.lt_trans hroot (by decide)))

theorem satpOf_enabled (hin : InRam root) : Cemu.Mmu.isEnabled (satpOf root) = true := by
  unfold Cemu.Mmu.isEnabled
  rw [satpOf_eq hin, decide_eq_true_iff]
  have hmode : Cemu.Mmu.satpModeSv39 = BitVec.twoPow 64 63 := rfl
  refine BitVec.eq_of_getLsbD_eq fun k hk => ?_
  grind

theorem satpOf_root (hin : InRam root) :
    (satpOf root &&& 0xfffffffffff) * 4096 = BitVec.ofNat 64 root := by
  have hmode : Cemu.Mmu.satpModeSv39 = BitVec.twoPow 64 63 := rfl
  have hmask : (0xfffffffffff : Word) = (BitVec.allOnes 44).setWidth 64 := rfl
  have hppn : satpOf root &&& 0xfffffffffff = (BitVec.ofNat 44 (root / pageSize)).setWidth 64 := by
    rw [satpOf_eq hin]
    refine BitVec.eq_of_getLsbD_eq fun k hk => ?_
    have hge : 44 ≤ k → (BitVec.ofNat 44 (root / pageSize)).getLsbD k = false :=
      BitVec.getLsbD_of_ge _ _
    simp only [hmode, hmask, BitVec.getLsbD_and, BitVec.getLsbD_or, BitVec.getLsbD_twoPow,
      BitVec.getLsbD_setWidth, BitVec.getLsbD_allOnes]
    grind
  obtain ⟨haligned, hlo, hhi⟩ := hin
  apply BitVec.eq_of_toNat_eq
  rw [hppn, BitVec.toNat_mul, BitVec.toNat_setWidth, BitVec.toNat_ofNat, BitVec.toNat_ofNat]
  show _ * 4096 % _ = _
  unfold pageSize at *
  omega

/-- The emulator's translation, over tables as functions. -/
theorem physical_eq {csrs : Cemu.Csr} (htree : Tree ram tables root)
    (hsatp : csrs.load Cemu.SATP = satpOf root) (v : Word) (type : Cemu.AccessType)
    (mode : Word) :
    Cemu.Mmu.physical csrs (dramOf ram) v type mode =
      match walkTables tables root (index2 v) (index1 v) (index0 v) with
      | none => none
      | some (page, flags) =>
        if allows flags type mode then some (BitVec.ofNat 64 (page + v.toNat % pageSize))
        else none := by
  have hwalk := walk_eq htree (satpOf_root htree.root_in) v
  unfold Cemu.Mmu.physical Cemu.Mmu.translate
  rw [hsatp, satpOf_enabled htree.root_in]
  cases hw : walkTables tables root (index2 v) (index1 v) (index0 v) with
  | none =>
    rw [hw] at hwalk
    obtain ⟨e, he⟩ := hwalk
    rw [he]
    rfl
  | some p =>
    obtain ⟨page, flags⟩ := p
    rw [hw] at hwalk
    obtain ⟨leaf, hleaf, hat⟩ := hwalk
    rw [hleaf]
    dsimp only
    by_cases hallow : allows flags type mode
    · rw [(permits_iff hat type mode).mpr hallow, if_pos hallow]
      unfold Cemu.Dram.store
      rw [if_neg (by decide), if_neg hat.bound]
      show some _ = some _
      rw [Cemu.Mmu.page_or_offset, hat.ppn]
      congr 1
      apply BitVec.eq_of_toNat_eq
      rw [BitVec.toNat_add, BitVec.toNat_mul, Cemu.Mmu.toNat_offset, BitVec.toNat_ofNat,
        BitVec.toNat_ofNat]
      show (_ * 4096 % _ + _) % _ = _
      have haligned := hat.aligned
      unfold pageSize at *
      omega
    · have hdenied : Cemu.Mmu.permits leaf.pte type mode = false := by
        rw [Bool.eq_false_iff]
        exact fun h => hallow ((permits_iff hat type mode).mp h)
      rw [hdenied, if_pos rfl, if_neg hallow]
      rfl

end Walk

/-! ## Marks -/

/-- The emulator's DRAM, back in memory. -/
def regionOf (dram : Ram) (ram : Region) : Region := fun a =>
  if a < 2 ^ 64 then dram (BitVec.ofNat 64 a) else ram a

theorem regionOf_dramOf (ram : Region) : regionOf (dramOf ram) ram = ram := by
  funext a
  unfold regionOf dramOf
  split
  · next h => rw [BitVec.toNat_ofNat, Nat.mod_eq_of_lt h]
  · rfl

theorem entryAt_regionOf {dram : Ram} (ha : a + 8 ≤ 2 ^ 64) :
    entryAt (regionOf dram ram) a = dram.loadLe (BitVec.ofNat 64 a) 8 := by
  refine ofBytes_congr fun i hi => ?_
  unfold regionOf
  rw [if_pos (by omega), BitVec.ofNat_add]

/-- A doubleword is stored, and those at other multiples of eight are as before. -/
theorem loadLe_storeLe_of_ne {dram : Ram} {a b v : Word} (ha : a.toNat % 8 = 0)
    (hb : b.toNat % 8 = 0) (hne : b ≠ a) :
    (dram.storeLe a 8 v).loadLe b 8 = dram.loadLe b 8 := by
  refine ofBytes_congr fun i hi => Ram.storeLe_out ?_
  have hne' : b.toNat ≠ a.toNat := fun h => hne (BitVec.eq_of_toNat_eq h)
  bv_omega

theorem loadLe_storeLe (dram : Ram) (a v : Word) : (dram.storeLe a 8 v).loadLe a 8 = v := by
  have hbytes : (dram.storeLe a 8 v).loadLe a 8 = ofBytes (byte v) 8 :=
    ofBytes_congr fun i hi => Ram.storeLe_in hi (by decide)
  rw [hbytes, ofBytes_byte]

/-- Tables say what they said after a translation, whosever it was. -/
theorem Table.translated {t : TableFn} (h : Table ram base t) (hin : InRam base) (csrs : Cemu.Csr)
    (v : Word) (type : Cemu.AccessType) (mode : Word) :
    Table (regionOf (Cemu.Mmu.translate csrs (dramOf ram) v type mode).2 ram) base t := by
  obtain heq | ⟨leaf, hwalk, heq⟩ := Cemu.Mmu.translate_dram csrs (dramOf ram) v type mode <;>
    rw [heq]
  · rwa [regionOf_dramOf]
  obtain ⟨haligned, hlo, hhi⟩ := hin
  intro j hj
  have hsmall : base + 8 * j + 8 ≤ 2 ^ 64 := by
    omega
  have hsaid := h j hj
  rw [entryAt_regionOf hsmall]
  by_cases hat : BitVec.ofNat 64 (base + 8 * j) = leaf.addr
  · rw [hat, loadLe_storeLe, Cemu.Mmu.walk_pte hwalk, ← hat, loadLe_dramOf hsmall]
    cases hj : t j with
    | none =>
      rw [hj] at hsaid
      have hbit : (Cemu.Mmu.mark (entryAt ram (base + 8 * j)) type).getLsbD 0 =
          (entryAt ram (base + 8 * j)).getLsbD 0 :=
        Cemu.Mmu.getLsbD_mark _ _ (by decide) (by decide)
      have hone : Cemu.pteV = BitVec.twoPow 64 0 := rfl
      unfold Says at hsaid ⊢
      rw [hone, BitVec.and_twoPow] at hsaid ⊢
      rwa [hbit]
    | some p =>
      rw [hj] at hsaid
      exact Leads.mark hsaid type
  · have haddr : (BitVec.ofNat 64 (base + 8 * j)).toNat % 8 = 0 := by
      rw [BitVec.toNat_ofNat]
      unfold pageSize at *
      omega
    rw [loadLe_storeLe_of_ne (Cemu.Mmu.walk_aligned hwalk) haddr hat, loadLe_dramOf hsmall]
    exact hsaid

end MiniOs.Kernel
