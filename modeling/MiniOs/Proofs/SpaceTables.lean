import MiniOs.Proofs.PageTables

/-!
# The tables of an address space

The page tables of a process are put together from what `vm_init` has left: the root
and the table of the devices are copied, and entry 0 of the copy, which was a large
page for the kernel, leads to a table of the process. `create_empty_space` does this
and `map_user_page` fills that last table.

`KernelTables` and `SpaceTables` say of each table which function it is, and
`Spaces.Ok` adds who has which page. The two functions keep it, whatever `kalloc`
answers. What a step writes are pages of the space at hand and pages nobody had, and
`Wrote` is the frame for everything else.
-/

namespace MiniOs.Kernel

open MiniOs.Lib Function
open MiniOs.Cemu (Word)

/-! ## What is in the tables -/

/-- The flags of tables, of kernel pages and of the table of a process. -/
def flagsTable : Nat := pteV
def flagsDevice : Nat := pteV ||| pteR ||| pteW
def flagsKernel : Nat := pteV ||| pteR ||| pteW ||| pteX
def flagsUserTable : Nat := pteV ||| pteU

/-- A root. -/
def rootFn (mmio dram : Nat) : TableFn := fun j =>
  if j = 0 then some (mmio, flagsTable) else if j = 2 then some (dram, flagsTable) else none

/-- The large pages of DRAM, and of the devices. -/
def dramFn : TableFn := fun j =>
  if j < 64 then some (0x80000000 + j * 0x200000, flagsKernel) else none

def mmioFn : TableFn := fun j =>
  if j = 0 then some (0, flagsDevice)
  else if j = 128 then some (0x10000000, flagsDevice)
  else if 96 ≤ j ∧ j < 128 then some (0x0c000000 + (j - 96) * 0x200000, flagsDevice)
  else if j = 16 then some (0x02000000, flagsDevice)
  else none

/-- The table of a process, from the list of its mappings. -/
def userFn (space : AddressSpace) : TableFn := fun j =>
  (mappingAt space (j * pageSize)).map fun mapping =>
    (mapping.page, mapping.flags ||| pteU ||| pteV)

/-- The flags of a mapping are some of R, W and X. -/
structure Rwx (flags : Nat) : Prop where
  lt : flags < 16
  zero : flags.testBit 0 = false

/-- Some of R, W and X. -/
def flagsOf (r w x : Bool) : Nat :=
  (if r then pteR else 0) ||| (if w then pteW else 0) ||| (if x then pteX else 0)

theorem flagsOf_rwx (r w x : Bool) : Rwx (flagsOf r w x) := by
  cases r <;> cases w <;> cases x <;> exact ⟨by decide, by decide⟩

theorem Rwx.or {a b : Nat} (ha : Rwx a) (hb : Rwx b) : Rwx (a ||| b) where
  lt := Nat.or_lt_two_pow (n := 4) ha.lt hb.lt
  zero := by rw [Nat.testBit_or, ha.zero, hb.zero]; rfl

/-- The entry of a mapping: user and valid on top of its flags. -/
theorem Rwx.entry {flags : Nat} (h : Rwx flags) :
    (flags ||| pteU ||| pteV) < 32 ∧ (flags ||| pteU ||| pteV).testBit 0 = true ∧
      (flags ||| pteU ||| pteV).testBit 4 = true ∧
      ∀ k, 0 < k → k < 4 → (flags ||| pteU ||| pteV).testBit k = flags.testBit k := by
  have hsmall : flags < 2 ^ 5 := Nat.lt_trans h.lt (by decide)
  refine ⟨Nat.or_lt_two_pow (n := 5) (Nat.or_lt_two_pow hsmall (by decide)) (by decide), ?_, ?_,
    fun k hpos hk => ?_⟩
  · simp [pteV]
  · have hu : pteU.testBit 4 = true := by decide
    rw [Nat.testBit_or, Nat.testBit_or, hu, Bool.or_true, Bool.true_or]
  · have hu : ∀ k, k < 4 → 0 < k → pteU.testBit k = false ∧ pteV.testBit k = false := by decide
    obtain ⟨hu4, hv⟩ := hu k hk hpos
    rw [Nat.testBit_or, Nat.testBit_or, hu4, hv, Bool.or_false, Bool.or_false]

/-! ## Mappings -/

theorem mappingAt_eq_find (space : AddressSpace) (va : Nat) :
    mappingAt space va =
      space.pages.find? fun mapping => mapping.va = va / pageSize * pageSize := by
  unfold mappingAt findMapping
  induction space.pages with
  | nil => rfl
  | cons mapping rest ih =>
    rw [List.findIdx?_cons, List.find?_cons]
    cases hfirst : decide (mapping.va = va / pageSize * pageSize) with
    | true => rfl
    | false =>
      rw [← ih]
      cases List.findIdx? _ rest <;> rfl

/-- The mapping that was found is changed. -/
theorem find_modify {pages : List Mapping} {page : Nat} {f : Mapping → Mapping}
    (hf : ∀ mapping, (f mapping).va = mapping.va) {found : Mapping}
    (hfound : pages.find? (fun mapping => mapping.va = page) = some found) (other : Nat) :
    (pages.modify ((pages.findIdx? fun mapping => mapping.va = page).getD 0) f).find?
        (fun mapping => mapping.va = other) =
      if other = page then some (f found)
      else pages.find? fun mapping => mapping.va = other := by
  induction pages with
  | nil => cases hfound
  | cons mapping rest ih =>
    rw [List.findIdx?_cons]
    rw [List.find?_cons] at hfound
    cases hfirst : decide (mapping.va = page) with
    | true =>
      have hva : mapping.va = page := of_decide_eq_true hfirst
      have hsame : mapping = found := by
        rw [hfirst] at hfound
        exact Option.some.inj hfound
      rw [if_pos rfl, Option.getD_some, List.modify_zero_cons, List.find?_cons, List.find?_cons,
        hf, hva, hsame]
      by_cases hother : other = page
      · rw [if_pos hother, decide_eq_true hother.symm]
      · rw [if_neg hother, decide_eq_false fun h => hother h.symm]
    | false =>
      rw [hfirst] at hfound
      have hne : mapping.va ≠ page := of_decide_eq_false hfirst
      have hidx : ∃ i, rest.findIdx? (fun mapping => mapping.va = page) = some i := by
        rw [← Option.isSome_iff_exists, List.findIdx?_isSome, List.any_eq_true]
        exact ⟨found, List.mem_of_find?_eq_some hfound, by
          simpa using List.find?_some hfound⟩
      obtain ⟨i, hi⟩ := hidx
      have hrest := ih hfound
      rw [hi, Option.getD_some] at hrest
      rw [if_neg (by decide), hi, Option.map_some, Option.getD_some, List.modify_succ_cons,
        List.find?_cons, List.find?_cons, hrest]
      by_cases hother : mapping.va = other
      · rw [decide_eq_true hother]
        exact (if_neg fun h => hne (hother.trans h)).symm
      · rw [decide_eq_false hother]

/-- A page of its own is looked up by its number. -/
theorem mappingAt_page (space : AddressSpace) (va : Nat) :
    mappingAt space (va / pageSize * pageSize) = mappingAt space va := by
  rw [mappingAt_eq_find, mappingAt_eq_find, Nat.mul_div_cancel _ (show 0 < pageSize by decide)]

variable {space : AddressSpace} {va : Nat}

theorem mappingAt_mem {mapping : Mapping} (h : mappingAt space va = some mapping) :
    mapping ∈ space.pages ∧ mapping.va = va / pageSize * pageSize := by
  rw [mappingAt_eq_find] at h
  exact ⟨List.mem_of_find?_eq_some h, by simpa using List.find?_some h⟩

/-! ## Writes to pages -/

/-- The kernel's tables are where they were, and only these pages have changed. -/
structure Wrote (pages : List Nat) (m m' : Memory) : Prop where
  l2 : m'.kernelL2 = m.kernelL2
  l1Dram : m'.kernelL1Dram = m.kernelL1Dram
  l1Mmio : m'.kernelL1Mmio = m.kernelL1Mmio
  ram : ∀ i, (∀ p ∈ pages, i < p ∨ p + pageSize ≤ i) → m'.ram i = m.ram i

section Wrote

variable {m m' m'' : Memory} {pages : List Nat} {page : Nat}

theorem Wrote.heap (m : Memory) (h : Heap) (pages : List Nat) :
    Wrote pages m { m with toHeap := h } :=
  ⟨rfl, rfl, rfl, fun _ _ => rfl⟩

theorem Wrote.trans (h : Wrote pages m m') (h' : Wrote pages m' m'') : Wrote pages m m'' :=
  ⟨h'.l2.trans h.l2, h'.l1Dram.trans h.l1Dram, h'.l1Mmio.trans h.l1Mmio,
    fun i hi => (h'.ram i hi).trans (h.ram i hi)⟩

theorem Wrote.mono {pages' : List Nat} (h : Wrote pages m m') (hsub : pages ⊆ pages') :
    Wrote pages' m m' :=
  ⟨h.l2, h.l1Dram, h.l1Mmio, fun i hi => h.ram i fun p hp => hi p (hsub hp)⟩

theorem Wrote.blit (m : Memory) (hpage : page ∈ pages) (contents : Region) :
    Wrote pages m { m with ram := m.ram.blit page contents pageSize } :=
  ⟨rfl, rfl, rfl, fun _ h => Region.blit_out (h page hpage)⟩

theorem Wrote.setEntry (m : Memory) (hpage : page ∈ pages) {j : Nat} (hj : j < 512)
    (entry : Nat) : Wrote pages m (m.setEntry page j entry) :=
  ⟨rfl, rfl, rfl, fun i h => putDword_out (by
    have hout := h page hpage
    unfold pageSize at hout
    omega)⟩

theorem Table.wrote {base : Nat} {t : TableFn} (h : Table m.ram base t) (hw : Wrote pages m m')
    (hpages : ∀ p ∈ pages, p % pageSize = 0) (hbase : base % pageSize = 0)
    (hne : base ∉ pages) : Table m'.ram base t := by
  refine h.congr fun i hlo hhi => hw.ram i fun p hp => ?_
  have hapart := Pool.apart hbase (hpages p hp) fun heq => hne (heq ▸ hp)
  omega

end Wrote

/-! ## The invariant -/

/-- The tables of the kernel. -/
structure KernelTables (m : Memory) : Prop where
  l2 : Table m.ram m.kernelL2 (rootFn m.kernelL1Mmio m.kernelL1Dram)
  l1Dram : Table m.ram m.kernelL1Dram dramFn
  l1Mmio : Table m.ram m.kernelL1Mmio mmioFn

/-- The tables of an address space, and its mappings. -/
structure SpaceTables (m : Memory) (space : AddressSpace) : Prop where
  satp : space.satp = satpOf space.root
  root : Table m.ram space.root (rootFn space.l1Mmio m.kernelL1Dram)
  l1Mmio : Table m.ram space.l1Mmio (update mmioFn 0 (some (space.l0User, flagsUserTable)))
  l0User : Table m.ram space.l0User (userFn space)
  mapped : ∀ mapping ∈ space.pages, mapping.va < userStackTop ∧ Rwx mapping.flags

def kernelPages (m : Memory) : List Nat := [m.kernelL2, m.kernelL1Dram, m.kernelL1Mmio]

/-- Memory and the address spaces in use. -/
structure Spaces where
  memory : Memory
  spaces : List AddressSpace

/-- The pages of the spaces and of the kernel's tables. -/
def Spaces.pages (s : Spaces) : List Nat :=
  s.spaces.flatMap AddressSpace.owned ++ kernelPages s.memory

/-- Each page has one owner, `others` the rest, and the tables say what they should. -/
structure Spaces.Ok (layout : Layout) (others : List Nat) (s : Spaces) : Prop where
  uses : s.memory.Uses layout (s.pages ++ others)
  kernel : KernelTables s.memory
  spaces : ∀ space ∈ s.spaces, SpaceTables s.memory space

variable {layout : Layout} {others : List Nat}

section Frames

variable {m m' : Memory} {pages : List Nat} (hw : Wrote pages m m')
  (hpages : ∀ p ∈ pages, p % pageSize = 0)
include hw hpages

theorem KernelTables.wrote (h : KernelTables m) (haligned : ∀ p ∈ kernelPages m, p % pageSize = 0)
    (hfresh : ∀ p ∈ kernelPages m, p ∉ pages) : KernelTables m' := by
  have hkeep : ∀ {base t}, base ∈ kernelPages m → Table m.ram base t → Table m'.ram base t :=
    fun hmem ht => ht.wrote hw hpages (haligned _ hmem) (hfresh _ hmem)
  obtain ⟨hl2, hdram, hmmio, -⟩ := hw
  constructor
  · rw [hl2, hdram, hmmio]
    exact hkeep (by simp [kernelPages]) h.l2
  · rw [hdram]
    exact hkeep (by simp [kernelPages]) h.l1Dram
  · rw [hmmio]
    exact hkeep (by simp [kernelPages]) h.l1Mmio

theorem SpaceTables.wrote (h : SpaceTables m space)
    (haligned : ∀ p ∈ space.owned, p % pageSize = 0) (hfresh : ∀ p ∈ space.owned, p ∉ pages) :
    SpaceTables m' space := by
  have hkeep : ∀ {base t}, base ∈ space.owned → Table m.ram base t → Table m'.ram base t :=
    fun hmem ht => ht.wrote hw hpages (haligned _ hmem) (hfresh _ hmem)
  refine ⟨h.satp, ?_, ?_, ?_, h.mapped⟩
  · rw [hw.l1Dram]
    exact hkeep (by simp [AddressSpace.owned]) h.root
  · exact hkeep (by simp [AddressSpace.owned]) h.l1Mmio
  · exact hkeep (by simp [AddressSpace.owned]) h.l0User

end Frames

namespace Spaces.Ok

variable {s : Spaces}

variable {p : Nat}

theorem aligned (hok : s.Ok layout others) (hp : p ∈ s.pages ++ others) :
    p % pageSize = 0 :=
  (hok.uses.bounds hp).2.2

theorem owned_mem (hspace : space ∈ s.spaces) (hp : p ∈ space.owned) :
    p ∈ s.pages :=
  List.mem_append_left _ (List.mem_flatMap.mpr ⟨space, hspace, hp⟩)

theorem kernel_mem (hp : p ∈ kernelPages s.memory) : p ∈ s.pages :=
  List.mem_append_right _ hp

/-- Pages nobody has are written: the tables stay. -/
theorem fresh {m' : Memory} {pages : List Nat} (hok : s.Ok layout others)
    (hw : Wrote pages s.memory m') (hpages : ∀ p ∈ pages, p % pageSize = 0)
    (hfresh : ∀ p ∈ pages, p ∉ s.pages) :
    KernelTables m' ∧ ∀ space ∈ s.spaces, SpaceTables m' space := by
  constructor
  · exact hok.kernel.wrote hw hpages
      (fun p hp => hok.aligned (List.mem_append_left _ (kernel_mem hp)))
      fun p hp hmem => hfresh p hmem (kernel_mem hp)
  · intro space hspace
    exact (hok.spaces space hspace).wrote hw hpages
      (fun p hp => hok.aligned (List.mem_append_left _ (owned_mem hspace hp)))
      fun p hp hmem => hfresh p hmem (owned_mem hspace hp)

end Spaces.Ok

/-! ## A new space -/

theorem rootFn_update (mmio mmio' dram : Nat) :
    update (rootFn mmio dram) 0 (some (mmio', flagsTable)) = rootFn mmio' dram := by
  funext j
  by_cases hj : j = 0
  · subst hj
    rw [update_self]
    rfl
  · rw [update_of_ne hj]
    unfold rootFn
    rw [if_neg hj, if_neg hj]

/-- The tables of a new space: copies of the kernel's, with a table of its own. -/
theorem newSpace_tables {m : Memory} {root l1Mmio l0User : Nat} (h : KernelTables m)
    (hin : ∀ p ∈ [root, l1Mmio, l0User], p % pageSize = 0 ∧ p < 2 ^ 56)
    (hnodup : [root, l1Mmio, l0User].Nodup)
    (hfresh : ∀ p ∈ [root, l1Mmio, l0User], p ∉ kernelPages m)
    (haligned : ∀ p ∈ kernelPages m, p % pageSize = 0) :
    let m1 := (m.copyPage root m.kernelL2)
    let m2 := m1.copyPage l1Mmio m1.kernelL1Mmio
    let m3 := m2.zeroPage l0User
    let m4 := m3.setEntry root 0 (pte l1Mmio pteV)
    let m5 := m4.setEntry l1Mmio 0 (pte l0User (pteV ||| pteU))
    Wrote [root, l1Mmio, l0User] m m5 ∧ SpaceTables m5 ⟨root, l1Mmio, l0User, [], satpOf root⟩ := by
  intro m1 m2 m3 m4 m5
  have hne : root ≠ l1Mmio ∧ root ≠ l0User ∧ l1Mmio ≠ l0User := by
    simp only [List.nodup_cons, List.mem_cons, List.not_mem_nil, or_false, not_or] at hnodup
    exact ⟨hnodup.1.1, hnodup.1.2, hnodup.2.1⟩
  obtain ⟨hrl, hr0, hl0⟩ := hne
  have hpage : ∀ p ∈ [root, l1Mmio, l0User], ∀ q ∈ [p], q % pageSize = 0 :=
    fun p hp q hq => by rw [List.mem_singleton.mp hq]; exact (hin p hp).1
  have hroot := hin root (by simp)
  have hmmio := hin l1Mmio (by simp)
  have huser := hin l0User (by simp)
  have h1 : Wrote [root] m m1 := Wrote.blit m (by simp) _
  have h2 : Wrote [l1Mmio] m1 m2 := Wrote.blit m1 (by simp) _
  have h3 : Wrote [l0User] m2 m3 := Wrote.blit m2 (by simp) _
  have h4 : Wrote [root] m3 m4 := Wrote.setEntry m3 (by simp) (by decide) _
  have h5 : Wrote [l1Mmio] m4 m5 := Wrote.setEntry m4 (by simp) (by decide) _
  refine ⟨?_, rfl, ?_, ?_, ?_, nofun⟩
  · exact ((((h1.mono (by simp)).trans (h2.mono (by simp))).trans (h3.mono (by simp))).trans
      (h4.mono (by simp))).trans (h5.mono (by simp))
  · have t1 : Table m1.ram root (rootFn m.kernelL1Mmio m.kernelL1Dram) := h.l2.copy root
    have t2 := t1.wrote h2 (hpage _ (by simp)) hroot.1 (by simpa using hrl)
    have t3 := t2.wrote h3 (hpage _ (by simp)) hroot.1 (by simpa using hr0)
    have t4 : Table m4.ram root (rootFn l1Mmio m.kernelL1Dram) := by
      rw [← rootFn_update m.kernelL1Mmio]
      exact t3.set hmmio.2 (by decide)
    exact t4.wrote h5 (hpage _ (by simp)) hroot.1 (by simpa using hrl)
  · have hkernel : m.kernelL1Mmio ∈ kernelPages m := by simp [kernelPages]
    have hsource : Table m1.ram m.kernelL1Mmio mmioFn :=
      h.l1Mmio.wrote h1 (hpage _ (by simp)) (haligned _ hkernel) fun hmem =>
        hfresh root (by simp) (List.mem_singleton.mp hmem ▸ hkernel)
    have t2 : Table m2.ram l1Mmio mmioFn := hsource.copy l1Mmio
    have t3 := t2.wrote h3 (hpage _ (by simp)) hmmio.1 (by simpa using hl0)
    have t4 := t3.wrote h4 (hpage _ (by simp)) hmmio.1 (by simpa using hrl.symm)
    exact t4.set huser.2 (by decide)
  · have t3 : Table m3.ram l0User fun _ => none := Table.zero _ _
    have t4 := t3.wrote h4 (hpage _ (by simp)) huser.1 (by simpa using hr0.symm)
    exact t4.wrote h5 (hpage _ (by simp)) huser.1 (by simpa using hl0.symm)

theorem page_lt {p : Nat} (h : p + pageSize ≤ heapTop) : p < 2 ^ 56 := by
  have htop : heapTop < 2 ^ 56 := by decide
  omega

/-- Making a space keeps the invariant, whether there are three pages or not. -/
theorem create_ok {s : Spaces} (hok : s.Ok layout others) :
    Spaces.Ok layout others
      ⟨(createEmptySpace s.memory).1, s.spaces ++ (createEmptySpace s.memory).2.toList⟩ := by
  unfold createEmptySpace
  by_cases hnull : s.memory.kernelL2 = 0 ∨ s.memory.kernelL1Mmio = 0
  · rw [if_pos hnull]
    simpa using hok
  rw [if_neg hnull]
  obtain ⟨h1, root, heq1, hu1⟩ := Memory.kalloc_uses hok.uses
  rw [heq1]
  dsimp only
  obtain ⟨h2, l1Mmio, heq2, hu2⟩ :=
    Memory.kalloc_uses (m := { s.memory with toHeap := h1 }) hu1
  rw [heq2]
  obtain ⟨h3, l0User, heq3, hu3⟩ :=
    Memory.kalloc_uses (m := { s.memory with toHeap := h2 }) hu2
  rw [heq3]
  have hfail : Spaces.Ok layout others ⟨userSpaceDestroy { s.memory with toHeap := h3 }
        ⟨root.getD 0, l1Mmio.getD 0, l0User.getD 0, [], 0⟩, s.spaces ++ []⟩ := by
    have hw := Wrote.heap s.memory
      (((Kernel.kfree (Kernel.kfree (Kernel.kfree h3 (l0User.getD 0)) (l1Mmio.getD 0))
        (root.getD 0))) ) []
    obtain ⟨hkernel, hspaces⟩ := hok.fresh hw nofun nofun
    rw [List.append_nil]
    exact ⟨hu3.kfree_getD.kfree_getD.kfree_getD, hkernel, hspaces⟩
  cases root with
  | none => exact hfail
  | some root =>
    cases l1Mmio with
    | none => exact hfail
    | some l1Mmio =>
      cases l0User with
      | none => exact hfail
      | some l0User =>
        have hu : h3.Uses layout ([l0User, l1Mmio, root] ++ (s.pages ++ others)) := hu3
        have hmem : ∀ p ∈ [root, l1Mmio, l0User], p ∈ [l0User, l1Mmio, root] := by simp
        obtain ⟨hnew, -, hdisjoint⟩ := List.nodup_append.mp hu.pool.nodup_used
        have hin : ∀ p ∈ [root, l1Mmio, l0User], p % pageSize = 0 ∧ p < 2 ^ 56 := by
          intro p hp
          obtain ⟨-, hhi, hmod⟩ := hu.bounds (List.mem_append_left _ (hmem p hp))
          exact ⟨hmod, page_lt hhi⟩
        have hfresh : ∀ p ∈ [root, l1Mmio, l0User], p ∉ s.pages := fun p hp hp' =>
          hdisjoint p (hmem p hp) p (List.mem_append_left _ hp') rfl
        have hheap := Wrote.heap s.memory h3 []
        obtain ⟨hw, htables⟩ := newSpace_tables (hok.fresh hheap nofun nofun).1 hin
          (by simpa [and_comm, eq_comm, and_assoc, not_or] using hnew)
          (fun p hp hp' => hfresh p hp (Spaces.Ok.kernel_mem hp'))
          (fun p hp => hok.aligned (List.mem_append_left _ (Spaces.Ok.kernel_mem hp)))
        obtain ⟨hkernel, hspaces⟩ := hok.fresh ((Wrote.heap s.memory h3 _).trans hw)
          (fun p hp => (hin p hp).1) hfresh
        refine ⟨?_, hkernel, fun space hspace => ?_⟩
        · refine hu.perm ?_
          show ([l0User, l1Mmio, root] ++ (s.spaces.flatMap AddressSpace.owned ++ _ ++ _)).Perm
            ((s.spaces ++ [_]).flatMap AddressSpace.owned ++ _ ++ _)
          rw [List.flatMap_append, List.append_assoc, List.append_assoc, List.append_assoc]
          exact List.perm_append_comm_assoc _ _ _
        · obtain hold | hnew := List.mem_append.mp hspace
          · exact hspaces space hold
          · rw [List.mem_singleton.mp hnew]
            exact htables

/-! ## A page more -/

theorem leafIndex_eq (h : va < userStackTop) :
    leafIndex va = va / pageSize ∧ leafIndex va < 512 := by
  have hdiv : va / pageSize < 512 := by
    unfold userStackTop at h
    unfold pageSize
    omega
  unfold leafIndex
  have hand : va >>> 12 &&& 0x1ff = va >>> 12 % 2 ^ 9 := Nat.and_two_pow_sub_one_eq_mod _ 9
  rw [hand, Nat.shiftRight_eq_div_pow]
  exact ⟨Nat.mod_eq_of_lt hdiv, Nat.mod_lt _ (by decide)⟩

/-- The table of a process when the mapping of one page changes. -/
theorem userFn_update {space' : AddressSpace} {mapping : Mapping} (hva : va % pageSize = 0)
    (hfind : ∀ page, mappingAt space' page =
      if page / pageSize * pageSize = va then some mapping else mappingAt space page) :
    userFn space' = update (userFn space) (va / pageSize)
      (some (mapping.page, mapping.flags ||| pteU ||| pteV)) := by
  have hpage : 0 < pageSize := by decide
  funext j
  unfold userFn
  rw [hfind, Nat.mul_div_cancel _ hpage]
  by_cases hj : j = va / pageSize
  · subst hj
    rw [if_pos (Nat.div_mul_cancel (Nat.dvd_of_mod_eq_zero hva)), update_self]
    rfl
  · have hne : j * pageSize ≠ va := by
      intro heq
      apply hj
      rw [← heq, Nat.mul_div_cancel _ hpage]
    rw [if_neg hne, update_of_ne hj]

theorem mappingAt_merge {existing : Mapping} (flags : Nat) (hva : va % pageSize = 0)
    (h : mappingAt space va = some existing) (page : Nat) :
    mappingAt { space with
        pages := space.pages.modify ((findMapping space va).getD 0) fun mapping =>
          { mapping with flags := flags } } page =
      if page / pageSize * pageSize = va then some { existing with flags := flags }
      else mappingAt space page := by
  have hpage : va / pageSize * pageSize = va := Nat.div_mul_cancel (Nat.dvd_of_mod_eq_zero hva)
  rw [mappingAt_eq_find, hpage] at h
  rw [mappingAt_eq_find, mappingAt_eq_find]
  unfold findMapping
  rw [hpage]
  exact find_modify (f := fun mapping => { mapping with flags := flags }) (fun _ => rfl) h _

theorem mappingAt_append {mapping : Mapping}
    (h : mappingAt space mapping.va = none) (hva : mapping.va % pageSize = 0) (page : Nat) :
    mappingAt { space with pages := space.pages ++ [mapping] } page =
      if page / pageSize * pageSize = mapping.va then some mapping else mappingAt space page := by
  have hpage : mapping.va / pageSize * pageSize = mapping.va :=
    Nat.div_mul_cancel (Nat.dvd_of_mod_eq_zero hva)
  rw [mappingAt_eq_find, hpage] at h
  rw [mappingAt_eq_find, mappingAt_eq_find, List.find?_append]
  by_cases heq : page / pageSize * pageSize = mapping.va
  · rw [heq, h, if_pos rfl, Option.none_or]
    simp
  · rw [if_neg heq, List.find?_cons, decide_eq_false fun hva => heq hva.symm]
    simp

/-- What does not depend on the flags is not changed with them. -/
theorem map_modify_eq {α β : Type} (f : α → β) {g : α → α} (h : ∀ x, f (g x) = f x) (l : List α)
    (i : Nat) : (l.modify i g).map f = l.map f := by
  apply List.ext_getElem?
  intro k
  rw [List.getElem?_map, List.getElem?_map, List.getElem?_modify]
  cases l[k]? with
  | none => rfl
  | some x => by_cases hik : i = k <;> simp [hik, h]

theorem owned_modify (space : AddressSpace) (i flags : Nat) :
    AddressSpace.owned { space with
      pages := space.pages.modify i fun mapping => { mapping with flags := flags } } =
    space.owned := by
  unfold AddressSpace.owned
  rw [map_modify_eq Mapping.page (by intro; rfl)]

/-- A list around one of its places. -/
theorem split_at {α : Type} {l : List α} {i : Nat} {x : α} (h : l[i]? = some x) :
    ∃ before after, l = before ++ x :: after ∧ before.length = i ∧
      (∀ y, l.set i y = before ++ y :: after) ∧ l.eraseIdx i = before ++ after := by
  obtain ⟨hi, rfl⟩ := List.getElem?_eq_some_iff.mp h
  refine ⟨l.take i, l.drop (i + 1), ?_, ?_, fun y => ?_, ?_⟩
  · rw [List.getElem_cons_drop, List.take_append_drop]
  · rw [List.length_take, Nat.min_eq_left hi.le]
  · rw [List.set_eq_take_append_cons_drop, if_pos hi]
  · exact List.eraseIdx_eq_take_drop_succ l i

namespace Spaces.Ok

variable {s : Spaces}

/-- A space changes: it may write its own pages and new ones, which are its own then. -/
theorem replace {i : Nat} {space' : AddressSpace} {m' : Memory} {pages : List Nat}
    (hok : s.Ok layout others) (new : List Nat) (hi : s.spaces[i]? = some space)
    (huses : m'.Uses layout (new ++ (s.pages ++ others)))
    (howned : (new ++ space.owned).Perm space'.owned) (hw : Wrote pages s.memory m')
    (hpages : ∀ p ∈ pages, p % pageSize = 0 ∧ (p ∈ space.owned ∨ p ∈ new))
    (htables : SpaceTables m' space') : Ok layout others ⟨m', s.spaces.set i space'⟩ := by
  obtain ⟨before, after, hsplit, -, hset, -⟩ := split_at hi
  have hnodup := huses.pool.nodup_used
  have hpages_eq : s.pages =
      before.flatMap AddressSpace.owned ++ (space.owned ++ after.flatMap AddressSpace.owned) ++
        kernelPages s.memory := by
    unfold Spaces.pages
    rw [hsplit, List.flatMap_append, List.flatMap_cons]
  -- what is written belongs to nobody else
  have hforeign : ∀ p ∈ pages, p ∉ before.flatMap AddressSpace.owned ∧
      p ∉ after.flatMap AddressSpace.owned ∧ p ∉ kernelPages s.memory := by
    intro p hp
    rw [hpages_eq] at hnodup
    obtain ⟨-, hrest, hfresh⟩ := List.nodup_append.mp hnodup
    obtain hown | hnew := (hpages p hp).2
    · simp only [List.nodup_append, List.mem_append] at hrest
      grind
    · have hout := fun q hq => hfresh p hnew q hq
      grind
  have haligned := fun p hp => (hpages p hp).1
  refine ⟨?_, ?_, fun other hother => ?_⟩
  · refine huses.perm ?_
    have hkernel : kernelPages m' = kernelPages s.memory := by
      unfold kernelPages
      rw [hw.l2, hw.l1Dram, hw.l1Mmio]
    rw [hpages_eq]
    unfold Spaces.pages
    rw [hset, hkernel, List.flatMap_append, List.flatMap_cons]
    simp only [List.append_assoc]
    refine (List.perm_append_comm_assoc _ _ _).trans (List.Perm.append_left _ ?_)
    rw [← List.append_assoc]
    exact howned.append_right _
  · exact hok.kernel.wrote hw haligned
      (fun p hp => hok.aligned (List.mem_append_left _ (kernel_mem hp)))
      fun p hp hmem => (hforeign p hmem).2.2 hp
  · dsimp only at hother
    rw [hset, List.mem_append, List.mem_cons] at hother
    have hkeep : other ∈ before ∨ other ∈ after → SpaceTables m' other := by
      intro hmem
      have hold : other ∈ s.spaces := by
        rw [hsplit]
        rcases hmem with h | h <;> simp [h]
      refine (hok.spaces other hold).wrote hw haligned
        (fun p hp => hok.aligned (List.mem_append_left _ (owned_mem hold hp))) fun p hp hwritten => ?_
      obtain ⟨hb, ha, -⟩ := hforeign p hwritten
      rcases hmem with h | h
      · exact hb (List.mem_flatMap.mpr ⟨other, h, hp⟩)
      · exact ha (List.mem_flatMap.mpr ⟨other, h, hp⟩)
    rcases hother with h | rfl | h
    · exact hkeep (.inl h)
    · exact htables
    · exact hkeep (.inr h)

end Spaces.Ok

/-- The tables of a space when its own table has been written, and perhaps pages that
are no tables. -/
theorem SpaceTables.setUser {m m' : Memory} {pages : List Mapping} {written : List Nat}
    (h : SpaceTables m space) (mapping : Mapping) (hw : Wrote written m m')
    (hwritten : ∀ p ∈ written, p % pageSize = 0) (haligned : ∀ p ∈ space.owned, p % pageSize = 0)
    (hout : ∀ p ∈ written, p ≠ space.root ∧ p ≠ space.l1Mmio ∧ p ≠ space.l0User)
    (hva : va % pageSize = 0) (htop : va < userStackTop) (haddr : mapping.page < 2 ^ 56)
    (hrwx : Rwx mapping.flags) (hfind : ∀ page, mappingAt { space with pages := pages } page =
      if page / pageSize * pageSize = va then some mapping else mappingAt space page)
    (hmapped : ∀ mapping ∈ pages, mapping.va < userStackTop ∧ Rwx mapping.flags)
    (hnodup : space.owned.Nodup) :
    SpaceTables (m'.setEntry space.l0User (leafIndex va)
      (pte mapping.page (mapping.flags ||| pteU ||| pteV))) { space with pages := pages } := by
  obtain ⟨hleaf, hlt⟩ := leafIndex_eq htop
  have hne : space.root ≠ space.l0User ∧ space.l1Mmio ≠ space.l0User := by
    have htables : [space.l0User, space.l1Mmio, space.root].Nodup :=
      (List.nodup_append.mp hnodup).2.1
    simp only [List.nodup_cons, List.mem_cons, List.not_mem_nil, or_false, not_or] at htables
    exact ⟨fun h => htables.1.2 h.symm, fun h => htables.1.1 h.symm⟩
  have hset : Wrote [space.l0User] m' (m'.setEntry space.l0User (leafIndex va)
      (pte mapping.page (mapping.flags ||| pteU ||| pteV))) :=
    Wrote.setEntry m' (by simp) hlt _
  have hroot : space.root % pageSize = 0 := haligned _ (by simp [AddressSpace.owned])
  have hmmio : space.l1Mmio % pageSize = 0 := haligned _ (by simp [AddressSpace.owned])
  have huser : space.l0User % pageSize = 0 := haligned _ (by simp [AddressSpace.owned])
  have huser' : ∀ p ∈ [space.l0User], p % pageSize = 0 := by simpa using huser
  refine ⟨h.satp, ?_, ?_, ?_, hmapped⟩
  · have hkept := h.root.wrote hw hwritten hroot fun hmem => (hout _ hmem).1 rfl
    rw [← hw.l1Dram] at hkept
    exact hkept.wrote hset huser' hroot (by simpa using hne.1)
  · have hkept := h.l1Mmio.wrote hw hwritten hmmio fun hmem => (hout _ hmem).2.1 rfl
    exact hkept.wrote hset huser' hmmio (by simpa using hne.2)
  · have hkept := h.l0User.wrote hw hwritten huser fun hmem => (hout _ hmem).2.2 rfl
    rw [userFn_update hva hfind, ← hleaf]
    exact hkept.set haddr hrwx.entry.1

theorem map_ok {s : Spaces} {i flags : Nat} (hok : s.Ok layout others)
    (hi : s.spaces[i]? = some space) (hflags : Rwx flags) :
    Spaces.Ok layout others ⟨(mapUserPage s.memory space va flags).1,
      s.spaces.set i (mapUserPage s.memory space va flags).2.1⟩ := by
  have hspace : space ∈ s.spaces := List.mem_of_getElem? hi
  have htables := hok.spaces space hspace
  have hmem : ∀ {p}, p ∈ space.owned → p ∈ s.pages ++ others := fun hp =>
    List.mem_append_left _ (Spaces.Ok.owned_mem hspace hp)
  have haligned : ∀ p ∈ space.owned, p % pageSize = 0 := fun p hp => hok.aligned (hmem hp)
  have hl0 : space.l0User ∈ space.owned := by simp [AddressSpace.owned]
  have hnodup : space.owned.Nodup := by
    have hall := (List.nodup_append.mp (List.nodup_append.mp hok.uses.pool.nodup_used).1).1
    exact (List.nodup_flatMap.mp hall).1 space hspace
  have hsame : ∀ h : Heap, h.Uses layout (s.pages ++ others) →
      Spaces.Ok layout others ⟨{ s.memory with toHeap := h }, s.spaces.set i space⟩ := by
    intro h hu
    have hw := Wrote.heap s.memory h []
    exact hok.replace [] hi hu (List.Perm.refl _) hw nofun
      (htables.wrote hw nofun haligned fun _ _ => List.not_mem_nil)
  unfold mapUserPage
  by_cases hbad : va < userMinVa ∨ va ≥ userStackTop ∨ va % pageSize ≠ 0
  · rw [if_pos hbad]
    exact hsame _ hok.uses
  rw [if_neg hbad]
  have htop : va < userStackTop := by omega
  have hva : va % pageSize = 0 := by omega
  obtain ⟨hleaf, hlt⟩ := leafIndex_eq htop
  cases hfind : mappingAt space va with
  | some existing =>
    obtain ⟨hexisting, -⟩ := mappingAt_mem hfind
    have hpage : existing.page ∈ space.owned :=
      List.mem_append_left _ (List.mem_map_of_mem hexisting)
    have hrwx : Rwx (existing.flags ||| flags) := (htables.mapped _ hexisting).2.or hflags
    have hw : Wrote [space.l0User] s.memory (s.memory.setEntry space.l0User (leafIndex va)
        (pte existing.page (existing.flags ||| flags ||| pteU ||| pteV))) :=
      Wrote.setEntry s.memory (by simp) hlt _
    refine hok.replace [] hi hok.uses ?_ hw ?_ ?_
    · rw [owned_modify]
      exact List.Perm.refl _
    · intro p hp
      rw [List.mem_singleton.mp hp]
      exact ⟨haligned _ hl0, .inl hl0⟩
    · refine htables.setUser { existing with flags := existing.flags ||| flags }
        (Wrote.heap s.memory _ []) nofun haligned nofun hva htop
        (page_lt (hok.uses.bounds (hmem hpage)).2.1) hrwx
        (mappingAt_merge _ hva hfind) (fun mapping hmapping => ?_) hnodup
      obtain ⟨k, hk⟩ := List.mem_iff_getElem?.mp hmapping
      rw [List.getElem?_modify] at hk
      cases hold : space.pages[k]? with
      | none => rw [hold] at hk; cases hk
      | some old =>
        have holdok := htables.mapped old (List.mem_of_getElem? hold)
        rw [hold] at hk
        cases hk
        split
        · exact ⟨holdok.1, hrwx⟩
        · exact holdok
  | none =>
    by_cases hfull : space.pages.length ≥ 64
    · rw [if_pos hfull]
      exact hsame _ hok.uses
    rw [if_neg hfull]
    obtain ⟨h, page, heq, hu⟩ := Memory.kalloc_uses hok.uses
    rw [heq]
    cases page with
    | none => exact hsame h hu
    | some page =>
      have hpagein : page ∈ [page] ++ (s.pages ++ others) := by simp
      obtain ⟨-, hhi, hmod⟩ := hu.bounds hpagein
      have hfresh : page ∉ s.pages ++ others := (List.nodup_cons.mp hu.pool.nodup_used).1
      have hne : ∀ p ∈ space.owned, page ≠ p := fun p hp heq => hfresh (heq ▸ hmem hp)
      have hzero : Wrote [page] s.memory (Memory.zeroPage { s.memory with toHeap := h } page) :=
        (Wrote.heap s.memory h _).trans (Wrote.blit _ (by simp) _)
      have hset : Wrote [page, space.l0User] (Memory.zeroPage { s.memory with toHeap := h } page)
          ((Memory.zeroPage { s.memory with toHeap := h } page).setEntry space.l0User
            (leafIndex va) (pte page (flags ||| pteU ||| pteV))) :=
        Wrote.setEntry _ (by simp) hlt _
      refine hok.replace [page] hi hu ?_ ((hzero.mono (by simp)).trans hset) ?_ ?_
      · unfold AddressSpace.owned
        rw [List.map_append, List.append_assoc]
        exact List.perm_append_comm_assoc [page] _ _
      · intro p hp
        obtain rfl | hp := List.mem_cons.mp hp
        · exact ⟨hmod, .inr (by simp)⟩
        · rw [List.mem_singleton.mp hp]
          exact ⟨haligned _ hl0, .inl hl0⟩
      · refine htables.setUser ⟨va, page, flags⟩ hzero
          (by simpa using hmod) haligned ?_ hva htop (page_lt hhi) hflags
          (mappingAt_append hfind hva) (fun mapping hmapping => ?_) hnodup
        · intro p hp
          rw [List.mem_singleton.mp hp]
          exact ⟨hne _ (by simp [AddressSpace.owned]), hne _ (by simp [AddressSpace.owned]),
            hne _ hl0⟩
        · obtain hold | hnew := List.mem_append.mp hmapping
          · exact htables.mapped mapping hold
          · rw [List.mem_singleton.mp hnew]
            exact ⟨htop, hflags⟩

end MiniOs.Kernel
