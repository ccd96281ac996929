import Mathlib.Algebra.BigOperators.Fin
import MiniOs.Proofs.AddressSpaces
import MiniOs.Proofs.Deeds
import MiniOs.Proofs.Exec

/-!
# No page is lost

An address space is a handful of pages that travels by value: from the loader to the task
table, from there to `old_space`, and in the end to `user_space_destroy`. Every function on
the way either hands its pages on or gives them back, and `Trades` says which: some pages
for others, whoever uses the rest. It composes, so that a function that fails half way and
cleans up is one that trades nothing for nothing. `Spares` adds that the rest is not written
to, since a page that is handed out was nobody's.

Over the machine this is an invariant of every deed: the pages in use are those of the
kernel's tables and those of the tasks with an address space.
-/

namespace MiniOs.Kernel

open MiniOs.Lib MiniOs.Fs MiniOs.Spec Function

/-! ## Trading pages -/

/-- On the way from `m` to `m'` the pages `given` were exchanged for `taken`. -/
structure Trades (given taken : List Nat) (m m' : Memory) : Prop where
  kernel : kernelPages m' = kernelPages m
  uses : ∀ {layout : Layout} {others : List Nat},
    m.Uses layout (given ++ others) → m'.Uses layout (taken ++ others)

namespace Trades

variable {a b c : List Nat} {m m₁ m₂ : Memory}

theorem refl (pages : List Nat) (m : Memory) : Trades pages pages m m := ⟨rfl, id⟩

theorem trans (h1 : Trades a b m m₁) (h2 : Trades b c m₁ m₂) : Trades a c m m₂ :=
  ⟨h2.kernel.trans h1.kernel, fun hu => h2.uses (h1.uses hu)⟩

theorem frame (h : Trades a b m m₁) (kept : List Nat) :
    Trades (a ++ kept) (b ++ kept) m m₁ := by
  refine ⟨h.kernel, fun hu => ?_⟩
  rw [List.append_assoc] at hu ⊢
  exact h.uses hu

theorem perm (h : Trades a b m m₁) (hperm : b.Perm c) : Trades a c m m₁ :=
  ⟨h.kernel, fun hu => (h.uses hu).perm (hperm.append_right _)⟩

end Trades

/-- And nobody else's pages were written to. -/
structure Spares (given taken : List Nat) (m m' : Memory) : Prop extends
    Trades given taken m m' where
  spared : ∀ {layout : Layout} {others : List Nat}, m.Uses layout (given ++ others) →
    ∀ p ∈ others, ∀ i, i < pageSize → m'.ram (p + i) = m.ram (p + i)

namespace Spares

variable {a b c : List Nat} {m m₁ m₂ : Memory}

theorem refl (pages : List Nat) (m : Memory) : Spares pages pages m m :=
  ⟨.refl pages m, fun _ _ _ _ _ => rfl⟩

theorem trans (h1 : Spares a b m m₁) (h2 : Spares b c m₁ m₂) : Spares a c m m₂ :=
  ⟨h1.toTrades.trans h2.toTrades, fun hu p hp i hi =>
    (h2.spared (h1.uses hu) p hp i hi).trans (h1.spared hu p hp i hi)⟩

theorem frame (h : Spares a b m m₁) (kept : List Nat) :
    Spares (a ++ kept) (b ++ kept) m m₁ := by
  refine ⟨h.toTrades.frame kept, fun hu p hp => ?_⟩
  rw [List.append_assoc] at hu
  exact h.spared hu p (List.mem_append_right _ hp)

theorem perm (h : Spares a b m m₁) (hperm : b.Perm c) : Spares a c m m₁ :=
  ⟨h.toTrades.perm hperm, h.spared⟩

/-- The allocator does not write to memory. -/
theorem of_trades (h : Trades a b m m₁) (hram : m₁.ram = m.ram) : Spares a b m m₁ :=
  ⟨h, fun _ _ _ _ _ => by rw [hram]⟩

/-- What is written is not the allocator's business, as long as it is written to pages of
one's own: pages do not overlap. -/
theorem wrote (hw : Wrote a m m₁) (hheap : m₁.toHeap = m.toHeap) : Spares a a m m₁ := by
  refine ⟨⟨by rw [kernelPages, hw.l2, hw.l1Dram, hw.l1Mmio]; rfl, fun hu => by rwa [hheap]⟩,
    fun hu p hp i hi => hw.ram _ fun q hq => ?_⟩
  have hne : p ≠ q := fun heq =>
    (List.nodup_append.mp hu.pool.nodup_used).2.2 q hq p hp heq.symm
  have hapart := Pool.apart (hu.bounds (List.mem_append_right _ hp)).2.2
    (hu.bounds (List.mem_append_left _ hq)).2.2 hne
  omega

end Spares

section Allocator

variable (m : Memory)

theorem kalloc_spares : Spares [] m.kalloc.2.toList m m.kalloc.1 := by
  refine .of_trades ⟨rfl, fun hu => ?_⟩ rfl
  obtain ⟨h, page, heq, hu'⟩ := Memory.kalloc_uses hu
  rw [heq]
  exact hu'

theorem kfree_spares (page : Option Nat) : Spares page.toList [] m (m.kfree (page.getD 0)) :=
  .of_trades ⟨rfl, fun hu => hu.kfree_getD⟩ rfl

theorem userSpaceDestroy_spares (space : AddressSpace) :
    Spares space.owned [] m (userSpaceDestroy m space) := by
  rw [userSpaceDestroy_eq]
  exact .of_trades ⟨rfl, fun hu => hu.kfree_all space.owned⟩ rfl

end Allocator

/-! ## Address spaces -/

/-- The pages of a space that may not be there. -/
def ownedBy (space : Option AddressSpace) : List Nat := space.elim [] AddressSpace.owned

theorem createEmptySpace_spares (m : Memory) :
    Spares [] (ownedBy (createEmptySpace m).2) m (createEmptySpace m).1 := by
  unfold createEmptySpace
  split
  · exact .refl [] m
  have h1 := kalloc_spares m
  cases heq1 : m.kalloc with
  | mk m₁ root =>
    rw [heq1] at h1
    have h2 := h1.trans ((kalloc_spares m₁).frame root.toList)
    dsimp only
    cases heq2 : m₁.kalloc with
    | mk m₂ l1Mmio =>
      rw [heq2] at h2
      have h3 := h2.trans ((kalloc_spares m₂).frame _)
      cases heq3 : m₂.kalloc with
      | mk m3 l0User =>
        rw [heq3] at h3
        -- a page that `kalloc` did not have is `NULL`, and freed like the others
        have hfail : Spares [] [] m (userSpaceDestroy m3
            ⟨root.getD 0, l1Mmio.getD 0, l0User.getD 0, [], 0⟩) :=
          ((h3.trans ((kfree_spares m3 l0User).frame _)).trans
            ((kfree_spares _ l1Mmio).frame _)).trans (kfree_spares _ root)
        cases root with
        | none => exact hfail
        | some root =>
          cases l1Mmio with
          | none => exact hfail
          | some l1Mmio =>
            cases l0User with
            | none => exact hfail
            | some l0User =>
              refine (h3.perm ?_).trans (.wrote (((((Wrote.blit _ ?_ _).trans
                (Wrote.blit _ ?_ _)).trans (Wrote.blit _ ?_ _)).trans
                (Wrote.setEntry _ ?_ (by decide) _)).trans
                (Wrote.setEntry _ ?_ (by decide) _)) rfl)
              all_goals simp [ownedBy, AddressSpace.owned]

theorem mapUserPage_spares (m : Memory) (space : AddressSpace) (va flags : Nat) :
    Spares space.owned (mapUserPage m space va flags).2.1.owned m
      (mapUserPage m space va flags).1 := by
  unfold mapUserPage
  split
  · exact .refl _ m
  next hva =>
  split
  · dsimp only
    rw [owned_modify]
    exact .wrote (Wrote.setEntry m (by simp [AddressSpace.owned]) (leafIndex_eq (by omega)).2 _) rfl
  split
  · exact .refl _ m
  have hpage := (kalloc_spares m).frame space.owned
  cases heq : m.kalloc with
  | mk m₁ page =>
    rw [heq] at hpage
    cases page with
    | none => exact hpage
    | some page =>
      refine Spares.trans (hpage.perm ?_) (.wrote ((Wrote.blit m₁ ?_ _).trans
        (Wrote.setEntry _ ?_ (leafIndex_eq (by omega)).2 _)) rfl)
      · unfold AddressSpace.owned
        rw [List.map_append, List.append_assoc]
        exact List.perm_append_comm_assoc [page] _ _
      · simp [AddressSpace.owned]
      · simp [AddressSpace.owned]

theorem mapPages_spares {flags count : Nat} (m : Memory) (space : AddressSpace) (va : Nat) :
    Spares space.owned (mapPages flags count m space va).2.1.owned m
      (mapPages flags count m space va).1 := by
  induction count generalizing m space va with
  | zero => exact .refl _ m
  | succ count ih =>
    have hpage := mapUserPage_spares m space va flags
    rw [mapPages]
    cases hmap : mapUserPage m space va flags with
    | mk m₁ rest =>
      obtain ⟨space1, ok⟩ := rest
      rw [hmap] at hpage
      cases ok with
      | false => exact hpage
      | true => exact hpage.trans (ih m₁ space1 _)

theorem mapUserPage_mapped {m m' : Memory} {space space' : AddressSpace} {va flags : Nat}
    (h : mapUserPage m space va flags = (m', space', true)) :
    ∃ mapping, mappingAt space' va = some mapping := by
  obtain ⟨mapping, hat⟩ := mapUserPage_at h
  have haligned : va % pageSize = 0 := by
    unfold mapUserPage at h
    split at h
    · cases h
    · omega
  exact ⟨mapping, by
    rw [hat, if_pos (Nat.div_mul_cancel (Nat.dvd_of_mod_eq_zero haligned))]⟩

theorem clonePages_spares (source : List Mapping) (m : Memory) (space : AddressSpace) :
    Spares space.owned (clonePages source m space).2.1.owned m (clonePages source m space).1 := by
  induction source generalizing m space with
  | nil => exact .refl _ m
  | cons mapping rest ih =>
    have hpage := mapUserPage_spares m space mapping.va mapping.flags
    rw [clonePages]
    cases hmap : mapUserPage m space mapping.va mapping.flags with
    | mk m₁ result =>
      obtain ⟨space1, ok⟩ := result
      rw [hmap] at hpage
      cases ok with
      | false => exact hpage
      | true =>
        obtain ⟨copy, hcopy⟩ := mapUserPage_mapped hmap
        have howned := OwnPages.page_owned (mappingAt_mem hcopy).1
        dsimp only
        rw [hcopy]
        exact (hpage.trans (.wrote (Wrote.blit m₁ howned _) rfl)).trans (ih _ space1)

/-- A copy has pages of its own, or there is none. -/
theorem userSpaceClone_spares (m : Memory) (source : AddressSpace) :
    Spares [] (ownedBy (userSpaceClone m source).2) m (userSpaceClone m source).1 := by
  have hnew := createEmptySpace_spares m
  unfold userSpaceClone
  cases hempty : createEmptySpace m with
  | mk m₁ space =>
    rw [hempty] at hnew
    cases space with
    | none => exact hnew
    | some space =>
      have hpages := hnew.trans (clonePages_spares source.pages m₁ space)
      dsimp only
      cases hclone : clonePages source.pages m₁ space with
      | mk m₂ result =>
        obtain ⟨space2, ok⟩ := result
        rw [hclone] at hpages
        cases ok with
        | false => exact hpages.trans (userSpaceDestroy_spares m₂ space2)
        | true => exact hpages

/-! ## Programs -/

section Copies

variable (space : AddressSpace)

theorem copyToSpace_spares (fuel : Nat) (m : Memory) (destination : Nat) (source : List UInt8) :
    Spares space.owned space.owned m (copyToSpace space fuel m destination source).1 := by
  induction fuel generalizing m destination source with
  | zero => exact .refl _ m
  | succ fuel ih =>
    rw [copyToSpace]
    split
    · exact .refl _ m
    split
    · exact .refl _ m
    · next mapping hat =>
      have hmod : destination % pageSize < pageSize := Nat.mod_lt _ (by decide)
      refine Spares.trans ?_ (ih _ _ _)
      refine .wrote ⟨rfl, rfl, rfl, fun i hi => ?_⟩ rfl
      have hout := hi _ (OwnPages.page_owned (mappingAt_mem hat).1)
      dsimp only
      exact Region.blit_out (by omega)

theorem copySegment_spares (inode : Nat) (segment : ProgramHeader) (fuel : Nat) (s : FsSt)
    (m : Memory) (copied : Nat) :
    Spares space.owned space.owned m (copySegment inode segment space fuel s m copied).2.1 := by
  induction fuel generalizing s m copied with
  | zero => exact .refl _ m
  | succ fuel ih =>
    rw [copySegment]
    split
    · exact .refl _ m
    dsimp only
    split
    · exact .refl _ m
    next s1 scratch _ =>
      split
      · exact .refl _ m
      · have hcopy := copyToSpace_spares space
          (min (segment.filesz - copied) 512) m (segment.vaddr + copied) scratch
        split
        · next m₁ heq => rwa [heq] at hcopy
        · next m₁ heq =>
          rw [heq] at hcopy
          exact hcopy.trans (ih _ _ _)

theorem pushStrings_spares (strings : List CStr) (m : Memory) (stack : Nat) :
    Spares space.owned space.owned m (pushStrings space strings m stack).1 := by
  induction strings generalizing m stack with
  | nil => exact .refl _ m
  | cons string rest ih =>
    have hrest := ih m stack
    rw [pushStrings]
    split
    · next heq => rwa [heq] at hrest
    next m₁ stack1 addresses heq =>
      rw [heq] at hrest
      have hcopy := hrest.trans (copyToSpace_spares space (string.bytes.length + 1) m₁
        (stack1 - (string.bytes.length + 1)) (string.bytes ++ [0]))
      dsimp only
      split
      · next heq' => rwa [heq'] at hcopy
      · next heq' => rwa [heq'] at hcopy

theorem puts_spares (vectors : List (List Nat)) (base : Nat) (m : Memory) :
    Spares space.owned space.owned m (puts space vectors base m).1 := by
  induction vectors generalizing base m with
  | nil => exact .refl _ m
  | cons values rest ih =>
    have hcopy := copyToSpace_spares space (8 * values.length) m base (values.flatMap dwordBytes)
    rw [puts]
    split
    · next heq => rwa [heq] at hcopy
    · next heq =>
      rw [heq] at hcopy
      exact hcopy.trans (ih _ _)

theorem pushVectors_spares (m : Memory) (stack : Nat) (argv envp : List Nat) :
    Spares space.owned space.owned m (pushVectors m space stack argv envp).1 := by
  rw [pushVectors_eq m space rfl]
  exact puts_spares space _ _ m

theorem buildInitialStack_spares (m : Memory) (argv envp : List CStr) :
    Spares space.owned space.owned m (buildInitialStack m space argv envp).1 := by
  have henvp := pushStrings_spares space envp m userStackTop
  rw [buildInitialStack]
  split
  · exact .refl _ m
  split
  · next heq => rwa [heq] at henvp
  next m₁ stack envAddresses heq =>
    rw [heq] at henvp
    have hargv := henvp.trans (pushStrings_spares space argv m₁ stack)
    split
    · next heq' => rwa [heq'] at hargv
    · next m₂ stack' argvAddresses heq' =>
      rw [heq'] at hargv
      exact hargv.trans (pushVectors_spares space m₂ stack' _ _)

end Copies

theorem loadSegment_spares (inode fileSize : Nat) (s : FsSt) (m : Memory) (space : AddressSpace)
    (segment : ProgramHeader) :
    Spares space.owned (loadSegment inode fileSize s m space segment).2.2.1.owned m
      (loadSegment inode fileSize s m space segment).2.1 := by
  rw [loadSegment]
  split
  · exact .refl _ m
  split
  · exact .refl _ m
  split
  · exact .refl _ m
  split
  · exact .refl _ m
  dsimp only
  have hmap := @mapPages_spares (segmentFlags segment)
    (((segment.vaddr + segment.memsz + pageSize - 1) / pageSize * pageSize -
      segment.vaddr / pageSize * pageSize) / pageSize) m space
    (segment.vaddr / pageSize * pageSize)
  split
  · next heq => rwa [heq] at hmap
  · next m₁ space1 heq =>
    rw [heq] at hmap
    exact hmap.trans (copySegment_spares space1 inode segment segment.filesz s m₁ 0)

theorem loadSegments_spares (inode fileSize : Nat) (header : ElfHeader) (left i : Nat) (s : FsSt)
    (m : Memory) (space : AddressSpace) :
    Spares space.owned (loadSegments inode fileSize header left i s m space).2.2.1.owned m
      (loadSegments inode fileSize header left i s m space).2.1 := by
  induction left generalizing i s m space with
  | zero => exact .refl _ m
  | succ left ih =>
    rw [loadSegments]
    split
    · exact .refl _ m
    next s1 bytes _ =>
      split
      · exact .refl _ m
      · have hone := loadSegment_spares inode fileSize s1 m space (ProgramHeader.decode bytes)
        split
        · next heq => rwa [heq] at hone
        · next heq =>
          rw [heq] at hone
          exact hone.trans (ih _ _ _ _)

theorem loadImage_spares (s : FsSt) (m : Memory) (inode fileSize : Nat) (header : ElfHeader)
    (space : AddressSpace) :
    Spares space.owned (loadImage s m inode fileSize header space).2.2.1.owned m
      (loadImage s m inode fileSize header space).2.1 := by
  have hsegments := loadSegments_spares inode fileSize header header.phnum 0 s m space
  rw [loadImage]
  split
  · next heq => rwa [heq] at hsegments
  · next heq =>
    rw [heq] at hsegments
    split
    · exact hsegments
    · exact hsegments.trans (mapPages_spares _ _ _)

theorem loadElf_spares (s : FsSt) (m : Memory) (inode : Nat) :
    Spares [] (ownedBy ((loadElf s m inode).2.2.map Prod.fst)) m (loadElf s m inode).2.1 := by
  have hnew := createEmptySpace_spares m
  rw [loadElf]
  split
  · exact .refl [] m
  next s1 fileSize header _ =>
    split
    · next heq => rwa [heq] at hnew
    next m₁ space heq =>
      rw [heq] at hnew
      have himage := hnew.trans (loadImage_spares s1 m₁ inode fileSize header space)
      split
      · next heq' => rwa [heq'] at himage
      · next heq' =>
        rw [heq'] at himage
        exact himage.trans (userSpaceDestroy_spares _ _)

/-- A program that is loaded has the pages it needs; one that is not has none. -/
theorem prepareProgram_spares (s : FsSt) (m : Memory) (cwd : Nat) (path : CStr)
    (argv envp : List CStr) :
    Spares [] (ownedBy ((prepareProgram s m cwd path argv envp).2.2.map LoadedProgram.space)) m
      (prepareProgram s m cwd path argv envp).2.1 := by
  rw [prepareProgram]
  split
  · exact .refl [] m
  next s1 inode _ =>
    have hload := loadElf_spares s1 m inode
    split
    · next heq => rwa [heq] at hload
    next s2 m₁ space entry heq =>
      rw [heq] at hload
      have hstack := hload.trans (buildInitialStack_spares space m₁ argv envp)
      split
      · next heq' =>
        rw [heq'] at hstack
        exact hstack.trans (userSpaceDestroy_spares _ space)
      · next heq' => rwa [heq'] at hstack

/-! ## The tables of the kernel -/

/-- While nothing has been given back, pages come off the pointer. -/
theorem Memory.kalloc_bump {m : Memory} (hfree : m.freeList = [])
    (hroom : m.bumpPtr + pageSize ≤ m.heapEnd) :
    ∃ m' page, m.kalloc = (m', some page) ∧ m'.freeList = [] ∧
      m'.bumpPtr = m.bumpPtr + pageSize ∧ m'.heapEnd = m.heapEnd := by
  unfold Memory.kalloc Kernel.kalloc
  rw [hfree]
  rw [if_neg (Nat.not_lt.mpr hroom)]
  exact ⟨_, _, rfl, rfl, rfl, rfl⟩

/-- Where there is room for the three tables, `vm_init` does not return early. -/
theorem vmInit_isSome {m : Memory} (hfree : m.freeList = [])
    (hroom : m.bumpPtr + 3 * pageSize ≤ m.heapEnd) : (vmInit m).2.isSome = true := by
  obtain ⟨m₁, l2, heq1, hfree1, hbump1, hend1⟩ := Memory.kalloc_bump hfree (by omega)
  obtain ⟨m₂, l1Dram, heq2, hfree2, hbump2, hend2⟩ := Memory.kalloc_bump hfree1 (by omega)
  obtain ⟨m3, l1Mmio, heq3, -⟩ := Memory.kalloc_bump hfree2 (by omega)
  unfold vmInit
  rw [heq1]
  dsimp only
  rw [heq2]
  rw [heq3]
  rfl

/-- And there is. -/
theorem memInit_room (layout : Layout) :
    (memInit layout).bumpPtr + 3 * pageSize ≤ (memInit layout).heapEnd := by
  have hend := layout.end_le
  unfold memInit alignUp
  unfold pageSize stackGuard stackTop at *
  dsimp only
  omega

/-- The tables of the kernel are the first pages in use. -/
theorem vmInit_uses {m : Memory} {layout : Layout} (hu : m.Uses layout [])
    (hsome : (vmInit m).2.isSome = true) :
    (vmInit m).1.Uses layout (kernelPages (vmInit m).1) := by
  obtain ⟨satp, hsatp⟩ := Option.isSome_iff_exists.mp hsome
  have huses := (vmInit_ok hu hsatp).uses
  rw [List.append_nil] at huses
  exact huses

/-! ## Tasks and their pages -/

namespace Machine

variable {layout : Layout} {m m' : Machine} {i : Fin 16}

/-- The pages of a task: those of its address space, if it has one. -/
def pagesOf (m : Machine) (i : Fin 16) : List Nat :=
  if (m.tasks i).hasUserSpace then (m.threads i).addressSpace.owned else []

/-- The pages of all tasks. -/
def userPages (m : Machine) : List Nat := (List.finRange 16).flatMap m.pagesOf

/-- The tasks and the kernel's tables have the pages in use, and nobody in a slot that is
free has any. -/
structure Conserves (layout : Layout) (m : Machine) : Prop where
  uses : m.memory.Uses layout (m.userPages ++ kernelPages m.memory)
  unused : ∀ i, m.state i = .unused → (m.tasks i).hasUserSpace = false

/-- A task keeps its pages. -/
structure Undisturbed (m m' : Machine) (i : Fin 16) : Prop where
  space : (m'.threads i).addressSpace = (m.threads i).addressSpace
  hasSpace : (m'.tasks i).hasUserSpace = (m.tasks i).hasUserSpace
  unused : m'.state i = .unused → m.state i = .unused

theorem Undisturbed.pagesOf_eq (h : Undisturbed m m' i) : m'.pagesOf i = m.pagesOf i := by
  rw [pagesOf, pagesOf, h.space, h.hasSpace]

theorem userPages_perm (m : Machine) (i : Fin 16) : m.userPages.Perm
    (m.pagesOf i ++ ((List.finRange 16).erase i).flatMap m.pagesOf) :=
  (List.perm_cons_erase (List.mem_finRange i)).flatMap_right m.pagesOf

namespace Conserves

variable (h : Conserves layout m)
include h

theorem pagesOf_unused (hi : m.state i = .unused) : m.pagesOf i = [] := by
  rw [pagesOf, h.unused i hi]
  rfl

/-- One task trades its pages, and the others keep theirs. -/
theorem trade (hothers : ∀ j, j ≠ i → Undisturbed m m' j)
    (hunused : m'.state i = .unused → (m'.tasks i).hasUserSpace = false)
    (htrade : Trades (m.pagesOf i) (m'.pagesOf i) m.memory m'.memory) :
    Conserves layout m' := by
  constructor
  · have hrest : ((List.finRange 16).erase i).flatMap m'.pagesOf =
        ((List.finRange 16).erase i).flatMap m.pagesOf :=
      List.flatMap_congr fun j hj =>
        (hothers j ((List.nodup_finRange 16).mem_erase_iff.mp hj).1).pagesOf_eq
    have hbefore := h.uses.perm ((userPages_perm m i).append_right _)
    rw [List.append_assoc] at hbefore
    have hafter := htrade.uses hbefore
    rw [← hrest, ← htrade.kernel, ← List.append_assoc] at hafter
    exact hafter.perm ((userPages_perm m' i).symm.append_right _)
  · intro j hj
    rcases eq_or_ne j i with rfl | hne
    · exact hunused hj
    · rw [(hothers j hne).hasSpace]
      exact h.unused j ((hothers j hne).unused hj)

/-- Nobody does, though memory may have been used in between. -/
theorem undisturbed (hall : ∀ i, Undisturbed m m' i) (htrade : Trades [] [] m.memory m'.memory) :
    Conserves layout m' := by
  refine h.trade (fun j _ => hall j) (fun hi => ?_) (i := 0) ?_
  · rw [(hall 0).hasSpace]
    exact h.unused 0 ((hall 0).unused hi)
  · rw [(hall 0).pagesOf_eq]
    exact htrade.frame (m.pagesOf 0)

theorem set {task : Task} {thread : Thread} (htasks : m'.tasks = update m.tasks i task)
    (hthreads : m'.threads = update m.threads i thread)
    (hunused : task.state = .unused → task.hasUserSpace = false)
    (htrade : Trades (m.pagesOf i) (if task.hasUserSpace then thread.addressSpace.owned else [])
      m.memory m'.memory) :
    Conserves layout m' := by
  refine h.trade (i := i) (fun j hj => ?_) (fun hi => ?_) ?_
  · have htask : m'.tasks j = m.tasks j := by rw [htasks, update_of_ne hj]
    have hthread : m'.threads j = m.threads j := by rw [hthreads, update_of_ne hj]
    exact ⟨by rw [hthread], by rw [htask], fun hi => by rwa [state, htask] at hi⟩
  · rw [state, htasks, update_self] at hi
    rw [htasks, update_self]
    exact hunused hi
  · rw [pagesOf.eq_def m' i, htasks, hthreads, update_self, update_self]
    exact htrade

end Conserves

/-! ## Bytes -/

/-- The machine with other bytes in its memory: those its programs have written. -/
def withRam (m : Machine) (ram : Region) : Machine :=
  { m with memory := { m.memory with ram := ram } }

theorem Conserves.withRam (h : Conserves layout m) (ram : Region) :
    Conserves layout (m.withRam ram) :=
  ⟨h.uses, h.unused⟩

theorem Conserves.trapped (h : Conserves layout m) (t : Trap) : Conserves layout (m.trapped t) :=
  ⟨h.uses, h.unused⟩

/-! ## Every deed -/

/-- What a process reads are bytes of its pages. -/
theorem peek_eq_of_pages {memory memory' : Memory} {space : AddressSpace}
    (h : ∀ p ∈ space.owned, ∀ i, i < pageSize → memory'.ram (p + i) = memory.ram (p + i))
    (a : Nat) : peek memory' space a = peek memory space a := by
  unfold peek
  cases hat : mappingAt space a with
  | none => rfl
  | some mapping =>
    exact congrArg some (h _ (OwnPages.page_owned (mappingAt_mem hat).1) _
      (Nat.mod_lt _ (by decide)))

/-- `task_fork_from_trap` has no slot, or it writes one: the child has the pages it was given
exactly when there is a child. -/
theorem taskForkFromTrap_set (m : Machine) (childEpc : Word) (space : AddressSpace) :
    m.taskForkFromTrap childEpc space = (m, -1) ∨
      ∃ (k : System) (pid : Int) (slot : Fin 16) (task : Task), m.taskForkFromTrap childEpc space =
          ({ m.setThread slot (m.newThread slot pid (m.forkContext childEpc space) space) with
              toSystem := k, orderCounter := m.orderCounter + 1 }, pid) ∧
        m.state slot = .unused ∧ k.tasks = update m.tasks slot task ∧
        (pid = m.nextPid ∧ task.state = .ready ∧ task.pid = pid ∧ task.hasUserSpace = true ∨
          pid = -1 ∧ task.hasUserSpace = false) := by
  rw [taskForkFromTrap]
  split
  · exact Or.inl rfl
  next hroom =>
    split
    · exact Or.inl rfl
    · next slot hslot =>
      have hunused := (freeSlot_unused hslot).2
      right
      simp only [Kernel.taskFork, if_neg hroom, hslot]
      split
      · exact ⟨_, _, slot, _, rfl, hunused, rfl, Or.inl ⟨rfl, rfl, rfl, rfl⟩⟩
      · exact ⟨_, _, slot, _, rfl, hunused, update_idem .., Or.inr ⟨rfl, rfl⟩⟩

/-- A task that ends keeps its pages, until it is reaped. -/
theorem endTask_spaces (m : Machine) (i : Fin 16) (code : Int) :
    (m.endTask i code).memory = m.memory ∧ ∀ j,
      ((m.endTask i code).threads j).addressSpace = (m.threads j).addressSpace ∧
      ((m.endTask i code).tasks j).hasUserSpace = (m.tasks j).hasUserSpace := by
  have hwake : ∀ m : Machine, Calm m (m.wakeParent i) := by
    intro m
    rw [wakeParent]
    split
    · exact .refl m
    · split
      · exact (Calm.refl m).wake _
      · exact .refl m
  have hadopt : ∀ (k : System) (pid : Int) (j : Fin 16),
      ((adoptChildren k pid).tasks j).hasUserSpace = (k.tasks j).hasUserSpace := by
    intro k pid j
    simp only [adoptChildren]
    split <;> rfl
  have hzombie := (Calm.refl m).setTask (show Task.hasUserSpace
    { m.tasks i with exitCode := code, state := .zombie } = (m.tasks i).hasUserSpace from rfl)
  rw [endTask]
  refine ⟨(hwake _).memory, fun j => ⟨(hwake _).space j, ?_⟩⟩
  rw [hadopt]
  exact ((hwake _).hasSpace j).trans (hzombie.hasSpace j)

section Kept

variable (h : Conserves layout m)
include h

theorem conserves_taskCreate (entry : Word) (name : List UInt8) :
    Conserves layout (m.taskCreate entry name).1 := by
  rw [taskCreate]
  split
  · exact h
  next hroom =>
    split
    · exact h
    next slot hslot =>
      have hnone := h.pagesOf_unused (freeSlot_unused hslot).2
      simp only [Kernel.taskCreate, if_neg (not_or.mp hroom).2, hslot]
      split
      · refine h.set (i := slot) rfl rfl (fun _ => rfl) ?_
        rw [hnone]
        exact .refl [] _
      · refine h.set (i := slot) (update_idem ..) rfl (fun _ => ?_) ?_
        · simp [System.setTask]
        · rw [hnone]
          rw [if_neg (by simp [System.setTask])]
          exact .refl [] _

theorem conserves_sysFork (hwf : m.sched.Wf) : Conserves layout m.sysFork.1 := by
  have hsame : ∀ {memory : Memory}, Trades [] [] m.memory memory →
      Conserves layout { m with memory := memory } := fun htrade =>
    h.undisturbed (fun _ => ⟨rfl, rfl, id⟩) htrade
  have hclone := (userSpaceClone_spares m.memory (m.threads m.current).addressSpace).toTrades
  rw [sysFork]
  split
  · exact h
  split
  · next memory heq =>
    rw [heq] at hclone
    exact hsame hclone
  next memory child heq =>
    rw [heq] at hclone
    have hundone := hclone.trans (userSpaceDestroy_spares memory child).toTrades
    rcases taskForkFromTrap_set { m with memory := memory } (m.csr.sepc + 4) child with
      hnone | ⟨k, pid, slot, task, hfork, hslot, htasks, hcases⟩
    · rw [hnone]
      exact hsame hundone
    have hempty := h.pagesOf_unused hslot
    rw [hfork]
    rcases hcases with ⟨hpid, hready, -, hhas⟩ | ⟨rfl, hhas⟩
    · have hpos : ¬ pid < 0 := by
        obtain ⟨hzero, hnext⟩ := hwf.fresh 0 hwf.idle_live.used
        have hfresh : (0 : Int) < m.nextPid := hzero.trans_lt hnext
        rw [hpid]
        exact Int.not_lt.mpr hfresh.le
      dsimp only
      rw [if_neg hpos]
      refine h.set htasks rfl (fun hunused => ?_) ?_
      · rw [hready] at hunused
        cases hunused
      · rw [hempty, if_pos hhas]
        exact hclone
    · refine h.set htasks rfl (fun _ => hhas) ?_
      rw [hempty, hhas]
      exact hundone

theorem conserves_endTask (hused : (m.sched.slots i).Used) (code : Int) :
    Conserves layout (m.endTask i code) := by
  obtain ⟨hmemory, hspaces⟩ := endTask_spaces m i code
  have hended := (Sched.finish_ended hused code).used hused
  rw [← sched_endTask] at hended
  refine h.undisturbed (fun j => ⟨(hspaces j).1, (hspaces j).2, fun hj => ?_⟩) ?_
  · by_contra hne
    exact (hended j).mpr hne hj
  · rw [hmemory]
    exact .refl [] _

theorem conserves_taskWaitpid (pid : Int) (nohang : Bool) :
    Conserves layout (m.taskWaitpid pid nohang).1 := by
  have hfind : ((List.finRange 16).find? fun i =>
      waitsFor m.toSystem m.current pid i && ((m.tasks i).state == .zombie)) =
        m.zombieChild pid := rfl
  simp only [taskWaitpid, Kernel.taskWaitpid, hfind]
  cases hz : m.zombieChild pid with
  | some child =>
    dsimp only
    rw [release]
    split
    · next hspace =>
      refine h.set (i := child) rfl rfl (fun _ => rfl) ?_
      rw [pagesOf, if_pos hspace]
      exact (userSpaceDestroy_spares m.memory (m.threads child).addressSpace).toTrades
    · next hspace =>
      refine h.set (i := child) rfl rfl (fun _ => rfl) ?_
      rw [pagesOf, if_neg hspace]
      exact .refl [] _
  | none =>
    dsimp only
    split
    · split
      · exact h
      · exact h.set (i := m.current) rfl rfl (by simp) (.refl _ _)
    · exact h

theorem conserves_userExecve (path : CStr) (argv envp : List CStr) :
    Conserves layout (m.userExecve path argv envp).1 := by
  have hprepare := (prepareProgram_spares m.fs m.memory (m.tasks m.current).cwdInode path argv
    envp).toTrades
  rw [userExecve]
  split
  · next s memory heq =>
    rw [heq] at hprepare
    exact h.undisturbed (fun _ => ⟨rfl, rfl, id⟩) hprepare
  next s memory program heq =>
    rw [heq] at hprepare
    split
    · exact h.undisturbed (fun _ => ⟨rfl, rfl, id⟩)
        (hprepare.trans (userSpaceDestroy_spares memory program.space).toTrades)
    next hspace =>
      -- both spaces are in use until the old one is destroyed
      have hhas : (m.tasks m.current).hasUserSpace = true := by simpa using hspace
      refine @Conserves.set layout m _ m.current h (m.tasks m.current) _
        (update_eq_self ..).symm rfl (h.unused m.current) ?_
      rw [pagesOf, if_pos hhas, if_pos hhas]
      exact ((hprepare.frame _).perm List.perm_append_comm).trans
        ((userSpaceDestroy_spares memory (m.threads m.current).addressSpace).toTrades.frame _)

theorem conserves_enterUser (hspace : (m.tasks m.current).hasUserSpace = false)
    (hused : m.state m.current ≠ .unused) {s : FsSt} {memory : Memory} {program : LoadedProgram}
    (htrade : Trades [] program.space.owned m.memory memory) :
    Conserves layout ({ m with fs := s, memory := memory }.enterUser program) := by
  have hentered : (({ m with fs := s, memory := memory }.enterSpace program.space).threads
      m.current).addressSpace = program.space := by
    simp [enterSpace, setThread]
  refine h.set (i := m.current) rfl (update_idem ..) (fun hunused => absurd hunused hused) ?_
  rw [pagesOf, if_neg (by simp [hspace]), if_pos rfl]
  rw [← hentered] at htrade
  exact htrade

end Kept

theorem deed_conserves (hdeed : Deed m m') (hwf : m.sched.Wf) (h : Conserves layout m) :
    Conserves layout m' := by
  cases hdeed with
  | create hrun entry name => exact conserves_taskCreate h entry name
  | fork hrun => exact conserves_sysFork h hwf
  | finish hrun hlive hpid code => exact conserves_endTask h hlive.used code
  | wait hrun pid nohang => exact conserves_taskWaitpid h pid nohang
  | execve hrun path argv envp => exact conserves_userExecve h path argv envp
  | @load hrun path argv envp s memory heq =>
    have hprepare := (prepareProgram_spares m.fs m.memory (m.tasks m.current).cwdInode path argv
      envp).toTrades
    rw [heq] at hprepare
    exact h.undisturbed (fun _ => ⟨rfl, rfl, id⟩) hprepare
  | @enter hrun hspace path argv envp s memory program heq =>
    have hprepare := (prepareProgram_spares m.fs m.memory (m.tasks m.current).cwdInode path argv
      envp).toTrades
    rw [heq] at hprepare
    exact conserves_enterUser h hspace hrun.live.used hprepare

theorem quiet_conserves (hquiet : Quiet m m') (h : Conserves layout m) : Conserves layout m' := by
  refine h.undisturbed (fun i => ⟨hquiet.space i, hquiet.hasSpace i, (hquiet.alike.unused i).mp⟩) ?_
  rw [hquiet.memory]
  exact .refl [] _

/-! ## The start -/

theorem initMemory_memory (m : Machine) :
    m.initMemory.memory = (vmInit { m.memory with toHeap := memInit m.layout }).1 := by
  unfold initMemory
  generalize vmInit { m.memory with toHeap := memInit m.layout } = result
  obtain ⟨memory, satp⟩ := result
  cases satp <;> rfl

theorem initMemory_uses (m : Machine) :
    m.initMemory.memory.Uses m.layout (kernelPages m.initMemory.memory) := by
  rw [initMemory_memory]
  exact vmInit_uses (memInit_uses m.layout) (vmInit_isSome rfl (memInit_room m.layout))

theorem taskInit_hasUserSpace (k : System) (i : Fin 16) :
    ((Kernel.taskInit k).tasks i).hasUserSpace = false := by
  have hreset : ∀ (l : List (Fin 16)) (k : System), i ∈ l ∨ (k.tasks i).hasUserSpace = false →
        ((l.foldl resetTask k).tasks i).hasUserSpace = false := by
    intro l
    induction l with
    | nil => exact fun k h => h.resolve_left List.not_mem_nil
    | cons j rest ih =>
      intro k h
      have hstep : ((resetTask k j).tasks i).hasUserSpace =
          if i = j then false else (k.tasks i).hasUserSpace := by
        rw [resetTask, tasks_setTask]
        split
        · rfl
        · split <;> rfl
      refine ih _ ?_
      rw [hstep]
      split
      · exact Or.inr rfl
      · next hij => exact h.imp_left fun hmem => (List.mem_cons.mp hmem).resolve_left hij
  have hall := hreset (List.finRange 16) k (Or.inl (List.mem_finRange i))
  rw [Kernel.taskInit]
  generalize (List.finRange 16).foldl resetTask k = k1 at hall
  simp only [System.call, tasks_setTask]
  split
  · next h0 => rw [← h0]; exact hall
  · exact hall

theorem taskInit_conserves (h : m.memory.Uses layout (kernelPages m.memory)) :
    Conserves layout m.taskInit := by
  have hnone : m.taskInit.userPages = [] := by
    refine List.flatMap_eq_nil_iff.mpr fun i _ => ?_
    rw [pagesOf, show (m.taskInit.tasks i).hasUserSpace = false from
      taskInit_hasUserSpace m.toSystem i]
    rfl
  refine ⟨?_, fun i _ => taskInit_hasUserSpace m.toSystem i⟩
  rw [hnone]
  exact h

theorem startShellTask_conserves (h : m.memory.Uses layout (kernelPages m.memory)) (entry : Word) :
    (m.startShellTask entry).1.sched.Wf ∧ Conserves layout (m.startShellTask entry).1 := by
  obtain ⟨m₁, hm1⟩ : ∃ m₁ : Machine, m₁ = m.taskSetScheduler .rr := ⟨_, rfl⟩
  have hrun : (m₁.taskInit.taskSetQuantum 1).sched.Running := (taskInit_tasks m₁.toSystem).1
  have hdeeds := (quiet_taskSetQuantum m₁.taskInit 1).deeds.trans
    (Deed.create hrun entry shellName).deeds
  rw [startShellTask, ← hm1]
  refine hdeeds.inv quiet_conserves deed_conserves (taskInit_wf m₁) (taskInit_conserves ?_)
  rw [hm1]
  exact h

/-! ## Where a page is -/

/-- A page of the heap. -/
def HeapPage (layout : Layout) (p : Nat) : Prop :=
  alignUp layout.kernelEnd ≤ p ∧ p + pageSize ≤ heapTop ∧ p % pageSize = 0

/-- Where it can be. -/
inductive Place where
  | bump
  | free
  | kernel
  | task (i : Fin 16)

/-- It is there. -/
def PageAt (m : Machine) (p : Nat) : Place → Prop
  | .bump => m.memory.bumpPtr ≤ p ∧ p + pageSize ≤ m.memory.heapEnd
  | .free => p ∈ m.memory.freeList
  | .kernel => p ∈ kernelPages m.memory
  | .task i => (m.tasks i).hasUserSpace = true ∧ p ∈ (m.threads i).addressSpace.owned

/-- Every page of the heap is in one place, no list has a page twice, and the pages add up. -/
structure PagesConserved (layout : Layout) (m : Machine) : Prop where
  place : ∀ p, HeapPage layout p → ∃! place, m.PageAt p place
  free_nodup : m.memory.freeList.Nodup
  kernel_nodup : (kernelPages m.memory).Nodup
  task_nodup : ∀ i, (m.tasks i).hasUserSpace = true → (m.threads i).addressSpace.owned.Nodup
  total : memFreePages m.memory.toHeap + 3 + (∑ i, if (m.tasks i).hasUserSpace then
      3 + (m.threads i).addressSpace.pages.length else 0 : Nat) =
    ((heapTop - alignUp layout.kernelEnd) / pageSize : Nat)

theorem mem_pagesOf {p : Nat} :
    p ∈ m.pagesOf i ↔ (m.tasks i).hasUserSpace = true ∧ p ∈ (m.threads i).addressSpace.owned := by
  rw [pagesOf]
  split
  · next h => simp [h]
  · next h => simp [h]

namespace Conserves

variable {p : Nat}

theorem lt_bump (h : Conserves layout m)
    (hp : p ∈ m.memory.freeList ++ (m.userPages ++ kernelPages m.memory)) :
    ¬ m.PageAt p .bump := by
  have hbelow := ((h.uses.pool.mem_iff p).mp hp).2.1
  have hpos : 0 < pageSize := by decide
  exact fun hbump => Nat.not_le.mpr (by omega) hbump.1

theorem mem_userPages (hp : m.PageAt p (.task i)) : p ∈ m.userPages :=
  List.mem_flatMap.mpr ⟨i, List.mem_finRange i, mem_pagesOf.mpr hp⟩

theorem task_unique (h : Conserves layout m) {j : Fin 16} (hi : m.PageAt p (.task i))
    (hj : m.PageAt p (.task j)) : i = j := by
  by_contra hne
  have hnodup := (List.nodup_append.mp h.uses.pool.nodup_used).1
  rw [(userPages_perm m i).nodup_iff, List.nodup_append] at hnodup
  have hother : j ∈ (List.finRange 16).erase i :=
    (List.nodup_finRange 16).mem_erase_iff.mpr ⟨Ne.symm hne, List.mem_finRange j⟩
  exact hnodup.2.2 p (mem_pagesOf.mpr hi) p
    (List.mem_flatMap.mpr ⟨j, hother, mem_pagesOf.mpr hj⟩) rfl

/-- A page is not in two places. -/
theorem place_unique (h : Conserves layout m) {a b : Place} (ha : m.PageAt p a)
    (hb : m.PageAt p b) : a = b := by
  obtain ⟨-, hused, hfree⟩ := List.nodup_append.mp h.uses.pool.nodup
  have hfree' : m.PageAt p .free → ¬ m.PageAt p .kernel ∧ ∀ i, ¬ m.PageAt p (.task i) :=
    fun hp => ⟨fun hk => hfree p hp p (List.mem_append_right _ hk) rfl,
      fun i hi => hfree p hp p (List.mem_append_left _ (mem_userPages hi)) rfl⟩
  have hkernel' : m.PageAt p .kernel → ∀ i, ¬ m.PageAt p (.task i) := fun hk i hi =>
    (List.nodup_append.mp hused).2.2 p (mem_userPages hi) p hk rfl
  have hbump' : m.PageAt p .bump →
      ¬ m.PageAt p .free ∧ ¬ m.PageAt p .kernel ∧ ∀ i, ¬ m.PageAt p (.task i) := fun hp =>
    ⟨fun hf => h.lt_bump (List.mem_append_left _ hf) hp,
      fun hk => h.lt_bump (List.mem_append_right _ (List.mem_append_right _ hk)) hp,
      fun i hi => h.lt_bump (List.mem_append_right _ (List.mem_append_left _ (mem_userPages hi))) hp⟩
  have htask' := fun i j => @task_unique _ _ i p h j
  clear hused hfree h
  cases a <;> cases b <;> grind

theorem exists_place (h : Conserves layout m) (hp : HeapPage layout p) :
    ∃ place, m.PageAt p place := by
  obtain ⟨hlo, hhi, hmod⟩ := hp
  by_cases hbump : m.memory.bumpPtr ≤ p
  · exact ⟨.bump, hbump, by rw [h.uses.heapEnd]; exact hhi⟩
  have hnext := Pool.next_le hmod h.uses.pool.bump_aligned (Nat.not_le.mp hbump)
  have hmem := (h.uses.pool.mem_iff p).mpr ⟨hlo, hnext, hmod⟩
  rw [List.mem_append, List.mem_append] at hmem
  rcases hmem with hfree | huser | hkernel
  · exact ⟨.free, hfree⟩
  · obtain ⟨i, -, hi⟩ := List.mem_flatMap.mp huser
    exact ⟨.task i, mem_pagesOf.mp hi⟩
  · exact ⟨.kernel, hkernel⟩

theorem length_userPages (m : Machine) : m.userPages.length =
    ∑ i, if (m.tasks i).hasUserSpace then 3 + (m.threads i).addressSpace.pages.length else 0 := by
  rw [userPages, List.length_flatMap, Fin.sum_univ_def]
  congr 2
  funext i
  rw [pagesOf]
  split
  · simp [AddressSpace.owned, Nat.add_comm]
  · rfl

theorem pages (h : Conserves layout m) : PagesConserved layout m := by
  have hnodup := List.nodup_append.mp h.uses.pool.nodup
  have hused := List.nodup_append.mp hnodup.2.1
  refine ⟨fun p hp => ?_, hnodup.1, hused.2.1, fun i hi => ?_, ?_⟩
  · obtain ⟨place, hplace⟩ := h.exists_place hp
    exact ⟨place, hplace, fun other hother => h.place_unique hother hplace⟩
  · have hpages := (List.nodup_flatMap.mp hused.1).1 i (List.mem_finRange i)
    rwa [pagesOf, if_pos hi] at hpages
  · have hcount := h.uses.memFreePages_add
    rw [List.length_append, length_userPages, show (kernelPages m.memory).length = 3 from rfl]
      at hcount
    omega

end Conserves

/-- From `start_shell` on the tree of processes and the pages are in order. -/
theorem reached_conserves (m : Machine) (entry : Word) (events : List Event) :
    ((m.kernelMain entry).runEvents events).sched.Wf ∧
      Conserves m.layout ((m.kernelMain entry).runEvents events) := by
  have huses := initMemory_uses m
  rw [kernelMain]
  generalize m.initMemory = m₁ at huses ⊢
  obtain ⟨hwf, hstart⟩ :=
    @startShellTask_conserves m.layout { m₁ with fs := (minifsInit m₁.fs).1 } huses entry
  exact ⟨runEvents_wf hwf events, runEvents_inv quiet_conserves deed_conserves hwf hstart events⟩

end Machine

end MiniOs.Kernel
