import MiniOs.Kernel.User
import MiniOs.Lib.Pool

/-!
# Who has which page

The allocator of `mem.c` as a pool: `Heap.Uses layout h used` says that the pages
between the end of the kernel and the bump pointer are those of the free list and
those of `used`. Whoever calls `kalloc` gets a page in front of `used`, and `kfree` of
one of them takes it out. Nothing here says who the users are.
-/

namespace MiniOs.Kernel

open MiniOs.Lib

variable {layout : Layout} {used : List Nat}

/-- `heap_end`. -/
def heapTop : Nat := (stackTop - stackGuard) / pageSize * pageSize

/-- The pages in use are `used`. -/
structure Heap.Uses (layout : Layout) (h : Heap) (used : List Nat) : Prop where
  pool : Pool pageSize (alignUp layout.kernelEnd) heapTop h.freeList h.bumpPtr used
  heapEnd : h.heapEnd = heapTop
  total : h.totalFree = ((h.freeList.length + (heapTop - h.bumpPtr) / pageSize : Nat) : Int)

theorem alignUp_bounds (layout : Layout) :
    layout.kernelEnd ≤ alignUp layout.kernelEnd ∧ alignUp layout.kernelEnd % pageSize = 0 ∧
      alignUp layout.kernelEnd < heapTop := by
  have hend := layout.end_le
  unfold alignUp heapTop
  unfold pageSize stackGuard stackTop at *
  omega

theorem memInit_uses (layout : Layout) : (memInit layout).Uses layout [] := by
  obtain ⟨-, haligned, hlt⟩ := alignUp_bounds layout
  refine ⟨⟨List.nodup_nil, fun p => ?_, haligned, haligned, Nat.le_refl _, hlt.le⟩, rfl, ?_⟩
  · refine ⟨fun h => absurd h List.not_mem_nil, fun ⟨hlo, hhi, _⟩ => ?_⟩
    have hpos : 0 < pageSize := by decide
    have hbump : (memInit layout).bumpPtr = alignUp layout.kernelEnd := rfl
    omega
  · show (if heapTop > alignUp layout.kernelEnd then _ else _) = _
    rw [if_pos hlt]
    show ((heapTop - alignUp layout.kernelEnd) / pageSize : Nat) =
      ((0 + (heapTop - alignUp layout.kernelEnd) / pageSize : Nat) : Int)
    rw [Nat.zero_add]

namespace Heap

variable {h : Heap}

theorem Uses.perm {used' : List Nat} (hu : h.Uses layout used) (hperm : used.Perm used') :
    h.Uses layout used' :=
  ⟨hu.pool.perm hperm, hu.heapEnd, hu.total⟩

/-- A page in use lies between the kernel and the stack. -/
theorem Uses.bounds {p : Nat} (hu : h.Uses layout used) (hp : p ∈ used) :
    layout.kernelEnd ≤ p ∧ p + pageSize ≤ heapTop ∧ p % pageSize = 0 := by
  obtain ⟨hlo, hhi, hmod⟩ := hu.pool.bounds hp
  exact ⟨(alignUp_bounds layout).1.trans hlo, hhi, hmod⟩

/-- What is not in use is free. -/
theorem Uses.memFreePages_add (hu : h.Uses layout used) :
    memFreePages h + used.length = ((heapTop - alignUp layout.kernelEnd) / pageSize : Nat) := by
  have hcount := hu.pool.length_add (by decide)
  have htop := hu.pool.bump_le
  have hlo := hu.pool.lo_le
  have haligned := hu.pool.lo_aligned
  have hbump := hu.pool.bump_aligned
  rw [memFreePages, hu.total]
  unfold pageSize at *
  omega

/-- `kalloc` has nothing, or one page more is in use. -/
theorem Uses.kalloc (hu : h.Uses layout used) :
    Kernel.kalloc h = (h, none) ∨
      ∃ h' page, Kernel.kalloc h = (h', some page) ∧ h'.Uses layout (page :: used) := by
  obtain ⟨hpool, hend, htotal⟩ := hu
  unfold Kernel.kalloc
  cases hfree : h.freeList with
  | cons page next =>
    rw [hfree] at hpool htotal
    refine .inr ⟨_, page, rfl, hpool.reuse, hend, ?_⟩
    dsimp only
    rw [htotal, List.length_cons]
    omega
  | nil =>
    rw [hfree] at hpool htotal
    by_cases hfull : h.bumpPtr + pageSize > h.heapEnd
    · left
      dsimp only
      rw [if_pos hfull]
    have hroom : h.bumpPtr + pageSize ≤ heapTop := hend ▸ Nat.not_lt.mp hfull
    refine .inr ⟨⟨[], h.totalFree - 1, h.bumpPtr + pageSize, h.heapEnd⟩, h.bumpPtr, ?_,
      hpool.extend (by decide) hroom, hend, ?_⟩
    · dsimp only
      rw [if_neg hfull]
    · dsimp only
      rw [htotal, List.length_nil]
      unfold pageSize at *
      omega

theorem Uses.kfree {p : Nat} (hu : h.Uses layout (p :: used)) :
    (Kernel.kfree h p).Uses layout used := by
  obtain ⟨hlo, hhi, hmod⟩ := hu.bounds List.mem_cons_self
  have hstart := layout.start_le
  have hvalid : ¬ (p = 0 ∨ p % pageSize ≠ 0 ∨ p < kernelStart ∨ p ≥ stackTop) := by
    unfold heapTop at hhi
    unfold pageSize stackGuard stackTop kernelStart at *
    omega
  unfold Kernel.kfree
  rw [if_neg hvalid]
  refine ⟨hu.pool.release, hu.heapEnd, ?_⟩
  dsimp only
  rw [hu.total, List.length_cons]
  omega

end Heap

/-- `kfree(NULL)` does nothing, so a page that `kalloc` did not have can be freed. -/
theorem Heap.Uses.kfree_getD {h : Heap} {page : Option Nat}
    (hu : h.Uses layout (page.toList ++ used)) : (Kernel.kfree h (page.getD 0)).Uses layout used := by
  cases page with
  | none =>
    have hnull : Kernel.kfree h 0 = h := if_pos (.inl rfl)
    rwa [Option.getD_none, hnull]
  | some p => exact Heap.Uses.kfree hu

theorem Heap.Uses.kfree_all {h : Heap} (pages : List Nat) (hu : h.Uses layout (pages ++ used)) :
    (pages.foldl Kernel.kfree h).Uses layout used := by
  induction pages generalizing h with
  | nil => exact hu
  | cons p rest ih => exact ih (Heap.Uses.kfree hu)

/-! ## With the rest of memory -/

/-- `kalloc` changes nothing but the heap, where the page it returns is in use now. -/
theorem Memory.kalloc_uses {m : Memory} (hu : m.Uses layout used) :
    ∃ h page, m.kalloc = ({ m with toHeap := h }, page) ∧ h.Uses layout (page.toList ++ used) := by
  unfold Memory.kalloc
  obtain heq | ⟨h, page, heq, hu'⟩ := hu.kalloc <;> rw [heq]
  · exact ⟨m.toHeap, none, rfl, hu⟩
  · exact ⟨h, some page, rfl, hu'⟩

/-- The pages of an address space. -/
def AddressSpace.owned (space : AddressSpace) : List Nat :=
  space.pages.map Mapping.page ++ [space.l0User, space.l1Mmio, space.root]

/-- `user_space_destroy` gives them all back and touches nothing else. -/
theorem userSpaceDestroy_eq (m : Memory) (space : AddressSpace) :
    userSpaceDestroy m space = { m with toHeap := space.owned.foldl Kernel.kfree m.toHeap } := by
  have hpages : ∀ (l : List Mapping) (m : Memory),
      l.foldl (fun m mapping => m.kfree mapping.page) m =
        { m with toHeap := (l.map Mapping.page).foldl Kernel.kfree m.toHeap } := by
    intro l
    induction l with
    | nil => intro m; rfl
    | cons mapping rest ih => intro m; exact ih _
  unfold userSpaceDestroy AddressSpace.owned
  rw [hpages, List.foldl_append]
  rfl

end MiniOs.Kernel
