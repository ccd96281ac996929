import MiniOs.Lib.Bytes

/-!
# Physical pages

`mem.c`, the page allocator, and `vm.c`, which takes the first three pages for
the page tables of the kernel. Addresses are numbers; a pointer that is `NULL`
is 0, and the allocator's own answer of `NULL` is `none`.

The allocator keeps the link of its free list in the first bytes of the free
page. The list is a list here, and what a free page holds is not said: a page is
overwritten from end to end before anybody reads it.

The addresses the linker script fixes are numbers (`_kernel_start` and
`_stack_top` of `linker.ld`); the end of the image and the place of the task
stacks depend on the build and are `Layout`.
-/

namespace MiniOs.Kernel

open MiniOs.Lib

/-- `_kernel_start` and `_stack_top`. -/
def kernelStart : Nat := 0x80200000
def stackTop : Nat := 0x88000000

/-- `PAGE_SIZE`, and the 256 KiB of `STACK_GUARD`. -/
def pageSize : Nat := 4096
def stackGuard : Nat := 256 * 1024

/-- What the build decides: `_kernel_end`, and where `task_stacks` lies. The
image leaves three pages at least, which `vm_init` relies on. -/
structure Layout where
  kernelEnd : Nat
  taskStacks : Nat
  start_le : kernelStart ≤ kernelEnd
  end_le : kernelEnd + 3 * pageSize + stackGuard ≤ stackTop
  stacks_in : kernelStart ≤ taskStacks ∧ taskStacks + 16 * (4 * pageSize) ≤ kernelEnd

/-- `align_up` to a page. -/
def alignUp (addr : Nat) : Nat := (addr + pageSize - 1) / pageSize * pageSize

/-! ## The allocator -/

/-- The statics of `mem.c`. -/
structure Heap where
  freeList : List Nat
  totalFree : Int
  bumpPtr : Nat
  heapEnd : Nat

def memInit (layout : Layout) : Heap :=
  let bumpPtr := alignUp layout.kernelEnd
  let heapEnd := (stackTop - stackGuard) / pageSize * pageSize
  { freeList := []
    totalFree := if heapEnd > bumpPtr then ((heapEnd - bumpPtr) / pageSize : Nat) else 0
    bumpPtr := bumpPtr
    heapEnd := heapEnd }

def kalloc (h : Heap) : Heap × Option Nat :=
  match h.freeList with
  | page :: next => ({ h with freeList := next, totalFree := h.totalFree - 1 }, some page)
  | [] =>
    if h.bumpPtr + pageSize > h.heapEnd then (h, none)
    else
      ({ h with bumpPtr := h.bumpPtr + pageSize, totalFree := h.totalFree - 1 },
        some h.bumpPtr)

/-- `kfree`; a pointer that cannot be a page is ignored. -/
def kfree (h : Heap) (ptr : Nat) : Heap :=
  if ptr = 0 ∨ ptr % pageSize ≠ 0 ∨ ptr < kernelStart ∨ ptr ≥ stackTop then h
  else { h with freeList := ptr :: h.freeList, totalFree := h.totalFree + 1 }

def memFreePages (h : Heap) : Int := h.totalFree

/-! ## Page tables -/

/-- The heap, the bytes of physical memory, and the statics of `vm.c`. -/
structure Memory extends Heap where
  ram : Region
  kernelL2 : Nat
  kernelL1Dram : Nat
  kernelL1Mmio : Nat

/-- `kalloc` and `kfree` where the rest of memory is at hand. -/
def Memory.kalloc (m : Memory) : Memory × Option Nat :=
  match Kernel.kalloc m.toHeap with
  | (h, page) => ({ m with toHeap := h }, page)

def Memory.kfree (m : Memory) (ptr : Nat) : Memory :=
  { m with toHeap := Kernel.kfree m.toHeap ptr }

/-- The flags of an entry: `PTE_V`, `PTE_R`, `PTE_W`, `PTE_X` and `PTE_U`. -/
def pteV : Nat := 1
def pteR : Nat := 2
def pteW : Nat := 4
def pteX : Nat := 8
def pteU : Nat := 16

/-- `PTE`, of a physical address and flags. -/
def pte (address flags : Nat) : Nat := (address >>> 12) <<< 10 ||| flags

/-- `table[index] = entry`. -/
def Memory.setEntry (m : Memory) (table index entry : Nat) : Memory :=
  { m with ram := m.ram.putDword (table + 8 * index) entry }

/-- `zero_page` and `copy_page`. -/
def Memory.zeroPage (m : Memory) (page : Nat) : Memory :=
  { m with ram := m.ram.blit page Region.zero pageSize }

def Memory.copyPage (m : Memory) (destination source : Nat) : Memory :=
  { m with ram := m.ram.blit destination (fun i => m.ram (source + i)) pageSize }

/-- `SATP_SV39 | root >> 12`. -/
def satpOf (root : Nat) : BitVec 64 := BitVec.ofNat 64 (8 <<< 60 ||| root >>> 12)

/-- The 2 MiB entries `first`, `first + 1`, … of a table, `count` of them, for the
addresses from `base` on. -/
def Memory.megapages (m : Memory) (table first base flags count : Nat) : Memory :=
  (List.range count).foldl
    (fun m i => m.setEntry table (first + i) (pte (base + i * 0x200000) flags)) m

/-- `vm_init`, with the value it writes to `satp`. -/
def vmInit (m : Memory) : Memory × Option (BitVec 64) :=
  match m.kalloc with
  | (m, l2) =>
    match m.kalloc with
    | (m, l1Dram) =>
      match m.kalloc with
      | (m, l1Mmio) =>
        match l2, l1Dram, l1Mmio with
        | some l2, some l1Dram, some l1Mmio =>
          let m := ((m.zeroPage l2).zeroPage l1Dram).zeroPage l1Mmio
          let m := m.setEntry l2 0 (pte l1Mmio pteV)
          let m := m.setEntry l2 2 (pte l1Dram pteV)
          -- DRAM, CLINT, PLIC, UART and the page with TEST_FINISH
          let m := m.megapages l1Dram 0 0x80000000 (pteV ||| pteR ||| pteW ||| pteX) 64
          let m := m.megapages l1Mmio 16 0x02000000 (pteV ||| pteR ||| pteW) 1
          let m := m.megapages l1Mmio 96 0x0c000000 (pteV ||| pteR ||| pteW) 32
          let m := m.megapages l1Mmio 128 0x10000000 (pteV ||| pteR ||| pteW) 1
          let m := m.megapages l1Mmio 0 0 (pteV ||| pteR ||| pteW) 1
          ({ m with kernelL2 := l2, kernelL1Dram := l1Dram, kernelL1Mmio := l1Mmio },
            some (satpOf l2))
        | _, _, _ => (m, none)

end MiniOs.Kernel
