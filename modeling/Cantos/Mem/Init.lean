import Cantos.Mem.Free

/-!
# `kmem::init`

The state the memory subsystem starts in, for a multiboot memory map and an address
`vmEnd` at which the kernel image and its page tables end.

## Main definitions

* `bootMem`: the static variables before any code runs.
* `Page.init`, `Kmem.init`
* `fourFrames`: the state of a small machine.
-/

namespace Cantos

/-- The static variables before any code runs, with the memory map copied in. -/
def bootMem (memTable : List Entry) : Mem where
  kmem :=
    { freeList := [], freeEnd := 0, freeFreeStructs := [], memoryTotal := 0, memoryUsed := 0,
      memoryEnd := 0, headers := [], pool := [] }
  page :=
    { usedStart := [], pageIdCounter := 0, allocationPointer := 0, currentMap := 0,
      virtualPointer := 0, cursor := 0, pageFreeHead := [], emptySlot := [], memTable,
      table := fun _ => 0 }
  mutex := false
  trace := []

/-- The loop of `page::init` over the memory map, for the first region that does not
end below the allocation pointer; `k` bounds the number of steps. -/
def Page.seekStart : ℕ → M Unit
  | 0 => Exec.stop .outOfBounds
  | k + 1 => do
      let e ← readMap
      let s ← Exec.get
      if e.finish < s.page.allocationPointer then do
        advanceMap
        seekStart k
      else pure ()

/-- `page::init` -/
def Page.init (vmEnd : ℕ) : M Unit := do
  Exec.modify fun s => { s with
    page.allocationPointer := vmEnd - kernelVmBase
    page.currentMap := 0 }
  let s ← Exec.get
  Page.seekStart (s.page.memTable.length + 1)
  Exec.modify fun s => { s with
    page.cursor := tableIndex vmEnd
    page.virtualPointer := vmEnd }

/-- The heap `kmem::init` lays out in the page mapped at `memBase`: a header and the
record of that page, a header and the record of the only free block, that block.

Both headers are copies of a local variable, whose `sentinel` is the default of its type. -/
def Kmem.initial (memBase : ℕ) (k : Kmem) : Kmem :=
  let freeRecord := memBase + sizeofHeader + sizeofPage + sizeofHeader
  let endPointer := sizeofHeader + sizeofPage + sizeofHeader
  let freeBlock : KmemFree :=
    { ptr := freeRecord
      size := pageSize - endPointer - sizeofFree
      base := memBase + endPointer + sizeofFree }
  { k with
    headers := putHeader ⟨memBase + sizeofHeader + sizeofPage, sizeofFree, sentinelVal⟩
      (putHeader ⟨memBase, sizeofPage, sentinelVal⟩ k.headers)
    freeList := [freeBlock]
    freeEnd := freeBlock.ptr
    memoryEnd := freeBlock.base + freeBlock.size
    memoryTotal := pageSize
    memoryUsed := endPointer + sizeofFree
    pool := (memBase, pageSize) :: k.pool }

/-- `kmem::init`.  Without a frame left in the first region nothing is mapped, and the
heap would be written to the null pointer. -/
def Kmem.init (vmEnd : ℕ) : M Unit := do
  Page.init vmEnd
  let initial ← Page.allocNokmalloc flagKernel 1
  let memBase ← Page.kinstallAppend [initial] pageTableRw true
  if memBase = 0 then Exec.stop .nullDeref
  else Exec.modify fun s => { s with kmem := s.kmem.initial memBase }

/-- A memory map of one region of 4096 frames. -/
def roomyMap : List Entry := [⟨0x100000, 0x1000000, 1⟩]

/-- A memory map with four frames above the kernel in the first region, and plenty in
the second. -/
def fourFramesMap : List Entry := [⟨0x100000, 0x4000, 1⟩, ⟨0x400000, 0x1000000, 1⟩]

/-- The state after `kmem::init` on a machine with that map. -/
def fourFrames : Mem := (Kmem.init 0xc0100000 (bootMem fourFramesMap)).2

end Cantos
