import Cantos.Mem.State

/-!
# Allocation: `kmalloc`, `page::alloc` and the growth of the heap

`do_kmalloc` takes a block off the free list or grows the heap; growing calls
`page::alloc`, which calls `kmalloc` for the record of the run it returns.  The
three functions are one mutual recursion, cut off at a bound on the depth of the
calls; a run that reaches the bound stops with `Stuck.diverge`.

## Main definitions

* `Page.allocNokmalloc`: the bump allocator over the multiboot memory map.
* `Page.kinstallAppend`: map a chain at the end of kernel virtual memory.
* `Kmem.findFit`, `Kmem.takeBlock`, `Kmem.pagesNeeded`, `Kmem.attach`: the parts
  of `do_kmalloc`.
* `Kmem.doKmalloc`, `Kmem.kmalloc`, `Page.alloc`: the mutual recursion.
-/

namespace Cantos

open Linked

/-! ## The bump allocator -/

/-- `sizeof(multiboot::mem_table)`, which the loop of `alloc_nokmalloc` adds to a
pointer to an entry. -/
def sizeofMemTable : ℕ := 240

/-- `current_map->base + current_map->length`, in 64 bits. -/
def Entry.finish (e : Entry) : ℕ := (e.base + e.length) % 2 ^ 64

/-- `*current_map` -/
def readMap : M Entry := do
  let s ← Exec.get
  match s.page.memTable[s.page.currentMap]? with
  | some e => pure e
  | none => Exec.stop .outOfBounds

/-- `current_map ++` -/
def advanceMap : M Unit :=
  Exec.modify fun s => { s with page.currentMap := s.page.currentMap + 1 }

/-- The loop of `alloc_nokmalloc` to the next region of type 1; `k` bounds the
number of steps left before the end of the loop. -/
def seekRegion : ℕ → M Unit
  | 0 => pure ()
  | k + 1 => do
      let e ← readMap
      let s ← Exec.get
      if e.type ≠ 1 ∧ s.page.currentMap < sizeofMemTable then do
        advanceMap
        seekRegion k
      else pure ()

/-- The skip of `alloc_nokmalloc` to the next memory region. -/
def nextRegion : M Unit := do
  advanceMap
  seekRegion sizeofMemTable
  let s ← Exec.get
  if s.page.currentMap ≥ sizeofMemTable then
    Exec.stop (.panic "Ran out of physical memory!")
  else do
    let e ← readMap
    if e.base > 2 ^ 32 - 1 then
      Exec.stop (.panic "Ran out of addressable physical memory!")
    else
      Exec.modify fun s => { s with page.allocationPointer := e.base }

/-- The number of bytes `alloc_nokmalloc` takes at `pointer` for `count` frames:
all of them, or what is left of the region. -/
def bumpSize (e : Entry) (pointer count : ℕ) : ℕ :=
  if add32 pointer (mul32 count pageSize) ≥ e.finish then
    (e.finish + 2 ^ 64 - pointer) % 2 ^ 32
  else mul32 count pageSize

/-- `page::alloc_nokmalloc`.  The result lies in `static_page`, which is no heap
record. -/
def Page.allocNokmalloc (flags : Flags) (count : ℕ) : M Page := do
  whenever (!flags.has flagNolock) mutexLock
  let e ← readMap
  let s ← Exec.get
  let size := bumpSize e s.page.allocationPointer count
  let write : Page :=
    { ptr := 0, pageId := s.page.pageIdCounter, memBase := s.page.allocationPointer,
      flags := flagAllocated ||| flags, consecutive := size / pageSize }
  Exec.set { s with
    page.pageIdCounter := s.page.pageIdCounter + 1
    page.allocationPointer := add32 write.memBase size }
  whenever (add32 write.memBase size == e.finish) nextRegion
  note (.handOut count write.memBase write.consecutive)
  whenever (!flags.has flagNolock) mutexUnlock
  pure write

/-! ## Kernel virtual memory -/

/-- The page table entry of the `i`-th frame of a run. -/
def tableEntry (memBase i flags : ℕ) : ℕ :=
  add32 memBase (mul32 pageSize i) ||| flags ||| pageTablePresent

/-- The loop of `kinstall_append` over the last `k` frames of a run, the next one
being frame `i`. -/
def Page.appendRun (memBase flags : ℕ) : (k i : ℕ) → (first : ℕ) → M ℕ
  | 0, _, first => pure first
  | k + 1, i, first => do
      let s ← Exec.get
      if s.page.virtualPointer ≥ totalVmSize - pageSize then
        Exec.stop (.panic "Ran out of kernel virtual address space!")
      else do
        Exec.set { s with
          page.table := Function.update s.page.table s.page.cursor (tableEntry memBase i flags)
          page.virtualPointer := s.page.virtualPointer + pageSize
          page.cursor := s.page.cursor + 1 }
        appendRun memBase flags k (i + 1) (if first = 0 then s.page.virtualPointer else first)

/-- `page::kinstall_append`.  The call for the rest of the chain leaves `lock` at
its default, `true`. -/
def Page.kinstallAppend : (page : List Page) → (pageFlags : ℕ) → (lock : Bool) → M ℕ
  | [], _, _ => Exec.stop .nullDeref
  | page :: next, pageFlags, lock => do
      whenever lock mutexLock
      let first ← Page.appendRun page.memBase pageFlags page.consecutive 0 0
      Exec.modify fun s => { s with kmem.memoryEnd := s.page.virtualPointer }
      whenever lock mutexUnlock
      if next.isEmpty then pure first
      else do
        note (.appendRest lock)
        let _ ← Page.kinstallAppend next pageFlags true
        pure first

/-- `page::used` -/
def Page.used : (page : List Page) → (lock : Bool) → M Unit
  | [], _ => Exec.stop .nullDeref
  | page :: oldNext, lock => do
      whenever lock mutexLock
      Exec.modify fun s => { s with page.usedStart := page :: s.page.usedStart }
      whenever lock mutexUnlock
      if oldNext.isEmpty then pure () else Page.used oldNext lock

/-- `Page::count` -/
def Page.count : List Page → ℕ
  | [] => 0
  | page :: next => page.consecutive + Page.count next

/-! ## The parts of `do_kmalloc` -/

/-- The size `do_kmalloc` allocates for a request: a multiple of four, and at
least the size of a `Page`. -/
def Kmem.roundSize (size : ℕ) : ℕ :=
  let size := if size % 4 ≠ 0 then size + (4 - size % 4) else size
  if size < sizeofPage then sizeofPage else size

/-- The size of a block that holds `size` bytes and a header. -/
def Kmem.sizeNeeded (size : ℕ) : ℕ := size + sizeofHeader

/-- The test of `do_kmalloc` that a request may not be served from the reserve. -/
@[irreducible] def Kmem.reserveOnly (k : Kmem) (sizeNeeded : ℕ) : Bool :=
  k.memoryUsed + sizeNeeded > k.memoryTotal - minimumPages * pageSize ∨
    k.memoryTotal < minimumPages * pageSize

/-- The search loop of `do_kmalloc`: the block before the first one that fits, and
that block; when none fits, the last block of the list. -/
def Kmem.findFit (sizeNeeded : ℕ) : (prev : ℕ) → List KmemFree → ℕ × Option KmemFree
  | prev, [] => (prev, none)
  | prev, free :: next =>
      if sizeNeeded ≤ free.size then (prev, some free) else findFit sizeNeeded free.ptr next

/-- The search of `do_kmalloc`, which is left out when the request may not be
served from the reserve. -/
def Kmem.search (k : Kmem) (sizeNeeded : ℕ) (flags : Flags) : ℕ × Option KmemFree :=
  if k.reserveOnly sizeNeeded && !flags.has kmallocReserved then (0, none)
  else findFit sizeNeeded 0 k.freeList

/-- Write a header. -/
def putHeader (h : KmemHeader) (headers : List KmemHeader) : List KmemHeader :=
  h :: unlink KmemHeader.ptr h.ptr headers

/-- Take the first `sizeNeeded` bytes off a block. -/
def KmemFree.shrink (sizeNeeded : ℕ) (free : KmemFree) : KmemFree :=
  { free with size := free.size - sizeNeeded, base := free.base + sizeNeeded }

/-- Allocate from `free`, the block after `prev`: all of it when what remains could
not hold another header, and otherwise its first bytes. -/
def Kmem.takeBlock (prev : ℕ) (free : KmemFree) (size : ℕ) (k : Kmem) : Kmem :=
  let sizeNeeded := Kmem.sizeNeeded size
  if sizeNeeded + sizeofHeader ≥ free.size then
    let size := free.size - sizeofHeader
    { k with
      freeList := unlink KmemFree.ptr free.ptr k.freeList
      freeEnd := if free.ptr = k.freeEnd then prev else k.freeEnd
      freeFreeStructs := free :: k.freeFreeStructs
      headers := putHeader ⟨free.base, size, sentinelVal⟩ k.headers
      memoryUsed := add32 k.memoryUsed (size + sizeofHeader) }
  else
    { k with
      freeList := updateAt KmemFree.ptr free.ptr (·.shrink sizeNeeded) k.freeList
      headers := putHeader ⟨free.base, size, sentinelVal⟩ k.headers
      memoryUsed := add32 k.memoryUsed sizeNeeded }

/-- The record at `p`, wherever it is linked. -/
def Kmem.freeAt (k : Kmem) (p : ℕ) : Option KmemFree :=
  (k.freeList ++ k.freeFreeStructs).find? (·.ptr = p)

/-- `prev && prev->base + prev->size == loc` -/
def Kmem.endsAt (k : Kmem) (prev loc : ℕ) : Bool :=
  prev ≠ 0 ∧ (k.freeAt prev).any fun free => free.base + free.size = loc

/-- The number of pages to grow by. -/
def Kmem.pagesNeeded (k : Kmem) (prev sizeNeeded : ℕ) : ℕ :=
  (if k.endsAt prev k.memoryEnd then
    (sizeNeeded + sizeofPage + sizeofFree - ((k.freeAt prev).elim 0 (·.size))) / pageSize
  else (sizeNeeded + sizeofPage + sizeofFree) / pageSize) + minimumPages

/-- Give the heap the first `consecutive` of `pagesNeeded` pages, mapped at
`installedLoc`: extend the block `prev` when it ends there, wherever its record is
linked by now, and otherwise make a new block behind a record of its own. -/
def Kmem.attach (prev pagesNeeded consecutive installedLoc : ℕ) (k : Kmem) :
    Kmem :=
  let grown := { k with
    memoryTotal := k.memoryTotal + pagesNeeded * pageSize
    pool := (installedLoc, consecutive * pageSize) :: k.pool }
  if k.endsAt prev installedLoc then
    let extend := updateAt KmemFree.ptr prev fun free =>
      { free with size := free.size + consecutive * pageSize }
    { grown with freeList := extend k.freeList, freeFreeStructs := extend k.freeFreeStructs }
  else
    let free : KmemFree :=
      { ptr := installedLoc + sizeofHeader
        size := consecutive * pageSize - sizeofHeader - sizeofFree
        base := installedLoc + sizeofHeader + sizeofFree }
    { grown with
      headers := putHeader ⟨installedLoc, sizeofFree, sentinelVal⟩ k.headers
      freeList := if k.freeEnd ≠ 0 then linkEnd KmemFree.ptr k.freeEnd free k.freeList else [free]
      freeEnd := free.ptr }

/-- `new_page->consecutive`, with `0` for the null pointer. -/
def Page.firstRun (newPage : List Page) : ℕ := newPage.head?.elim 0 (·.consecutive)

/-! ## The mutual recursion -/

/-- The flags `do_kmalloc` passes to `page::alloc`. -/
def growthFlags : Flags := flagKernel ||| flagReserved ||| flagNolock

/-- The flags `page::alloc` passes to `kmalloc`. -/
def allocFlag (flags : Flags) : Flags :=
  (if flags.has flagReserved then kmallocReserved else 0) ||| kmallocNolock

/-- The update of `page_free_head` by `page::alloc`, once `kmalloc` has returned the
record at `ptr` for the `count` frames cut off. -/
def Page.cutHead (ptr : ℕ) (flags : Flags) (count : ℕ) : M Page := do
  let s ← Exec.get
  match s.page.pageFreeHead with
  | [] => Exec.stop .nullDeref
  | head :: next => do
      note (.cut count head.consecutive)
      Exec.modify fun s => { s with
        page.pageIdCounter := s.page.pageIdCounter + 1
        page.pageFreeHead :=
          { head with
            memBase := add32 head.memBase (mul32 count pageSize)
            consecutive := sub32 head.consecutive count } :: next }
      pure { ptr, pageId := s.page.pageIdCounter, memBase := head.memBase, flags,
             consecutive := count }

mutual

/-- `do_kmalloc` -/
def Kmem.doKmalloc : (depth : ℕ) → (size : ℕ) → (flags : Flags) → M ℕ
  | 0, _, _ => Exec.stop .diverge
  | depth + 1, size, flags =>
      if size = 0 then pure 0
      else do
        let size := Kmem.roundSize size
        let sizeNeeded := Kmem.sizeNeeded size
        let s ← Exec.get
        match s.kmem.search sizeNeeded flags with
        | (prev, some free) => do
            Exec.set { s with kmem := s.kmem.takeBlock prev free size }
            pure (free.base + sizeofHeader)
        | (prev, none) => do
            let pagesNeeded := s.kmem.pagesNeeded prev sizeNeeded
            let newPage ← Page.alloc depth growthFlags pagesNeeded
            let installedLoc ← Page.kinstallAppend newPage pageTableRw false
            Exec.modify fun s => { s with
              kmem := s.kmem.attach prev pagesNeeded (Page.firstRun newPage) installedLoc }
            Page.used newPage false
            Kmem.kmalloc depth size (flags ||| kmallocNolock)

/-- `kmalloc` -/
def Kmem.kmalloc : (depth : ℕ) → (size : ℕ) → (flags : Flags) → M ℕ
  | 0, _, _ => Exec.stop .diverge
  | depth + 1, size, flags => do
      whenever (!flags.has kmallocNolock) mutexLock
      let ret ← Kmem.doKmalloc depth size flags
      whenever (!flags.has kmallocNolock) mutexUnlock
      pure ret

/-- `page::alloc`.  The bound is met once the lock is taken. -/
def Page.alloc : (depth : ℕ) → (flags : Flags) → (count : ℕ) → M (List Page)
  | 0, flags, count =>
      if count = 0 then pure []
      else do
        whenever (!flags.has flagNolock) mutexLock
        Exec.stop .diverge
  | depth + 1, flags, count =>
      if count = 0 then pure []
      else do
        whenever (!flags.has flagNolock) mutexLock
        let s ← Exec.get
        let newPage ← (match s.page.pageFreeHead with
          | head :: next =>
              if head.consecutive > count then do
                let ptr ← Kmem.kmalloc depth sizeofPage (allocFlag flags)
                Page.cutHead ptr flags count
              else do
                Exec.modify fun s => { s with page.pageFreeHead := next }
                pure { head with flags }
          | [] => do
              let ptr ← Kmem.kmalloc depth sizeofPage (allocFlag flags)
              let staticPage ← Page.allocNokmalloc (flags ||| flagNolock) count
              pure { staticPage with ptr })
        let next ← (if newPage.consecutive < count then do
            note (.allocRest flags)
            Page.alloc depth flags (count - newPage.consecutive)
          else pure [])
        whenever (!flags.has flagNolock) mutexUnlock
        pure (newPage :: next)

end

end Cantos
