import Cantos.Mem.Alloc

/-!
# The rest of `kmem.cpp` and `page.cpp`

Freeing heap memory and page chains, records for frames that were not allocated,
and kernel virtual memory that is given back and used again.

A chain is passed by value: its runs with the addresses of their records.  Where a
call may grow the heap in the middle (every `kmalloc` and every `kfree` may), the
code that follows reads the lists again, as the source does through its pointers.

## Main definitions

* `Kmem.getStruct`, `Kmem.mergeFree`, `Kmem.kfreeNolock`, `Kmem.kfree`
* `Page.create`, `Page.free`, `Page.mergeFree`
* `Page.kinstall`, `Page.kuninstall`
-/

namespace Cantos

open Linked

/-! ## `kmem.cpp` -/

/-- `_get_struct` -/
def Kmem.getStruct (depth : ℕ) : M ℕ := do
  let s ← Exec.get
  match s.kmem.freeFreeStructs with
  | hold :: next => do
      Exec.set { s with kmem.freeFreeStructs := next }
      pure hold.ptr
  | [] => Kmem.kmalloc depth sizeofFree (kmallocReserved ||| kmallocNolock)

/-- `_merge_free` on the record at `first`. -/
def Kmem.mergeFree (first : ℕ) (k : Kmem) : Kmem :=
  match joinNext KmemFree.ptr (fun first hold => first.base + first.size == hold.base)
      (fun first hold => { first with size := first.size + hold.size }) first k.freeList with
  | none => k
  | some (freeList, hold) => { k with
      freeList
      freeFreeStructs := hold :: k.freeFreeStructs
      freeEnd := if lastPtr KmemFree.ptr freeList = first then first else k.freeEnd }

/-- The part of `kfree_nolock` that links the block at `hdr` into the free list,
with `newEntry` as its record. -/
def Kmem.insertFree (newEntry hdr fullSize : ℕ) (k : Kmem) : Kmem :=
  let entry : KmemFree := { ptr := newEntry, size := fullSize, base := hdr }
  match k.freeList with
  | [] => { k with freeList := [entry], freeEnd := newEntry }
  | _ :: _ =>
      let before := k.freeList.takeWhile fun now => now.base < hdr
      let after := k.freeList.dropWhile fun now => now.base < hdr
      let inserted := { k with
        freeList := before ++ entry :: after
        freeEnd := if after.isEmpty then newEntry else k.freeEnd }
      let merged := inserted.mergeFree newEntry
      if before.isEmpty then merged else merged.mergeFree (lastPtr KmemFree.ptr before)

/-- Write `memory_used`. -/
def Kmem.setUsed (used : ℕ) (k : Kmem) : Kmem := { k with memoryUsed := used }

@[simp] theorem setUsed_memoryEnd (used : ℕ) (k : Kmem) :
    (k.setUsed used).memoryEnd = k.memoryEnd := rfl
@[simp] theorem setUsed_memoryTotal (used : ℕ) (k : Kmem) :
    (k.setUsed used).memoryTotal = k.memoryTotal := rfl
@[simp] theorem setUsed_memoryUsed (used : ℕ) (k : Kmem) : (k.setUsed used).memoryUsed = used := rfl
@[simp] theorem setUsed_pool (used : ℕ) (k : Kmem) : (k.setUsed used).pool = k.pool := rfl

theorem mergeFree_pool (first : ℕ) (k : Kmem) : (k.mergeFree first).pool = k.pool := by
  rw [Kmem.mergeFree]
  split <;> rfl

theorem insertFree_pool (newEntry hdr fullSize : ℕ) (k : Kmem) :
    (k.insertFree newEntry hdr fullSize).pool = k.pool := by
  rw [Kmem.insertFree]
  split
  · rfl
  · simp only []
    split_ifs <;> simp only [mergeFree_pool]

/-- `kfree_nolock` -/
def Kmem.kfreeNolock (depth ptr : ℕ) : M Unit :=
  if ptr = 0 then pure ()
  else do
    let s ← Exec.get
    match s.kmem.headers.find? (·.ptr = ptr - sizeofHeader) with
    | none => Exec.stop (.panic "Sentinel value was not set correctly!")
    | some hdr =>
        if hdr.sentinel = sentinelFreed then
          Exec.stop (.panic "Suspected double free found!")
        else if hdr.sentinel ≠ sentinelVal then
          Exec.stop (.panic "Sentinel value was not set correctly!")
        else do
          Exec.modify fun s => { s with
            kmem.headers := putHeader { hdr with sentinel := sentinelFreed } s.kmem.headers }
          let newEntry ← Kmem.getStruct depth
          let fullSize := hdr.size + sizeofHeader
          Exec.modify fun s => { s with
            kmem := (s.kmem.insertFree newEntry hdr.ptr fullSize).setUsed
              (sub32 s.kmem.memoryUsed fullSize) }

/-- `kfree` -/
def Kmem.kfree (depth ptr : ℕ) : M Unit := do
  mutexLock
  Kmem.kfreeNolock depth ptr
  mutexUnlock

/-! ## Chains of frames -/

/-- `page::create` -/
def Page.create (depth base : ℕ) (flags : Flags) (count : ℕ) : M (List Page) := do
  mutexLock
  let write ← Kmem.kmalloc depth sizeofPage (kmallocReserved ||| kmallocNolock)
  let s ← Exec.get
  Exec.set { s with page.pageIdCounter := s.page.pageIdCounter + 1 }
  mutexUnlock
  pure [{ ptr := write, pageId := s.page.pageIdCounter, memBase := base,
          flags := flagAllocated ||| flags, consecutive := count }]

/-- `first->mem_base + (first->consecutive * PAGE_SIZE) == first->next->mem_base` -/
def Page.touches (first hold : Page) : Bool :=
  add32 first.memBase (mul32 first.consecutive pageSize) == hold.memBase

/-- `first->consecutive += hold->consecutive` -/
def Page.join (first hold : Page) : Page :=
  { first with consecutive := add32 first.consecutive hold.consecutive }

/-- `_merge_free` of `page.cpp` on the record at `first`, which a growth of the heap
may have moved from the free list to `used_start`. -/
def Page.mergeFree (depth first : ℕ) : M Unit := do
  let s ← Exec.get
  match joinNext Page.ptr Page.touches Page.join first s.page.pageFreeHead with
  | some (pageFreeHead, hold) => do
      Exec.set { s with page.pageFreeHead := pageFreeHead }
      Kmem.kfreeNolock depth hold.ptr
  | none =>
      match joinNext Page.ptr Page.touches Page.join first s.page.usedStart with
      | some (usedStart, hold) => do
          Exec.set { s with page.usedStart := usedStart }
          Kmem.kfreeNolock depth hold.ptr
      | none => pure ()

/-- The part of `page::free` that runs with the lock held, for one run. -/
def Page.freeRun (depth : ℕ) (page : Page) : M Unit := do
  let s ← Exec.get
  let before := s.page.pageFreeHead.takeWhile fun now => now.memBase < page.memBase
  let after := s.page.pageFreeHead.dropWhile fun now => now.memBase < page.memBase
  Exec.set { s with page.pageFreeHead := before ++ page :: after }
  Page.mergeFree depth page.ptr
  if before.isEmpty then pure () else Page.mergeFree depth (lastPtr Page.ptr before)

/-- `page::free` -/
def Page.free (depth : ℕ) : (page : List Page) → M Unit
  | [] => pure ()
  | page :: next => do
      (if next.isEmpty then pure () else Page.free depth next)
      mutexLock
      Page.freeRun depth page
      mutexUnlock

/-! ## Holes of kernel virtual memory -/

/-- `invlpg`: no modelled state depends on the translation buffers. -/
def invlpg (_addr : ℕ) : M Unit := pure ()

/-- The inner loop of `kinstall` for one run of the chain: `k` entries are written,
the next one being entry `entry` with frame `i` of the run. -/
def Page.writeRun (memBase pageFlags : ℕ) : (k i entry : ℕ) → M ℕ
  | 0, _, entry => pure entry
  | k + 1, i, entry => do
      Exec.modify fun s => { s with
        page.table := Function.update s.page.table entry (tableEntry memBase i pageFlags) }
      invlpg (add32 memBase (mul32 pageSize i))
      writeRun memBase pageFlags k (i + 1) (entry + 1)

/-- The outer loop of `kinstall`: the bound of the inner one is the length of the
first run of the chain, `consecutive`, for every run. -/
def Page.writeChain (consecutive pageFlags : ℕ) : (current : List Page) → (entry : ℕ) → M Unit
  | [], _ => pure ()
  | current :: next, entry => do
      let entry ← Page.writeRun current.memBase pageFlags consecutive 0 entry
      writeChain consecutive pageFlags next entry

/-- The index of the page table entry of a kernel address. -/
def tableIndex (base : ℕ) : ℕ := (base - kernelVmBase) / pageSize

/-- The part of `kinstall` that takes `totalPages` pages from the hole that was found; `rest` is
the list without the hole. -/
def Page.takeSlot (depth totalPages : ℕ) (slot : EmptySlot) (rest : List EmptySlot) : M Unit := do
  let s ← Exec.get
  if slot.pages = totalPages then do
    Exec.set { s with page.emptySlot := rest }
    Kmem.kfreeNolock depth slot.ptr
  else
    let shrink : EmptySlot → EmptySlot := fun slot =>
      { slot with pages := slot.pages - totalPages, base := slot.base + totalPages * pageSize }
    Exec.set { s with page.emptySlot := updateAt EmptySlot.ptr slot.ptr shrink s.page.emptySlot }

/-- `page::kinstall` -/
def Page.kinstall (depth : ℕ) (page : List Page) (pageFlags : ℕ) : M ℕ := do
  let totalPages := Page.count page
  mutexLock
  let s ← Exec.get
  match s.page.emptySlot.find? (fun slot => ¬ slot.pages < totalPages) with
  | some slot => do
      Page.takeSlot depth totalPages slot (unlink EmptySlot.ptr slot.ptr s.page.emptySlot)
      if slot.base ≠ 0 then do
        Page.writeChain (page.head?.elim 0 (·.consecutive)) pageFlags page (tableIndex slot.base)
        mutexUnlock
        pure slot.base
      else do
        mutexUnlock
        Page.kinstallAppend page pageFlags true
  | none => do
      mutexUnlock
      Page.kinstallAppend page pageFlags true

/-- `_merge_free_slots` on the record at `first`. -/
def Page.mergeFreeSlots (depth first : ℕ) : M Unit := do
  let s ← Exec.get
  match joinNext EmptySlot.ptr (fun first hold => first.base + first.pages * pageSize == hold.base)
      (fun first hold => { first with pages := first.pages + hold.pages })
      first s.page.emptySlot with
  | some (emptySlot, hold) => do
      Exec.set { s with page.emptySlot := emptySlot }
      Kmem.kfreeNolock depth hold.ptr
  | none => pure ()

/-- The loop of `kuninstall` over the page table entries of a run: `k` entries are
cleared, from entry `entry` at address `base` on. -/
def Page.clearRun : (k entry : ℕ) → (base : ℕ) → M ℕ
  | 0, _, base => pure base
  | k + 1, entry, base => do
      Exec.modify fun s => { s with page.table := Function.update s.page.table entry 0 }
      invlpg base
      clearRun k (entry + 1) (base + pageSize)

/-- `page::kuninstall` -/
def Page.kuninstall (depth : ℕ) : (base : ℕ) → (page : List Page) → M Unit
  | _, [] => pure ()
  | base, page :: next => do
      mutexLock
      let newSlot ← Kmem.kmalloc depth sizeofSlot kmallocNolock
      let s ← Exec.get
      let before := s.page.emptySlot.takeWhile fun now => now.base < base
      let after := s.page.emptySlot.dropWhile fun now => now.base < base
      let slot : EmptySlot := { ptr := newSlot, base, pages := page.consecutive }
      Exec.set { s with page.emptySlot := before ++ slot :: after }
      let base ← Page.clearRun page.consecutive (tableIndex base) base
      Page.mergeFreeSlots depth newSlot
      (if before.isEmpty then pure ()
      else Page.mergeFreeSlots depth (lastPtr EmptySlot.ptr before))
      mutexUnlock
      if next.isEmpty then pure () else Page.kuninstall depth base next

end Cantos
