import Cantos.Lib.Exec
import Cantos.Lib.Linked
import Mathlib.Algebra.GroupWithZero.Nat

/-!
# The state of the kernel's memory subsystem

The static variables of the namespaces `kmem` and `page`, as one record each.

A record in memory is named by its address: the linked lists `free_list`,
`free_free_structs`, `page_free_head`, `used_start` and `empty_slot` are lists of
records in `next` order, every record carrying its address `ptr`, and a pointer
held across a call is an address that is looked up again when it is used.  The
null pointer is `0`.

Sizes and addresses are natural numbers.  The kernel lives below `totalVmSize`,
where `kinstall_append` panics, so sums of heap addresses do not wrap; the 32-bit
operations that can wrap (on physical addresses, on the frame count of a run and
on `memory_used`) are written with `add32`, `sub32` and `mul32`.

## Main definitions

* `Stuck`: the ways in which a call does not return.
* `KmemFree`, `KmemHeader`, `Page`, `EmptySlot`, `Entry`: the records.
* `Kmem`, `PageState`, `Mem`: the static variables.
* `M`: programs over `Mem`.
-/

namespace Cantos

/-! ## 32-bit arithmetic -/

/-- Addition of `uint32_t`. -/
def add32 (a b : ℕ) : ℕ := (a + b) % 2 ^ 32

/-- Subtraction of `uint32_t`. -/
def sub32 (a b : ℕ) : ℕ := (a + 2 ^ 32 - b) % 2 ^ 32

/-- Multiplication of `uint32_t`. -/
def mul32 (a b : ℕ) : ℕ := (a * b) % 2 ^ 32

/-! ## Constants -/

/-- `PAGE_SIZE` -/
def pageSize : ℕ := 0x1000
/-- `TOTAL_VM_SIZE` -/
def totalVmSize : ℕ := 0x100000000
/-- `KERNEL_VM_SIZE` -/
def kernelVmSize : ℕ := 0x40000000
/-- `KERNEL_VM_BASE` -/
def kernelVmBase : ℕ := totalVmSize - kernelVmSize

/-- `sizeof(kmem_header_t)`, with `KMEM_SENTINEL` on. -/
def sizeofHeader : ℕ := 8
/-- `sizeof(kmem_free_t)` -/
def sizeofFree : ℕ := 12
/-- `sizeof(page::Page)` -/
def sizeofPage : ℕ := 20
/-- `sizeof(_empty_virtual_slot_t)` -/
def sizeofSlot : ℕ := 12
/-- `_MINIMUM_PAGES` -/
def minimumPages : ℕ := 2
/-- `_SENTINEL_VAL` -/
def sentinelVal : ℕ := 0x4b4d454d
/-- `_SENTINEL_FREED` -/
def sentinelFreed : ℕ := 0x46524545

/-- The sizes as numbers, for `simp only`. -/
theorem sizes : pageSize = 4096 ∧ totalVmSize = 4294967296 ∧ kernelVmSize = 1073741824 ∧
    sizeofHeader = 8 ∧ sizeofFree = 12 ∧ sizeofPage = 20 ∧ sizeofSlot = 12 ∧ minimumPages = 2 := by
  decide

theorem sentinel_ne : sentinelVal ≠ sentinelFreed := by simp [sentinelVal, sentinelFreed]

/-- A `uint8_t` of flag bits. -/
abbrev Flags := BitVec 8

/-- `flags & bit` as a condition. -/
def Flags.has (flags bit : Flags) : Bool := flags &&& bit != 0

/-- `KMALLOC_RESERVED` -/
def kmallocReserved : Flags := 0x01
/-- `KMALLOC_NOLOCK` -/
def kmallocNolock : Flags := 0x02
/-- `FLAG_ALLOCATED` -/
def flagAllocated : Flags := 0x01
/-- `FLAG_KERNEL` -/
def flagKernel : Flags := 0x02
/-- `FLAG_RESERVED` -/
def flagReserved : Flags := 0x04
/-- `FLAG_NOLOCK` -/
def flagNolock : Flags := 0x08

/-- `PAGE_TABLE_PRESENT` -/
def pageTablePresent : ℕ := 0x01
/-- `PAGE_TABLE_RW` -/
def pageTableRw : ℕ := 0x02

/-! ## Records -/

/-- Why a call does not return. -/
inductive Stuck
  /-- `panic` was called with this text. -/
  | panic (msg : String)
  /-- `kmem::mutex` is locked by a call that already holds it. -/
  | deadlock
  /-- A null pointer is dereferenced. -/
  | nullDeref
  /-- `multiboot::mem_table` is read past its end. -/
  | outOfBounds
  /-- The calls are nested deeper than the bound the run is given. -/
  | diverge
  deriving DecidableEq, Repr

/-- `kmem_free_t`: a block `[base, base + size)` of free memory. -/
structure KmemFree where
  ptr : ℕ
  size : ℕ
  base : ℕ
  deriving DecidableEq, Repr

/-- `kmem_header_t`: the header at `ptr`, followed by `size` bytes. -/
structure KmemHeader where
  ptr : ℕ
  size : ℕ
  sentinel : ℕ
  deriving DecidableEq, Repr

/-- `page::Page`: a run of `consecutive` frames from the physical address
`memBase`.  A chain of runs is a list. -/
structure Page where
  ptr : ℕ
  pageId : ℕ
  memBase : ℕ
  flags : Flags
  consecutive : ℕ
  deriving DecidableEq, Repr

/-- `_empty_virtual_slot_t`: a hole of `pages` pages of kernel virtual memory. -/
structure EmptySlot where
  ptr : ℕ
  base : ℕ
  pages : ℕ
  deriving DecidableEq, Repr

/-- `multiboot::entry_t` -/
structure Entry where
  base : ℕ
  length : ℕ
  type : ℕ
  deriving DecidableEq, Repr

/-! ## Static variables -/

/-- The static variables of `namespace kmem`. -/
structure Kmem where
  freeList : List KmemFree
  freeEnd : ℕ
  freeFreeStructs : List KmemFree
  memoryTotal : ℕ
  memoryUsed : ℕ
  /-- `map.memory_end` -/
  memoryEnd : ℕ
  /-- The headers in memory, at most one for an address. -/
  headers : List KmemHeader
  /-- The ranges of kernel virtual memory given to the heap, as base and length.
  No function reads it. -/
  pool : List (ℕ × ℕ)

/-- What a run did that the state does not show.  No function reads these. -/
inductive Event
  /-- `alloc_nokmalloc`, asked for `count` frames, hands out a run. -/
  | handOut (count memBase consecutive : ℕ)
  /-- `page::alloc` cuts `count` frames off a first entry of `left` frames. -/
  | cut (count left : ℕ)
  /-- `page::alloc` calls itself for the rest of a chain. -/
  | allocRest (flags : Flags)
  /-- `kinstall_append` calls itself for the rest of a chain. -/
  | appendRest (lock : Bool)
  deriving DecidableEq, Repr

/-- The static variables of `namespace page`, and the memory map they walk. -/
structure PageState where
  usedStart : List Page
  pageIdCounter : ℕ
  allocationPointer : ℕ
  /-- `current_map`, as an index of `multiboot::mem_table`. -/
  currentMap : ℕ
  /-- `virtual_pointer` -/
  virtualPointer : ℕ
  /-- `cursor`, as an index of the kernel page tables. -/
  cursor : ℕ
  pageFreeHead : List Page
  emptySlot : List EmptySlot
  /-- `multiboot::mem_table` -/
  memTable : List Entry
  /-- The kernel page table entries. -/
  table : ℕ → ℕ

/-- The state of the memory subsystem. -/
structure Mem where
  kmem : Kmem
  page : PageState
  /-- `kmem::mutex`, locked or not. -/
  mutex : Bool
  /-- The events so far, newest first. -/
  trace : List Event

/-- Programs over the memory subsystem. -/
abbrev M := Exec Stuck Mem

/-! ## The memory lock -/

/-- `kmem::mutex.lock()`, in a call that runs with the interrupts off: when the
lock is taken, it is taken by this call or by its caller, who do not go on. -/
def mutexLock : M Unit := do
  let s ← Exec.get
  if s.mutex then Exec.stop .deadlock
  else Exec.set { s with mutex := true }

/-- `kmem::mutex.unlock()` -/
def mutexUnlock : M Unit := Exec.modify fun s => { s with mutex := false }

/-- Run `x` when `c` holds. -/
def whenever (c : Bool) (x : M Unit) : M Unit := if c then x else pure ()

@[simp] theorem whenever_true (x : M Unit) : whenever true x = x := rfl
@[simp] theorem whenever_false (x : M Unit) : whenever false x = pure () := rfl

/-- Record an event. -/
def note (e : Event) : M Unit :=
  Exec.modify fun s => { s with trace := e :: s.trace }

@[simp] theorem returns_note_bind {α : Type} {e : Event} {f : Unit → M α} {s s' : Mem} {a : α} :
    (note e >>= f).Returns s a s' ↔ (f ()).Returns { s with trace := e :: s.trace } a s' := Iff.rfl

end Cantos
