import Cantos.Lib.Steps
import Cantos.Mem.World
import Mathlib.Data.Nat.Find

/-!
# The walk over the memory map

`page::init` and `alloc_nokmalloc` move `current_map` over `multiboot::mem_table`: to the
first region that does not end below the kernel, and to the next region of type 1 whenever
one is used up.

The loop of `alloc_nokmalloc` is bounded by `mem_table + sizeof(mem_table)`, which is
pointer arithmetic on entries: 240 entries behind the start of a table of 10.  So the bound
never ends the loop, and the panic behind it is not reached.

## Main definitions

* `MapCall`: the calls that walk the map.
* `MapWalk`: the memory subsystem and the runs handed out, newest first.
* `MapCall.InTable`: what a call should do at the end of the table.
* `MapCall.Left`: the table has what the call looks for.
-/

namespace Cantos

open Exec

/-- `LOCAL_MM_COUNT` -/
def localMmCount : ℕ := 10

/-- The calls that walk the memory map, with `kmem::map.vm_end` for `page::init`. -/
inductive MapCall
  | init (vmEnd : BitVec 32)
  | allocNokmalloc (flags : Flags) (count : ℕ)
  deriving DecidableEq, Repr

/-- Run a call; `alloc_nokmalloc` returns a run. -/
def MapCall.exec : MapCall → M (Option Page)
  | .init vmEnd => do
      Page.init vmEnd.toNat
      pure none
  | .allocNokmalloc flags count => do
      let page ← Page.allocNokmalloc flags count
      pure (some page)

/-- The memory subsystem and the runs that `alloc_nokmalloc` has returned. -/
structure MapWalk where
  mem : Mem
  runs : List Page

/-- Before any call. -/
def MapWalk.boot (memTable : List Entry) : MapWalk := ⟨bootMem memTable, []⟩

/-- A call that returns. -/
def MapWalk.step (w : MapWalk) (c : MapCall) : Option MapWalk :=
  match c.exec w.mem with
  | (.ok page, s) => some ⟨s, page.toList ++ w.runs⟩
  | (.error _, _) => none

theorem MapWalk.step_returns {w w' : MapWalk} {c : MapCall} (h : w.step c = some w') :
    ∃ page, c.exec.Returns w.mem page w'.mem ∧ w'.runs = page.toList ++ w.runs := by
  rw [MapWalk.step] at h
  rcases he : c.exec w.mem with ⟨_ | page, s⟩
  · rw [he] at h
    cases h
  · rw [he] at h
    obtain rfl := Option.some.inj h
    exact ⟨page, he, rfl⟩

theorem MapWalk.step_of_returns {w : MapWalk} {c : MapCall} {page : Option Page} {s : Mem}
    (h : c.exec.Returns w.mem page s) : w.step c = some ⟨s, page.toList ++ w.runs⟩ := by
  have he : c.exec w.mem = (.ok page, s) := h
  rw [MapWalk.step, he]

/-! ## The next region -/

/-- `e` at `j` is the next region of type 1 behind the current one. -/
structure PageState.Next (p : PageState) (j : ℕ) (e : Entry) : Prop where
  entry : p.memTable[j]? = some e
  type : e.type = 1
  later : p.currentMap < j
  first : ∀ i e', p.currentMap < i → i < j → p.memTable[i]? = some e' → e'.type ≠ 1

/-- There is a region of type 1 behind the current one. -/
def PageState.HasNext (p : PageState) : Prop := ∃ e ∈ p.memTable.drop (p.currentMap + 1), e.type = 1

instance (p : PageState) : Decidable p.HasNext := inferInstanceAs (Decidable (∃ _ ∈ _, _))

theorem PageState.hasNext_iff {p : PageState} :
    p.HasNext ↔ ∃ j e, p.memTable[j]? = some e ∧ e.type = 1 ∧ p.currentMap < j := by
  constructor
  · rintro ⟨e, he, htype⟩
    obtain ⟨i, hi⟩ := List.mem_iff_getElem?.mp he
    rw [List.getElem?_drop] at hi
    exact ⟨_, e, hi, htype, by omega⟩
  · rintro ⟨j, e, he, htype, hlt⟩
    refine ⟨e, List.mem_iff_getElem?.mpr ⟨j - (p.currentMap + 1), ?_⟩, htype⟩
    rw [List.getElem?_drop, show p.currentMap + 1 + (j - (p.currentMap + 1)) = j by omega]
    exact he

theorem PageState.HasNext.next {p : PageState} (h : p.HasNext) : ∃ j e, p.Next j e := by
  classical
  have hex := PageState.hasNext_iff.mp h
  obtain ⟨e, he, htype, hlt⟩ := Nat.find_spec hex
  refine ⟨Nat.find hex, e, he, htype, hlt, fun i e' hi hij he' htype' => ?_⟩
  exact Nat.find_min hex hij ⟨e', he', htype', hi⟩

theorem PageState.Next.hasNext {p : PageState} {j : ℕ} {e : Entry} (h : p.Next j e) : p.HasNext :=
  PageState.hasNext_iff.mpr ⟨j, e, h.entry, h.type, h.later⟩

section Seek
variable {s : Mem} {e : Entry} {j k : ℕ}

theorem readMap_of_entry (he : s.page.memTable[s.page.currentMap]? = some e) :
    readMap.Returns s e s := by
  rw [readMap, returns_get_bind, he]
  rfl

theorem readMap_stops (h : s.page.memTable[s.page.currentMap]? = none) :
    readMap.Stops s .outOfBounds s := by
  rw [readMap, stops_get_bind, h]
  rfl

/-- The loop of `alloc_nokmalloc`, where there is an entry of type 1 to stop at. -/
theorem seekRegion_of_type (hlen : s.page.memTable.length ≤ sizeofMemTable)
    (he : s.page.memTable[j]? = some e) (htype : e.type = 1) (hle : s.page.currentMap ≤ j)
    (hfirst : ∀ i e', s.page.currentMap ≤ i → i < j → s.page.memTable[i]? = some e' → e'.type ≠ 1)
    (hk : j - s.page.currentMap < k) :
    (seekRegion k).Returns s () { s with page.currentMap := j } := by
  induction k generalizing s with
  | zero => omega
  | succ k ih =>
    have hj : j < s.page.memTable.length := (List.getElem?_eq_some_iff.mp he).1
    have hcur : s.page.currentMap < s.page.memTable.length := by omega
    have hread := readMap_of_entry (List.getElem?_eq_getElem hcur)
    refine returns_bind.mpr ⟨_, s, hread, ?_⟩
    rw [returns_get_bind]
    rcases hle.eq_or_lt with rfl | hlt
    · obtain rfl := Option.some.inj ((List.getElem?_eq_getElem hcur).symm.trans he)
      rw [if_neg (by simp [htype])]
      rfl
    · have hne := hfirst _ _ le_rfl hlt (List.getElem?_eq_getElem hcur)
      rw [if_pos ⟨hne, by omega⟩]
      refine returns_modify_bind.mpr
        (ih (s := { s with page.currentMap := s.page.currentMap + 1 }) hlen he hlt ?_ ?_)
      · intro i e' hi
        exact hfirst i e' (Nat.le_of_succ_le hi)
      · simp only
        omega

/-- Where there is none, the loop reads past the end of the table. -/
theorem seekRegion_stops (hlen : s.page.memTable.length ≤ sizeofMemTable)
    (hle : s.page.currentMap ≤ s.page.memTable.length)
    (hnone : ∀ i e', s.page.currentMap ≤ i → s.page.memTable[i]? = some e' → e'.type ≠ 1)
    (hk : s.page.memTable.length - s.page.currentMap < k) :
    ∃ t, (seekRegion k).Stops s .outOfBounds t := by
  induction k generalizing s with
  | zero => omega
  | succ k ih =>
    rcases hle.eq_or_lt with heq | hlt
    · exact ⟨s, (readMap_stops (List.getElem?_eq_none heq.ge)).bind⟩
    · have hread := readMap_of_entry (List.getElem?_eq_getElem hlt)
      have hne := hnone _ _ le_rfl (List.getElem?_eq_getElem hlt)
      obtain ⟨t, ht⟩ := ih (s := { s with page.currentMap := s.page.currentMap + 1 }) hlen hlt
        (fun i e' hi => hnone i e' (Nat.le_of_succ_le hi)) (by simp only; omega)
      refine ⟨t, stops_bind.mpr (.inr ⟨_, s, hread, ?_⟩)⟩
      rw [stops_get_bind, if_pos ⟨hne, by omega⟩]
      exact stops_bind.mpr (.inr ⟨(), _, rfl, ht⟩)

theorem nextRegion_seek (hlen : s.page.memTable.length = localMmCount) (h : s.page.Next j e) :
    (seekRegion sizeofMemTable).Returns
      { s with page.currentMap := s.page.currentMap + 1 } () { s with page.currentMap := j } := by
  have hj : j < s.page.memTable.length := (List.getElem?_eq_some_iff.mp h.entry).1
  simp only [localMmCount] at hlen
  refine @seekRegion_of_type { s with page.currentMap := s.page.currentMap + 1 } _ _ _
    (by simp [hlen, sizeofMemTable]) h.entry h.type h.later h.first ?_
  simp only [sizeofMemTable]
  omega

/-- The skip to the next region. -/
theorem nextRegion_of_next (hlen : s.page.memTable.length = localMmCount) (h : s.page.Next j e)
    (hbase : e.base < 2 ^ 32) : nextRegion.Returns s ()
      { s with page.currentMap := j, page.allocationPointer := e.base } := by
  have hj : j < s.page.memTable.length := (List.getElem?_eq_some_iff.mp h.entry).1
  simp only [localMmCount] at hlen
  refine returns_modify_bind.mpr (returns_bind.mpr ⟨(), _, nextRegion_seek hlen h, ?_⟩)
  rw [returns_get_bind, if_neg (by simp only [sizeofMemTable]; omega)]
  refine returns_bind.mpr ⟨e, _, readMap_of_entry h.entry, ?_⟩
  rw [if_neg (by omega)]
  rfl

theorem nextRegion_of_far (hlen : s.page.memTable.length = localMmCount) (h : s.page.Next j e)
    (hbase : 2 ^ 32 ≤ e.base) :
    ∃ t, nextRegion.Stops s (.panic "Ran out of addressable physical memory!") t := by
  have hj : j < s.page.memTable.length := (List.getElem?_eq_some_iff.mp h.entry).1
  simp only [localMmCount] at hlen
  refine ⟨{ s with page.currentMap := j }, stops_bind.mpr (.inr ⟨(), _, rfl, ?_⟩)⟩
  refine stops_bind.mpr (.inr ⟨(), _, nextRegion_seek hlen h, ?_⟩)
  rw [stops_get_bind, if_neg (by simp only [sizeofMemTable]; omega)]
  refine stops_bind.mpr (.inr ⟨e, _, readMap_of_entry h.entry, ?_⟩)
  rw [if_pos (by omega)]
  rfl

theorem nextRegion_of_none (hlen : s.page.memTable.length = localMmCount)
    (hcur : s.page.currentMap < localMmCount) (h : ¬ s.page.HasNext) :
    ∃ t, nextRegion.Stops s .outOfBounds t := by
  simp only [localMmCount] at hlen hcur
  obtain ⟨t, ht⟩ := @seekRegion_stops { s with page.currentMap := s.page.currentMap + 1 }
    sizeofMemTable (by simp [hlen, sizeofMemTable]) (by simp only; omega)
    (fun i e' hi he' htype => h (PageState.hasNext_iff.mpr ⟨i, e', he', htype, hi⟩))
    (by simp only [sizeofMemTable]; omega)
  exact ⟨t, stops_bind.mpr (.inr ⟨(), _, rfl, ht.bind⟩)⟩

end Seek

/-! ## `page::init` -/

/-- `page::init` stops at `e` for a kernel that ends at `pointer`. -/
structure StartsAt (memTable : List Entry) (pointer j : ℕ) (e : Entry) : Prop where
  entry : memTable[j]? = some e
  reaches : pointer ≤ e.finish
  first : ∀ i e', i < j → memTable[i]? = some e' → e'.finish < pointer

/-- Some region does not end below the kernel. -/
def HasStart (memTable : List Entry) (pointer : ℕ) : Prop := ∃ e ∈ memTable, pointer ≤ e.finish

instance (memTable : List Entry) (pointer : ℕ) : Decidable (HasStart memTable pointer) :=
  inferInstanceAs (Decidable (∃ _ ∈ _, _))

theorem HasStart.startsAt {memTable : List Entry} {pointer : ℕ} (h : HasStart memTable pointer) :
    ∃ j e, StartsAt memTable pointer j e := by
  classical
  have hex : ∃ (j : ℕ) (e : Entry), memTable[j]? = some e ∧ pointer ≤ e.finish := by
    obtain ⟨e, he, hle⟩ := h
    obtain ⟨j, hj⟩ := List.mem_iff_getElem?.mp he
    exact ⟨j, e, hj, hle⟩
  obtain ⟨e, he, hle⟩ := Nat.find_spec hex
  refine ⟨Nat.find hex, e, he, hle, fun i e' hi he' => not_le.mp fun hle' => ?_⟩
  exact Nat.find_min hex hi ⟨e', he', hle'⟩

section Init
variable {s : Mem} {e : Entry} {j k : ℕ} {vmEnd : BitVec 32}

theorem seekStart_of_entry (he : s.page.memTable[j]? = some e)
    (hreach : s.page.allocationPointer ≤ e.finish) (hle : s.page.currentMap ≤ j)
    (hfirst : ∀ i e', s.page.currentMap ≤ i → i < j → s.page.memTable[i]? = some e' →
      e'.finish < s.page.allocationPointer)
    (hk : j - s.page.currentMap < k) :
    (Page.seekStart k).Returns s () { s with page.currentMap := j } := by
  induction k generalizing s with
  | zero => omega
  | succ k ih =>
    have hj : j < s.page.memTable.length := (List.getElem?_eq_some_iff.mp he).1
    have hcur : s.page.currentMap < s.page.memTable.length := by omega
    have hread := readMap_of_entry (List.getElem?_eq_getElem hcur)
    refine returns_bind.mpr ⟨_, s, hread, ?_⟩
    rw [returns_get_bind]
    rcases hle.eq_or_lt with rfl | hlt
    · obtain rfl := Option.some.inj ((List.getElem?_eq_getElem hcur).symm.trans he)
      rw [if_neg (not_lt.mpr hreach)]
      rfl
    · rw [if_pos (hfirst _ _ le_rfl hlt (List.getElem?_eq_getElem hcur))]
      refine returns_modify_bind.mpr
        (ih (s := { s with page.currentMap := s.page.currentMap + 1 }) he hreach hlt ?_ ?_)
      · intro i e' hi
        exact hfirst i e' (Nat.le_of_succ_le hi)
      · simp only
        omega

theorem seekStart_stops (hnone : ∀ e ∈ s.page.memTable, e.finish < s.page.allocationPointer)
    (k : ℕ) : ∃ t, (Page.seekStart k).Stops s .outOfBounds t := by
  induction k generalizing s with
  | zero => exact ⟨s, rfl⟩
  | succ k ih =>
    rcases he : s.page.memTable[s.page.currentMap]? with _ | e
    · exact ⟨s, (readMap_stops he).bind⟩
    · obtain ⟨t, ht⟩ := ih (s := { s with page.currentMap := s.page.currentMap + 1 }) hnone
      refine ⟨t, stops_bind.mpr (.inr ⟨e, s, readMap_of_entry he, ?_⟩)⟩
      rw [stops_get_bind, if_pos (hnone e (List.mem_of_getElem? he))]
      exact stops_bind.mpr (.inr ⟨(), _, rfl, ht⟩)

/-- `kmem::map.memory_start - KERNEL_VM_BASE`: where the kernel ends in physical memory. -/
def kernelEnd (vmEnd : BitVec 32) : ℕ := vmEnd.toNat - kernelVmBase

/-- The state behind `page::init`. -/
def Mem.started (pointer currentMap cursor vmEnd : ℕ) (s : Mem) : Mem := { s with
  page.allocationPointer := pointer
  page.currentMap := currentMap
  page.cursor := cursor
  page.virtualPointer := vmEnd }

theorem init_of_start (h : StartsAt s.page.memTable (kernelEnd vmEnd) j e) :
    (MapCall.init vmEnd).exec.Returns s none
      (s.started (kernelEnd vmEnd) j (tableIndex vmEnd.toNat) vmEnd.toNat) := by
  have hj : j < s.page.memTable.length := (List.getElem?_eq_some_iff.mp h.entry).1
  obtain ⟨pointer, hpointer⟩ : ∃ pointer, kernelEnd vmEnd = pointer := ⟨_, rfl⟩
  rw [hpointer] at h ⊢
  have hseek := @seekStart_of_entry
    { s with page.allocationPointer := pointer, page.currentMap := 0 } e j
    (s.page.memTable.length + 1) h.entry h.reaches (Nat.zero_le _) (fun i e' _ => h.first i e')
    (by simp only; omega)
  rw [kernelEnd] at hpointer
  rw [MapCall.exec, Page.init, hpointer]
  refine returns_bind.mpr ⟨(), _, returns_modify_bind.mpr (returns_get_bind.mpr ?_), rfl⟩
  exact returns_bind.mpr ⟨(), _, hseek, rfl⟩

theorem init_stops (h : ¬ HasStart s.page.memTable (kernelEnd vmEnd)) :
    ∃ t, (MapCall.init vmEnd).exec.Stops s .outOfBounds t := by
  obtain ⟨pointer, hpointer⟩ : ∃ pointer, kernelEnd vmEnd = pointer := ⟨_, rfl⟩
  rw [hpointer] at h
  obtain ⟨t, ht⟩ := @seekStart_stops
    { s with page.allocationPointer := pointer, page.currentMap := 0 }
    (fun e he => not_le.mp fun hle => h ⟨e, he, hle⟩) (s.page.memTable.length + 1)
  rw [kernelEnd] at hpointer
  rw [MapCall.exec, Page.init, hpointer]
  refine ⟨t, Stops.bind (stops_bind.mpr (.inr ⟨(), _, rfl, ?_⟩))⟩
  rw [stops_get_bind]
  exact ht.bind

end Init

/-! ## `alloc_nokmalloc` -/

/-- A request of `count` frames takes all that is left of the region `e`. -/
def Entry.UsedUp (e : Entry) (pointer count : ℕ) : Prop :=
  e.finish ≤ add32 pointer (mul32 count pageSize)

instance (e : Entry) (pointer count : ℕ) : Decidable (e.UsedUp pointer count) :=
  inferInstanceAs (Decidable (_ ≤ _))

theorem Entry.usedUp_iff {e : Entry} {pointer count : ℕ} (hp : pointer < 2 ^ 32) :
    add32 pointer (bumpSize e pointer count) = e.finish ↔ e.UsedUp pointer count := by
  have hsum : add32 pointer (mul32 count pageSize) < 2 ^ 32 := Nat.mod_lt _ (by decide)
  rw [Entry.UsedUp, bumpSize]
  split_ifs with h
  · refine ⟨fun _ => h, fun _ => ?_⟩
    rw [add32, Nat.add_mod_mod]
    omega
  · refine ⟨fun heq => absurd heq.ge h, fun hle => absurd hle h⟩

/-- The state in which `alloc_nokmalloc` has moved the pointer. -/
def Mem.bumped (flags : Flags) (count : ℕ) (e : Entry) (s : Mem) : Mem := { s with
  mutex := !flags.has flagNolock
  page.pageIdCounter := s.page.pageIdCounter + 1
  page.allocationPointer :=
    add32 s.page.allocationPointer (bumpSize e s.page.allocationPointer count) }

/-- The run that `alloc_nokmalloc` writes. -/
def Mem.bumpRun (flags : Flags) (count : ℕ) (e : Entry) (s : Mem) : Page :=
  { ptr := 0, pageId := s.page.pageIdCounter, memBase := s.page.allocationPointer,
    flags := flagAllocated ||| flags,
    consecutive := bumpSize e s.page.allocationPointer count / pageSize }

section Alloc
variable {s t : Mem} {e : Entry} {flags : Flags} {count : ℕ}

theorem lockUnless_of_free (hs : s.mutex = false) (held : Bool) :
    (whenever (!held) mutexLock).Returns s () { s with mutex := !held } := by
  cases held with
  | true => exact returns_pure.mpr ⟨rfl, by rw [Bool.not_true, ← hs]⟩
  | false =>
    change (Exec.get >>= _).Returns s () _
    rw [returns_get_bind, if_neg (by simp [hs])]
    rfl

theorem unlockUnless_of_held (held : Bool) (hs : s.mutex = !held) :
    (whenever (!held) mutexUnlock).Returns s () { s with mutex := false } := by
  cases held with
  | true => exact returns_pure.mpr ⟨rfl, by rw [Bool.not_true] at hs; rw [← hs]⟩
  | false => rfl

/-- `alloc_nokmalloc` runs up to the skip, and goes on behind it. -/
theorem allocNokmalloc_bumped (hs : s.mutex = false)
    (he : s.page.memTable[s.page.currentMap]? = some e) :
    Page.allocNokmalloc flags count s = (do
      whenever ((s.bumped flags count e).page.allocationPointer == e.finish) nextRegion
      note (.handOut count s.page.allocationPointer (s.bumpRun flags count e).consecutive)
      whenever (!flags.has flagNolock) mutexUnlock
      pure (s.bumpRun flags count e)) (s.bumped flags count e) := by
  have hread := @readMap_of_entry { s with mutex := !flags.has flagNolock } e he
  rw [Page.allocNokmalloc, (lockUnless_of_free hs _).bind_eq, hread.bind_eq]
  rfl

theorem allocNokmalloc_of_skip (hs : s.mutex = false)
    (he : s.page.memTable[s.page.currentMap]? = some e)
    (h : (whenever ((s.bumped flags count e).page.allocationPointer == e.finish)
      nextRegion).Returns (s.bumped flags count e) () t)
    (hlock : t.mutex = !flags.has flagNolock) :
    (MapCall.allocNokmalloc flags count).exec.Returns s (some (s.bumpRun flags count e))
      { t with
        mutex := false
        trace := .handOut count s.page.allocationPointer (s.bumpRun flags count e).consecutive ::
          t.trace } := by
  refine returns_bind.mpr ⟨_, _, ?_, rfl⟩
  rw [Returns, allocNokmalloc_bumped hs he, h.bind_eq]
  change (note _ >>= _).Returns t _ _
  rw [returns_note_bind]
  refine returns_bind.mpr ⟨(), _, unlockUnless_of_held _ (by exact hlock), rfl⟩

theorem allocNokmalloc_stops (hs : s.mutex = false)
    (he : s.page.memTable[s.page.currentMap]? = some e) (hp : s.page.allocationPointer < 2 ^ 32)
    (hused : e.UsedUp s.page.allocationPointer count) {stuck : Stuck}
    (h : nextRegion.Stops (s.bumped flags count e) stuck t) :
    (MapCall.allocNokmalloc flags count).exec.Stops s stuck t := by
  refine Stops.bind ?_
  rw [Stops, allocNokmalloc_bumped hs he]
  have hfin : ((s.bumped flags count e).page.allocationPointer == e.finish) = true :=
    beq_iff_eq.mpr ((Entry.usedUp_iff hp).mpr hused)
  rw [hfin, whenever_true]
  exact h.bind

end Alloc

/-- The state between the calls: the lock is free, and `current_map` points into the table. -/
structure Mem.Ready (s : Mem) : Prop where
  mutex : s.mutex = false
  table : s.page.memTable.length = localMmCount
  current : s.page.currentMap < localMmCount
  pointer : s.page.allocationPointer < 2 ^ 32

/-- The state after a run has been handed out. -/
def Mem.handed (currentMap pointer : ℕ) (trace : List Event) (s : Mem) : Mem := { s with
  mutex := false
  page.pageIdCounter := s.page.pageIdCounter + 1
  page.allocationPointer := pointer
  page.currentMap := currentMap
  trace }

/-- What `alloc_nokmalloc` can do in the region `e`. -/
inductive Mem.Outcome (flags : Flags) (count : ℕ) (s : Mem) (e : Entry) : Prop
  | stays (unused : ¬ e.UsedUp s.page.allocationPointer count) {trace : List Event}
      (returns : (MapCall.allocNokmalloc flags count).exec.Returns s
        (some (s.bumpRun flags count e)) (s.handed s.page.currentMap
          (add32 s.page.allocationPointer (mul32 count pageSize)) trace))
  | moves (used : e.UsedUp s.page.allocationPointer count) {j : ℕ} {e' : Entry}
      (next : s.page.Next j e') (base : e'.base < 2 ^ 32) {trace : List Event}
      (returns : (MapCall.allocNokmalloc flags count).exec.Returns s
        (some (s.bumpRun flags count e)) (s.handed j e'.base trace))
  | far (used : e.UsedUp s.page.allocationPointer count) {j : ℕ} {e' : Entry}
      (next : s.page.Next j e') (base : 2 ^ 32 ≤ e'.base) {t : Mem}
      (stops : (MapCall.allocNokmalloc flags count).exec.Stops s
        (.panic "Ran out of addressable physical memory!") t)
  | ends (used : e.UsedUp s.page.allocationPointer count) (last : ¬ s.page.HasNext) {t : Mem}
      (stops : (MapCall.allocNokmalloc flags count).exec.Stops s .outOfBounds t)

theorem Mem.Ready.outcome {s : Mem} {e : Entry} (h : s.Ready) (flags : Flags) (count : ℕ)
    (he : s.page.memTable[s.page.currentMap]? = some e) : s.Outcome flags count e := by
  by_cases hused : e.UsedUp s.page.allocationPointer count
  · have hfin : ((s.bumped flags count e).page.allocationPointer == e.finish) = true :=
      beq_iff_eq.mpr ((Entry.usedUp_iff h.pointer).mpr hused)
    by_cases hnext : s.page.HasNext
    · obtain ⟨j, e', hj⟩ := hnext.next
      have hj' : (s.bumped flags count e).page.Next j e' := ⟨hj.entry, hj.type, hj.later, hj.first⟩
      have htable : (s.bumped flags count e).page.memTable.length = localMmCount := h.table
      rcases lt_or_ge e'.base (2 ^ 32) with hbase | hbase
      · have hreturns := nextRegion_of_next htable hj' hbase
        rw [← whenever_true nextRegion, ← hfin] at hreturns
        exact .moves hused hj hbase (allocNokmalloc_of_skip h.mutex he hreturns rfl)
      · obtain ⟨t, ht⟩ := nextRegion_of_far htable hj' hbase
        exact .far hused hj hbase (allocNokmalloc_stops h.mutex he h.pointer hused ht)
    · obtain ⟨t, ht⟩ := @nextRegion_of_none (s.bumped flags count e) h.table h.current hnext
      exact .ends hused hnext (allocNokmalloc_stops h.mutex he h.pointer hused ht)
  · have hfin : ((s.bumped flags count e).page.allocationPointer == e.finish) = false :=
      beq_eq_false_iff_ne.mpr fun heq => hused ((Entry.usedUp_iff h.pointer).mp heq)
    have hreturns : (whenever ((s.bumped flags count e).page.allocationPointer == e.finish)
        nextRegion).Returns (s.bumped flags count e) () (s.bumped flags count e) := by
      rw [hfin]
      rfl
    have hsize : bumpSize e s.page.allocationPointer count = mul32 count pageSize := if_neg hused
    have hrun := allocNokmalloc_of_skip h.mutex he hreturns rfl
    rw [Mem.bumped, hsize] at hrun
    exact .stays hused hrun

theorem Mem.Ready.entry {s : Mem} (h : s.Ready) :
    ∃ e, s.page.memTable[s.page.currentMap]? = some e :=
  ⟨_, List.getElem?_eq_getElem (h.current.trans_eq h.table.symm)⟩

theorem add32_lt (a b : ℕ) : add32 a b < 2 ^ 32 := Nat.mod_lt _ (Nat.two_pow_pos 32)

theorem kernelEnd_lt (vmEnd : BitVec 32) : kernelEnd vmEnd < 2 ^ 32 := by
  rw [kernelEnd]
  generalize kernelVmBase = base
  exact (Nat.sub_le _ base).trans_lt vmEnd.isLt

theorem Mem.Ready.started {s : Mem} (h : s.Ready) {j pointer : ℕ} (hj : j < localMmCount)
    (hp : pointer < 2 ^ 32) (cursor vmEnd : ℕ) :
    (s.started pointer j cursor vmEnd).Ready ∧
      (s.started pointer j cursor vmEnd).page.memTable = s.page.memTable :=
  ⟨⟨h.mutex, h.table, hj, hp⟩, rfl⟩

/-- A call that returns leaves the map as it was, and `current_map` in it. -/
theorem MapWalk.step_ready {w w' : MapWalk} {c : MapCall} (h : w.mem.Ready) (hstep : w.step c = some w') :
    w'.mem.Ready ∧ w'.mem.page.memTable = w.mem.page.memTable := by
  obtain ⟨page, hret, -⟩ := MapWalk.step_returns hstep
  cases c with
  | init vmEnd =>
    by_cases hstart : HasStart w.mem.page.memTable (kernelEnd vmEnd)
    · obtain ⟨j, e, hj⟩ := hstart.startsAt
      have hlt : j < w.mem.page.memTable.length := (List.getElem?_eq_some_iff.mp hj.entry).1
      obtain ⟨-, hmem⟩ := hret.unique (init_of_start hj)
      rw [hmem]
      exact h.started (hlt.trans_eq h.table) (kernelEnd_lt vmEnd) _ _
    · obtain ⟨t, ht⟩ := init_stops hstart
      exact absurd ht hret.not_stops
  | allocNokmalloc flags count =>
    obtain ⟨e, he⟩ := h.entry
    cases h.outcome flags count he with
    | stays _ returns =>
      have hpointer := add32_lt w.mem.page.allocationPointer (mul32 count pageSize)
      obtain ⟨-, hmem⟩ := hret.unique returns
      rw [hmem]
      exact ⟨⟨rfl, h.table, h.current, hpointer⟩, rfl⟩
    | moves _ next base returns =>
      have hlt := (List.getElem?_eq_some_iff.mp next.entry).1
      obtain ⟨-, hmem⟩ := hret.unique returns
      rw [hmem]
      exact ⟨⟨rfl, h.table, hlt.trans_eq h.table, base⟩, rfl⟩
    | far _ _ _ stops => exact absurd stops hret.not_stops
    | ends _ _ stops => exact absurd stops hret.not_stops

/-! ## The end of the table -/

namespace MapCall

/-- The call uses up the current region. -/
def UsesUp : MapCall → Mem → Prop
  | .init _, _ => False
  | .allocNokmalloc _ count, s =>
      ∃ e ∈ s.page.memTable[s.page.currentMap]?, e.UsedUp s.page.allocationPointer count

instance : ∀ c s, Decidable (UsesUp c s)
  | .init _, _ => inferInstanceAs (Decidable False)
  | .allocNokmalloc _ _, _ => inferInstanceAs (Decidable (∃ _ ∈ _, _))

/-- What a call should do at the end of the table: it reads entries of the table only, and
when no further region is left, it panics. -/
structure InTable (c : MapCall) (s : Mem) : Prop where
  reads : ∀ t, ¬ c.exec.Stops s .outOfBounds t
  panics : c.UsesUp s → ¬ s.page.HasNext →
    ∃ t, c.exec.Stops s (.panic "Ran out of physical memory!") t

/-- The table has a region for `page::init` to start in, and one to go on with for an
`alloc_nokmalloc` that uses up the current one. -/
def Left : MapCall → Mem → Prop
  | .init vmEnd, s => HasStart s.page.memTable (kernelEnd vmEnd)
  | .allocNokmalloc flags count, s => (MapCall.allocNokmalloc flags count).UsesUp s → s.page.HasNext

instance : ∀ c s, Decidable (Left c s)
  | .init _, _ => inferInstanceAs (Decidable (HasStart _ _))
  | .allocNokmalloc _ _, _ => inferInstanceAs (Decidable (_ → _))

theorem inTable_iff {c : MapCall} {s : Mem} (h : s.Ready) : c.InTable s ↔ c.Left s := by
  cases c with
  | init vmEnd =>
    constructor
    · intro hin
      by_contra hstart
      obtain ⟨t, ht⟩ := init_stops hstart
      exact hin.reads t ht
    · intro hstart
      obtain ⟨j, e, hj⟩ := HasStart.startsAt hstart
      exact ⟨fun t => (init_of_start hj).not_stops, fun hfalse => hfalse.elim⟩
  | allocNokmalloc flags count =>
    obtain ⟨e, he⟩ := h.entry
    constructor
    · intro hin hused
      by_contra hnext
      obtain ⟨e', he', hused'⟩ := hused
      obtain rfl := Option.some.inj (he.symm.trans he')
      cases h.outcome flags count he with
      | stays unused _ => exact unused hused'
      | moves _ next _ _ => exact hnext next.hasNext
      | far _ next _ _ => exact hnext next.hasNext
      | ends _ _ stops => exact hin.reads _ stops
    · intro hleft
      refine ⟨fun t ht => ?_, fun hused hnext => absurd (hleft hused) hnext⟩
      cases h.outcome flags count he with
      | stays _ returns => exact returns.not_stops ht
      | moves _ _ _ returns => exact returns.not_stops ht
      | far _ _ _ stops =>
        rw [Stops, stops] at ht
        cases ht
      | ends used last _ => exact last (hleft ⟨e, he, used⟩)

end MapCall

namespace MapWalk

theorem boot_ready {memTable : List Entry} (h : memTable.length = localMmCount) :
    (boot memTable).mem.Ready :=
  ⟨rfl, h, Nat.zero_lt_succ _, Nat.two_pow_pos 32⟩

theorem along_inTable {w : MapWalk} {calls : List MapCall} (h : w.mem.Ready) :
    Steps.Along step (fun w c => c.InTable w.mem) w calls ↔
      Steps.Along step (fun w c => c.Left w.mem) w calls :=
  Steps.along_congr (I := fun w => w.mem.Ready) (fun _ _ _ hw hstep => (step_ready hw hstep).1)
    (fun _ _ hw => MapCall.inTable_iff hw) h

/-- For every content of the table and every sequence of calls that begins with `page::init`:
all calls stay in the table, and panic at its end, if and only if every call finds what it
looks for in the table. -/
theorem inTable_iff_left {memTable : List Entry} (h : memTable.length = localMmCount)
    (vmEnd : BitVec 32) (calls : List MapCall) :
    Steps.Along step (fun w c => c.InTable w.mem) (boot memTable) (.init vmEnd :: calls) ↔
      Steps.Along step (fun w c => c.Left w.mem) (boot memTable) (.init vmEnd :: calls) :=
  along_inTable (boot_ready h)

/-- A table whose only region of type 1 has four frames above the kernel. -/
def fourFramesOnly : List Entry := ⟨0x100000, 0x4000, 1⟩ :: List.replicate 9 ⟨0, 0, 0⟩

/-- Three frames of that region are handed out. -/
theorem inTable_iff_left_three :
    Steps.Along step (fun w c => c.InTable w.mem) (boot fourFramesOnly)
      [.init 0xc0100000, .allocNokmalloc 0 3] :=
  (inTable_iff_left (by decide) 0xc0100000 [.allocNokmalloc 0 3]).mpr (by decide)

/-- The fourth frame uses up the region, and the walk leaves the table. -/
theorem not_inTable_four :
    ¬ Steps.Along step (fun w c => c.InTable w.mem) (boot fourFramesOnly)
      [.init 0xc0100000, .allocNokmalloc 0 4] := by
  rw [along_inTable (boot_ready (by decide))]
  decide

end MapWalk

end Cantos
