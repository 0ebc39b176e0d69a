import Cantos.Mem.Lock

/-!
# How the heap grows

`do_kmalloc`, `kmalloc` and `page::alloc` call each other, but a call that returns
has run in a simple way: it has grown the heap some number of times, every time by a
single run of frames, and then taken a block off the free list.

The reason is that a growth needs at least two frames.  When it needs a record for
its run, the nested request for the record is served from the free list: otherwise
it would grow the heap in its turn, need a record for that, and make the same request
in the same state again.  And a chain of more than one run stops at the lock.

## Main definitions

* `Kmem.recordFit`: the block the nested request for a record is served from.
* `Gets`: what `page::alloc` returns to a growth.
* `Grants`: how a request of `do_kmalloc` is met.
-/

namespace Cantos

open Linked Exec

/-! ## Functions that do not call the heap -/

theorem lockUnless_returns {held : Bool} {u : Unit} {s s' : Mem} (hs : s.mutex = held)
    (h : (whenever (!held) mutexLock).Returns s u s') : s' = { s with mutex := true } := by
  cases held with
  | true =>
    obtain ⟨-, rfl⟩ := returns_pure.mp h
    rw [← hs]
  | false =>
    change (Exec.get >>= _).Returns s u s' at h
    rw [returns_get_bind, if_neg (by simp [hs])] at h
    exact returns_set.mp h

theorem mutexLock_returns {u : Unit} {s s' : Mem} (hs : s.mutex = false)
    (h : mutexLock.Returns s u s') : s' = { s with mutex := true } := lockUnless_returns hs h

theorem unlockUnless_returns {held : Bool} {u : Unit} {s s' : Mem} (hs : s.mutex = true)
    (h : (whenever (!held) mutexUnlock).Returns s u s') : s' = { s with mutex := held } := by
  cases held with
  | true =>
    obtain ⟨-, rfl⟩ := returns_pure.mp h
    rw [← hs]
  | false => exact returns_modify.mp h

theorem lockIf_returns {lock : Bool} {u : Unit} {s s' : Mem} (hs : s.mutex = !lock)
    (h : (whenever lock mutexLock).Returns s u s') : s' = { s with mutex := true } :=
  lockUnless_returns hs (by rwa [Bool.not_not])

theorem unlockIf_returns {lock : Bool} {u : Unit} {s s' : Mem} (hs : s.mutex = true)
    (h : (whenever lock mutexUnlock).Returns s u s') : s' = { s with mutex := !lock } :=
  unlockUnless_returns hs (by rwa [Bool.not_not])

/-- Map `k` frames at the end of kernel virtual memory. -/
def Mem.mapped (k : ℕ) (table : ℕ → ℕ) (cursor : ℕ) (s : Mem) : Mem := { s with
  kmem.memoryEnd := s.page.virtualPointer + k * pageSize
  page.table := table
  page.cursor := cursor
  page.virtualPointer := s.page.virtualPointer + k * pageSize }

/-- Hand the mapped run `page` to the heap, and to the list of used pages. -/
def Mem.attached (prev pagesNeeded : ℕ) (page : Page) (installedLoc : ℕ) (s : Mem) :
    Mem := { s with
  kmem := s.kmem.attach prev pagesNeeded page.consecutive installedLoc
  page.usedStart := page :: s.page.usedStart }

/-- A growth by `n` pages with the run `page`, mapped at `loc`. -/
def Mem.grown (page : Page) (table : ℕ → ℕ) (cursor prev n loc : ℕ) (s : Mem) : Mem :=
  (s.mapped page.consecutive table cursor).attached prev n page loc

theorem appendRun_returns {memBase flags k i : ℕ} {first r : ℕ} {s s' : Mem}
    (h : (Page.appendRun memBase flags k i first).Returns s r s') :
    (∃ table cursor, s' = { s with
      page.table := table
      page.cursor := cursor
      page.virtualPointer := s.page.virtualPointer + k * pageSize }) ∧
    (first ≠ 0 → r = first) ∧
    (0 < k → (0 < s.page.virtualPointer → first = 0 → r = s.page.virtualPointer) ∧
      s'.page.virtualPointer < totalVmSize) := by
  induction k generalizing i first s with
  | zero =>
    obtain ⟨rfl, rfl⟩ := returns_pure.mp h
    exact ⟨⟨s'.page.table, s'.page.cursor, by simp⟩, fun _ => rfl, by simp⟩
  | succ k ih =>
    rw [Page.appendRun, returns_get_bind] at h
    by_cases hv : s.page.virtualPointer ≥ totalVmSize - pageSize
    · rw [if_pos hv] at h
      exact absurd h returns_stop
    rw [if_neg hv, returns_set_bind] at h
    obtain ⟨⟨table, cursor, rfl⟩, hfirst, hk⟩ := ih h
    simp only [sizes] at *
    have hsum : s.page.virtualPointer + 4096 + k * 4096 =
        s.page.virtualPointer + (k + 1) * 4096 := by omega
    refine ⟨⟨table, cursor, by simp only [hsum]⟩, fun hf => ?_, fun _ => ⟨fun hp hf => ?_, ?_⟩⟩
    · rw [hfirst (by rwa [if_neg hf]), if_neg hf]
    · rw [hfirst (by rw [if_pos hf]; omega), if_pos hf]
    · rcases Nat.eq_zero_or_pos k with rfl | hk'
      · simp only [Nat.zero_mul, Nat.add_zero]
        omega
      · exact (hk hk').2

/-- With the lock held by the caller, `kinstall_append` returns for one run only. -/
theorem kinstallAppend_returns {page : List Page} {pageFlags : ℕ} {loc : ℕ} {s s' : Mem}
    (hs : s.mutex = true) (h : (Page.kinstallAppend page pageFlags false).Returns s loc s') :
    ∃ run, page = [run] ∧ (∃ table cursor, s' = s.mapped run.consecutive table cursor) ∧
      (0 < run.consecutive → (0 < s.page.virtualPointer → loc = s.page.virtualPointer) ∧
        s'.page.virtualPointer < totalVmSize) := by
  cases page with
  | nil => exact absurd h returns_stop
  | cons run next =>
    rw [Page.kinstallAppend, whenever_false, returns_pure_bind] at h
    obtain ⟨first, s₁, hrun, h⟩ := returns_bind.mp h
    rw [returns_modify_bind, whenever_false, returns_pure_bind] at h
    obtain ⟨⟨table, cursor, rfl⟩, -, hk⟩ := appendRun_returns hrun
    by_cases hnext : next.isEmpty
    · rw [if_pos hnext] at h
      obtain ⟨rfl, rfl⟩ := returns_pure.mp h
      obtain rfl := List.isEmpty_iff.mp hnext
      exact ⟨run, rfl, ⟨table, cursor, rfl⟩, fun hpos => ⟨fun hp => (hk hpos).1 hp rfl,
        (hk hpos).2⟩⟩
    · rw [if_neg hnext, returns_note_bind] at h
      obtain ⟨_, s₁, hrest, -⟩ := returns_bind.mp h
      exact absurd (kinstallAppend_stops (by simpa using hnext) (by exact hs)) hrest.not_stops

theorem used_returns {page : Page} {u : Unit} {s s' : Mem}
    (h : (Page.used [page] false).Returns s u s') :
    s' = { s with page.usedStart := page :: s.page.usedStart } := by
  rw [Page.used, whenever_false, returns_pure_bind, returns_modify_bind, whenever_false,
    returns_pure_bind] at h
  exact (returns_pure.mp h).2

/-! ## The bump allocator -/

theorem readMap_returns {e : Entry} {s s' : Mem} (h : readMap.Returns s e s') :
    s.page.memTable[s.page.currentMap]? = some e ∧ s' = s := by
  rw [readMap, returns_get_bind] at h
  rcases hm : s.page.memTable[s.page.currentMap]? with _ | e'
  · rw [hm] at h
    exact absurd h returns_stop
  · rw [hm] at h
    obtain ⟨rfl, rfl⟩ := returns_pure.mp h
    exact ⟨rfl, rfl⟩

theorem seekRegion_returns {k : ℕ} {u : Unit} {s s' : Mem}
    (h : (seekRegion k).Returns s u s') : ∃ map, s' = { s with page.currentMap := map } := by
  induction k generalizing s with
  | zero => exact ⟨s.page.currentMap, (returns_pure.mp h).2⟩
  | succ k ih =>
    rw [seekRegion] at h
    obtain ⟨e, s₁, hr, hrest⟩ := returns_bind.mp h
    obtain ⟨-, rfl⟩ := readMap_returns hr
    rw [returns_get_bind] at hrest
    split_ifs at hrest with hc
    · obtain ⟨map, rfl⟩ := ih (returns_modify_bind.mp hrest)
      exact ⟨map, rfl⟩
    · exact ⟨s₁.page.currentMap, (returns_pure.mp hrest).2⟩

theorem nextRegion_returns {u : Unit} {s s' : Mem} (h : nextRegion.Returns s u s') :
    ∃ map e, s.page.memTable[map]? = some e ∧
      s' = { s with page.currentMap := map, page.allocationPointer := e.base } := by
  obtain ⟨_, s₁, hseek, hrest⟩ := returns_bind.mp (returns_modify_bind.mp h)
  obtain ⟨map, rfl⟩ := seekRegion_returns hseek
  rw [returns_get_bind] at hrest
  split_ifs at hrest with hend
  · exact absurd hrest returns_stop
  obtain ⟨e, s₂, hr, hset⟩ := returns_bind.mp hrest
  obtain ⟨he, rfl⟩ := readMap_returns hr
  split_ifs at hset with hbase
  · exact absurd hset returns_stop
  · obtain rfl := returns_modify.mp hset
    exact ⟨map, e, he, rfl⟩

/-- What the bump allocator does to hand out the run `p` for `count` frames. -/
structure Bumped (count : ℕ) (s : Mem) (p : Page) (s' : Mem) : Prop where
  state : ∃ pageId pointer map, s' = { s with
    page.pageIdCounter := pageId
    page.allocationPointer := pointer
    page.currentMap := map
    trace := .handOut count p.memBase p.consecutive :: s.trace }
  base : p.memBase = s.page.allocationPointer
  /-- The run comes from the current region, and the pointer moves behind it or to the
  next region. -/
  region : ∃ e, s.page.memTable[s.page.currentMap]? = some e ∧
    p.consecutive = bumpSize e s.page.allocationPointer count / pageSize ∧
    ((∃ e', s.page.memTable[s'.page.currentMap]? = some e' ∧ s'.page.allocationPointer = e'.base) ∨
      s'.page.currentMap = s.page.currentMap ∧
      s'.page.allocationPointer =
        add32 s.page.allocationPointer (bumpSize e s.page.allocationPointer count) ∧
      s'.page.allocationPointer ≠ e.finish)

/-- Taking the lock and giving it back around a run changes nothing. -/
theorem Bumped.unlock {count : ℕ} {p : Page} {s s' : Mem} (hs : s.mutex = false)
    (h : Bumped count { s with mutex := true } p s') :
    Bumped count s p { s' with mutex := false } := by
  obtain ⟨⟨pageId, pointer, map, rfl⟩, hbase, hregion⟩ := h
  exact ⟨⟨pageId, pointer, map, by rw [← hs]⟩, hbase, hregion⟩

/-- The bump allocator, for a caller that tells it that it holds the lock, or does not
hold it. -/
theorem allocNokmalloc_returns {flags : Flags} {count : ℕ} {p : Page} {s s' : Mem}
    (hf : flags.has flagNolock = true ∨ s.mutex = false)
    (h : (Page.allocNokmalloc flags count).Returns s p s') : Bumped count s p s' := by
  obtain ⟨_, s₀, hlock, hbody⟩ := returns_bind.mp h
  obtain ⟨e, s₁, hr, hrest⟩ := returns_bind.mp hbody
  obtain ⟨he, rfl⟩ := readMap_returns hr
  rw [returns_get_bind] at hrest
  simp only [returns_set_bind] at hrest
  obtain ⟨_, s₂, hnext, hend⟩ := returns_bind.mp hrest
  rw [returns_note_bind] at hend
  obtain ⟨_, s₃, hunlock, hret⟩ := returns_bind.mp hend
  obtain ⟨hp, rfl⟩ := returns_pure.mp hret
  have hbumped : Bumped count s₁ p { s₂ with
      trace := .handOut count p.memBase p.consecutive :: s₂.trace } := by
    subst hp
    by_cases hfin : add32 s₁.page.allocationPointer
      (bumpSize e s₁.page.allocationPointer count) = e.finish
    · rw [whenever, if_pos (by simpa using hfin)] at hnext
      obtain ⟨map, e', he', rfl⟩ := nextRegion_returns hnext
      exact ⟨⟨_, _, _, rfl⟩, rfl, e, he, rfl, .inl ⟨e', he', rfl⟩⟩
    · rw [whenever, if_neg (by simpa using hfin)] at hnext
      obtain ⟨-, rfl⟩ := returns_pure.mp hnext
      exact ⟨⟨_, _, _, rfl⟩, rfl, e, he, rfl, .inr ⟨rfl, rfl, hfin⟩⟩
  subst hp
  by_cases hc : flags.has flagNolock
  · rw [hc] at hlock hunlock
    obtain ⟨-, rfl⟩ := returns_pure.mp hlock
    obtain ⟨-, rfl⟩ := returns_pure.mp hunlock
    exact hbumped
  · have hs := hf.resolve_left hc
    rw [Bool.not_eq_true] at hc
    rw [hc] at hlock hunlock
    obtain rfl := mutexLock_returns hs hlock
    obtain rfl := returns_modify.mp hunlock
    exact hbumped.unlock hs

/-! ## The nested request for a record -/

/-- The search for a block that can hold the record of a run, with the block before
it.  Reserved requests always search. -/
def Kmem.recordFit (k : Kmem) : ℕ × Option KmemFree :=
  Kmem.findFit (Kmem.sizeNeeded sizeofPage) 0 k.freeList

theorem Kmem.search_reserved {flags : Flags} (hf : flags.has kmallocReserved = true) (k : Kmem)
    (sizeNeeded : ℕ) : k.search sizeNeeded flags = Kmem.findFit sizeNeeded 0 k.freeList := by
  simp [Kmem.search, hf]

theorem Kmem.search_nolock (k : Kmem) (sizeNeeded : ℕ) (flags : Flags) :
    k.search sizeNeeded (flags ||| kmallocNolock) = k.search sizeNeeded flags := by
  have h : (flags ||| kmallocNolock).has kmallocReserved = flags.has kmallocReserved := by
    rw [Flags.has, Flags.has, BitVec.and_or_distrib_right,
      show kmallocNolock &&& kmallocReserved = 0 from by decide]
    exact congrArg (· != 0) BitVec.or_zero
  rw [Kmem.search, Kmem.search, h]

theorem Kmem.roundSize_pos {size : ℕ} : 0 < Kmem.roundSize size := by
  simp only [Kmem.roundSize, sizes]
  split_ifs <;> omega

theorem Kmem.roundSize_record : Kmem.roundSize sizeofPage = sizeofPage := by decide

theorem Kmem.roundSize_roundSize (size : ℕ) :
    Kmem.roundSize (Kmem.roundSize size) = Kmem.roundSize size := by
  simp only [Kmem.roundSize, sizes]
  split_ifs <;> omega

theorem Kmem.two_le_pagesNeeded (k : Kmem) (prev sizeNeeded : ℕ) :
    2 ≤ k.pagesNeeded prev sizeNeeded := Nat.le_add_left _ _

/-- A record is small: a growth that is only for a record takes two pages. -/
theorem Kmem.pagesNeeded_record (k : Kmem) (prev : ℕ) :
    k.pagesNeeded prev (Kmem.sizeNeeded sizeofPage) = 2 := by
  simp only [Kmem.pagesNeeded, Kmem.sizeNeeded, sizes]
  split_ifs <;> omega

theorem kmalloc_nolock {flags : Flags} (hf : flags.has kmallocNolock = true) (depth size : ℕ) :
    Kmem.kmalloc (depth + 1) size flags = Kmem.doKmalloc depth size flags := by
  funext s
  rw [Kmem.kmalloc, hf, Bool.not_true, whenever_false, whenever_false]
  change (Kmem.doKmalloc depth size flags >>= fun ret => pure () >>= fun _ => pure ret) s = _
  rw [Exec.bind_def]
  rcases Kmem.doKmalloc depth size flags s with ⟨_ | a, s'⟩ <;> rfl

/-- Whether `page::alloc` needs a record for the first run of `count` frames: it does
not when it can take the whole first entry of the free list. -/
def PageState.needsRecord (p : PageState) (count : ℕ) : Prop :=
  ∀ head ∈ p.pageFreeHead.head?, count < head.consecutive

/-- Where `page::alloc` needs a record, it first asks for it. -/
theorem alloc_record {depth count : ℕ} {flags : Flags} {s s' : Mem} {e : Stuck}
    (hf : flags.has flagNolock = true) (hc : count ≠ 0) (hn : s.page.needsRecord count)
    (h : (Kmem.kmalloc depth sizeofPage (allocFlag flags)).Stops s e s') :
    (Page.alloc (depth + 1) flags count).Stops s e s' := by
  rw [Page.alloc, if_neg hc, hf, Bool.not_true, whenever_false]
  refine stops_bind.mpr (.inr ⟨(), s, rfl, stops_bind.mpr (.inr ⟨s, s, rfl, ?_⟩)⟩)
  refine stops_bind.mpr (.inl ?_)
  rcases hP : s.page.pageFreeHead with _ | ⟨head, next⟩
  · exact stops_bind.mpr (.inl h)
  · rw [PageState.needsRecord, hP] at hn
    simp only [if_pos (hn head rfl)]
    exact stops_bind.mpr (.inl h)

theorem alloc_zero_diverges {count : ℕ} {flags : Flags} (hf : flags.has flagNolock = true)
    (hc : count ≠ 0) (s : Mem) : (Page.alloc 0 flags count).Stops s .diverge s := by
  rw [Page.alloc, if_neg hc, hf]
  exact stops_bind.mpr (.inr ⟨(), s, rfl, stops_stop.mpr ⟨rfl, rfl⟩⟩)

/-- Where `do_kmalloc` finds no block, it first asks `page::alloc` for frames. -/
theorem doKmalloc_alloc {depth size prev : ℕ} {flags : Flags} {s s' : Mem} {e : Stuck}
    (hsize : size ≠ 0)
    (hfit : s.kmem.search (Kmem.sizeNeeded (Kmem.roundSize size)) flags = (prev, none))
    (h : (Page.alloc depth growthFlags (s.kmem.pagesNeeded prev
      (Kmem.sizeNeeded (Kmem.roundSize size)))).Stops s e s') :
    (Kmem.doKmalloc (depth + 1) size flags).Stops s e s' := by
  rw [Kmem.doKmalloc, if_neg hsize]
  refine stops_bind.mpr (.inr ⟨s, s, rfl, ?_⟩)
  rw [hfit]
  exact stops_bind.mpr (.inl h)

/-- A nested request for a record that no free block can hold repeats itself. -/
theorem record_diverges {s : Mem} {prev : ℕ} (hfit : s.kmem.recordFit = (prev, none))
    (hn : s.page.needsRecord 2) (depth : ℕ) :
    (Kmem.kmalloc depth sizeofPage (kmallocReserved ||| kmallocNolock)).Stops s .diverge s := by
  have hsearch : s.kmem.search (Kmem.sizeNeeded (Kmem.roundSize sizeofPage))
      (kmallocReserved ||| kmallocNolock) = (prev, none) := by
    rw [Kmem.search_reserved (by decide)]
    exact hfit
  have hpages : s.kmem.pagesNeeded prev (Kmem.sizeNeeded (Kmem.roundSize sizeofPage)) = 2 := by
    rw [Kmem.roundSize_record]
    exact s.kmem.pagesNeeded_record prev
  induction depth using Nat.strongRecOn with
  | _ depth ih =>
    rcases depth with _ | _ | _ | depth
    · exact stops_stop.mpr ⟨rfl, rfl⟩
    · rw [kmalloc_nolock (by decide)]
      exact stops_stop.mpr ⟨rfl, rfl⟩
    · rw [kmalloc_nolock (by decide)]
      refine doKmalloc_alloc (by decide) hsearch ?_
      exact alloc_zero_diverges (by decide) (by rw [hpages]; decide) s
    · rw [kmalloc_nolock (by decide)]
      refine doKmalloc_alloc (by decide) hsearch ?_
      rw [hpages]
      exact alloc_record (by decide) (by decide) hn (ih depth (by omega))

/-- The state after a request for a record was met by the block `free`. -/
def Mem.recorded (prev : ℕ) (free : KmemFree) (s : Mem) : Mem :=
  { s with kmem := s.kmem.takeBlock prev free sizeofPage }

/-- A nested request for a record that returns is met by a free block, unless a whole
entry of two frames spares it the record of its own. -/
theorem record_returns {depth r : ℕ} {s s' : Mem} (hn : s.page.needsRecord 2)
    (h : (Kmem.kmalloc depth sizeofPage (kmallocReserved ||| kmallocNolock)).Returns s r s') :
    ∃ prev free, s.kmem.recordFit = (prev, some free) ∧ r = free.base + sizeofHeader ∧
      s' = s.recorded prev free := by
  rcases hfit : s.kmem.recordFit with ⟨prev, _ | free⟩
  · exact absurd (record_diverges hfit hn depth) h.not_stops
  · rcases depth with _ | _ | depth
    · exact absurd h returns_stop
    · rw [kmalloc_nolock (by decide)] at h
      exact absurd h returns_stop
    · rw [kmalloc_nolock (by decide), Kmem.doKmalloc, if_neg (by decide)] at h
      have hsearch : s.kmem.search (Kmem.sizeNeeded sizeofPage)
          (kmallocReserved ||| kmallocNolock) = (prev, some free) := by
        rw [Kmem.search_reserved (by decide)]
        exact hfit
      simp only [returns_get_bind, Kmem.roundSize_record, hsearch, returns_set_bind] at h
      obtain ⟨rfl, rfl⟩ := returns_pure.mp h
      exact ⟨prev, free, rfl, rfl, rfl⟩

/-! ## `page::alloc` -/

/-- Cut `count` frames off the first entry of the free list. -/
def Mem.cut (count : ℕ) (head : Page) (next : List Page) (s : Mem) : Mem := { s with
  page.pageIdCounter := s.page.pageIdCounter + 1
  page.pageFreeHead := { head with
    memBase := add32 head.memBase (mul32 count pageSize)
    consecutive := sub32 head.consecutive count } :: next
  trace := .cut count head.consecutive :: s.trace }

theorem cutHead_returns {ptr count : ℕ} {flags : Flags} {p : Page} {s s' : Mem}
    (h : (Page.cutHead ptr flags count).Returns s p s') :
    ∃ head next, s.page.pageFreeHead = head :: next ∧ s' = s.cut count head next ∧
      p = { ptr, pageId := s.page.pageIdCounter, memBase := head.memBase, flags,
            consecutive := count } := by
  rw [Page.cutHead, returns_get_bind] at h
  rcases hP : s.page.pageFreeHead with _ | ⟨head, next⟩
  · rw [hP] at h
    exact absurd h returns_stop
  · rw [hP] at h
    simp only [returns_note_bind, returns_modify_bind] at h
    obtain ⟨rfl, rfl⟩ := returns_pure.mp h
    exact ⟨head, next, rfl, rfl, rfl⟩

/-- How `page::alloc` gets the first run of a chain, with the lock held. -/
inductive FirstRun (depth : ℕ) (flags : Flags) (count : ℕ) (s : Mem) : Page → Mem → Prop
  | fresh {ptr s₁ p s₂} (empty : s.page.pageFreeHead = [])
      (record : (Kmem.kmalloc depth sizeofPage (allocFlag flags)).Returns s ptr s₁)
      (bump : Bumped count s₁ p s₂) :
      FirstRun depth flags count s { p with ptr } s₂
  | cut {ptr s₁ head head' next next'} (entries : s.page.pageFreeHead = head :: next)
      (more : count < head.consecutive)
      (record : (Kmem.kmalloc depth sizeofPage (allocFlag flags)).Returns s ptr s₁)
      (left : s₁.page.pageFreeHead = head' :: next') :
      FirstRun depth flags count s
        { ptr, pageId := s₁.page.pageIdCounter, memBase := head'.memBase, flags,
          consecutive := count }
        (s₁.cut count head' next')
  | whole {head next} (entries : s.page.pageFreeHead = head :: next)
      (less : head.consecutive ≤ count) :
      FirstRun depth flags count s { head with flags } { s with page.pageFreeHead := next }

/-- How `page::alloc` gets the first run, with the lock held. -/
def Page.allocFirst (depth : ℕ) (flags : Flags) (count : ℕ) : M Page := do
  let s ← Exec.get
  match s.page.pageFreeHead with
  | head :: next =>
      if head.consecutive > count then do
        let ptr ← Kmem.kmalloc depth sizeofPage (allocFlag flags)
        Page.cutHead ptr flags count
      else do
        Exec.modify fun s => { s with page.pageFreeHead := next }
        pure { head with flags }
  | [] => do
      let ptr ← Kmem.kmalloc depth sizeofPage (allocFlag flags)
      let staticPage ← Page.allocNokmalloc (flags ||| flagNolock) count
      pure { staticPage with ptr }

theorem allocFirst_returns {depth count : ℕ} {flags : Flags} {page : Page} {s s' : Mem}
    (h : (Page.allocFirst depth flags count).Returns s page s') :
    FirstRun depth flags count s page s' := by
  rw [Page.allocFirst, returns_get_bind] at h
  rcases hP : s.page.pageFreeHead with _ | ⟨head, next⟩
  · simp only [hP] at h
    obtain ⟨ptr, t, hrec, h⟩ := returns_bind.mp h
    obtain ⟨p, t', hbump, h⟩ := returns_bind.mp h
    obtain ⟨rfl, rfl⟩ := returns_pure.mp h
    exact .fresh hP hrec (allocNokmalloc_returns (.inl (has_or_self (by decide))) hbump)
  · simp only [hP] at h
    split_ifs at h with hmore
    · obtain ⟨ptr, t, hrec, h⟩ := returns_bind.mp h
      obtain ⟨head', next', hleft, rfl, rfl⟩ := cutHead_returns h
      exact .cut hP hmore hrec hleft
    · rw [returns_modify_bind] at h
      obtain ⟨rfl, rfl⟩ := returns_pure.mp h
      exact .whole hP (by omega)

theorem alloc_eq {depth count : ℕ} {flags : Flags} (hc : count ≠ 0) :
    Page.alloc (depth + 1) flags count = (do
      whenever (!flags.has flagNolock) mutexLock
      let newPage ← Page.allocFirst depth flags count
      let next ← (if newPage.consecutive < count then do
          note (.allocRest flags)
          Page.alloc depth flags (count - newPage.consecutive)
        else pure [])
      whenever (!flags.has flagNolock) mutexUnlock
      pure (newPage :: next)) := by
  rw [Page.alloc, if_neg hc]
  rfl

theorem alloc_returns {depth count : ℕ} {flags : Flags} {chain : List Page} {s s' : Mem}
    (hc : count ≠ 0) (h : (Page.alloc (depth + 1) flags count).Returns s chain s') :
    ∃ s₀ page s₁ next s₂, (whenever (!flags.has flagNolock) mutexLock).Returns s () s₀ ∧
      FirstRun depth flags count s₀ page s₁ ∧
      (count ≤ page.consecutive ∧ next = [] ∧ s₂ = s₁ ∨
        page.consecutive < count ∧
        (Page.alloc depth flags (count - page.consecutive)).Returns
          { s₁ with trace := .allocRest flags :: s₁.trace } next s₂) ∧
      (whenever (!flags.has flagNolock) mutexUnlock).Returns s₂ () s' ∧ chain = page :: next := by
  rw [alloc_eq hc] at h
  obtain ⟨_, s₀, hlock, hbody⟩ := returns_bind.mp h
  obtain ⟨page, s₁, hfirst, hrest⟩ := returns_bind.mp hbody
  obtain ⟨next, s₂, hnext, hend⟩ := returns_bind.mp hrest
  obtain ⟨_, s₃, hunlock, hret⟩ := returns_bind.mp hend
  obtain ⟨rfl, rfl⟩ := returns_pure.mp hret
  refine ⟨s₀, page, s₁, next, s₂, hlock, allocFirst_returns hfirst, ?_, hunlock, rfl⟩
  split_ifs at hnext with hless
  · exact .inr ⟨hless, returns_note_bind.mp hnext⟩
  · obtain ⟨rfl, rfl⟩ := returns_pure.mp hnext
    exact .inl ⟨by omega, rfl, rfl⟩

theorem Bumped.mutex {count : ℕ} {p : Page} {s s' : Mem} (h : Bumped count s p s') :
    s'.mutex = s.mutex := by
  obtain ⟨pageId, pointer, map, rfl⟩ := h.state
  rfl

theorem FirstRun.mutex {depth count : ℕ} {flags : Flags} {page : Page} {s s' : Mem}
    (h : FirstRun depth flags count s page s') (hs : s.mutex = true) : s'.mutex = true := by
  have hlock := locks_kmalloc depth sizeofPage (allocFlag flags)
  rw [allocFlag_has_nolock] at hlock
  cases h with
  | fresh empty record bump => exact bump.mutex.trans (hlock.returns record hs)
  | cut entries more record left =>
    have hmutex := hlock.returns record hs
    exact hmutex
  | whole entries less => exact hs

theorem alloc_zero_returns {count : ℕ} {flags : Flags} {chain : List Page} {s s' : Mem}
    (h : (Page.alloc 0 flags count).Returns s chain s') : chain = [] ∧ s' = s := by
  rw [Page.alloc] at h
  split_ifs at h with hc
  · exact returns_pure.mp h
  · obtain ⟨_, _, -, hstop⟩ := returns_bind.mp h
    exact absurd hstop returns_stop

/-- A call for a positive number of frames returns at least one run. -/
theorem alloc_ne_nil {depth count : ℕ} {flags : Flags} {chain : List Page} {s s' : Mem}
    (hc : count ≠ 0) (h : (Page.alloc depth flags count).Returns s chain s') : chain ≠ [] := by
  rcases depth with _ | depth
  · rw [Page.alloc, if_neg hc] at h
    obtain ⟨_, _, -, hstop⟩ := returns_bind.mp h
    exact absurd hstop returns_stop
  · obtain ⟨_, page, _, next, _, _, _, _, _, rfl⟩ := alloc_returns hc h
    exact List.cons_ne_nil page next

/-- `page::alloc` for a caller that holds the lock. -/
theorem alloc_returns_held {depth count : ℕ} {flags : Flags} {chain : List Page} {s s' : Mem}
    (hf : flags.has flagNolock = true) (hc : count ≠ 0)
    (h : (Page.alloc (depth + 1) flags count).Returns s chain s') :
    ∃ page s₁ next, FirstRun depth flags count s page s₁ ∧ chain = page :: next ∧
      (count ≤ page.consecutive ∧ next = [] ∧ s' = s₁ ∨
        page.consecutive < count ∧
        (Page.alloc depth flags (count - page.consecutive)).Returns
          { s₁ with trace := .allocRest flags :: s₁.trace } next s') := by
  obtain ⟨s₀, page, s₁, next, s₂, hlock, hfirst, hrest, hunlock, rfl⟩ := alloc_returns hc h
  rw [hf] at hlock hunlock
  obtain ⟨-, rfl⟩ := returns_pure.mp hlock
  obtain ⟨-, rfl⟩ := returns_pure.mp hunlock
  exact ⟨page, s₁, next, hfirst, rfl, hrest⟩

/-! ## Growth -/

/-- How `page::alloc` gets the run for a growth by `n` pages, from the state `s`. -/
inductive Gets (n : ℕ) (s : Mem) : Page → Mem → Prop
  /-- Fresh frames, and a record from the heap. -/
  | fresh {prev free p s'} (empty : s.page.pageFreeHead = [])
      (fit : s.kmem.recordFit = (prev, some free)) (bump : Bumped n (s.recorded prev free) p s')
      (enough : n ≤ p.consecutive) :
      Gets n s { p with ptr := free.base + sizeofHeader } s'
  /-- The first frames of the first free entry, and a record from the heap. -/
  | cut {prev free head next} (entries : s.page.pageFreeHead = head :: next)
      (more : n < head.consecutive) (fit : s.kmem.recordFit = (prev, some free)) :
      Gets n s
        { ptr := free.base + sizeofHeader, pageId := s.page.pageIdCounter,
          memBase := head.memBase, flags := growthFlags, consecutive := n }
        ((s.recorded prev free).cut n head next)
  /-- The first free entry as it is. -/
  | whole {head next} (entries : s.page.pageFreeHead = head :: next)
      (enough : head.consecutive = n) :
      Gets n s { head with flags := growthFlags } { s with page.pageFreeHead := next }

/-- How a request of `do_kmalloc` for `size` bytes, rounded, is met. -/
inductive Grants (size : ℕ) (flags : Flags) : Mem → ℕ → Mem → Prop
  | served {s prev free} (fit : s.kmem.search (Kmem.sizeNeeded size) flags = (prev, some free)) :
      Grants size flags s (free.base + sizeofHeader)
        { s with kmem := s.kmem.takeBlock prev free size }
  | grown {s prev page s₁ table cursor loc r s'}
      (fit : s.kmem.search (Kmem.sizeNeeded size) flags = (prev, none))
      (gets : Gets (s.kmem.pagesNeeded prev (Kmem.sizeNeeded size)) s page s₁)
      (loc_eq : 0 < s₁.page.virtualPointer → loc = s₁.page.virtualPointer)
      (room : s₁.page.virtualPointer + page.consecutive * pageSize < totalVmSize)
      (rest : Grants size flags (s₁.grown page table cursor prev
        (s.kmem.pagesNeeded prev (Kmem.sizeNeeded size)) loc) r s') :
      Grants size flags s r s'

theorem alloc_gets {depth n : ℕ} {page : Page} {s s' : Mem} (hn : 2 ≤ n)
    (h : (Page.alloc depth growthFlags n).Returns s [page] s') : Gets n s page s' := by
  have hc : n ≠ 0 := by omega
  have hflags : growthFlags.has flagNolock = true := by decide
  have hrecord : allocFlag growthFlags = kmallocReserved ||| kmallocNolock := by decide
  rcases depth with _ | depth
  · exact absurd (alloc_zero_diverges hflags hc s) h.not_stops
  obtain ⟨page', s₁, next, hfirst, hchain, hrest⟩ := alloc_returns_held hflags hc h
  obtain ⟨rfl, rfl⟩ := List.cons.inj hchain
  obtain ⟨henough, -, rfl⟩ : n ≤ page.consecutive ∧ _ ∧ s' = s₁ := by
    rcases hrest with hrest | ⟨hless, hrest⟩
    · exact hrest
    · exact absurd rfl (alloc_ne_nil (by omega) hrest)
  cases hfirst with
  | fresh empty record bump =>
    rw [hrecord] at record
    obtain ⟨prev, free, hfit, rfl, rfl⟩ :=
      record_returns (by simp [PageState.needsRecord, empty]) record
    exact .fresh empty hfit bump henough
  | cut entries more record left =>
    rw [hrecord] at record
    obtain ⟨prev, free, hfit, rfl, rfl⟩ :=
      record_returns (by simp [PageState.needsRecord, entries]; omega) record
    obtain ⟨rfl, rfl⟩ := List.cons.inj (entries.symm.trans left)
    exact .cut entries more hfit
  | whole entries less => exact .whole entries (by simpa using Nat.le_antisymm less henough)

theorem Gets.enough {n : ℕ} {page : Page} {s s' : Mem} (h : Gets n s page s') :
    n ≤ page.consecutive := by
  cases h with
  | fresh _ _ _ enough => exact enough
  | cut => exact Nat.le_refl n
  | whole _ enough => exact Nat.le_of_eq enough.symm

/-- The flag that the lock is held does not matter to a request. -/
theorem Grants.of_nolock {size r : ℕ} {flags : Flags} {s s' : Mem}
    (h : Grants size (flags ||| kmallocNolock) s r s') : Grants size flags s r s' := by
  induction h with
  | served fit => exact .served (by rwa [Kmem.search_nolock] at fit)
  | grown fit gets loc_eq room _ ih =>
    exact .grown (by rwa [Kmem.search_nolock] at fit) gets loc_eq room ih

/-- A request of `do_kmalloc` that returns, with the lock held, is granted. -/
theorem doKmalloc_grants {depth size r : ℕ} {flags : Flags} {s s' : Mem}
    (hs : s.mutex = true) (hsize : size ≠ 0)
    (h : (Kmem.doKmalloc depth size flags).Returns s r s') :
    Grants (Kmem.roundSize size) flags s r s' := by
  induction depth using Nat.strongRecOn generalizing size flags s with
  | _ depth ih =>
    rcases depth with _ | depth
    · exact absurd h returns_stop
    rw [Kmem.doKmalloc, if_neg hsize, returns_get_bind] at h
    rcases hfit : s.kmem.search (Kmem.sizeNeeded (Kmem.roundSize size)) flags with
      ⟨prev, _ | free⟩
    · simp only [hfit] at h
      obtain ⟨newPage, s₁, halloc, hrest⟩ := returns_bind.mp h
      obtain ⟨loc, s₂, happ, hrest⟩ := returns_bind.mp hrest
      rw [returns_modify_bind] at hrest
      obtain ⟨_, s₃, hused, hretry⟩ := returns_bind.mp hrest
      have hs₁ : s₁.mutex = true := (locks_alloc depth growthFlags _).returns halloc hs
      obtain ⟨page, rfl, ⟨table, cursor, rfl⟩, hk⟩ := kinstallAppend_returns hs₁ happ
      obtain rfl := used_returns hused
      have hgets := alloc_gets (s.kmem.two_le_pagesNeeded _ _) halloc
      have hpos : 0 < page.consecutive := by
        have := s.kmem.two_le_pagesNeeded prev (Kmem.sizeNeeded (Kmem.roundSize size))
        have := hgets.enough
        omega
      obtain ⟨hloc, hroom⟩ := hk hpos
      rcases depth with _ | depth
      · exact absurd hretry returns_stop
      · rw [kmalloc_nolock (has_or_self (by decide))] at hretry
        have hrounded : Kmem.roundSize size ≠ 0 := Nat.ne_of_gt Kmem.roundSize_pos
        change (Kmem.doKmalloc depth _ _).Returns
          (s₁.grown page table cursor prev _ loc) r s' at hretry
        have hgrants := ih depth (by omega) (by exact hs₁) hrounded hretry
        rw [Kmem.roundSize_roundSize] at hgrants
        exact .grown hfit hgets hloc hroom hgrants.of_nolock
    · simp only [hfit, returns_set_bind] at h
      obtain ⟨rfl, rfl⟩ := returns_pure.mp h
      exact .served hfit

theorem Kmem.roundSize_le (size : ℕ) : size ≤ Kmem.roundSize size := by
  simp only [Kmem.roundSize, sizes]
  split_ifs <;> omega

/-- `kmalloc`, entered as its flags say, grants the request under the lock. -/
theorem kmalloc_returns {depth size r : ℕ} {flags : Flags} {s s' : Mem}
    (hs : s.mutex = flags.has kmallocNolock) (h : (Kmem.kmalloc depth size flags).Returns s r s') :
    (size = 0 ∧ r = 0 ∧ s' = s) ∨ size ≠ 0 ∧
      ∃ s₁, Grants (Kmem.roundSize size) flags { s with mutex := true } r s₁ ∧
        s' = { s₁ with mutex := s.mutex } := by
  rcases depth with _ | depth
  · exact absurd h returns_stop
  rw [Kmem.kmalloc] at h
  obtain ⟨_, s₀, hlock, hbody⟩ := returns_bind.mp h
  obtain rfl := lockUnless_returns hs hlock
  obtain ⟨ret, s₁, hdo, hend⟩ := returns_bind.mp hbody
  obtain ⟨_, s₂, hunlock, hret⟩ := returns_bind.mp hend
  obtain ⟨rfl, rfl⟩ := returns_pure.mp hret
  have hs₁ : s₁.mutex = true := ((locks_recursion depth).1 size flags).returns hdo rfl
  obtain rfl := unlockUnless_returns hs₁ hunlock
  by_cases hsize : size = 0
  · subst hsize
    rcases depth with _ | depth
    · exact absurd hdo returns_stop
    · rw [Kmem.doKmalloc, if_pos rfl] at hdo
      obtain ⟨rfl, rfl⟩ := returns_pure.mp hdo
      exact .inl ⟨rfl, rfl, by rw [← hs]⟩
  · exact .inr ⟨hsize, s₁, doKmalloc_grants rfl hsize hdo, by rw [hs]⟩

end Cantos
