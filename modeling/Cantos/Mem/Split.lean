import Cantos.Mem.Frames
import Cantos.Mem.Termination

/-!
# Chains that are split

`Page::split` cuts a chain of runs behind its first `count` frames.  It walks along the runs
in front of the cut, and makes one record for what is left of the run that is cut, which may
be nothing.

The record is asked for whatever the cut is.  When no free block can hold it, the heap grows by
two frames, and the run of these needs a record in its turn: the request repeats itself, unless
the first free entry is just two frames, which brings its own record.

## Main definitions

* `Page.split`
* `SplitAt`: two chains with the frames of one.
* `Mem.Splits`: `split` returns two such chains.
* `Mem.Stocked`: there is a record to be had.
-/

namespace Cantos

open Exec

/-- `Page::split`: what is left of the chain at `this`, and the chain that is returned. -/
def Page.split (depth : ℕ) : (this : List Page) → (count : ℕ) → M (List Page × List Page)
  | [], _ => Exec.stop .nullDeref
  | this :: next, count =>
      if count > this.consecutive then do
        let (next, result) ← Page.split depth next (count - this.consecutive)
        pure (this :: next, result)
      else do
        let created ← Page.create depth (add32 this.memBase (mul32 count pageSize)) this.flags
          (this.consecutive - count)
        pure ([{ this with consecutive := count }], created ++ next)

/-- `left` has the first `count` frames of `chain`, and `right` has the others. -/
structure SplitAt (chain : List Page) (count : ℕ) (left right : List Page) : Prop where
  parts : frames left ++ frames right = frames chain
  count_left : Page.count left = count

section Split
variable {chain left right next created : List Page} {page : Page} {depth base count k : ℕ}
  {flags : Flags} {s s' : Mem}

/-- The frames of the two chains are a prefix and the rest. -/
theorem SplitAt.take_drop (h : SplitAt chain count left right) :
    frames left = (frames chain).take count ∧
      frames right = (frames chain).drop count := by
  have hlen : (frames left).length = count := by rw [length_frames, h.count_left]
  constructor
  · rw [← h.parts, List.take_left' hlen]
  · rw [← h.parts, List.drop_left' hlen]

/-- Cut behind the first run. -/
theorem SplitAt.cons (h : SplitAt next k left right) :
    SplitAt (page :: next) (page.consecutive + k) (page :: left) right where
  parts := by rw [frames_cons, frames_cons, List.append_assoc, h.parts]
  count_left := by rw [Page.count, h.count_left]

/-- Cut inside the first run, or at its end. -/
theorem SplitAt.cut (hle : count ≤ page.consecutive) (hcreated : created.map Page.frames =
      [runFrames (add32 page.memBase (mul32 count pageSize)) (page.consecutive - count)]) :
    SplitAt (page :: next) count [{ page with consecutive := count }] (created ++ next) where
  parts := by
    have hrest : frames (created ++ next) =
        runFrames (add32 page.memBase (mul32 count pageSize)) (page.consecutive - count) ++
          frames next := by
      rw [frames, List.flatMap_append, List.flatMap_def, hcreated, List.flatten_singleton,
        frames]
    have hrun : page.frames = runFrames page.memBase count ++
        runFrames (add32 page.memBase (mul32 count pageSize)) (page.consecutive - count) := by
      rw [Page.frames, ← runFrames_add, Nat.add_sub_cancel' hle]
    rw [hrest, frames_cons, frames_cons, frames_nil, List.append_nil, hrun, List.append_assoc]
    rfl
  count_left := rfl

/-- The record that `page::create` returns. -/
theorem create_frames (h : (Page.create depth base flags k).Returns s created s') :
    created.map Page.frames = [runFrames base k] := by
  obtain ⟨_, _, -, hbody⟩ := returns_bind.mp h
  obtain ⟨write, _, -, hrest⟩ := returns_bind.mp hbody
  rw [returns_get_bind, returns_set_bind] at hrest
  obtain ⟨_, _, -, hret⟩ := returns_bind.mp hrest
  obtain ⟨rfl, -⟩ := returns_pure.mp hret
  rfl

/-- `split` makes one call of `page::create`, and returns when that does. -/
theorem split_eq (depth : ℕ) (h : count ≤ Page.count (page :: next)) :
    ∃ base flags k left rest, Page.split depth (page :: next) count =
        (Page.create depth base flags k >>= fun created => pure (left, created ++ rest)) ∧
      ∀ created, created.map Page.frames = [runFrames base k] →
        SplitAt (page :: next) count left (created ++ rest) := by
  induction next generalizing page count with
  | nil =>
    have hle : ¬ count > page.consecutive := by
      simpa [Page.count] using h
    exact ⟨_, _, _, _, _, if_neg hle, fun created hc => .cut (Nat.not_lt.mp hle) hc⟩
  | cons page' next ih =>
    by_cases hgt : count > page.consecutive
    · have hrest : count - page.consecutive ≤ Page.count (page' :: next) := by
        rw [Page.count] at h
        omega
      obtain ⟨base, flags, k, left, rest, heq, hsplit⟩ := ih hrest
      refine ⟨base, flags, k, page :: left, rest, ?_, fun created hc => ?_⟩
      · rw [Page.split, if_pos hgt, heq]
        funext s
        simp only [bind_def]
        rcases Page.create depth base flags k s with ⟨_ | _, _⟩
        · rfl
        · rfl
      · have hcount : page.consecutive + (count - page.consecutive) = count := by omega
        rw [← hcount]
        exact (hsplit created hc).cons
    · exact ⟨_, _, _, _, _, if_neg hgt, fun created hc => .cut (Nat.not_lt.mp hgt) hc⟩

end Split

/-! ## The request for a record -/

/-- A free block can hold a record, or the first free entry is the two frames by which the heap
grows for one, and there are two more pages of virtual memory. -/
def Mem.Stocked (s : Mem) : Prop :=
  s.kmem.Fits (Kmem.sizeNeeded sizeofPage) ∨
    ∃ head ∈ s.page.pageFreeHead.head?, head.consecutive = 2 ∧
      s.page.virtualPointer + 2 * pageSize < totalVmSize

/-- The flags of the request that `page::create` makes. -/
def createFlags : Flags := kmallocReserved ||| kmallocNolock

section Record
variable {held : List KmemHeader} {owned : List (ℕ × ℕ)} {s s' : Mem} {head page : Page}
  {next : List Page} {depth r n prev : ℕ}

/-- The loop of `kinstall_append` returns where the pages fit. -/
theorem appendRun_total (memBase pageFlags i first : ℕ) {k : ℕ} (s : Mem)
    (h : s.page.virtualPointer + k * pageSize < totalVmSize) :
    ∃ r s', (Page.appendRun memBase pageFlags k i first).Returns s r s' := by
  induction k generalizing i first s with
  | zero => exact ⟨first, s, returns_pure.mpr ⟨rfl, rfl⟩⟩
  | succ k ih =>
    have hroom : ¬ s.page.virtualPointer ≥ totalVmSize - pageSize := by
      simp only [sizes] at *
      omega
    have hrest : s.page.virtualPointer + pageSize + k * pageSize < totalVmSize := by
      simp only [sizes] at *
      omega
    obtain ⟨r, s', hreturns⟩ := ih (i + 1)
      (if first = 0 then s.page.virtualPointer else first) { s with
        page.table := Function.update s.page.table s.page.cursor (tableEntry memBase i pageFlags)
        page.virtualPointer := s.page.virtualPointer + pageSize
        page.cursor := s.page.cursor + 1 } hrest
    refine ⟨r, s', ?_⟩
    rw [Page.appendRun, returns_get_bind, if_neg hroom, returns_set_bind]
    exact hreturns

theorem kinstallAppend_total (page : Page) (pageFlags : ℕ)
    (h : s.page.virtualPointer + page.consecutive * pageSize < totalVmSize) :
    ∃ loc s', (Page.kinstallAppend [page] pageFlags false).Returns s loc s' := by
  obtain ⟨first, s', hrun⟩ := appendRun_total page.memBase pageFlags 0 0 s h
  refine ⟨first, { s' with kmem.memoryEnd := s'.page.virtualPointer }, ?_⟩
  rw [Page.kinstallAppend, whenever_false, returns_pure_bind]
  refine returns_bind.mpr ⟨first, s', hrun, ?_⟩
  rw [returns_modify_bind, whenever_false, returns_pure_bind]
  exact returns_pure.mpr ⟨rfl, rfl⟩

theorem used_total (page : Page) (s : Mem) : (Page.used [page] false).Returns s ()
    { s with page.usedStart := page :: s.page.usedStart } := by
  rw [Page.used, whenever_false, returns_pure_bind, returns_modify_bind, whenever_false,
    returns_pure_bind]
  exact returns_pure.mpr ⟨rfl, rfl⟩

/-- A growth by as many frames as the first free entry has takes the entry as it is. -/
theorem alloc_whole (hn : n ≠ 0) (hentries : s.page.pageFreeHead = head :: next)
    (hhead : head.consecutive = n) (depth : ℕ) :
    (Page.alloc (depth + 1) growthFlags n).Returns s [{ head with flags := growthFlags }]
      { s with page.pageFreeHead := next } := by
  subst hhead
  rw [Page.alloc, if_neg hn]
  refine returns_bind.mpr ⟨(), s, rfl, ?_⟩
  rw [returns_get_bind, hentries]
  refine returns_bind.mpr ⟨{ head with flags := growthFlags },
    { s with page.pageFreeHead := next }, ?_, ?_⟩
  · simp only [gt_iff_lt, lt_irrefl, if_false]
    exact returns_modify_bind.mpr (returns_pure.mpr ⟨rfl, rfl⟩)
  · refine returns_bind.mpr ⟨[], { s with page.pageFreeHead := next }, ?_, rfl⟩
    rw [if_neg (lt_irrefl _)]
    exact returns_pure.mpr ⟨rfl, rfl⟩

/-- A request for a record that a free block can hold. -/
theorem record_total (h : s.kmem.Fits (Kmem.sizeNeeded sizeofPage)) (depth : ℕ) :
    ∃ r s', (Kmem.kmalloc (depth + 2) sizeofPage createFlags).Returns s r s' := by
  rcases hfit : s.kmem.search (Kmem.sizeNeeded sizeofPage) createFlags with ⟨prev, _ | free⟩
  · rw [Kmem.search_reserved (by decide)] at hfit
    obtain ⟨free, hfree, hsize⟩ := h
    have hsmall := (findFit_none hfit).1 free hfree
    omega
  · refine ⟨free.base + sizeofHeader, s.recorded prev free, ?_⟩
    rw [kmalloc_nolock (by decide), Kmem.doKmalloc, if_neg (by decide), returns_get_bind]
    simp only [Kmem.roundSize_record, hfit, returns_set_bind]
    exact returns_pure.mpr ⟨rfl, rfl⟩

/-- A request for a record for which the heap grows by a whole entry. -/
theorem record_total_whole (hs : s.mutex = true) (hm : MemInv held owned s)
    (hfits : ¬ s.kmem.Fits (Kmem.sizeNeeded sizeofPage))
    (hentries : s.page.pageFreeHead = head :: next) (hhead : head.consecutive = 2)
    (hroom : s.page.virtualPointer + 2 * pageSize < totalVmSize) :
    ∃ r s', (Kmem.kmalloc 4 sizeofPage createFlags).Returns s r s' := by
  obtain ⟨prev, hfit⟩ : ∃ prev, s.kmem.search (Kmem.sizeNeeded (Kmem.roundSize sizeofPage))
      createFlags = (prev, none) := by
    rw [Kmem.roundSize_record, Kmem.search_reserved (by decide)]
    rcases hfind : Kmem.findFit (Kmem.sizeNeeded sizeofPage) 0 s.kmem.freeList with
      ⟨prev, _ | free⟩
    · exact ⟨prev, rfl⟩
    · obtain ⟨pre, post, hl, hsize, -, -⟩ := findFit_some hfind
      exact absurd ⟨free, by simp [hl], hsize⟩ hfits
  have hpages : s.kmem.pagesNeeded prev (Kmem.sizeNeeded (Kmem.roundSize sizeofPage)) = 2 := by
    rw [Kmem.roundSize_record]
    exact s.kmem.pagesNeeded_record prev
  have hgets : Gets 2 s { head with flags := growthFlags } { s with page.pageFreeHead := next } :=
    .whole hentries hhead
  have hprev : prev = 0 ∨ prev ∈ s.kmem.freeList.map KmemFree.ptr :=
    (search_none hfit).imp_right And.left
  obtain ⟨loc, s₂, happ⟩ := kinstallAppend_total (s := { s with page.pageFreeHead := next })
    { head with flags := growthFlags } pageTableRw (by rw [hhead]; exact hroom)
  have happ' := happ
  obtain ⟨run, hrun, ⟨table, cursor, rfl⟩, hloc⟩ :=
    kinstallAppend_returns (s := { s with page.pageFreeHead := next }) hs happ
  obtain rfl := (List.cons.inj hrun).1
  obtain rfl : loc = s.page.virtualPointer :=
    (hloc (by rw [hhead]; decide)).1 hm.heap.top_pos
  -- The entry brings its own record, so that no block is taken before the pages are attached.
  have hstale : s.kmem.stale prev s.page.virtualPointer = false := hm.heap.not_stale hprev
  obtain ⟨free, hfree, hsize⟩ := hgets.fits_run hm hstale table cursor 2
  have hagain := record_total (s := Mem.grown { head with flags := growthFlags } table cursor prev 2
    s.page.virtualPointer { s with page.pageFreeHead := next }) ⟨free, hfree, by
      rw [hhead] at hsize
      simp only [Kmem.sizeNeeded, sizes] at *
      omega⟩ 0
  obtain ⟨r, s', hagain⟩ := hagain
  refine ⟨r, s', ?_⟩
  rw [kmalloc_nolock (by decide), Returns, doKmalloc_growth_eq (by decide) hfit, hpages,
    (alloc_whole (by decide) hentries hhead 1).bind_eq, Kmem.growBy, happ'.bind_eq]
  exact returns_modify_bind.mpr (returns_bind.mpr ⟨(), _, used_total _ _, hagain⟩)

/-- The lock is taken around the request for the record. -/
theorem create_returns_iff (base count : ℕ) (flags : Flags) (hs : s.mutex = false) :
    (∃ created s', (Page.create depth base flags count).Returns s created s') ↔
      ∃ r s', (Kmem.kmalloc depth sizeofPage createFlags).Returns { s with mutex := true } r s' := by
  constructor
  · rintro ⟨created, s', h⟩
    obtain ⟨_, s₁, hlock, h⟩ := returns_bind.mp h
    obtain rfl := mutexLock_returns hs hlock
    obtain ⟨write, s₂, hrecord, -⟩ := returns_bind.mp h
    exact ⟨write, s₂, hrecord⟩
  · rintro ⟨write, s₂, hrecord⟩
    have hlock : mutexLock.Returns s () { s with mutex := true } :=
      @lockUnless_of_mutex s false hs
    refine ⟨[⟨write, s₂.page.pageIdCounter, base, flagAllocated ||| flags, count⟩],
      { s₂ with page.pageIdCounter := s₂.page.pageIdCounter + 1, mutex := false }, ?_⟩
    refine returns_bind.mpr ⟨(), _, hlock, returns_bind.mpr ⟨write, s₂, hrecord, ?_⟩⟩
    rw [returns_get_bind, returns_set_bind]
    exact returns_modify_bind.mpr (returns_pure.mpr ⟨rfl, rfl⟩)

/-- There is a record to be had exactly where the request for one returns. -/
theorem record_returns_iff (hm : MemInv held owned s) :
    (∃ depth r s', (Kmem.kmalloc depth sizeofPage createFlags).Returns
      { s with mutex := true } r s') ↔ s.Stocked := by
  constructor
  · rintro ⟨depth, r, s', h⟩
    rcases kmalloc_returns (s := { s with mutex := true })
        (show true = createFlags.has kmallocNolock by decide) h with
      ⟨hzero, -⟩ | ⟨-, s₁, hgrants, -⟩
    · exact absurd hzero (by decide)
    rw [Kmem.roundSize_record] at hgrants
    have hfits : ∀ {before free}, s.kmem.recordFit = (before, some free) →
        s.kmem.Fits (Kmem.sizeNeeded sizeofPage) := by
      intro before free hfit
      obtain ⟨pre, post, hl, hsize, -, -⟩ := findFit_some hfit
      exact ⟨free, by simp [hl], hsize⟩
    cases hgrants with
    | served fit =>
      rw [Kmem.search_reserved (by decide)] at fit
      exact .inl (hfits fit)
    | grown fit gets loc_eq room rest =>
      rw [Kmem.pagesNeeded_record] at gets
      cases gets with
      | fresh empty fit => exact .inl (hfits fit)
      | cut entries more fit => exact .inl (hfits fit)
      | @whole head next entries enough =>
        rw [enough] at room
        refine .inr ⟨head, ?_, enough, room⟩
        rw [show s.page.pageFreeHead = head :: next from entries]
        rfl
  · rintro hstocked
    by_cases hfits : s.kmem.Fits (Kmem.sizeNeeded sizeofPage)
    · exact ⟨2, record_total (s := { s with mutex := true }) hfits 0⟩
    · obtain ⟨head, hhead, hpair, hroom⟩ := hstocked.resolve_left hfits
      obtain ⟨next, hentries⟩ := List.head?_eq_some_iff.mp hhead
      exact ⟨4, record_total_whole (s := { s with mutex := true }) rfl (hm.same rfl rfl rfl) hfits
        hentries hpair hroom⟩

end Record

/-! ## What `split` returns -/

/-- `split` returns two chains, with the first `count` frames of `chain` and with the others. -/
def Mem.Splits (s : Mem) (chain : List Page) (count : ℕ) : Prop :=
  ∃ depth left right s', (Page.split depth chain count).Returns s (left, right) s' ∧
    SplitAt chain count left right ∧
      frames left = (frames chain).take count ∧ frames right = (frames chain).drop count

section Splits
variable {s : Mem} {page : Page} {next : List Page} {count : ℕ}

/-- `split` returns where its call of `page::create` does. -/
theorem Mem.splits_iff_record (hs : s.mutex = false) (h : count ≤ Page.count (page :: next)) :
    Mem.Splits s (page :: next) count ↔ ∃ depth r s',
      (Kmem.kmalloc depth sizeofPage createFlags).Returns { s with mutex := true } r s' := by
  constructor
  · rintro ⟨depth, left, right, s', hsplit, -⟩
    obtain ⟨base, flags, k, left', rest, heq, -⟩ := split_eq depth h
    rw [heq] at hsplit
    obtain ⟨created, s₁, hcreate, -⟩ := returns_bind.mp hsplit
    exact ⟨depth, (create_returns_iff base k flags hs).mp ⟨created, s₁, hcreate⟩⟩
  · rintro ⟨depth, hrecord⟩
    obtain ⟨base, flags, k, left, rest, heq, hparts⟩ := split_eq depth h
    obtain ⟨created, s', hcreate⟩ := (create_returns_iff base k flags hs).mpr hrecord
    have hat := hparts created (create_frames hcreate)
    refine ⟨depth, left, created ++ rest, s', ?_, hat, hat.take_drop⟩
    rw [heq]
    exact returns_bind.mpr ⟨created, s', hcreate, returns_pure.mpr ⟨rfl, rfl⟩⟩

variable {w : World} {memTable : List Entry}

theorem World.Reachable.splits_iff_stocked (hw : w.Reachable memTable)
    (h : count ≤ Page.count (page :: next)) :
    Mem.Splits w.mem (page :: next) count ↔ w.mem.Stocked := by
  rw [Mem.splits_iff_record hw.mutex h, record_returns_iff hw.memInv]

/-- **A chain is split into its first `count` frames and the others** exactly where there is a
record to be had. -/
theorem Mem.splits_iff (hw : w.Reachable memTable) (h : count ≤ Page.count (page :: next)) :
    Mem.Splits w.mem (page :: next) count ↔ w.mem.Stocked :=
  hw.splits_iff_stocked h

/-- A cut at the end of the first of two runs. -/
theorem Mem.splits_iff_boundary :
    Mem.Splits World.roomy.mem [⟨1, 0, 0x200000, 0, 2⟩, ⟨2, 1, 0x300000, 0, 1⟩] 2 ↔
      World.roomy.mem.Stocked :=
  Mem.splits_iff World.roomy_reachable (by decide)

/-- The frames of a device, and a request from the reserve that takes the rest of the first
page. -/
def World.device : World := roomy.run 12 (.create 0xb8000 0 8)

def World.unstocked : World := device.run 12 (.kmalloc 4004 kmallocReserved)

theorem World.unstocked_reachable : Reachable roomyMap unstocked :=
  (roomy_reachable.run (by decide +kernel) (by decide +kernel)).run (by decide +kernel)
    (by decide +kernel)

/-- The chain of the device cannot be split any more. -/
theorem Mem.not_splits_unstocked : ¬ ∀ (memTable : List Entry) (w : World) (chain : List Page)
    (count : ℕ), w.Reachable memTable → chain ∈ w.chains → count ≤ Page.count chain →
      Mem.Splits w.mem chain count := by
  intro h
  have hchain : [⟨3222274104, 1, 0xb8000, 1, 8⟩] ∈ World.unstocked.chains := by decide +kernel
  have hsplits := h roomyMap World.unstocked _ 3 World.unstocked_reachable hchain (by decide)
  have hfree : World.unstocked.mem.kmem.freeList = [] := by decide +kernel
  have hentries : World.unstocked.mem.page.pageFreeHead = [] := by decide +kernel
  rcases (World.unstocked_reachable.splits_iff_stocked (by decide)).mp hsplits with
    ⟨free, hmem, -⟩ | ⟨head, hhead, -⟩
  · simp [hfree] at hmem
  · simp [hentries] at hhead

end Splits

end Cantos
