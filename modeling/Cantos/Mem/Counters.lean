import Cantos.Mem.Loss

/-!
# The counters of the heap

`memory_total - memory_used` is meant to be the number of free bytes, which the test
that guards the reserve relies on.  Serving a request keeps the balance, and so do
freeing and a growth that extends the last block.  A growth that makes a new block
adds all its pages to `memory_total`, but 20 bytes of them are the header and the
record of the block; a growth that loses its pages adds them all the same.

The balance is never set right again: what is missing only grows.

## Main definitions

* `Balanced d`: the counters are `d` bytes off.
* `Mem.KeepsCount`, `World.Keeps`: the requests and the calls that keep the balance.
* `World.HeapRun`: the runs of `kmalloc` and `kfree`.
-/

namespace Cantos

open Linked Exec Runs

/-- The bytes of the free blocks. -/
def Kmem.freeBytes (k : Kmem) : ℕ := (k.freeList.map (·.size)).sum

/-- `memory_total` is `d` bytes more than what is in use and what is free. -/
def Balanced (d : ℕ) (k : Kmem) : Prop :=
  k.memoryUsed < 2 ^ 32 ∧ (k.memoryUsed + k.freeBytes + d) % 2 ^ 32 = k.memoryTotal % 2 ^ 32

/-- `do_kmalloc` searches the free list for a request. -/
def Kmem.searches (k : Kmem) (sizeNeeded : ℕ) (flags : Flags) : Bool :=
  !(k.reserveOnly sizeNeeded && !flags.has kmallocReserved)

/-- A request for `size` bytes keeps the balance: it is served by a free block, or it
grows the last block of the free list, and does not lose the pages. -/
def Mem.KeepsCount (size : ℕ) (flags : Flags) (s : Mem) : Prop :=
  ∀ prev, s.kmem.search (Kmem.sizeNeeded size) flags = (prev, none) →
    s.kmem.endsAt prev s.kmem.memoryEnd = true ∧
      ¬ s.RecordTakes (s.kmem.pagesNeeded prev (Kmem.sizeNeeded size)) prev

/-! ## The parts of a request -/

section Parts
variable {held : List KmemHeader} {owned : List (ℕ × ℕ)} {k : Kmem} {s s₁ : Mem} {page : Page}
  {top prev n size sizeNeeded d : ℕ} {free : KmemFree} {pre post : List KmemFree} {flags : Flags}

theorem freeBytes_eq : k.freeBytes = Runs.weigh .length KmemFree.base KmemFree.finish k.freeList := by
  rw [Kmem.freeBytes, Runs.weigh]
  exact congrArg List.sum (List.map_congr_left fun free _ => by simp [KmemFree.finish])

/-- Allocation moves bytes from the free blocks to `memory_used`. -/
theorem HeapInv.balanced_takeBlock (h : HeapInv held owned k top) (prev : ℕ)
    (hl : k.freeList = pre ++ free :: post) (hfit : Kmem.sizeNeeded size ≤ free.size)
    (hb : Balanced d k) : Balanced d (k.takeBlock prev free size) ∧
      (k.takeBlock prev free size).memoryUsed ≤
        k.memoryUsed + Kmem.sizeNeeded size + sizeofHeader := by
  simp only [Balanced, Kmem.freeBytes, takeBlock_memoryTotal] at hb ⊢
  have hsize : sizeofHeader ≤ free.size := le_trans (Nat.le_add_left _ _) hfit
  rcases takeBlock_cases prev size h.freeList_nodup hl with ⟨hless, e⟩ | ⟨hless, e⟩
  · rw [e]
    simp only [hl, List.map_append, List.map_cons, List.sum_append, List.sum_cons, add32] at hb ⊢
    omega
  · rw [e]
    simp only [hl, List.map_append, List.map_cons, List.sum_append, List.sum_cons, add32,
      KmemFree.shrink] at hb ⊢
    omega

/-- What a growth by `c` pages takes off the balance. -/
def Kmem.missing (k : Kmem) (prev top c : ℕ) : ℕ :=
  if k.stale prev top then c * pageSize
  else if k.endsAt prev top then 0 else sizeofHeader + sizeofFree

theorem HeapInv.balanced_attach (h : HeapInv held owned k top) (prev : ℕ) {c : ℕ} (hc : 0 < c)
    (hb : Balanced d k) : Balanced (d + k.missing prev top c) (k.attach prev c c top) := by
  simp only [Balanced, Kmem.freeBytes, attach_memoryTotal, attach_memoryUsed, Kmem.missing] at hb ⊢
  refine ⟨hb.1, ?_⟩
  replace hb := hb.2
  rcases h.attach_cases prev c c with
    ⟨hstale, pre, free, hl, hptr, hfin, e⟩ | ⟨hstale, e⟩ | ⟨hstale, hends, e⟩
  · have hends : k.endsAt prev top = true := by
      refine (endsAt_iff h.structs_nodup).mpr ⟨hptr ▸ h.ptr_pos (by simp [hl]), free, ?_, hptr, hfin⟩
      simp [hl]
    rw [hstale, hends, e]
    simp only [hl, List.map_append, List.map_cons, List.sum_append, List.sum_cons] at hb ⊢
    simp at hb ⊢
    omega
  · rw [hstale, e]
    simp only [if_true] at hb ⊢
    omega
  · rw [hstale, hends, e]
    simp only [List.map_append, List.map_cons, List.sum_append, List.sum_cons, List.map_nil,
      List.sum_nil, KmemFree.ofPages, Bool.false_eq_true, if_false, sizes] at hb ⊢
    omega

end Parts

/-! ## Requests without free frames -/

/-- No frame was ever given back, and the bump allocator walks a memory map of regions
that do not wrap. -/
structure Mem.Bare (s : Mem) : Prop where
  pageFreeHead : s.page.pageFreeHead = []
  regions : ∀ e ∈ s.page.memTable, e.base + e.length < 2 ^ 64
  within : s.page.Within

section Requests
variable {held : List KmemHeader} {owned : List (ℕ × ℕ)} {s s' s₁ : Mem} {page : Page}
  {prev n size sizeNeeded cursor d r : ℕ} {flags : Flags} {table : ℕ → ℕ}

/-- Without free frames a growth gets fresh ones, as many as it asks for. -/
theorem Gets.bare (hg : Gets n s page s₁) (hb : s.Bare) : s₁.Bare ∧ page.consecutive = n := by
  cases hg with
  | @fresh prev free p s' empty fit bump enough =>
    have hwithin := bump.within (s := s.recorded prev free) hb.within hb.regions
    have hcons := bump.consecutive_le (s := s.recorded prev free) hb.within
    obtain ⟨pageId, pointer, map, rfl⟩ := bump.state
    exact ⟨⟨empty, hb.regions, hwithin⟩, le_antisymm hcons enough⟩
  | cut entries => exact absurd (entries.symm.trans hb.pageFreeHead) (List.cons_ne_nil _ _)
  | whole entries => exact absurd (entries.symm.trans hb.pageFreeHead) (List.cons_ne_nil _ _)

theorem Gets.balanced (hg : Gets n s page s₁) (h : MemInv held owned s)
    (hb : Balanced d s.kmem) : Balanced d s₁.kmem ∧ s₁.kmem.memoryTotal = s.kmem.memoryTotal ∧
      s₁.kmem.memoryUsed ≤ s.kmem.memoryUsed + Kmem.sizeNeeded sizeofPage + sizeofHeader := by
  have hrecord : ∀ {before free}, s.kmem.recordFit = (before, some free) →
      Balanced d (s.recorded before free).kmem ∧
      (s.recorded before free).kmem.memoryTotal = s.kmem.memoryTotal ∧
      (s.recorded before free).kmem.memoryUsed ≤
        s.kmem.memoryUsed + Kmem.sizeNeeded sizeofPage + sizeofHeader := by
    intro before free hfit
    obtain ⟨pre, post, hl, hsize, -, -⟩ := findFit_some hfit
    obtain ⟨h₁, h₂⟩ := h.heap.balanced_takeBlock before hl hsize hb
    exact ⟨h₁, takeBlock_memoryTotal, h₂⟩
  cases hg with
  | fresh empty fit bump enough =>
    obtain ⟨pageId, pointer, map, rfl⟩ := bump.state
    exact hrecord fit
  | cut entries more fit => exact hrecord fit
  | whole entries enough => exact ⟨hb, rfl, Nat.le_add_right_of_le (Nat.le_add_right _ _)⟩

theorem search_eq (k : Kmem) : k.search sizeNeeded flags =
    if k.searches sizeNeeded flags then Kmem.findFit sizeNeeded 0 k.freeList else (0, none) := by
  rw [Kmem.search, Kmem.searches]
  cases k.reserveOnly sizeNeeded && !flags.has kmallocReserved <;> rfl

/-- A request that may be served stays so when more is added than is used. -/
theorem Kmem.searches_of_le {k k' : Kmem} (h : k.searches sizeNeeded flags = true) {m : ℕ}
    (hused : k'.memoryUsed ≤ k.memoryUsed + m)
    (htotal : k.memoryTotal + m ≤ k'.memoryTotal) : k'.searches sizeNeeded flags = true := by
  simp only [Kmem.searches, Bool.not_eq_true', Bool.and_eq_false_iff] at h ⊢
  refine h.imp_left fun h => ?_
  simp only [Kmem.reserveOnly, decide_eq_false_iff_not, not_or, not_lt] at h ⊢
  omega

/-- When the search runs and some block fits, it finds one. -/
theorem Kmem.Fits.search {k : Kmem} (h : k.Fits sizeNeeded)
    (hs : k.searches sizeNeeded flags = true) :
    k.search sizeNeeded flags ≠ (prev, none) := by
  rw [search_eq, if_pos hs]
  intro hnone
  obtain ⟨free, hfree, hsize⟩ := h
  have := (findFit_none hnone).1 free hfree
  omega

theorem Kmem.missing_eq_zero {k : Kmem} {top c : ℕ} (hc : 0 < c) :
    k.missing prev top c = 0 ↔ k.endsAt prev top = true ∧ ¬ k.stale prev top = true := by
  have hpos : 0 < c * pageSize := Nat.mul_pos hc (by decide)
  rw [Kmem.missing]
  by_cases hstale : k.stale prev top = true
  · simp [hstale, hpos.ne']
  · by_cases hends : k.endsAt prev top = true <;> simp [hstale, hends, sizes]

theorem Kmem.missing_le (k : Kmem) (prev top : ℕ) {c : ℕ} (hc : 0 < c) :
    k.missing prev top c ≤ c * pageSize := by
  simp only [Kmem.missing, sizes]
  split_ifs <;> omega

/-- A growth keeps the balance exactly when it extends the last block. -/
theorem Mem.keepsCount_iff (fit : s.kmem.search (Kmem.sizeNeeded size) flags = (prev, none)) :
    s.KeepsCount size flags ↔ s.kmem.endsAt prev s.kmem.memoryEnd = true ∧
      ¬ s.RecordTakes (s.kmem.pagesNeeded prev (Kmem.sizeNeeded size)) prev := by
  refine ⟨fun h => h prev fit, fun h prev' fit' => ?_⟩
  obtain rfl : prev = prev' := congrArg Prod.fst (fit.symm.trans fit')
  exact h

/-- **What a request does to the balance**: it takes `m` bytes off it, no more than it
maps, and none exactly when it grows nothing but the last block. -/
theorem Grants.balanced (hg : Grants size flags s r s') (h : MemInv held owned s) (hb : s.Bare)
    (hd : Balanced d s.kmem) :
    s'.Bare ∧ ∃ m, Balanced (d + m) s'.kmem ∧
      m + s.page.virtualPointer ≤ s'.page.virtualPointer ∧
      (m = 0 ↔ s.KeepsCount size flags) := by
  induction hg generalizing d with
  | @served s prev free fit =>
    obtain ⟨pre, post, hl, hsize, -, -⟩ := findFit_some (search_some fit)
    refine ⟨⟨hb.pageFreeHead, hb.regions, hb.within⟩, 0,
      (h.heap.balanced_takeBlock prev hl hsize hd).1, (Nat.zero_add _).le, fun _ prev' fit' => ?_,
      fun _ => rfl⟩
    cases fit.symm.trans fit'
  | @grown s prev page s₁ table cursor loc r s' fit gets loc_eq room rest ih =>
    have hn := s.kmem.two_le_pagesNeeded prev (Kmem.sizeNeeded size)
    have hprev := (search_none fit).imp_right And.left
    obtain rfl : loc = s.page.virtualPointer := by
      rw [loc_eq (by rw [gets.virtualPointer]; exact h.heap.top_pos), gets.virtualPointer]
    obtain ⟨hb₁, hcons⟩ := gets.bare hb
    obtain ⟨hd₁, htotal₁, hused₁⟩ := gets.balanced h hd
    have hpos : 0 < page.consecutive := by omega
    have h₂ := gets.memInv_grown h hn table cursor prev
      (s.kmem.pagesNeeded prev (Kmem.sizeNeeded size))
    have hd₂ := (gets.heap h page.consecutive table cursor).balanced_attach prev hpos hd₁
    have hvirtual := gets.virtualPointer_grown table cursor prev
      (s.kmem.pagesNeeded prev (Kmem.sizeNeeded size)) s.page.virtualPointer
    obtain ⟨hb', m, hd', hle, hm⟩ := ih h₂ ⟨hb₁.pageFreeHead, hb₁.regions, hb₁.within⟩
      (d := d + s₁.kmem.missing prev s.page.virtualPointer page.consecutive) (by
        rw [← hcons]
        exact hd₂)
    refine ⟨hb', s₁.kmem.missing prev s.page.virtualPointer page.consecutive + m, ?_, ?_, ?_⟩
    · rwa [← Nat.add_assoc]
    · have := s₁.kmem.missing_le prev s.page.virtualPointer hpos
      omega
    · rw [Mem.keepsCount_iff fit, h.memoryEnd, ← gets.endsAt h hprev, ← gets.stale_iff h hprev,
        ← Kmem.missing_eq_zero hpos, Nat.add_eq_zero_iff, and_iff_left_iff_imp]
      -- Behind a growth of the last block the search runs again, and finds that block.
      intro hzero
      obtain ⟨hends, hstale⟩ := (Kmem.missing_eq_zero hpos).mp hzero
      have hne : prev ≠ 0 := ((endsAt_iff (gets.memInv h).heap.structs_nodup).mp hends).1
      have hsearches : s.kmem.searches (Kmem.sizeNeeded size) flags = true := by
        by_contra hs
        rw [search_eq, if_neg hs] at fit
        exact hne (congrArg Prod.fst fit).symm
      have hfits := gets.fits h hprev (by simpa using hstale) table cursor
        (s.kmem.pagesNeeded prev (Kmem.sizeNeeded size))
      refine hm.mpr fun prev' hnone => absurd hnone (hfits.search ?_)
      refine Kmem.searches_of_le (m := 36) hsearches ?_ ?_
      · rw [Mem.grown, Mem.attached, attach_memoryUsed]
        exact hused₁
      · rw [Mem.grown, Mem.attached, attach_memoryTotal]
        change _ ≤ s₁.kmem.memoryTotal + _
        simp only [sizes]
        omega

end Requests

/-! ## Calls -/

/-- The state of a kernel that counts `d` bytes too many. -/
structure Mem.Counted (d : ℕ) (s : Mem) : Prop where
  bare : s.Bare
  balanced : Balanced d s.kmem
  room : s.page.virtualPointer < totalVmSize
  mapped : d ≤ s.page.virtualPointer

section Calls
variable {held : List KmemHeader} {owned : List (ℕ × ℕ)} {k : Kmem} {s s' : Mem}
  {top depth size d r : ℕ} {flags : Flags} {hdr : KmemHeader} {u : Unit}

theorem Grants.room (hg : Grants size flags s r s') (h : s.page.virtualPointer < totalVmSize) :
    s'.page.virtualPointer < totalVmSize := by
  induction hg with
  | served fit => exact h
  | @grown s prev page s₁ table cursor loc r s' fit gets loc_eq room rest ih =>
    apply ih
    rw [gets.virtualPointer_grown]
    rwa [gets.virtualPointer] at room

theorem kmalloc_counted (hr : (Kmem.kmalloc depth size flags).Returns s r s')
    (hs : s.mutex = flags.has kmallocNolock) (h : MemInv held owned s) (hc : s.Counted d) :
    ∃ m, s'.Counted (d + m) ∧ (m = 0 ↔ size = 0 ∨ s.KeepsCount (Kmem.roundSize size) flags) := by
  rcases kmalloc_returns hs hr with ⟨hsize, -, rfl⟩ | ⟨hsize, s₁, hgrants, rfl⟩
  · exact ⟨0, hc, by simp [hsize]⟩
  · obtain ⟨hb, m, hd, hle, hm⟩ := hgrants.balanced (h.same rfl rfl rfl)
      ⟨hc.bare.pageFreeHead, hc.bare.regions, hc.bare.within⟩ hc.balanced
    have hmapped : s.page.virtualPointer = ({ s with mutex := true } : Mem).page.virtualPointer := rfl
    refine ⟨m, ⟨⟨hb.pageFreeHead, hb.regions, hb.within⟩, hd, hgrants.room hc.room, ?_⟩, ?_⟩
    · have := hc.mapped
      change d + m ≤ s₁.page.virtualPointer
      omega
    · simp only [hsize, false_or]
      exact hm

/-- The headers do not matter to the balance. -/
theorem Mem.keepsCount_headers (headers : List KmemHeader) :
    Mem.KeepsCount size flags { s with kmem.headers := headers } ↔ s.KeepsCount size flags := by
  have hreserve : ∀ n, Kmem.reserveOnly { s.kmem with headers := headers } n =
      s.kmem.reserveOnly n := by
    intro n
    rw [Kmem.reserveOnly, Kmem.reserveOnly]
  simp only [Mem.KeepsCount, Kmem.search, hreserve]
  exact Iff.rfl

/-- A record for a free block costs nothing when there is one to be used again. -/
theorem getStruct_counted (hr : (Kmem.getStruct depth).Returns s r s') (hs : s.mutex = true)
    (h : MemInv held owned s) (hc : s.Counted d) :
    ∃ m, s'.Counted (d + m) ∧ (m = 0 ↔ s.kmem.freeFreeStructs ≠ [] ∨
      s.KeepsCount (Kmem.roundSize sizeofFree) (kmallocReserved ||| kmallocNolock)) := by
  rw [Kmem.getStruct, returns_get_bind] at hr
  rcases hfree : s.kmem.freeFreeStructs with _ | ⟨hold, next⟩
  · simp only [hfree] at hr
    obtain ⟨m, hc', hm⟩ := kmalloc_counted hr (hs.trans (by decide)) h hc
    refine ⟨m, hc', hm.trans ?_⟩
    simp [sizeofFree]
  · simp only [hfree, returns_set_bind] at hr
    obtain ⟨-, rfl⟩ := returns_pure.mp hr
    refine ⟨0, ⟨⟨hc.bare.pageFreeHead, hc.bare.regions, hc.bare.within⟩, hc.balanced, hc.room,
      hc.mapped⟩, by simp⟩

/-- The chunk being freed lies below the end of the heap. -/
theorem HeapInv.held_le_top (h : HeapInv (hdr :: held) owned k top) : hdr.finish ≤ top := by
  have hlt : hdr.ptr < hdr.finish := by
    simp only [KmemHeader.finish, sizes]
    omega
  have hone : 1 ≤ k.weigh (.point (hdr.finish - 1)) (hdr :: held) := by
    have hlive : 1 ≤ weigh (.point (hdr.finish - 1)) KmemHeader.ptr KmemHeader.finish
        (k.live ++ hdr :: held) :=
      one_le_weigh_point (List.mem_append_right k.live List.mem_cons_self) (by omega)
    exact hlive.trans (Nat.le_add_right _ _)
  obtain ⟨range, hrange, -, ha⟩ := exists_of_one_le_weigh_point (hone.trans (h.within _))
  have := h.below range hrange
  omega

@[simp] theorem setUsed_freeBytes (used : ℕ) (k : Kmem) :
    (k.setUsed used).freeBytes = k.freeBytes := rfl

theorem balanced_sub32 {used free total n : ℕ} (hn : n < 2 ^ 32)
    (h : used < 2 ^ 32 ∧ (used + free + d) % 2 ^ 32 = total % 2 ^ 32) :
    sub32 used n < 2 ^ 32 ∧ (sub32 used n + (free + n) + d) % 2 ^ 32 = total % 2 ^ 32 := by
  simp only [sub32] at h ⊢
  omega

/-- Freeing moves the bytes of a chunk from `memory_used` to the free blocks. -/
theorem HeapInv.balanced_insertFree {newEntry n : ℕ}
    (h : HeapInv (hdr :: held) ((newEntry, n) :: owned) k top) (htop : top < totalVmSize)
    (hb : Balanced d k) :
    Balanced d ((k.insertFree newEntry hdr.ptr (hdr.size + sizeofHeader)).setUsed
      (sub32 k.memoryUsed (hdr.size + sizeofHeader))) := by
  have hweigh := h.weigh_insertFree .length
  have hfinish := h.held_le_top
  obtain ⟨-, hre⟩ := insertFree_spec hdr.ptr (hdr.size + sizeofHeader) h.newEntry_nodup
  have hlive : (k.insertFree newEntry hdr.ptr (hdr.size + sizeofHeader)).live = k.live := by
    rw [Kmem.live, hre.headers]
    rfl
  have hfree : (k.insertFree newEntry hdr.ptr (hdr.size + sizeofHeader)).freeBytes =
      k.freeBytes + (hdr.size + sizeofHeader) := by
    rw [Kmem.weigh, Kmem.weigh, hlive, weigh_append, weigh_append, weigh_cons,
      ← freeBytes_eq, ← freeBytes_eq] at hweigh
    simp only [length_of, KmemHeader.finish] at hweigh
    omega
  have hfull : hdr.size + sizeofHeader < 2 ^ 32 := by
    simp only [KmemHeader.finish, sizes] at hfinish htop ⊢
    omega
  rw [Balanced, setUsed_memoryUsed, setUsed_freeBytes, setUsed_memoryTotal, hfree,
    hre.memoryTotal, link_memoryTotal]
  exact balanced_sub32 hfull hb

theorem kfreeNolock_counted {p n : ℕ} (hr : (Kmem.kfreeNolock depth p).Returns s u s')
    (hs : s.mutex = true) (h : MemInv held ((p, n) :: owned) s) (hc : s.Counted d) :
    ∃ m, s'.Counted (d + m) ∧ (m = 0 ↔ s.kmem.freeFreeStructs ≠ [] ∨
      s.KeepsCount (Kmem.roundSize sizeofFree) (kmallocReserved ||| kmallocNolock)) := by
  obtain ⟨hdr, s₀, newEntry, s₁, -, rfl, h₀, hget, h₁, rfl⟩ := kfreeNolock_returns hr hs h
  obtain ⟨m, hc₁, hm⟩ := getStruct_counted hget hs h₀
    ⟨⟨hc.bare.pageFreeHead, hc.bare.regions, hc.bare.within⟩, hc.balanced, hc.room, hc.mapped⟩
  rw [Mem.keepsCount_headers] at hm
  exact ⟨m, ⟨⟨hc₁.bare.pageFreeHead, hc₁.bare.regions, hc₁.bare.within⟩,
    h₁.heap.first.balanced_insertFree hc₁.room hc₁.balanced, hc₁.room, hc₁.mapped⟩, hm⟩

end Calls

/-! ## Runs -/

/-- The calls that work on the heap alone. -/
def Call.OfHeap : Call → Prop
  | .kmalloc _ _ | .kfree _ | .kfreeNolock _ => True
  | _ => False

namespace World

/-- A call keeps the balance: a request does, or the one for the record of a free block. -/
def Keeps (w : World) : Call → Prop
  | .kmalloc size flags => size = 0 ∨ w.mem.KeepsCount (Kmem.roundSize size) flags
  | .kfree ptr | .kfreeNolock ptr => ptr = 0 ∨ w.mem.kmem.freeFreeStructs ≠ [] ∨
      w.mem.KeepsCount (Kmem.roundSize sizeofFree) (kmallocReserved ||| kmallocNolock)
  | _ => True

/-- `memory_total - memory_used` is the number of free bytes. -/
def Exact (w : World) : Prop :=
  sub32 w.mem.kmem.memoryTotal w.mem.kmem.memoryUsed = w.mem.kmem.freeBytes

/-- The runs of `kmalloc` and `kfree` from `w₀`, with the calls made and the states they
were made in, newest first. -/
inductive HeapRun (w₀ : World) : List (World × Call) → World → Prop
  | start : HeapRun w₀ [] w₀
  | step {w : World} {steps : List (World × Call)} {c : Call} {depth : ℕ} {reply : Reply}
      {s : Mem} (run : HeapRun w₀ steps w) (heap : c.OfHeap) (allows : w.Allows c)
      (returns : (c.exec depth).Returns { w.mem with mutex := c.held } reply s) :
      HeapRun w₀ ((w, c) :: steps) (w.after { s with mutex := false } c reply)

end World

section Runs
variable {w w₀ : World} {s : Mem} {c : Call} {reply : Reply} {depth d : ℕ}
  {memTable : List Entry} {steps : List (World × Call)}

theorem Booted.counted {vmEnd : ℕ} (h : Booted memTable vmEnd s)
    (hmap : ∀ e ∈ memTable, e.base + e.length < 2 ^ 64) : s.Counted 0 where
  bare := ⟨h.pageFreeHead, h.map ▸ hmap, h.within hmap⟩
  balanced := by
    rw [Balanced, Kmem.freeBytes, h.kmem, initial_eq]
    simp
  room := h.virtualPointer ▸ h.room
  mapped := Nat.zero_le _

theorem Mem.Counted.same {s' : Mem} (h : s.Counted d) (hk : s'.kmem = s.kmem)
    (hp : s'.page = s.page) : s'.Counted d :=
  ⟨⟨hp ▸ h.bare.pageFreeHead, hp ▸ h.bare.regions, hp ▸ h.bare.within⟩, hk ▸ h.balanced,
    hp ▸ h.room, hp ▸ h.mapped⟩

/-- Freeing a live pointer or the null pointer. -/
theorem World.kfree_counted {ptr : ℕ} {s' : Mem} (hw : MemInv [] w.owned w.mem)
    (hptr : ptr = 0 ∨ ptr ∈ w.pointers.map Prod.fst) (hc : w.mem.Counted d)
    (hnull : ptr = 0 → s'.kmem = w.mem.kmem ∧ s'.page = w.mem.page)
    (hfree : ∀ n owned, MemInv [] ((ptr, n) :: owned) w.mem → ∃ m, s'.Counted (d + m) ∧
      (m = 0 ↔ w.mem.kmem.freeFreeStructs ≠ [] ∨
        w.mem.KeepsCount (Kmem.roundSize sizeofFree) (kmallocReserved ||| kmallocNolock))) :
    ∃ m, s'.Counted (d + m) ∧ (m = 0 ↔ w.Keeps (.kfreeNolock ptr)) := by
  by_cases hzero : ptr = 0
  · obtain ⟨hk, hp⟩ := hnull hzero
    exact ⟨0, hc.same hk hp, by simp [World.Keeps, hzero]⟩
  · obtain ⟨n, hperm⟩ := World.owned_unlink hw.pointers_nodup (hptr.resolve_left hzero)
    obtain ⟨m, hc', hm⟩ := hfree n _ (hw.perm hperm.symm)
    refine ⟨m, hc', hm.trans ?_⟩
    simp [World.Keeps, hzero]

/-- What a call takes off the balance. -/
theorem World.counted_step (hw : MemInv [] w.owned w.mem) (hc : w.mem.Counted d)
    (heap : c.OfHeap) (allows : w.Allows c)
    (returns : (c.exec depth).Returns { w.mem with mutex := c.held } reply s) :
    ∃ m, s.Counted (d + m) ∧ (m = 0 ↔ w.Keeps c) := by
  have hw' : MemInv [] w.owned { w.mem with mutex := c.held } := hw.same rfl rfl rfl
  have hc' : Mem.Counted d { w.mem with mutex := c.held } := hc.same rfl rfl
  cases c with
  | kmalloc size flags =>
    obtain ⟨ptr, s₁, hr, hret⟩ := returns_bind.mp returns
    obtain ⟨-, rfl⟩ := returns_pure.mp hret
    have hcounted := kmalloc_counted hr rfl hw' hc'
    exact hcounted
  | kfree ptr =>
    obtain ⟨_, s₁, hr, hret⟩ := returns_bind.mp returns
    obtain ⟨-, rfl⟩ := returns_pure.mp hret
    have hnull : ptr = 0 → s.kmem = w.mem.kmem ∧ s.page = w.mem.page := by
      rintro rfl
      have hsame := kfree_zero hr rfl
      exact hsame
    refine World.kfree_counted hw allows hc hnull fun n owned h => ?_
    obtain ⟨_, s₀, hlock, hbody⟩ := returns_bind.mp hr
    obtain rfl := mutexLock_returns rfl hlock
    obtain ⟨_, s₁, hfree, hunlock⟩ := returns_bind.mp hbody
    obtain rfl := returns_modify.mp hunlock
    obtain ⟨m, hm⟩ := kfreeNolock_counted hfree rfl (h.same rfl rfl rfl) (hc.same rfl rfl)
    exact ⟨m, hm.1.same rfl rfl, hm.2⟩
  | kfreeNolock ptr =>
    obtain ⟨_, s₁, hr, hret⟩ := returns_bind.mp returns
    obtain ⟨-, rfl⟩ := returns_pure.mp hret
    refine World.kfree_counted hw allows hc (fun hzero => ?_) fun n owned h => ?_
    · subst hzero
      obtain rfl := kfreeNolock_zero hr
      exact ⟨rfl, rfl⟩
    · have hcounted := kfreeNolock_counted hr rfl (h.same rfl rfl rfl) hc'
      exact hcounted
  | alloc | create | free | used | kinstall | kinstallAppend | kuninstall => exact heap.elim

/-- In every run the counters are off by what its calls took off the balance, which is
nothing exactly when every call kept it. -/
theorem World.HeapRun.counted (h : w₀.HeapRun steps w) (hboots : w₀.Boots memTable)
    (hmap : ∀ e ∈ memTable, e.base + e.length < 2 ^ 64) :
    MemInv [] w.owned w.mem ∧ ∃ d, w.mem.Counted d ∧ (d = 0 ↔ ∀ p ∈ steps, p.1.Keeps p.2) := by
  induction h with
  | start =>
    have hreach : w₀.Reachable memTable := ⟨w₀, hboots, .refl⟩
    obtain ⟨⟨vmEnd, hbase, -, hinit⟩, -, -⟩ := hboots
    have hpos : 0 < vmEnd := by
      simp only [kernelVmBase, sizes] at hbase
      omega
    refine ⟨hreach.memInv, 0, ?_, by simp⟩
    exact (init_returns hpos hinit).counted hmap
  | @step w steps c depth reply s run heap allows returns ih =>
    obtain ⟨hw, d, hc, hd⟩ := ih
    obtain ⟨m, hc', hm⟩ := World.counted_step hw hc heap allows returns
    refine ⟨World.Step.memInv (.call allows returns) hw, d + m, ?_, ?_⟩
    · rw [World.after_mem]
      exact hc'.same rfl rfl
    · rw [Nat.add_eq_zero_iff, hd, hm, List.forall_mem_cons]
      exact and_comm

/-- The counters that are `d` bytes off are exact when `d` is zero. -/
theorem Mem.Counted.exact_iff {owned : List (ℕ × ℕ)} (hc : w.mem.Counted d)
    (hw : MemInv [] owned w.mem) : w.Exact ↔ d = 0 := by
  have hfree := hw.heap.coalesced.weigh_length_le (fun x hx => hw.heap.finish_le_top hx)
    (Nat.zero_le _) fun x _ => Nat.zero_le x.base
  rw [← freeBytes_eq] at hfree
  have hroom := hc.room
  have hmapped := hc.mapped
  obtain ⟨hused, hb⟩ := hc.balanced
  simp only [World.Exact, sub32, sizes] at *
  omega

/-- **The counters are exact** after a run of `kmalloc` and `kfree` exactly when every call
of the run kept the balance. -/
theorem exact_iff_keeps (hmap : ∀ e ∈ memTable, e.base + e.length < 2 ^ 64)
    (hboots : w₀.Boots memTable) (h : w₀.HeapRun steps w) :
    w.Exact ↔ ∀ p ∈ steps, p.1.Keeps p.2 := by
  obtain ⟨hw, d, hc, hd⟩ := h.counted hboots hmap
  exact (hc.exact_iff hw).trans hd

theorem World.HeapRun.run (h : w₀.HeapRun steps w) (heap : c.OfHeap) (allows : w.Allows c)
    (hok : (c.exec depth { w.mem with mutex := c.held }).1.isOk = true) :
    w₀.HeapRun ((w, c) :: steps) (w.run depth c) := by
  rcases he : c.exec depth { w.mem with mutex := c.held } with ⟨_ | reply, s⟩
  · rw [he] at hok
    cases hok
  · rw [World.run, he]
    exact .step h heap allows he

theorem roomyMap_regions : ∀ e ∈ roomyMap, e.base + e.length < 2 ^ 64 := by decide

/-- A request for 20 bytes, the first one of all. -/
theorem World.roomy_kmalloc : World.roomy.HeapRun [(World.roomy, .kmalloc 20 0)]
    (World.roomy.run 12 (.kmalloc 20 0)) :=
  .run .start trivial (by decide +kernel) (by decide +kernel)

theorem exact_iff_keeps_roomy : (World.roomy.run 12 (.kmalloc 20 0)).Exact ↔
    ∀ p ∈ [(World.roomy, Call.kmalloc 20 0)], p.1.Keeps p.2 :=
  exact_iff_keeps roomyMap_regions World.roomy_boots World.roomy_kmalloc

/-- The first request makes the heap grow by a new block: its header and its record are
in `memory_total`, not in `memory_used`, and not free. -/
theorem not_exact_roomy : ∃ (w₀ w : World) (steps : List (World × Call)),
    w₀.Boots roomyMap ∧ w₀.HeapRun steps w ∧ ¬ w.Exact := by
  refine ⟨_, _, _, World.roomy_boots, World.roomy_kmalloc, ?_⟩
  rw [World.Exact]
  decide +kernel

end Runs

end Cantos
