import Cantos.Mem.Heap

/-!
# Soundness of the heap

Every function of the interface keeps the heap invariant, for the records that the
page lists and the caller own.

## Main definitions

* `PageState.owned`: the records of the page lists.
* `MemInv`: the invariant of the memory subsystem.
* `World`, `World.Step`: a kernel that makes calls one after the other, with the
  pointers and chains it has been given and has not given back.
-/

namespace Cantos

open Linked Exec

/-- The records of page runs, with their sizes. -/
def pageRecords (l : List Page) : List (ℕ × ℕ) := l.map fun page => (page.ptr, sizeofPage)

/-- The records of holes of virtual memory, with their sizes. -/
def slotRecords (l : List EmptySlot) : List (ℕ × ℕ) := l.map fun slot => (slot.ptr, sizeofSlot)

/-- The heap records in use by the static lists of `namespace page`. -/
def PageState.owned (p : PageState) : List (ℕ × ℕ) :=
  pageRecords (p.pageFreeHead ++ p.usedStart) ++ slotRecords p.emptySlot

/-- The invariant of the memory subsystem, for a caller that owns the records `owned`. -/
structure MemInv (held : List KmemHeader) (owned : List (ℕ × ℕ)) (s : Mem) : Prop where
  heap : HeapInv held (s.page.owned ++ owned) s.kmem s.page.virtualPointer
  memoryEnd : s.kmem.memoryEnd = s.page.virtualPointer

section Basic
variable {held : List KmemHeader} {owned owned' : List (ℕ × ℕ)} {s s' : Mem}

@[simp] theorem pageRecords_append (l l' : List Page) :
    pageRecords (l ++ l') = pageRecords l ++ pageRecords l' := List.map_append

@[simp] theorem pageRecords_cons (page : Page) (l : List Page) :
    pageRecords (page :: l) = (page.ptr, sizeofPage) :: pageRecords l := rfl

@[simp] theorem pageRecords_nil : pageRecords [] = [] := rfl

@[simp] theorem slotRecords_append (l l' : List EmptySlot) :
    slotRecords (l ++ l') = slotRecords l ++ slotRecords l' := List.map_append

@[simp] theorem slotRecords_cons (slot : EmptySlot) (l : List EmptySlot) :
    slotRecords (slot :: l) = (slot.ptr, sizeofSlot) :: slotRecords l := rfl

/-- Records may change hands between the page lists and the caller. -/
theorem MemInv.hand (h : MemInv held owned s) (hk : s'.kmem = s.kmem)
    (hv : s'.page.virtualPointer = s.page.virtualPointer)
    (hp : (s'.page.owned ++ owned').Perm (s.page.owned ++ owned)) : MemInv held owned' s' := by
  refine ⟨?_, by rw [hk, hv, h.memoryEnd]⟩
  rw [hk, hv]
  exact h.heap.perm hp

theorem MemInv.perm (h : MemInv held owned s) (hp : owned'.Perm owned) : MemInv held owned' s :=
  h.hand rfl rfl (hp.append_left _)

/-- A step that changes none of the lists keeps the invariant. -/
theorem MemInv.same (h : MemInv held owned s) (hk : s'.kmem = s.kmem)
    (hv : s'.page.virtualPointer = s.page.virtualPointer)
    (hp : s'.page.owned = s.page.owned) : MemInv held owned s' :=
  h.hand hk hv (by rw [hp])

theorem HeapInv.raise {k : Kmem} {top top' : ℕ} (h : HeapInv held owned k top)
    (ht : top ≤ top') : HeapInv held owned k top' :=
  { h with
    top_pos := h.top_pos.trans_le ht
    below := fun r hr => (h.below r hr).trans ht }

end Basic

/-! ## Allocation -/

section Allocation
variable {held : List KmemHeader} {owned : List (ℕ × ℕ)} {s s' : Mem} {r : ℕ}

/-- A block that was found by a search is handed out. -/
theorem MemInv.takeBlock {prev size : ℕ} {free : KmemFree} (h : MemInv held owned s)
    (hfit : Kmem.findFit (Kmem.sizeNeeded size) 0 s.kmem.freeList = (prev, some free)) :
    MemInv held ((free.base + sizeofHeader, size) :: owned)
      { s with kmem := s.kmem.takeBlock prev free size } := by
  obtain ⟨pre, post, hl, hsize, -, hprev⟩ := findFit_some hfit
  refine ⟨?_, by simpa using h.memoryEnd⟩
  exact (h.heap.takeBlock hl hsize hprev).perm List.perm_middle

theorem Bumped.memInv {count : ℕ} {p : Page} (hb : Bumped count s p s')
    (h : MemInv held owned s) : MemInv held owned s' := by
  obtain ⟨pageId, pointer, map, rfl⟩ := hb.state
  exact h.same rfl rfl rfl

theorem Bumped.virtualPointer {count : ℕ} {p : Page} (hb : Bumped count s p s') :
    s'.page.virtualPointer = s.page.virtualPointer := by
  obtain ⟨pageId, pointer, map, rfl⟩ := hb.state
  rfl

theorem Gets.virtualPointer {n : ℕ} {page : Page} (hg : Gets n s page s') :
    s'.page.virtualPointer = s.page.virtualPointer := by
  cases hg with
  | fresh _ _ bump _ => exact bump.virtualPointer
  | cut => rfl
  | whole => rfl

/-- The run for a growth comes with a record that nobody else owns. -/
theorem Gets.memInv {n : ℕ} {page : Page} (hg : Gets n s page s') (h : MemInv held owned s) :
    MemInv held ((page.ptr, sizeofPage) :: owned) s' := by
  cases hg with
  | fresh empty fit bump enough => exact bump.memInv (h.takeBlock fit)
  | cut entries more fit =>
    refine (h.takeBlock fit).hand rfl rfl ?_
    simp [PageState.owned, Mem.cut, Mem.recorded, entries]
  | whole entries enough =>
    refine h.hand rfl rfl ?_
    simp only [PageState.owned, entries, pageRecords_append, pageRecords_cons]
    grind

/-- A growth hands its pages to the heap and the record to the list of used pages. -/
theorem MemInv.grow {page : Page} {table : ℕ → ℕ} {cursor prev n loc : ℕ}
    (h : MemInv held ((page.ptr, sizeofPage) :: owned) s) (hpos : 0 < page.consecutive)
    (hloc : loc = s.page.virtualPointer) :
    MemInv held owned (s.grown page table cursor prev n loc) := by
  subst hloc
  have hmapped : HeapInv held (s.page.owned ++ (page.ptr, sizeofPage) :: owned)
      (s.mapped page.consecutive table cursor).kmem s.page.virtualPointer :=
    h.heap.transfer rfl rfl rfl rfl (.refl _)
  refine ⟨(hmapped.attach hpos).perm ?_, ?_⟩
  · simp only [PageState.owned, Mem.grown, Mem.attached, Mem.mapped, pageRecords_append,
      pageRecords_cons]
    grind
  · simp [Mem.grown, Mem.attached, Mem.mapped]

/-- A request that is granted is granted a chunk of its own. -/
theorem Grants.memInv {size : ℕ} {flags : Flags} (hg : Grants size flags s r s')
    (h : MemInv held owned s) : MemInv held ((r, size) :: owned) s' := by
  induction hg with
  | served fit => exact h.takeBlock (search_some fit)
  | grown fit gets loc_eq room _ ih =>
    have hpos := (Kmem.two_le_pagesNeeded _ _ _).trans gets.enough
    have htop := h.heap.top_pos
    rw [← gets.virtualPointer] at htop
    exact ih ((gets.memInv h).grow (by omega) (loc_eq htop))

theorem kmalloc_memInv {depth size : ℕ} {flags : Flags}
    (hr : (Kmem.kmalloc depth size flags).Returns s r s')
    (hs : s.mutex = flags.has kmallocNolock) (h : MemInv held owned s) :
    (size = 0 ∧ r = 0 ∧ s' = s) ∨ size ≠ 0 ∧ MemInv held ((r, size) :: owned) s' := by
  rcases kmalloc_returns hs hr with ⟨hsize, rfl, rfl⟩ | ⟨hsize, s₁, hgrants, rfl⟩
  · exact .inl ⟨hsize, rfl, rfl⟩
  · have h₁ := hgrants.memInv (h.same rfl rfl rfl)
    have hheap := h₁.heap.first
    exact .inr ⟨hsize, (hheap.weaken (Kmem.roundSize_le size)).perm List.perm_middle,
      h₁.memoryEnd⟩

/-- A request for a record of the kernel's own. -/
theorem kmalloc_record_memInv {depth size : ℕ} {flags : Flags}
    (hr : (Kmem.kmalloc depth size flags).Returns s r s')
    (hf : flags.has kmallocNolock = true) (hsize : size ≠ 0) (hs : s.mutex = true)
    (h : MemInv held owned s) :
    MemInv held ((r, size) :: owned) s' := by
  rcases kmalloc_memInv hr (hs.trans hf.symm) h with ⟨h₀, -⟩ | ⟨-, h₁⟩
  · exact absurd h₀ hsize
  · exact h₁

theorem FirstRun.memInv {depth count : ℕ} {flags : Flags} {page : Page}
    (hf : FirstRun depth flags count s page s') (hs : s.mutex = true) (h : MemInv held owned s) :
    MemInv held ((page.ptr, sizeofPage) :: owned) s' := by
  cases hf with
  | fresh empty record bump =>
    exact bump.memInv
      (kmalloc_record_memInv record (allocFlag_has_nolock flags) (by decide) hs h)
  | cut entries more record left =>
    refine (kmalloc_record_memInv record (allocFlag_has_nolock flags) (by decide) hs h).hand
      rfl rfl ?_
    simp [PageState.owned, Mem.cut, left]
  | whole entries less =>
    refine h.hand rfl rfl ?_
    simp only [PageState.owned, entries, pageRecords_append, pageRecords_cons]
    grind

/-- The runs of a chain come with records that nobody else owns. -/
theorem alloc_memInv {depth count : ℕ} {flags : Flags} {chain : List Page}
    (hr : (Page.alloc depth flags count).Returns s chain s')
    (hs : s.mutex = flags.has flagNolock) (h : MemInv held owned s) :
    MemInv held (pageRecords chain ++ owned) s' := by
  induction depth generalizing count s s' chain owned with
  | zero =>
    obtain ⟨rfl, rfl⟩ := alloc_zero_returns hr
    exact h
  | succ depth ih =>
    by_cases hc : count = 0
    · rw [hc, Page.alloc, if_pos rfl] at hr
      obtain ⟨rfl, rfl⟩ := returns_pure.mp hr
      exact h
    obtain ⟨s₀, page, s₁, next, s₂, hlock, hfirst, hrest, hunlock, rfl⟩ := alloc_returns hc hr
    obtain rfl := lockUnless_returns hs hlock
    have hs₁ := hfirst.mutex rfl
    have h₁ := hfirst.memInv rfl (h.same rfl rfl rfl)
    have h₂ : MemInv held (pageRecords (page :: next) ++ owned) s₂ ∧ s₂.mutex = true := by
      rcases hrest with ⟨-, rfl, rfl⟩ | ⟨hless, hrest⟩
      · exact ⟨h₁, hs₁⟩
      · by_cases hf : flags.has flagNolock
        · have hn := ih hrest (hs₁.trans hf.symm) (h₁.same rfl rfl rfl)
          refine ⟨hn.perm ?_, ?_⟩
          · rw [pageRecords_cons, List.cons_append]
            exact List.perm_middle.symm
          · exact ((locks_alloc depth flags _).returns hrest (hs₁.trans hf.symm)).trans hf
        · exact absurd hrest (not_returns_alloc (by simpa using hf) (by omega) hs₁)
    obtain rfl := unlockUnless_returns h₂.2 hunlock
    exact h₂.1.same rfl rfl rfl

end Allocation

/-! ## Freeing -/

section Freeing
variable {held : List KmemHeader} {owned : List (ℕ × ℕ)} {s s' : Mem} {depth : ℕ}

/-- The record for a new free block is one that is to be used again, or a new one. -/
theorem getStruct_memInv {r : ℕ} (hr : (Kmem.getStruct depth).Returns s r s')
    (hs : s.mutex = true) (h : MemInv held owned s) :
    MemInv held ((r, sizeofFree) :: owned) s' := by
  rw [Kmem.getStruct, returns_get_bind] at hr
  rcases hfree : s.kmem.freeFreeStructs with _ | ⟨hold, next⟩
  · simp only [hfree] at hr
    exact kmalloc_record_memInv hr (by decide) (by decide) hs h
  · simp only [hfree, returns_set_bind] at hr
    obtain ⟨rfl, rfl⟩ := returns_pure.mp hr
    refine ⟨h.heap.transfer rfl rfl rfl rfl ?_, h.memoryEnd⟩
    simp only [Kmem.records, hfree, List.map_append, List.map_cons]
    grind

/-- How `kfree_nolock` frees a live pointer: it marks the header, gets a record for the
block, and links the block into the free list. -/
theorem kfreeNolock_returns {p n : ℕ} {u : Unit} (hr : (Kmem.kfreeNolock depth p).Returns s u s')
    (hs : s.mutex = true) (h : MemInv held ((p, n) :: owned) s) :
    ∃ hdr s₀ newEntry s₁, n ≤ hdr.size ∧ s₀ = { s with
        kmem.headers := putHeader { hdr with sentinel := sentinelFreed } s.kmem.headers } ∧
      MemInv (hdr :: held) owned s₀ ∧ (Kmem.getStruct depth).Returns s₀ newEntry s₁ ∧
      MemInv (hdr :: held) ((newEntry, sizeofFree) :: owned) s₁ ∧
      s' = { s₁ with
        kmem := (s₁.kmem.insertFree newEntry hdr.ptr (hdr.size + sizeofHeader)).setUsed
          (sub32 s₁.kmem.memoryUsed (hdr.size + sizeofHeader)) } := by
  have hheap := h.heap.first
  obtain ⟨hdr, hhdr, hptr, hsize, hfind⟩ := hheap.find_header
  have hp : p ≠ 0 := by
    simp only [sizes] at hptr
    omega
  have hval : hdr.sentinel = sentinelVal := by simpa using (List.mem_filter.mp hhdr).2
  rw [Kmem.kfreeNolock, if_neg hp, returns_get_bind] at hr
  simp only [hfind] at hr
  rw [if_neg (hval ▸ sentinel_ne), if_neg (not_not.mpr hval), returns_modify_bind] at hr
  obtain ⟨newEntry, s₁, hget, hins⟩ := returns_bind.mp hr
  have h₀ : MemInv (hdr :: held) owned { s with
      kmem.headers := putHeader { hdr with sentinel := sentinelFreed } s.kmem.headers } :=
    ⟨hheap.mark hhdr hptr rfl, h.memoryEnd⟩
  exact ⟨hdr, _, newEntry, s₁, hsize, rfl, h₀, hget, getStruct_memInv hget hs h₀,
    returns_modify.mp hins⟩

/-- The block of a freed chunk is linked into the free list. -/
theorem MemInv.insertFree {hdr : KmemHeader} {newEntry : ℕ} (used : ℕ)
    (h : MemInv (hdr :: held) ((newEntry, sizeofFree) :: owned) s) :
    MemInv held owned { s with
      kmem := (s.kmem.insertFree newEntry hdr.ptr (hdr.size + sizeofHeader)).setUsed used } := by
  have hheap := h.heap.first
  obtain ⟨-, hre⟩ := insertFree_spec hdr.ptr (hdr.size + sizeofHeader) hheap.newEntry_nodup
  refine ⟨hheap.insertFree.setUsed used, ?_⟩
  rw [setUsed_memoryEnd, hre.memoryEnd, link_memoryEnd, h.memoryEnd]

theorem kfreeNolock_memInv {p n : ℕ} {u : Unit} (hr : (Kmem.kfreeNolock depth p).Returns s u s')
    (hs : s.mutex = true) (h : MemInv held ((p, n) :: owned) s) :
    MemInv held owned s' := by
  obtain ⟨hdr, s₀, newEntry, s₁, -, -, -, -, h₁, rfl⟩ := kfreeNolock_returns hr hs h
  exact h₁.insertFree _

theorem kfree_memInv {p n : ℕ} {u : Unit} (hr : (Kmem.kfree depth p).Returns s u s')
    (hs : s.mutex = false) (h : MemInv held ((p, n) :: owned) s) : MemInv held owned s' := by
  obtain ⟨_, s₀, hlock, hbody⟩ := returns_bind.mp hr
  obtain rfl := mutexLock_returns hs hlock
  obtain ⟨_, s₁, hfree, hunlock⟩ := returns_bind.mp hbody
  obtain rfl := returns_modify.mp hunlock
  exact (kfreeNolock_memInv hfree rfl (h.same rfl rfl rfl)).same rfl rfl rfl

/-- Joining two runs of a list gives up the record of the second, which is freed. -/
theorem page_mergeFree_frees {first : ℕ} {u : Unit}
    (hr : (Page.mergeFree depth first).Returns s u s') (h : MemInv held owned s) :
    s' = s ∨ ∃ t ptr, MemInv held ((ptr, sizeofPage) :: owned) t ∧ t.kmem = s.kmem ∧
      t.mutex = s.mutex ∧ (Kmem.kfreeNolock depth ptr).Returns t u s' := by
  rw [Page.mergeFree, returns_get_bind] at hr
  rcases hfree : joinNext Page.ptr Page.touches Page.join first s.page.pageFreeHead with
    _ | ⟨l, hold⟩
  · simp only [hfree] at hr
    rcases hused : joinNext Page.ptr Page.touches Page.join first s.page.usedStart with
      _ | ⟨l, hold⟩
    · simp only [hused] at hr
      exact .inl (returns_pure.mp hr).2
    · simp only [hused, returns_set_bind] at hr
      obtain ⟨pre, x, post, hl, -, -, rfl⟩ := joinNext_eq_some hused
      refine .inr ⟨_, hold.ptr, ?_, ?_, ?_, hr⟩
      · refine h.hand rfl rfl ?_
        simp only [PageState.owned, hl, pageRecords_append, pageRecords_cons, Page.join]
        grind
      · rfl
      · rfl
  · simp only [hfree, returns_set_bind] at hr
    obtain ⟨pre, x, post, hl, -, -, rfl⟩ := joinNext_eq_some hfree
    refine .inr ⟨_, hold.ptr, ?_, ?_, ?_, hr⟩
    · refine h.hand rfl rfl ?_
      simp only [PageState.owned, hl, pageRecords_append, pageRecords_cons, Page.join]
      grind
    · rfl
    · rfl

theorem page_mergeFree_memInv {first : ℕ} {u : Unit}
    (hr : (Page.mergeFree depth first).Returns s u s') (hs : s.mutex = true)
    (h : MemInv held owned s) : MemInv held owned s' := by
  rcases page_mergeFree_frees hr h with rfl | ⟨t, ptr, ht, -, hmutex, hfree⟩
  · exact h
  · exact kfreeNolock_memInv hfree (hmutex.trans hs) ht

/-- A run is linked into the free list. -/
theorem MemInv.linkRun {page : Page} (h : MemInv held ((page.ptr, sizeofPage) :: owned) s) :
    MemInv held owned { s with
      page.pageFreeHead := s.page.pageFreeHead.takeWhile (fun now => now.memBase < page.memBase) ++
        page :: s.page.pageFreeHead.dropWhile fun now => now.memBase < page.memBase } := by
  refine h.hand rfl rfl ?_
  have hl := List.takeWhile_append_dropWhile (l := s.page.pageFreeHead)
    (p := fun now => decide (now.memBase < page.memBase))
  simp only [PageState.owned, pageRecords_append, pageRecords_cons]
  conv_rhs => rw [← hl, pageRecords_append]
  grind

theorem freeRun_memInv {page : Page} {u : Unit} (hr : (Page.freeRun depth page).Returns s u s')
    (hs : s.mutex = true) (h : MemInv held ((page.ptr, sizeofPage) :: owned) s) :
    MemInv held owned s' := by
  rw [Page.freeRun, returns_get_bind] at hr
  simp only [returns_set_bind] at hr
  obtain ⟨_, s₁, hmerge, hrest⟩ := returns_bind.mp hr
  have h₁ : MemInv held owned s₁ := page_mergeFree_memInv hmerge hs h.linkRun
  have hs₁ : s₁.mutex = true := (locks_mergeFree depth page.ptr).returns hmerge hs
  split_ifs at hrest
  · obtain ⟨-, rfl⟩ := returns_pure.mp hrest
    exact h₁
  · exact page_mergeFree_memInv hrest hs₁ h₁

theorem free_memInv {chain : List Page} {u : Unit} (hr : (Page.free depth chain).Returns s u s')
    (hs : s.mutex = false) (h : MemInv held (pageRecords chain ++ owned) s) :
    MemInv held owned s' := by
  induction chain generalizing s s' owned with
  | nil =>
    obtain ⟨-, rfl⟩ := returns_pure.mp hr
    exact h
  | cons page next ih =>
    rw [Page.free] at hr
    obtain ⟨_, s₁, hnext, hbody⟩ := returns_bind.mp hr
    have h₁ : MemInv held ((page.ptr, sizeofPage) :: owned) s₁ ∧ s₁.mutex = false := by
      split_ifs at hnext with hempty
      · obtain ⟨-, rfl⟩ := returns_pure.mp hnext
        obtain rfl := List.isEmpty_iff.mp hempty
        exact ⟨h, hs⟩
      · exact ⟨ih hnext hs (h.perm List.perm_middle), (locks_free depth next).returns hnext hs⟩
    obtain ⟨_, s₂, hlock, hbody⟩ := returns_bind.mp hbody
    obtain rfl := mutexLock_returns h₁.2 hlock
    obtain ⟨_, s₃, hrun, hunlock⟩ := returns_bind.mp hbody
    obtain rfl := returns_modify.mp hunlock
    exact (freeRun_memInv hrun rfl (h₁.1.same rfl rfl rfl)).same rfl rfl rfl

end Freeing

/-! ## Records and mappings of chains -/

section Chains
variable {held : List KmemHeader} {owned : List (ℕ × ℕ)} {s s' : Mem} {depth : ℕ}

theorem create_memInv {base count : ℕ} {flags : Flags} {chain : List Page}
    (hr : (Page.create depth base flags count).Returns s chain s') (hs : s.mutex = false)
    (h : MemInv held owned s) : MemInv held (pageRecords chain ++ owned) s' := by
  obtain ⟨_, s₀, hlock, hbody⟩ := returns_bind.mp hr
  obtain rfl := mutexLock_returns hs hlock
  obtain ⟨write, s₁, hrec, hrest⟩ := returns_bind.mp hbody
  have h₁ : MemInv held ((write, sizeofPage) :: owned) s₁ :=
    kmalloc_record_memInv hrec (by decide) (by decide) rfl (h.same rfl rfl rfl)
  rw [returns_get_bind, returns_set_bind] at hrest
  obtain ⟨_, s₂, hunlock, hret⟩ := returns_bind.mp hrest
  obtain rfl := returns_modify.mp hunlock
  obtain ⟨rfl, rfl⟩ := returns_pure.mp hret
  exact h₁.same rfl rfl rfl

theorem used_memInv {chain : List Page} {lock : Bool} {u : Unit}
    (hr : (Page.used chain lock).Returns s u s') (hs : s.mutex = !lock)
    (h : MemInv held (pageRecords chain ++ owned) s) : MemInv held owned s' := by
  induction chain generalizing s s' owned with
  | nil => exact absurd hr returns_stop
  | cons page oldNext ih =>
    rw [Page.used] at hr
    obtain ⟨_, s₀, hlock, hbody⟩ := returns_bind.mp hr
    obtain rfl := lockIf_returns hs hlock
    rw [returns_modify_bind] at hbody
    obtain ⟨_, s₁, hunlock, hrest⟩ := returns_bind.mp hbody
    obtain rfl := unlockIf_returns rfl hunlock
    have h₁ : ∀ t : Mem, t.kmem = s.kmem →
        t.page = { s.page with usedStart := page :: s.page.usedStart } →
        MemInv held (pageRecords oldNext ++ owned) t := by
      intro t hk hp
      refine h.hand hk (by rw [hp]) ?_
      simp only [hp, PageState.owned, pageRecords_append, pageRecords_cons]
      grind
    split_ifs at hrest with hempty
    · obtain ⟨-, rfl⟩ := returns_pure.mp hrest
      obtain rfl := List.isEmpty_iff.mp hempty
      exact h₁ _ rfl rfl
    · exact ih hrest rfl (h₁ _ rfl rfl)

theorem MemInv.mapped (h : MemInv held owned s) (k : ℕ) (table : ℕ → ℕ) (cursor : ℕ) :
    MemInv held owned (s.mapped k table cursor) := by
  have hraised := h.heap.raise (Nat.le_add_right s.page.virtualPointer (k * pageSize))
  exact ⟨hraised.transfer rfl rfl rfl rfl (.refl _), rfl⟩

theorem kinstallAppend_memInv {chain : List Page} {pageFlags r : ℕ} {lock : Bool}
    (hr : (Page.kinstallAppend chain pageFlags lock).Returns s r s') (hs : s.mutex = !lock)
    (h : MemInv held owned s) : MemInv held owned s' := by
  induction chain generalizing s s' lock r with
  | nil => exact absurd hr returns_stop
  | cons page next ih =>
    rw [Page.kinstallAppend] at hr
    obtain ⟨_, s₀, hlock, hbody⟩ := returns_bind.mp hr
    obtain rfl := lockIf_returns hs hlock
    obtain ⟨first, s₁, hrun, hbody⟩ := returns_bind.mp hbody
    rw [returns_modify_bind] at hbody
    obtain ⟨⟨table, cursor, rfl⟩, -, -⟩ := appendRun_returns hrun
    obtain ⟨_, s₂, hunlock, hrest⟩ := returns_bind.mp hbody
    obtain rfl := unlockIf_returns rfl hunlock
    have hmapped := h.mapped page.consecutive table cursor
    split_ifs at hrest with hempty
    · obtain ⟨-, rfl⟩ := returns_pure.mp hrest
      exact hmapped.same rfl rfl rfl
    · rw [returns_note_bind] at hrest
      obtain ⟨_, s₃, hnext, hret⟩ := returns_bind.mp hrest
      obtain ⟨-, rfl⟩ := returns_pure.mp hret
      cases lock with
      | false => exact absurd (kinstallAppend_stops (by simpa using hempty) rfl) hnext.not_stops
      | true => exact ih hnext rfl (hmapped.same rfl rfl rfl)

theorem writeRun_returns {memBase pageFlags k j entry r : ℕ}
    (hr : (Page.writeRun memBase pageFlags k j entry).Returns s r s') :
    ∃ table, s' = { s with page.table := table } := by
  induction k generalizing s j entry with
  | zero => exact ⟨s.page.table, (returns_pure.mp hr).2⟩
  | succ k ih =>
    rw [Page.writeRun, returns_modify_bind] at hr
    obtain ⟨table, rfl⟩ := ih (returns_pure_bind.mp hr)
    exact ⟨table, rfl⟩

theorem writeChain_returns {consecutive pageFlags entry : ℕ} {chain : List Page} {u : Unit}
    (hr : (Page.writeChain consecutive pageFlags chain entry).Returns s u s') :
    ∃ table, s' = { s with page.table := table } := by
  induction chain generalizing s entry with
  | nil => exact ⟨s.page.table, (returns_pure.mp hr).2⟩
  | cons page next ih =>
    obtain ⟨entry', s₁, hrun, hrest⟩ := returns_bind.mp hr
    obtain ⟨table, rfl⟩ := writeRun_returns hrun
    obtain ⟨table', rfl⟩ := ih hrest
    exact ⟨table', rfl⟩

theorem clearRun_returns {k entry base r : ℕ}
    (hr : (Page.clearRun k entry base).Returns s r s') :
    ∃ table, s' = { s with page.table := table } := by
  induction k generalizing s entry base with
  | zero => exact ⟨s.page.table, (returns_pure.mp hr).2⟩
  | succ k ih =>
    rw [Page.clearRun, returns_modify_bind] at hr
    obtain ⟨table, rfl⟩ := ih (returns_pure_bind.mp hr)
    exact ⟨table, rfl⟩

/-- No hole of virtual memory is linked twice. -/
theorem MemInv.slots_nodup (h : MemInv held owned s) :
    (s.page.emptySlot.map EmptySlot.ptr).Nodup := by
  have hn := h.heap.nodup
  rw [PageState.owned, List.map_append, List.map_append, List.map_append] at hn
  have := hn.of_append_right.of_append_left.of_append_right
  rwa [slotRecords, List.map_map] at this

/-- The record of a hole that is taken as a whole is freed; another keeps its record. -/
theorem takeSlot_memInv {totalPages : ℕ} {slot : EmptySlot} {pre post : List EmptySlot} {u : Unit}
    (hr : (Page.takeSlot depth totalPages slot (pre ++ post)).Returns s u s') (hs : s.mutex = true)
    (hl : s.page.emptySlot = pre ++ slot :: post) (h : MemInv held owned s) :
    MemInv held owned s' := by
  have hn : ((pre ++ slot :: post).map EmptySlot.ptr).Nodup := hl ▸ h.slots_nodup
  rw [Page.takeSlot, returns_get_bind] at hr
  split_ifs at hr with hpages
  · rw [returns_set_bind] at hr
    refine kfreeNolock_memInv (n := sizeofSlot) hr hs (h.hand rfl rfl ?_)
    simp only [PageState.owned, hl, slotRecords_append, slotRecords_cons]
    grind
  · obtain rfl := returns_set.mp hr
    refine h.same rfl rfl ?_
    simp only [PageState.owned, hl, updateAt_eq _ hn, slotRecords_append, slotRecords_cons]

theorem kinstall_memInv {chain : List Page} {pageFlags r : ℕ}
    (hr : (Page.kinstall depth chain pageFlags).Returns s r s') (hs : s.mutex = false)
    (h : MemInv held owned s) : MemInv held owned s' := by
  rw [Page.kinstall] at hr
  obtain ⟨_, s₀, hlock, hbody⟩ := returns_bind.mp hr
  obtain rfl := mutexLock_returns hs hlock
  rw [returns_get_bind] at hbody
  split at hbody
  next slot hfind =>
    obtain ⟨_, s₁, hslot, hbody⟩ := returns_bind.mp hbody
    have hmem : slot ∈ s.page.emptySlot := List.mem_of_find?_eq_some hfind
    obtain ⟨pre, post, hl⟩ := List.append_of_mem hmem
    have hn : ((pre ++ slot :: post).map EmptySlot.ptr).Nodup := hl ▸ h.slots_nodup
    simp only [hl, unlink_eq hn] at hslot
    have h₁ := takeSlot_memInv hslot rfl hl (h.same rfl rfl rfl)
    split_ifs at hbody with hbase
    · obtain ⟨_, s₂, hwrite, hrest⟩ := returns_bind.mp hbody
      obtain ⟨table, rfl⟩ := writeChain_returns hwrite
      obtain ⟨_, s₃, hunlock, hret⟩ := returns_bind.mp hrest
      obtain rfl := returns_modify.mp hunlock
      obtain ⟨-, rfl⟩ := returns_pure.mp hret
      exact h₁.same rfl rfl rfl
    · obtain ⟨_, s₂, hunlock, happ⟩ := returns_bind.mp hbody
      obtain rfl := returns_modify.mp hunlock
      exact kinstallAppend_memInv happ rfl (h₁.same rfl rfl rfl)
  next =>
    obtain ⟨_, s₂, hunlock, happ⟩ := returns_bind.mp hbody
    obtain rfl := returns_modify.mp hunlock
    exact kinstallAppend_memInv happ rfl (h.same rfl rfl rfl)

/-- Joining two holes gives up the record of the second, which is freed. -/
theorem mergeFreeSlots_frees {first : ℕ} {u : Unit}
    (hr : (Page.mergeFreeSlots depth first).Returns s u s') (h : MemInv held owned s) :
    s' = s ∨ ∃ t ptr, MemInv held ((ptr, sizeofSlot) :: owned) t ∧ t.kmem = s.kmem ∧
      t.mutex = s.mutex ∧ (Kmem.kfreeNolock depth ptr).Returns t u s' := by
  rw [Page.mergeFreeSlots, returns_get_bind] at hr
  split at hr
  next emptySlot hold hjoin =>
    rw [returns_set_bind] at hr
    obtain ⟨pre, x, post, hl, -, -, rfl⟩ := joinNext_eq_some hjoin
    refine .inr ⟨_, hold.ptr, ?_, ?_, ?_, hr⟩
    · refine h.hand rfl rfl ?_
      simp only [PageState.owned, hl, slotRecords_append, slotRecords_cons]
      grind
    · rfl
    · rfl
  next => exact .inl (returns_pure.mp hr).2

theorem mergeFreeSlots_memInv {first : ℕ} {u : Unit}
    (hr : (Page.mergeFreeSlots depth first).Returns s u s') (hs : s.mutex = true)
    (h : MemInv held owned s) : MemInv held owned s' := by
  rcases mergeFreeSlots_frees hr h with rfl | ⟨t, ptr, ht, -, hmutex, hfree⟩
  · exact h
  · exact kfreeNolock_memInv hfree (hmutex.trans hs) ht

theorem kuninstall_memInv {base : ℕ} {chain : List Page} {u : Unit}
    (hr : (Page.kuninstall depth base chain).Returns s u s') (hs : s.mutex = false)
    (h : MemInv held owned s) : MemInv held owned s' := by
  induction chain generalizing s s' base with
  | nil =>
    obtain ⟨-, rfl⟩ := returns_pure.mp hr
    exact h
  | cons page next ih =>
    rw [Page.kuninstall] at hr
    obtain ⟨_, s₀, hlock, hbody⟩ := returns_bind.mp hr
    obtain rfl := mutexLock_returns hs hlock
    obtain ⟨newSlot, s₁, hrec, hbody⟩ := returns_bind.mp hbody
    have h₁ : MemInv held ((newSlot, sizeofSlot) :: owned) s₁ :=
      kmalloc_record_memInv hrec (by decide) (by decide) rfl (h.same rfl rfl rfl)
    have hs₁ : s₁.mutex = true := (locks_kmalloc depth sizeofSlot kmallocNolock).returns hrec rfl
    rw [returns_get_bind] at hbody
    simp only [returns_set_bind] at hbody
    obtain ⟨base', s₂, hclear, hbody⟩ := returns_bind.mp hbody
    obtain ⟨table, rfl⟩ := clearRun_returns hclear
    obtain ⟨_, s₃, hmerge, hbody⟩ := returns_bind.mp hbody
    have hs₃ : s₃.mutex = true := (locks_mergeFreeSlots depth newSlot).returns hmerge hs₁
    have h₃ : MemInv held owned s₃ := by
      refine mergeFreeSlots_memInv hmerge hs₁ (h₁.hand rfl rfl ?_)
      have hl := List.takeWhile_append_dropWhile (l := s₁.page.emptySlot)
        (p := fun now => decide (now.base < base))
      simp only [PageState.owned, slotRecords_append, slotRecords_cons]
      conv_rhs => rw [← hl, slotRecords_append]
      grind
    obtain ⟨_, s₄, hmerge', hbody⟩ := returns_bind.mp hbody
    have h₄ : MemInv held owned s₄ := by
      split_ifs at hmerge'
      · obtain ⟨-, rfl⟩ := returns_pure.mp hmerge'
        exact h₃
      · exact mergeFreeSlots_memInv hmerge' hs₃ h₃
    obtain ⟨_, s₅, hunlock, hrest⟩ := returns_bind.mp hbody
    obtain rfl := returns_modify.mp hunlock
    split_ifs at hrest
    · obtain ⟨-, rfl⟩ := returns_pure.mp hrest
      exact h₄.same rfl rfl rfl
    · exact ih hrest rfl (h₄.same rfl rfl rfl)

end Chains

end Cantos
