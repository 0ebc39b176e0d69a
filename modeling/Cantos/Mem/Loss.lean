import Cantos.Mem.World

/-!
# What a growth of the heap loses

`do_kmalloc` keeps a pointer, `prev`, to the last block of the free list over the
call of `page::alloc`, and gives the new pages to that block when it ends where they
begin.  The request for a record that `page::alloc` makes may have taken the block in
the meantime: its record is then on the list of records to be used again, and the
pages are lost with it.

This happens exactly when `prev` is the first block that can hold a record and too
small to be cut in two.  It can only happen to the first growth of a request, because
behind a growth that lost nothing there is a block for the request.

## Main definitions

* `Mem.PrevTaken`: the nested request takes `prev`.
* `LosesNothing`: every byte mapped is in a block or in a chunk.
-/

namespace Cantos

open Linked Exec Runs

/-! ## The block at a pointer -/

section FreeAt
variable {held : List KmemHeader} {owned : List (ℕ × ℕ)} {k : Kmem}
  {top prev loc before size : ℕ} {free x : KmemFree} {pre post : List KmemFree}

theorem freeAt_eq_some (hn : ((k.freeList ++ k.freeFreeStructs).map KmemFree.ptr).Nodup) :
    k.freeAt prev = some x ↔ x ∈ k.freeList ++ k.freeFreeStructs ∧ x.ptr = prev := by
  constructor
  · intro h
    exact ⟨List.mem_of_find?_eq_some h, by simpa using List.find?_some h⟩
  · rintro ⟨hx, rfl⟩
    exact find?_ptr_of_mem hn hx

theorem endsAt_iff (hn : ((k.freeList ++ k.freeFreeStructs).map KmemFree.ptr).Nodup) :
    k.endsAt prev loc = true ↔
      prev ≠ 0 ∧ ∃ x ∈ k.freeList ++ k.freeFreeStructs, x.ptr = prev ∧ x.finish = loc := by
  simp only [Kmem.endsAt, Bool.decide_and, Bool.and_eq_true, decide_eq_true_eq,
    Option.any_eq_true, freeAt_eq_some hn, KmemFree.finish]
  constructor
  · rintro ⟨hp, x, ⟨hx, hptr⟩, hfin⟩
    exact ⟨hp, x, hx, hptr, hfin⟩
  · rintro ⟨hp, x, hx, hptr, hfin⟩
    exact ⟨hp, x, ⟨hx, hptr⟩, hfin⟩

/-- A search that finds no block goes through the list to its end, or is left out. -/
theorem search_none {sizeNeeded : ℕ} {flags : Flags}
    (h : k.search sizeNeeded flags = (prev, none)) :
    prev = 0 ∨ prev ∈ k.freeList.map KmemFree.ptr ∧ ∀ x ∈ k.freeList, x.size < sizeNeeded := by
  rw [Kmem.search] at h
  split_ifs at h
  · exact .inl (congrArg Prod.fst h).symm
  · obtain ⟨hsmall, rfl⟩ := findFit_none h
    cases hlast : k.freeList.getLast? with
    | none => exact .inl rfl
    | some x => exact .inr ⟨List.mem_map_of_mem (List.mem_of_getLast? hlast), hsmall⟩

/-- Allocation does not move the end of a block, wherever its record is linked. -/
theorem HeapInv.endsAt_takeBlock (h : HeapInv held owned k top)
    (hl : k.freeList = pre ++ free :: post) (hfit : Kmem.sizeNeeded size ≤ free.size)
    (hprev : before = lastPtr KmemFree.ptr pre) :
    (k.takeBlock before free size).endsAt prev loc = k.endsAt prev loc := by
  have hn := h.structs_nodup
  have hn' := (h.takeBlock hl hfit hprev).structs_nodup
  rw [Bool.eq_iff_iff, endsAt_iff hn, endsAt_iff hn']
  rcases takeBlock_cases before size h.freeList_nodup hl with ⟨-, e⟩ | ⟨hless, e⟩
  · rw [e, hl]
    simp only [List.mem_append, List.mem_cons]
    grind
  · have hfin : (free.shrink (Kmem.sizeNeeded size)).finish = free.finish := by
      simp only [KmemFree.finish, KmemFree.shrink]
      omega
    have hptr : (free.shrink (Kmem.sizeNeeded size)).ptr = free.ptr := rfl
    rw [e, hl]
    simp only [List.mem_append, List.mem_cons]
    grind

/-- The record of a block on the free list is not one that is to be used again. -/
theorem HeapInv.not_stale (h : HeapInv held owned k top)
    (hprev : prev = 0 ∨ prev ∈ k.freeList.map KmemFree.ptr) : k.stale prev loc = false := by
  by_contra hstale
  rw [Bool.not_eq_false, Kmem.stale, Bool.and_eq_true] at hstale
  obtain ⟨hends, hany⟩ := hstale
  obtain ⟨hne, -⟩ := (endsAt_iff h.structs_nodup).mp hends
  obtain ⟨x, hx, hptr⟩ := List.any_eq_true.mp hany
  have hn := h.structs_nodup
  rw [List.map_append, List.nodup_append] at hn
  exact hn.2.2 prev (hprev.resolve_left hne) _ (List.mem_map_of_mem hx) (by simpa [eq_comm] using hptr)

/-- Allocation makes `prev` stale exactly when it takes the whole of that block, and it
ends there. -/
theorem HeapInv.stale_takeBlock (h : HeapInv held owned k top)
    (hl : k.freeList = pre ++ free :: post) (hfit : Kmem.sizeNeeded size ≤ free.size)
    (hbefore : before = lastPtr KmemFree.ptr pre)
    (hprev : prev = 0 ∨ prev ∈ k.freeList.map KmemFree.ptr) :
    (k.takeBlock before free size).stale prev loc = true ↔
      free.ptr = prev ∧ free.size ≤ Kmem.sizeNeeded size + sizeofHeader ∧ free.finish = loc := by
  have h' := h.takeBlock hl hfit hbefore
  have hfree : free ∈ k.freeList := by simp [hl]
  have hn := h.freeList_nodup
  rcases takeBlock_cases before size hn hl with ⟨hless, e⟩ | ⟨hless, e⟩
  · by_cases hptr : free.ptr = prev
    · have hmem : free ∈ (k.takeBlock before free size).freeFreeStructs := by simp [e]
      rw [Kmem.stale, h.endsAt_takeBlock hl hfit hbefore, Bool.and_eq_true, endsAt_iff h.structs_nodup]
      constructor
      · rintro ⟨⟨-, x, hx, hxptr, hfin⟩, -⟩
        obtain rfl : x = free := eq_of_ptr_eq h.structs_nodup hx
          (List.mem_append_left _ hfree) (hxptr.trans hptr.symm)
        exact ⟨hptr, hless, hfin⟩
      · rintro ⟨-, -, hfin⟩
        exact ⟨⟨hptr ▸ h.ptr_pos hfree, free, List.mem_append_left _ hfree, hptr, hfin⟩,
          List.any_eq_true.mpr ⟨free, hmem, by simpa using hptr⟩⟩
    · have hstale : (k.takeBlock before free size).stale prev loc = false := by
        refine h'.not_stale (hprev.imp_right fun hmem => ?_)
        rw [e]
        rw [hl, List.map_append, List.map_cons] at hmem
        rw [List.map_append]
        grind
      simp [hstale, hptr]
  · have hstale : (k.takeBlock before free size).stale prev loc = false := by
      refine h'.not_stale (hprev.imp_right fun hmem => ?_)
      rw [e]
      rw [hl] at hmem
      simpa [KmemFree.shrink] using hmem
    rw [hstale]
    simp only [Bool.false_eq_true, false_iff]
    omega

end FreeAt

/-! ## One growth -/

section Growth
variable {held : List KmemHeader} {owned : List (ℕ × ℕ)} {s s₁ : Mem} {page : Page}
  {prev n size sizeNeeded loc cursor : ℕ} {flags : Flags} {table : ℕ → ℕ}

/-- Some free block holds `sizeNeeded` bytes. -/
def Kmem.Fits (sizeNeeded : ℕ) (k : Kmem) : Prop := ∃ free ∈ k.freeList, sizeNeeded ≤ free.size

/-- The request for a record that a growth by `n` pages makes takes the whole of the
block at `prev`, which is the last one and ends at the end of memory. -/
def Mem.RecordTakes (n prev : ℕ) (s : Mem) : Prop :=
  s.page.needsRecord n ∧ ∃ before free, s.kmem.recordFit = (before, some free) ∧ free.ptr = prev ∧
    free.size ≤ Kmem.sizeNeeded sizeofPage + sizeofHeader ∧ free.finish = s.kmem.memoryEnd

/-- When a block fits, only the reserve can be why the search does not find it. -/
theorem prev_eq_zero (hfits : s.kmem.Fits sizeNeeded)
    (h : s.kmem.search sizeNeeded flags = (prev, none)) : prev = 0 := by
  refine (search_none h).resolve_right fun ⟨_, hsmall⟩ => ?_
  obtain ⟨free, hfree, hsize⟩ := hfits
  have := hsmall free hfree
  omega

theorem Gets.weigh (hg : Gets n s page s₁) (h : MemInv held owned s) (w : Weight) :
    s₁.kmem.weigh w held = s.kmem.weigh w held := by
  have hrecord : ∀ {before free}, s.kmem.recordFit = (before, some free) →
      (s.recorded before free).kmem.weigh w held = s.kmem.weigh w held := by
    intro before free hfit
    obtain ⟨pre, post, hl, hsize, -, -⟩ := findFit_some hfit
    exact h.heap.weigh_takeBlock before hl hsize w
  cases hg with
  | fresh empty fit bump enough =>
    obtain ⟨pageId, pointer, map, rfl⟩ := bump.state
    exact hrecord fit
  | cut entries more fit => exact hrecord fit
  | whole entries enough => rfl

/-- What the request for a record does to the block at `prev`. -/
theorem MemInv.recorded {before : ℕ} {free : KmemFree} (h : MemInv held owned s)
    (hfit : s.kmem.recordFit = (before, some free))
    (hprev : prev = 0 ∨ prev ∈ s.kmem.freeList.map KmemFree.ptr) :
    ((s.recorded before free).kmem.stale prev loc = true ↔
      free.ptr = prev ∧ free.size ≤ Kmem.sizeNeeded sizeofPage + sizeofHeader ∧
        free.finish = loc) ∧
    (s.recorded before free).kmem.endsAt prev loc = s.kmem.endsAt prev loc := by
  obtain ⟨pre, post, hl, hsize, -, hbefore⟩ := findFit_some hfit
  exact ⟨h.heap.stale_takeBlock hl hsize hbefore hprev, h.heap.endsAt_takeBlock hl hsize hbefore⟩

/-- A growth finds `prev` stale exactly when the record for its run took that block. -/
theorem Gets.stale_iff (hg : Gets n s page s₁) (h : MemInv held owned s)
    (hprev : prev = 0 ∨ prev ∈ s.kmem.freeList.map KmemFree.ptr) :
    s₁.kmem.stale prev s.page.virtualPointer = true ↔ s.RecordTakes n prev := by
  have hrecord : ∀ {before free}, s.page.needsRecord n →
      s.kmem.recordFit = (before, some free) →
      ((s.recorded before free).kmem.stale prev s.page.virtualPointer = true ↔
        s.RecordTakes n prev) := by
    intro before free hneeds hfit
    rw [(h.recorded hfit hprev).1, ← h.memoryEnd]
    constructor
    · exact fun htaken => ⟨hneeds, before, free, hfit, htaken⟩
    · rintro ⟨-, before', free', hfit', htaken⟩
      obtain rfl := Option.some.inj (congrArg Prod.snd (hfit.symm.trans hfit'))
      exact htaken
  cases hg with
  | fresh empty fit bump enough =>
    obtain ⟨pageId, pointer, map, rfl⟩ := bump.state
    exact hrecord (by simp [PageState.needsRecord, empty]) fit
  | cut entries more fit =>
    exact hrecord (by simpa [PageState.needsRecord, entries] using more) fit
  | whole entries enough =>
    have hstale : s.kmem.stale prev s.page.virtualPointer = false := h.heap.not_stale hprev
    have hneeds : ¬ s.page.needsRecord n := by simp [PageState.needsRecord, entries, enough]
    simp [Mem.RecordTakes, hneeds, hstale]

theorem Gets.endsAt (hg : Gets n s page s₁) (h : MemInv held owned s)
    (hprev : prev = 0 ∨ prev ∈ s.kmem.freeList.map KmemFree.ptr) (loc : ℕ) :
    s₁.kmem.endsAt prev loc = s.kmem.endsAt prev loc := by
  cases hg with
  | fresh empty fit bump enough =>
    obtain ⟨pageId, pointer, map, rfl⟩ := bump.state
    exact (h.recorded fit hprev).2
  | cut entries more fit => exact (h.recorded fit hprev).2
  | whole entries enough => rfl

/-- The record takes at most its own size off the block at `prev`, when that stays
linked. -/
theorem Gets.size_le (hg : Gets n s page s₁) (h : MemInv held owned s) {free : KmemFree}
    (hfree : free ∈ s₁.kmem.freeList) :
    (s.kmem.freeAt free.ptr).elim 0 (·.size) ≤ free.size + Kmem.sizeNeeded sizeofPage := by
  have hlisted : ∀ x ∈ s.kmem.freeList, (s.kmem.freeAt x.ptr).elim 0 (·.size) = x.size := by
    intro x hx
    rw [(freeAt_eq_some h.heap.structs_nodup).mpr ⟨List.mem_append_left _ hx, rfl⟩]
    rfl
  have hrecord : ∀ {before taken}, s.kmem.recordFit = (before, some taken) →
      free ∈ (s.recorded before taken).kmem.freeList →
      (s.kmem.freeAt free.ptr).elim 0 (·.size) ≤ free.size + Kmem.sizeNeeded sizeofPage := by
    intro before taken hfit hfree
    obtain ⟨pre, post, hl, hsize, -, -⟩ := findFit_some hfit
    rcases takeBlock_cases before sizeofPage h.heap.freeList_nodup hl with ⟨-, e⟩ | ⟨-, e⟩
    · have hmem : free ∈ s.kmem.freeList := by
        rw [Mem.recorded, e] at hfree
        rw [hl]
        exact List.mem_append.mpr ((List.mem_append.mp hfree).imp_right (List.mem_cons_of_mem _))
      rw [hlisted free hmem]
      exact Nat.le_add_right _ _
    · rw [Mem.recorded, e] at hfree
      simp only [List.mem_append, List.mem_cons] at hfree
      by_cases heq : free = taken.shrink (Kmem.sizeNeeded sizeofPage)
      · have htaken := hlisted taken (by simp [hl])
        rw [heq, KmemFree.shrink]
        simp only at htaken ⊢
        omega
      · have hmem : free ∈ s.kmem.freeList := by
          rw [hl]
          simp only [List.mem_append, List.mem_cons]
          grind
        rw [hlisted free hmem]
        exact Nat.le_add_right _ _
  cases hg with
  | fresh empty fit bump enough =>
    obtain ⟨pageId, pointer, map, rfl⟩ := bump.state
    exact hrecord fit hfree
  | cut entries more fit => exact hrecord fit hfree
  | whole entries enough =>
    rw [hlisted free hfree]
    exact Nat.le_add_right _ _

/-- The heap a growth gives its pages to. -/
theorem Gets.heap (hg : Gets n s page s₁) (h : MemInv held owned s) (c : ℕ) (table : ℕ → ℕ)
    (cursor : ℕ) : HeapInv held (s₁.page.owned ++ (page.ptr, sizeofPage) :: owned)
      (s₁.mapped c table cursor).kmem s.page.virtualPointer := by
  rw [← hg.virtualPointer]
  exact (hg.memInv h).heap.transfer rfl rfl rfl rfl (.refl _)

/-- Behind a growth that loses nothing there is a block for the request. -/
theorem Gets.fits (hg : Gets (s.kmem.pagesNeeded prev sizeNeeded) s page s₁)
    (h : MemInv held owned s) (hprev : prev = 0 ∨ prev ∈ s.kmem.freeList.map KmemFree.ptr)
    (hstale : s₁.kmem.stale prev s.page.virtualPointer = false) (table : ℕ → ℕ) (cursor n : ℕ) :
    (s₁.grown page table cursor prev n s.page.virtualPointer).kmem.Fits sizeNeeded := by
  have henough := hg.enough
  have hpos : 0 < page.consecutive :=
    lt_of_lt_of_le (by decide : 0 < 2) ((s.kmem.two_le_pagesNeeded _ _).trans henough)
  have hends := hg.endsAt h hprev s.page.virtualPointer
  have hheap := hg.heap h page.consecutive table cursor
  rw [Kmem.pagesNeeded, h.memoryEnd, ← hends] at henough
  rcases hheap.attach_cases prev n page.consecutive with
    ⟨-, pre, free, hl, hptr, -, e⟩ | ⟨htaken, -⟩ | ⟨-, hnew, e⟩
  · refine ⟨{ free with size := free.size + page.consecutive * pageSize }, ?_, ?_⟩
    · simp [Mem.grown, Mem.attached, e]
    · have hfree : free ∈ s₁.kmem.freeList := by
        change free ∈ (s₁.mapped page.consecutive table cursor).kmem.freeList
        simp [hl]
      have hsize := hg.size_le h hfree
      rw [hptr] at hsize
      simp only [Kmem.sizeNeeded, sizes] at *
      split_ifs at henough <;> omega
  · exact absurd (htaken.symm.trans hstale) (by decide)
  · have hnew : s₁.kmem.endsAt prev s.page.virtualPointer = false := hnew
    refine ⟨KmemFree.ofPages s.page.virtualPointer page.consecutive, ?_, ?_⟩
    · simp [Mem.grown, Mem.attached, e]
    · rw [hnew] at henough
      simp only [Bool.false_eq_true, if_false, KmemFree.ofPages, sizes] at *
      omega

/-- A growth gives its pages to the heap, unless `prev` is stale. -/
theorem Gets.weigh_grown (hg : Gets n s page s₁) (h : MemInv held owned s) (hn : 2 ≤ n) (m : ℕ)
    (w : Weight) :
    (s₁.grown page table cursor prev m s.page.virtualPointer).kmem.weigh w held =
      (if s₁.kmem.stale prev s.page.virtualPointer then 0
        else w.of s.page.virtualPointer (s.page.virtualPointer + page.consecutive * pageSize)) +
      s.kmem.weigh w held := by
  have hpos : 0 < page.consecutive := by have := hg.enough; omega
  rw [← hg.weigh h w]
  exact (hg.heap h page.consecutive table cursor).weigh_attach prev m hpos w

theorem Gets.memInv_grown (hg : Gets n s page s₁) (h : MemInv held owned s) (hn : 2 ≤ n)
    (table : ℕ → ℕ) (cursor prev m : ℕ) :
    MemInv held owned (s₁.grown page table cursor prev m s.page.virtualPointer) := by
  have hpos : 0 < page.consecutive := by have := hg.enough; omega
  exact (hg.memInv h).grow hpos hg.virtualPointer.symm

theorem Gets.virtualPointer_grown (hg : Gets n s page s₁) (table : ℕ → ℕ)
    (cursor prev m loc : ℕ) :
    (s₁.grown page table cursor prev m loc).page.virtualPointer =
      s.page.virtualPointer + page.consecutive * pageSize := by
  rw [← hg.virtualPointer]
  rfl

end Growth

/-! ## Requests -/

section Request
variable {held : List KmemHeader} {owned : List (ℕ × ℕ)} {s s' : Mem} {size r : ℕ} {flags : Flags}

/-- The first growth of a request for `size` bytes loses its pages. -/
def Mem.PrevTaken (size : ℕ) (flags : Flags) (s : Mem) : Prop :=
  ∃ prev, s.kmem.search (Kmem.sizeNeeded size) flags = (prev, none) ∧
    s.RecordTakes (s.kmem.pagesNeeded prev (Kmem.sizeNeeded size)) prev

/-- The bytes mapped before a request keep their weight. -/
theorem Grants.weigh_below (hg : Grants size flags s r s') (h : MemInv held owned s) {a : ℕ}
    (ha : a < s.page.virtualPointer) :
    s'.kmem.weigh (.point a) held = s.kmem.weigh (.point a) held := by
  induction hg with
  | served fit =>
    obtain ⟨pre, post, hl, hsize, -, -⟩ := findFit_some (search_some fit)
    exact h.heap.weigh_takeBlock _ hl hsize _
  | @grown s prev page s₁ table cursor loc r s' fit gets loc_eq room rest ih =>
    have hn := s.kmem.two_le_pagesNeeded prev (Kmem.sizeNeeded size)
    obtain rfl : loc = s.page.virtualPointer := by
      rw [loc_eq (by rw [gets.virtualPointer]; exact h.heap.top_pos), gets.virtualPointer]
    have hout : (Weight.point a).of s.page.virtualPointer
        (s.page.virtualPointer + page.consecutive * pageSize) = 0 := if_neg (by omega)
    rw [ih (gets.memInv_grown h hn _ _ _ _) (by rw [gets.virtualPointer_grown]; omega),
      gets.weigh_grown h hn, hout, ite_self, Nat.zero_add]

theorem Grants.virtualPointer_le (hg : Grants size flags s r s') :
    s.page.virtualPointer ≤ s'.page.virtualPointer := by
  induction hg with
  | served fit => exact le_rfl
  | grown fit gets loc_eq room rest ih =>
    rw [gets.virtualPointer_grown] at ih
    omega

/-- A request that finds a block, or would if it were not for the reserve, loses
nothing. -/
theorem Grants.weigh_of_fits (hg : Grants size flags s r s') (h : MemInv held owned s)
    (hfits : s.kmem.Fits (Kmem.sizeNeeded size)) (w : Weight) :
    s'.kmem.weigh w held =
      s.kmem.weigh w held + w.of s.page.virtualPointer s'.page.virtualPointer := by
  induction hg with
  | served fit =>
    obtain ⟨pre, post, hl, hsize, -, -⟩ := findFit_some (search_some fit)
    rw [h.heap.weigh_takeBlock _ hl hsize, w.of_self, Nat.add_zero]
  | @grown s prev page s₁ table cursor loc r s' fit gets loc_eq room rest ih =>
    have hn := s.kmem.two_le_pagesNeeded prev (Kmem.sizeNeeded size)
    obtain rfl : loc = s.page.virtualPointer := by
      rw [loc_eq (by rw [gets.virtualPointer]; exact h.heap.top_pos), gets.virtualPointer]
    have hprev := prev_eq_zero hfits fit
    have hstale : s₁.kmem.stale prev s.page.virtualPointer = false := by
      simp [Kmem.stale, Kmem.endsAt, hprev]
    have hle := rest.virtualPointer_le
    have hrest := ih (gets.memInv_grown h hn _ _ _ _) (gets.fits h (.inl hprev) hstale _ _ _)
    rw [gets.virtualPointer_grown] at hle hrest
    rw [hrest, gets.weigh_grown h hn, hstale, if_neg (by simp), ← w.add (Nat.le_add_right _ _) hle]
    omega

/-- Every byte mapped by a request is covered by a chunk or a block exactly when its
first growth does not lose its pages. -/
theorem Grants.covers_iff (hg : Grants size flags s r s') (h : MemInv held owned s) :
    (∀ a, s.page.virtualPointer ≤ a → a < s'.page.virtualPointer →
      1 ≤ s'.kmem.weigh (.point a) held) ↔ ¬ s.PrevTaken size flags := by
  cases hg with
  | served fit =>
    refine ⟨fun _ htaken => ?_, fun _ a h₁ h₂ => absurd (h₁.trans_lt h₂) (lt_irrefl _)⟩
    obtain ⟨prev, hnone, -⟩ := htaken
    cases fit.symm.trans hnone
  | @grown _ prev page s₁ table cursor loc _ _ fit gets loc_eq room rest =>
    have hn := s.kmem.two_le_pagesNeeded prev (Kmem.sizeNeeded size)
    have hprev := (search_none fit).imp_right And.left
    obtain rfl : loc = s.page.virtualPointer := by
      rw [loc_eq (by rw [gets.virtualPointer]; exact h.heap.top_pos), gets.virtualPointer]
    have htaken : s₁.kmem.stale prev s.page.virtualPointer = true ↔ s.PrevTaken size flags := by
      rw [gets.stale_iff h hprev]
      refine ⟨fun ht => ⟨prev, fit, ht⟩, fun ⟨prev', fit', ht⟩ => ?_⟩
      obtain rfl : prev = prev' := congrArg Prod.fst (fit.symm.trans fit')
      exact ht
    have h₁ := gets.memInv_grown h hn table cursor prev
      (s.kmem.pagesNeeded prev (Kmem.sizeNeeded size))
    have hvirtual := gets.virtualPointer_grown table cursor prev
      (s.kmem.pagesNeeded prev (Kmem.sizeNeeded size)) s.page.virtualPointer
    have hle := rest.virtualPointer_le
    rw [← htaken]
    constructor
    · -- Nothing covers the first byte of pages that went to a stale record.
      intro hcover hstale
      have hpages : 0 < page.consecutive * pageSize :=
        Nat.mul_pos (by have := gets.enough; omega) (by decide)
      have hcovered := hcover s.page.virtualPointer le_rfl (by omega)
      rw [rest.weigh_below h₁ (by omega), gets.weigh_grown h hn, if_pos hstale] at hcovered
      exact absurd (h.heap.lt_top (by omega)) (lt_irrefl _)
    · intro hstale a ha ha'
      rw [Bool.not_eq_true] at hstale
      rw [rest.weigh_of_fits h₁ (gets.fits h hprev hstale _ _ _), gets.weigh_grown h hn, hstale,
        if_neg (by decide), hvirtual]
      rw [hvirtual] at hle
      simp only [point_of]
      by_cases hpage : a < s.page.virtualPointer + page.consecutive * pageSize
      · rw [if_pos ⟨ha, hpage⟩]
        omega
      · rw [if_pos (show _ ≤ a ∧ a < s'.page.virtualPointer from ⟨by omega, ha'⟩)]
        omega

end Request

/-! ## Calls -/

section Calls
variable {w : World} {s s' : Mem} {memTable : List Entry}

/-- `a` is a byte of a free block, or of a live chunk or its header. -/
def Kmem.Accounted (k : Kmem) (a : ℕ) : Prop :=
  k.InFree a ∨ ∃ hdr ∈ k.live, hdr.ptr ≤ a ∧ a < hdr.finish

instance (k : Kmem) : DecidablePred k.Accounted := fun a =>
  inferInstanceAs (Decidable ((∃ free ∈ k.freeList, free.base ≤ a ∧ a < free.base + free.size) ∨
    ∃ hdr ∈ k.live, hdr.ptr ≤ a ∧ a < hdr.finish))

/-- Every byte mapped for the heap between `s` and `s'` is in use or free in `s'`. -/
def LosesNothing (s s' : Mem) : Prop :=
  ∀ a, s.page.virtualPointer ≤ a → a < s'.page.virtualPointer → s'.kmem.Accounted a

theorem accounted_iff {k : Kmem} {a : ℕ} : k.Accounted a ↔ 1 ≤ k.weigh (.point a) [] := by
  rw [Kmem.weigh, List.append_nil]
  constructor
  · rintro (⟨free, hfree, ha⟩ | ⟨hdr, hhdr, ha⟩)
    · have hone : 1 ≤ Runs.weigh (.point a) KmemFree.base KmemFree.finish k.freeList :=
        one_le_weigh_point hfree ha
      exact hone.trans (Nat.le_add_left _ _)
    · exact (one_le_weigh_point hhdr ha).trans (Nat.le_add_right _ _)
  · intro h
    rcases Nat.eq_zero_or_pos
      (Runs.weigh (.point a) KmemHeader.ptr KmemHeader.finish k.live) with hzero | hpos
    · have hone : 1 ≤ Runs.weigh (.point a) KmemFree.base KmemFree.finish k.freeList := by omega
      exact .inl (exists_of_one_le_weigh_point hone)
    · exact .inr (exists_of_one_le_weigh_point hpos)

/-- **A request for memory loses nothing** exactly when its first growth, if it makes
one, does not give its pages to a block that was taken in the meantime. -/
theorem losesNothing_iff (h : w.Reachable memTable) {depth size r : ℕ} {flags : Flags}
    (hr : (Kmem.kmalloc depth size flags).Returns
      { w.mem with mutex := flags.has kmallocNolock } r s') :
    LosesNothing w.mem s' ↔ size = 0 ∨ ¬ w.mem.PrevTaken (Kmem.roundSize size) flags := by
  rcases kmalloc_returns rfl hr with ⟨rfl, -, rfl⟩ | ⟨hsize, s₁, hgrants, rfl⟩
  · exact ⟨fun _ => .inl rfl, fun _ a h₁ h₂ => absurd (h₁.trans_lt h₂) (lt_irrefl _)⟩
  · have hcovers := hgrants.covers_iff (h.memInv.same rfl rfl rfl)
    simp only [LosesNothing, accounted_iff, hsize, false_or]
    exact hcovers

theorem losesNothing_iff_roomy :
    LosesNothing World.roomy.mem
        (Kmem.kmalloc 12 8000 0 { World.roomy.mem with mutex := Flags.has 0 kmallocNolock }).2 ↔
      8000 = 0 ∨ ¬ World.roomy.mem.PrevTaken (Kmem.roundSize 8000) 0 :=
  losesNothing_iff World.roomy_reachable
    (returns_of_fst (a := 3222278172) (by decide +kernel))

/-- Four frames are free in one run, and the last block is 32 bytes at the end of
memory, the only one that holds a record. -/
def World.brink : World :=
  let w := roomy.run 12 (.alloc flagReserved 4)
  (w.run 12 (.free (w.chains.headD []))).run 12 (.kmalloc 3980 kmallocReserved)

theorem World.brink_reachable : Reachable roomyMap brink :=
  ((roomy_reachable.run (by decide +kernel) (by decide +kernel)).run (by decide +kernel)
    (by decide +kernel)).run (by decide +kernel) (by decide +kernel)

/-- The next request takes the block for a record and then loses two pages. -/
theorem not_losesNothing_brink : World.brink.Reachable roomyMap ∧
    ∃ r s', (Kmem.kmalloc 12 100 kmallocReserved).Returns
        { World.brink.mem with mutex := kmallocReserved.has kmallocNolock } r s' ∧
      ¬ LosesNothing World.brink.mem s' := by
  have hlost : ¬ (Kmem.kmalloc 12 100 kmallocReserved
      { World.brink.mem with mutex := kmallocReserved.has kmallocNolock }).2.kmem.Accounted
      3222278144 := by decide +kernel
  refine ⟨World.brink_reachable, 3222286364, _, returns_of_fst (by decide +kernel), fun h => ?_⟩
  exact hlost (h 3222278144 (by decide +kernel) (by decide +kernel))

end Calls

end Cantos
