import Cantos.Lib.Runs
import Cantos.Mem.Growth

/-!
# The heap invariant

The live chunks and the free blocks of the heap lie in its pool and cover no byte
twice; the free list is coalesced; and every record the kernel works with, of the
free lists and of its owners outside the heap, has a live chunk of its own.

Blocks and chunks are runs of bytes.  `Kmem.weigh` measures all of them, and every
operation is described once by what it does to every weight: allocating keeps it, so
does the move of a chunk to the free list, and growing adds the weight of the pages
mapped.  That no byte is covered twice, which bytes are covered, and how many there
are, are three readings of these equations.

## Main definitions

* `Kmem.live`: the headers of the live chunks.
* `Kmem.weigh`, `Kmem.weighPool`: the weight of the chunks and blocks, of the pool.
* `HeapInv`: the invariant, with the chunks that are between the lists and the
  records owned outside the heap as parameters.
-/

namespace Cantos

open Linked Runs

/-- The end of a chunk, header included. -/
def KmemHeader.finish (h : KmemHeader) : ℕ := h.ptr + sizeofHeader + h.size

/-- The end of a free block. -/
def KmemFree.finish (f : KmemFree) : ℕ := f.base + f.size

/-- The headers that stand before live chunks. -/
def liveOf (headers : List KmemHeader) : List KmemHeader :=
  headers.filter (·.sentinel = sentinelVal)

/-- The live chunks. -/
def Kmem.live (k : Kmem) : List KmemHeader := liveOf k.headers

/-- The weight of the live chunks, of the chunks in `held`, and of the free blocks. -/
def Kmem.weigh (w : Weight) (held : List KmemHeader) (k : Kmem) : ℕ :=
  Runs.weigh w KmemHeader.ptr KmemHeader.finish (k.live ++ held) +
    Runs.weigh w KmemFree.base KmemFree.finish k.freeList

/-- The weight of the pool. -/
def Kmem.weighPool (w : Weight) (k : Kmem) : ℕ :=
  Runs.weigh w Prod.fst (fun r : ℕ × ℕ => r.1 + r.2) k.pool

/-- The records of the free lists, with their sizes. -/
def Kmem.records (k : Kmem) : List (ℕ × ℕ) :=
  (k.freeList ++ k.freeFreeStructs).map fun f => (f.ptr, sizeofFree)

/-- The invariant of the heap below `top`, the end of kernel virtual memory.  The
chunks in `held` are no longer live and not free yet; `owned` are the records in use
outside the heap, each with the bytes it needs. -/
structure HeapInv (held : List KmemHeader) (owned : List (ℕ × ℕ)) (k : Kmem) (top : ℕ) :
    Prop where
  top_pos : 0 < top
  headers : (k.headers.map KmemHeader.ptr).Nodup
  within : ∀ a, k.weigh (.point a) held ≤ k.weighPool (.point a)
  once : ∀ a, k.weighPool (.point a) ≤ 1
  below : ∀ r ∈ k.pool, r.1 + r.2 ≤ top
  coalesced : Coalesced KmemFree.base KmemFree.finish k.freeList
  freeEnd : k.freeEnd = lastPtr KmemFree.ptr k.freeList
  nodup : ((k.records ++ owned).map Prod.fst).Nodup
  backed : ∀ p ∈ k.records ++ owned, ∃ h ∈ k.live, h.ptr + sizeofHeader = p.1 ∧ p.2 ≤ h.size

/-! ## Headers -/

section Headers
variable {headers : List KmemHeader} {h : KmemHeader} {p n : ℕ}

theorem nodup_putHeader (hn : (headers.map KmemHeader.ptr).Nodup) :
    ((putHeader h headers).map KmemHeader.ptr).Nodup := by
  rw [putHeader, List.map_cons, List.nodup_cons]
  constructor
  · simp [unlink]
  · exact hn.sublist (List.filter_sublist.map _)

theorem liveOf_unlink (hp : ∀ h ∈ liveOf headers, h.ptr ≠ p) :
    liveOf (unlink KmemHeader.ptr p headers) = liveOf headers := by
  rw [liveOf, unlink, List.filter_filter]
  refine List.filter_congr fun h hh => ?_
  by_cases hs : h.sentinel = sentinelVal
  · simp [hs, hp h (List.mem_filter.mpr ⟨hh, by simpa using hs⟩)]
  · simp [hs]

/-- A header written where no live chunk begins is the header of a new chunk. -/
theorem liveOf_putHeader (hp : ∀ h ∈ liveOf headers, h.ptr ≠ p) :
    liveOf (putHeader ⟨p, n, sentinelVal⟩ headers) = ⟨p, n, sentinelVal⟩ :: liveOf headers := by
  rw [putHeader, liveOf, List.filter_cons_of_pos (by simp)]
  exact congrArg _ (liveOf_unlink hp)

/-- Marking a header as freed takes its chunk out of the live ones. -/
theorem liveOf_freed (hn : (headers.map KmemHeader.ptr).Nodup) (hh : h ∈ liveOf headers) :
    (liveOf headers).Perm
      (h :: liveOf (putHeader { h with sentinel := sentinelFreed } headers)) := by
  obtain ⟨pre, post, hl⟩ := List.append_of_mem hh
  have hlive : ((liveOf headers).map KmemHeader.ptr).Nodup :=
    hn.sublist (List.filter_sublist.map _)
  have hput : liveOf (putHeader { h with sentinel := sentinelFreed } headers) =
      unlink KmemHeader.ptr h.ptr (liveOf headers) := by
    rw [putHeader, liveOf, List.filter_cons_of_neg (by simp [sentinelFreed, sentinelVal])]
    rw [unlink, unlink, liveOf, List.filter_filter, List.filter_filter]
    exact List.filter_congr fun _ _ => Bool.and_comm _ _
  rw [hput, hl, unlink_eq (hl ▸ hlive)]
  exact List.perm_middle

end Headers

/-! ## Owners -/

section Owners
variable {held : List KmemHeader} {owned owned' : List (ℕ × ℕ)} {k k' : Kmem} {top p n : ℕ}

/-- Only the headers, the pool, the list of free blocks and the set of all records
matter. -/
theorem HeapInv.transfer (h : HeapInv held owned k top) (hheaders : k'.headers = k.headers)
    (hpool : k'.pool = k.pool) (hlist : k'.freeList = k.freeList) (hend : k'.freeEnd = k.freeEnd)
    (hperm : (k'.records ++ owned').Perm (k.records ++ owned)) :
    HeapInv held owned' k' top := by
  refine ⟨h.top_pos, hheaders ▸ h.headers, fun a => ?_, fun a => ?_, hpool ▸ h.below,
    hlist ▸ h.coalesced, hend ▸ hlist ▸ h.freeEnd, (hperm.map _).nodup_iff.mpr h.nodup, ?_⟩
  · rw [Kmem.weigh, Kmem.weighPool, Kmem.live, hheaders, hlist, hpool]
    exact h.within a
  · rw [Kmem.weighPool, hpool]
    exact h.once a
  · intro q hq
    rw [Kmem.live, hheaders]
    exact h.backed q (hperm.mem_iff.mp hq)

theorem HeapInv.perm (h : HeapInv held owned k top) (hp : owned'.Perm owned) :
    HeapInv held owned' k top := h.transfer rfl rfl rfl rfl (hp.append_left _)

/-- The record in front of the records of the caller. -/
theorem HeapInv.first {pre : List (ℕ × ℕ)} (h : HeapInv held (pre ++ (p, n) :: owned) k top) :
    HeapInv held ((p, n) :: (pre ++ owned)) k top := h.perm List.perm_middle.symm

theorem HeapInv.setUsed (h : HeapInv held owned k top) (used : ℕ) :
    HeapInv held owned (k.setUsed used) top := h.transfer rfl rfl rfl rfl (.refl _)

/-- A record may be used for less. -/
theorem HeapInv.weaken {m : ℕ} (h : HeapInv held ((p, n) :: owned) k top) (hm : m ≤ n) :
    HeapInv held ((p, m) :: owned) k top := by
  refine ⟨h.top_pos, h.headers, h.within, h.once, h.below, h.coalesced, h.freeEnd, ?_, ?_⟩
  · simpa using h.nodup
  · intro q hq
    rcases List.mem_cons.mp (List.perm_middle.mem_iff.mp hq) with rfl | hq
    · obtain ⟨c, hc, hptr, hsize⟩ := h.backed (p, n) (by simp)
      exact ⟨c, hc, hptr, hm.trans hsize⟩
    · exact h.backed q (List.perm_middle.mem_iff.mpr (List.mem_cons_of_mem _ hq))

/-- The header before an owned record is the header of a live chunk, and it is the one
`kfree` reads. -/
theorem HeapInv.find_header (h : HeapInv held ((p, n) :: owned) k top) :
    ∃ hdr ∈ k.live, hdr.ptr + sizeofHeader = p ∧ n ≤ hdr.size ∧
      k.headers.find? (·.ptr = p - sizeofHeader) = some hdr := by
  obtain ⟨hdr, hhdr, hptr, hsize⟩ := h.backed (p, n) (by simp)
  refine ⟨hdr, hhdr, hptr, hsize, ?_⟩
  rw [show p - sizeofHeader = hdr.ptr by simp only at hptr; omega]
  exact find?_ptr_of_mem h.headers (List.mem_filter.mp hhdr).1

/-- Once its header is marked as freed, the chunk of an owned record is between the
lists. -/
theorem HeapInv.mark (h : HeapInv held ((p, n) :: owned) k top) {hdr : KmemHeader}
    (hhdr : hdr ∈ k.live) (hptr : hdr.ptr + sizeofHeader = p)
    (hk : k' = { k with headers := putHeader { hdr with sentinel := sentinelFreed } k.headers }) :
    HeapInv (hdr :: held) owned k' top := by
  have hlive : k.live.Perm (hdr :: k'.live) := hk ▸ liveOf_freed h.headers hhdr
  have hweigh : ∀ w, k'.weigh w (hdr :: held) = k.weigh w held := by
    intro w
    have hperm : (k'.live ++ hdr :: held).Perm (k.live ++ held) :=
      List.perm_middle.trans (hlive.symm.append_right held)
    rw [Kmem.weigh, Kmem.weigh, weigh_perm w hperm, hk]
  have hn := (List.perm_middle.map Prod.fst).nodup_iff.mp h.nodup
  rw [List.map_cons, List.nodup_cons] at hn
  refine ⟨h.top_pos, ?_, fun a => ?_, ?_, ?_, ?_, ?_, ?_, fun q hq => ?_⟩
  · rw [hk]
    exact nodup_putHeader h.headers
  · rw [hweigh, hk]
    exact h.within a
  · rw [hk]
    exact h.once
  · rw [hk]
    exact h.below
  · rw [hk]
    exact h.coalesced
  · rw [hk]
    exact h.freeEnd
  · rw [hk]
    exact hn.2
  · have hq : q ∈ k.records ++ owned := by rwa [hk] at hq
    obtain ⟨c, hc, hcptr, hcsize⟩ := h.backed q
      (List.perm_middle.mem_iff.mpr (List.mem_cons_of_mem _ hq))
    rcases List.mem_cons.mp (hlive.mem_iff.mp hc) with rfl | hc
    · exact absurd (List.mem_map.mpr ⟨q, hq, hcptr.symm.trans hptr⟩) hn.1
    · exact ⟨c, hc, hcptr, hcsize⟩

end Owners

/-! ## The search for a block -/

section Search
variable {sizeNeeded start prev : ℕ} {l : List KmemFree} {free : KmemFree}

theorem findFit_some (h : Kmem.findFit sizeNeeded start l = (prev, some free)) :
    ∃ pre post, l = pre ++ free :: post ∧ sizeNeeded ≤ free.size ∧
      (∀ x ∈ pre, x.size < sizeNeeded) ∧ prev = pre.getLast?.elim start KmemFree.ptr := by
  induction l generalizing start with
  | nil => cases h
  | cons x next ih =>
    rw [Kmem.findFit] at h
    split_ifs at h with hx
    · cases h
      exact ⟨[], next, rfl, hx, by simp, rfl⟩
    · obtain ⟨pre, post, rfl, hfree, hpre, rfl⟩ := ih h
      refine ⟨x :: pre, post, rfl, hfree, fun y hy => ?_, ?_⟩
      · rcases List.mem_cons.mp hy with rfl | hy
        · omega
        · exact hpre y hy
      · rw [List.getLast?_cons]
        cases pre.getLast? <;> rfl

theorem findFit_none (h : Kmem.findFit sizeNeeded start l = (prev, none)) :
    (∀ x ∈ l, x.size < sizeNeeded) ∧ prev = l.getLast?.elim start KmemFree.ptr := by
  induction l generalizing start with
  | nil =>
    cases h
    exact ⟨by simp, rfl⟩
  | cons x next ih =>
    rw [Kmem.findFit] at h
    split_ifs at h with hx
    · cases h
    · obtain ⟨hnext, rfl⟩ := ih h
      refine ⟨fun y hy => ?_, ?_⟩
      · rcases List.mem_cons.mp hy with rfl | hy
        · omega
        · exact hnext y hy
      · rw [List.getLast?_cons]
        cases next.getLast? <;> rfl

/-- A search that finds a block has gone through the free list up to it. -/
theorem search_some {k : Kmem} {flags : Flags}
    (h : k.search sizeNeeded flags = (prev, some free)) :
    Kmem.findFit sizeNeeded 0 k.freeList = (prev, some free) := by
  rw [Kmem.search] at h
  split_ifs at h
  · cases h
  · exact h

end Search

/-! ## Allocation -/

section TakeBlock
variable {held : List KmemHeader} {owned : List (ℕ × ℕ)} {k : Kmem} {top prev size : ℕ}
  {free : KmemFree} {pre post : List KmemFree}

@[simp] theorem takeBlock_pool : (k.takeBlock prev free size).pool = k.pool := by
  rw [Kmem.takeBlock]
  split_ifs <;> rfl

@[simp] theorem takeBlock_memoryEnd :
    (k.takeBlock prev free size).memoryEnd = k.memoryEnd := by
  rw [Kmem.takeBlock]
  split_ifs <;> rfl

@[simp] theorem takeBlock_memoryTotal :
    (k.takeBlock prev free size).memoryTotal = k.memoryTotal := by
  rw [Kmem.takeBlock]
  split_ifs <;> rfl

theorem weighPool_takeBlock (w : Weight) :
    (k.takeBlock prev free size).weighPool w = k.weighPool w := by
  rw [Kmem.weighPool, takeBlock_pool, Kmem.weighPool]

/-- A live chunk covers its first byte. -/
theorem one_le_weigh_live (held : List KmemHeader) {c : KmemHeader} (hc : c ∈ k.live) :
    1 ≤ Runs.weigh (.point c.ptr) KmemHeader.ptr KmemHeader.finish (k.live ++ held) := by
  refine one_le_weigh_point (List.mem_append_left held hc) ⟨le_rfl, ?_⟩
  simp only [KmemHeader.finish, sizes]
  omega

/-- No live chunk begins inside a free block. -/
theorem HeapInv.ptr_ne_of_free (h : HeapInv held owned k top) (hf : free ∈ k.freeList) {p : ℕ}
    (hp : free.base ≤ p ∧ p < free.finish) : ∀ c ∈ k.live, c.ptr ≠ p := by
  rintro c hc rfl
  have h₁ := one_le_weigh_point hf hp
  have h₂ := one_le_weigh_live held hc
  have h₃ := h.within c.ptr
  have h₄ := h.once c.ptr
  rw [Kmem.weigh] at h₃
  omega

theorem HeapInv.freeList_nodup (h : HeapInv held owned k top) :
    (k.freeList.map KmemFree.ptr).Nodup := by
  have hn := h.nodup
  rw [Kmem.records, List.map_append, List.map_append, List.map_append] at hn
  have := hn.of_append_left.of_append_left
  rwa [List.map_map] at this

/-- Allocation takes a block whole, or its first bytes. -/
theorem takeBlock_cases (prev size : ℕ) (hn : (k.freeList.map KmemFree.ptr).Nodup)
    (hl : k.freeList = pre ++ free :: post) :
    free.size ≤ Kmem.sizeNeeded size + sizeofHeader ∧
      k.takeBlock prev free size = { k with
        freeList := pre ++ post
        freeEnd := if free.ptr = k.freeEnd then prev else k.freeEnd
        freeFreeStructs := free :: k.freeFreeStructs
        headers := putHeader ⟨free.base, free.size - sizeofHeader, sentinelVal⟩ k.headers
        memoryUsed := add32 k.memoryUsed (free.size - sizeofHeader + sizeofHeader) } ∨
    Kmem.sizeNeeded size + sizeofHeader < free.size ∧
      k.takeBlock prev free size = { k with
        freeList := pre ++ free.shrink (Kmem.sizeNeeded size) :: post
        headers := putHeader ⟨free.base, size, sentinelVal⟩ k.headers
        memoryUsed := add32 k.memoryUsed (Kmem.sizeNeeded size) } := by
  rw [hl] at hn
  by_cases hc : Kmem.sizeNeeded size + sizeofHeader ≥ free.size
  · refine .inl ⟨hc, ?_⟩
    rw [Kmem.takeBlock]
    simp only [if_pos hc, hl, unlink_eq hn]
  · refine .inr ⟨by omega, ?_⟩
    rw [Kmem.takeBlock]
    simp only [if_neg hc, hl, updateAt_eq (KmemFree.shrink (Kmem.sizeNeeded size)) hn]

/-- Allocation keeps every weight: the bytes of the new chunk were free. -/
theorem HeapInv.weigh_takeBlock (h : HeapInv held owned k top) (prev : ℕ)
    (hl : k.freeList = pre ++ free :: post) (hfit : Kmem.sizeNeeded size ≤ free.size)
    (w : Weight) : (k.takeBlock prev free size).weigh w held = k.weigh w held := by
  have hf : free ∈ k.freeList := by simp [hl]
  have hsize : sizeofHeader ≤ free.size := le_trans (Nat.le_add_left _ _) hfit
  have hlive := h.ptr_ne_of_free hf (p := free.base)
    ⟨le_rfl, by simp only [KmemFree.finish, sizes] at *; omega⟩
  rcases takeBlock_cases prev size h.freeList_nodup hl with ⟨-, e⟩ | ⟨hless, e⟩
  · rw [e, Kmem.weigh, Kmem.weigh, Kmem.live, Kmem.live, liveOf_putHeader hlive, hl]
    have hfin : KmemHeader.finish ⟨free.base, free.size - sizeofHeader, sentinelVal⟩ =
        free.finish := by
      simp only [KmemHeader.finish, KmemFree.finish]
      omega
    simp only [List.cons_append, weigh_cons, weigh_append, hfin]
    omega
  · rw [e, Kmem.weigh, Kmem.weigh, Kmem.live, Kmem.live, liveOf_putHeader hlive, hl]
    have hfin : KmemHeader.finish ⟨free.base, size, sentinelVal⟩ =
        (free.shrink (Kmem.sizeNeeded size)).base := by
      simp only [KmemHeader.finish, KmemFree.shrink, Kmem.sizeNeeded]
      omega
    have hfin' : (free.shrink (Kmem.sizeNeeded size)).finish = free.finish := by
      simp only [KmemFree.finish, KmemFree.shrink]
      omega
    have hadd := w.add (a := free.base) (b := (free.shrink (Kmem.sizeNeeded size)).base)
      (c := free.finish) (Nat.le_add_right _ _)
      (by simp only [KmemFree.finish, KmemFree.shrink]; omega)
    simp only [List.cons_append, weigh_cons, weigh_append, hfin, hfin']
    omega

/-- A new live chunk, where no chunk began, backs one more record. -/
theorem HeapInv.own {k' : Kmem} {records : List (ℕ × ℕ)} {p n : ℕ}
    (h : HeapInv held owned k top) (hp : ∀ c ∈ k.live, c.ptr ≠ p) (hsize : size ≤ n)
    (hlive : k'.live = ⟨p, n, sentinelVal⟩ :: k.live)
    (hperm : records.Perm ((p + sizeofHeader, size) :: (k.records ++ owned))) :
    (records.map Prod.fst).Nodup ∧
    ∀ q ∈ records, ∃ c ∈ k'.live, c.ptr + sizeofHeader = q.1 ∧ q.2 ≤ c.size := by
  constructor
  · refine (hperm.map _).nodup_iff.mpr (List.nodup_cons.mpr ⟨?_, h.nodup⟩)
    intro hmem
    obtain ⟨q, hq, he⟩ := List.mem_map.mp hmem
    obtain ⟨c, hc, hcq, -⟩ := h.backed q hq
    exact hp c hc (by omega)
  · intro q hq
    rw [hlive]
    rcases List.mem_cons.mp (hperm.mem_iff.mp hq) with rfl | hq
    · exact ⟨_, List.mem_cons_self, rfl, hsize⟩
    · obtain ⟨c, hc, hcq⟩ := h.backed q hq
      exact ⟨c, List.mem_cons_of_mem _ hc, hcq⟩

theorem records_perm {k k' : Kmem}
    (h : ((k'.freeList ++ k'.freeFreeStructs).map KmemFree.ptr).Perm
      ((k.freeList ++ k.freeFreeStructs).map KmemFree.ptr)) : k'.records.Perm k.records := by
  have := h.map fun p => (p, sizeofFree)
  rwa [List.map_map, List.map_map] at this

/-- `do_kmalloc` hands out a new live chunk of at least the size asked for. -/
theorem HeapInv.takeBlock (h : HeapInv held owned k top)
    (hl : k.freeList = pre ++ free :: post) (hfit : Kmem.sizeNeeded size ≤ free.size)
    (hprev : prev = lastPtr KmemFree.ptr pre) :
    HeapInv held ((free.base + sizeofHeader, size) :: owned) (k.takeBlock prev free size) top := by
  have hweigh := h.weigh_takeBlock prev hl hfit
  have hf : free ∈ k.freeList := by simp [hl]
  have hfit' : size + sizeofHeader ≤ free.size := hfit
  have hlive := h.ptr_ne_of_free hf (p := free.base)
    ⟨le_rfl, by simp only [KmemFree.finish, sizes] at *; omega⟩
  have hn := h.freeList_nodup
  have hco := h.coalesced
  rcases takeBlock_cases prev size hn hl with ⟨-, e⟩ | ⟨hless, e⟩
  · have hlive' : (k.takeBlock prev free size).live =
        ⟨free.base, free.size - sizeofHeader, sentinelVal⟩ :: k.live := by
      rw [e]
      exact liveOf_putHeader hlive
    have hrec : (k.takeBlock prev free size).records.Perm k.records := by
      refine records_perm ?_
      rw [e, hl]
      simp only [List.map_append, List.map_cons, List.append_assoc, List.cons_append]
      exact List.Perm.append_left _ List.perm_middle
    obtain ⟨hnodup, hbacked⟩ := h.own hlive (by omega : size ≤ free.size - sizeofHeader) hlive'
      (List.perm_middle.trans ((hrec.append_right owned).cons _))
    refine ⟨h.top_pos, ?_, fun a => ?_, ?_, ?_, ?_, ?_, hnodup, hbacked⟩
    · rw [e]
      exact nodup_putHeader h.headers
    · rw [hweigh, weighPool_takeBlock]
      exact h.within a
    · simpa only [weighPool_takeBlock] using h.once
    · simpa only [takeBlock_pool] using h.below
    · rw [e]
      exact (hl ▸ hco).remove
    · rw [e, h.freeEnd, hl, hprev]
      exact lastPtr_unlink (hl ▸ hn)
  · have hlive' : (k.takeBlock prev free size).live =
        ⟨free.base, size, sentinelVal⟩ :: k.live := by
      rw [e]
      exact liveOf_putHeader hlive
    have hrec : (k.takeBlock prev free size).records.Perm k.records := by
      refine records_perm ?_
      rw [e, hl]
      simp [KmemFree.shrink]
    obtain ⟨hnodup, hbacked⟩ := h.own hlive le_rfl hlive'
      (List.perm_middle.trans ((hrec.append_right owned).cons _))
    refine ⟨h.top_pos, ?_, fun a => ?_, ?_, ?_, ?_, ?_, hnodup, hbacked⟩
    · rw [e]
      exact nodup_putHeader h.headers
    · rw [hweigh, weighPool_takeBlock]
      exact h.within a
    · simpa only [weighPool_takeBlock] using h.once
    · simpa only [takeBlock_pool] using h.below
    · rw [e]
      refine (hl ▸ hco).replace (Nat.le_add_right _ _) ?_ ?_ <;>
        simp only [KmemFree.finish, KmemFree.shrink, sizes] at * <;> omega
    · rw [e, h.freeEnd, hl, lastPtr_append_cons, lastPtr_append_cons]
      exact lastPtr_cons_congr rfl

end TakeBlock

/-! ## Growth -/

section Attach
variable {held : List KmemHeader} {owned : List (ℕ × ℕ)} {k : Kmem} {top prev n c : ℕ}
  {free : KmemFree}

/-- Every byte of a chunk or a block lies below the end of kernel virtual memory. -/
theorem HeapInv.lt_top (h : HeapInv held owned k top) {a : ℕ}
    (ha : 1 ≤ k.weigh (.point a) held) : a < top := by
  obtain ⟨r, hr, hra⟩ := exists_of_one_le_weigh_point (ha.trans (h.within a))
  have := h.below r hr
  omega

theorem HeapInv.finish_le_top (h : HeapInv held owned k top) (hf : free ∈ k.freeList) :
    free.finish ≤ top := by
  have hpos := h.coalesced.pos free hf
  have hmem : free.base ≤ free.finish - 1 ∧ free.finish - 1 < free.finish := by omega
  have hle : 1 ≤ Runs.weigh (.point (free.finish - 1)) KmemFree.base KmemFree.finish k.freeList :=
    one_le_weigh_point hf hmem
  have := h.lt_top (a := free.finish - 1) (by rw [Kmem.weigh]; omega)
  omega

theorem HeapInv.live_ptr_lt_top (h : HeapInv held owned k top) {x : KmemHeader}
    (hx : x ∈ k.live) : x.ptr < top := by
  refine h.lt_top ?_
  have := one_le_weigh_live held hx
  rw [Kmem.weigh]
  omega

theorem HeapInv.ptr_pos (h : HeapInv held owned k top) (hf : free ∈ k.freeList) :
    free.ptr ≠ 0 := by
  have hmem : (free.ptr, sizeofFree) ∈ k.records ++ owned :=
    List.mem_append_left _ (List.mem_map.mpr ⟨free, List.mem_append_left _ hf, rfl⟩)
  obtain ⟨x, -, hx, -⟩ := h.backed _ hmem
  simp only [sizes] at hx
  omega

theorem HeapInv.structs_nodup (h : HeapInv held owned k top) :
    ((k.freeList ++ k.freeFreeStructs).map KmemFree.ptr).Nodup := by
  have hn := h.nodup
  rw [Kmem.records, List.map_append] at hn
  have := hn.of_append_left
  rwa [List.map_map] at this

/-- `prev` ends at `loc`, but it is on the list of the records to be used again. -/
def Kmem.stale (k : Kmem) (prev loc : ℕ) : Bool :=
  k.endsAt prev loc && k.freeFreeStructs.any (·.ptr = prev)

/-- The block `attach` makes of `c` pages mapped at `loc`. -/
def KmemFree.ofPages (loc c : ℕ) : KmemFree where
  ptr := loc + sizeofHeader
  size := c * pageSize - sizeofHeader - sizeofFree
  base := loc + sizeofHeader + sizeofFree

/-- The pages mapped at `top` extend the last block, or they become a new block, unless
they go to a record that is on no list of blocks any more. -/
theorem HeapInv.attach_cases (prev n c : ℕ) (h : HeapInv held owned k top) :
    (k.stale prev top = false ∧
      ∃ pre free, k.freeList = pre ++ [free] ∧ free.ptr = prev ∧ free.finish = top ∧
      k.attach prev n c top = { k with
        memoryTotal := k.memoryTotal + n * pageSize
        pool := (top, c * pageSize) :: k.pool
        freeList := pre ++ [{ free with size := free.size + c * pageSize }] }) ∨
    (k.stale prev top = true ∧ k.attach prev n c top = { k with
        memoryTotal := k.memoryTotal + n * pageSize
        pool := (top, c * pageSize) :: k.pool
        freeFreeStructs := updateAt KmemFree.ptr prev
          (fun free => { free with size := free.size + c * pageSize }) k.freeFreeStructs }) ∨
    (k.stale prev top = false ∧ k.endsAt prev top = false ∧ k.attach prev n c top = { k with
        memoryTotal := k.memoryTotal + n * pageSize
        pool := (top, c * pageSize) :: k.pool
        headers := putHeader ⟨top, sizeofFree, sentinelVal⟩ k.headers
        freeList := k.freeList ++ [KmemFree.ofPages top c]
        freeEnd := top + sizeofHeader }) := by
  have hn := h.structs_nodup
  rw [List.map_append, List.nodup_append] at hn
  by_cases hends : k.endsAt prev top
  · obtain ⟨-, hany⟩ := of_decide_eq_true hends
    obtain ⟨free, hfree, hfin⟩ := (Option.any_eq_true _ _).mp hany
    have hptr : free.ptr = prev := by simpa using List.find?_some hfree
    have hfin : free.finish = top := by simpa [KmemFree.finish] using hfin
    rw [Kmem.attach]
    simp only [if_pos hends]
    rcases List.mem_append.mp (List.mem_of_find?_eq_some hfree) with hmem | hmem
    · obtain ⟨pre, post, hl⟩ := List.append_of_mem hmem
      obtain rfl : post = [] := (hl ▸ h.coalesced).eq_last
        (fun z hz => h.finish_le_top (hl ▸ hz)) hfin
      have hother : ∀ z ∈ k.freeFreeStructs, z.ptr ≠ prev := fun z hz he =>
        hn.2.2 _ (List.mem_map_of_mem hmem) _ (List.mem_map_of_mem hz) (hptr.trans he.symm)
      refine .inl ⟨by simpa [Kmem.stale, hends] using hother, pre, free, hl, hptr, hfin, ?_⟩
      rw [updateAt_of_notMem _ hother, hl, ← hptr, updateAt_eq _ (hl ▸ h.freeList_nodup)]
    · refine .inr (.inl ⟨by simpa [Kmem.stale, hends] using ⟨free, hmem, hptr⟩, ?_⟩)
      have hother : ∀ z ∈ k.freeList, z.ptr ≠ prev := fun z hz he =>
        hn.2.2 _ (List.mem_map_of_mem hz) _ (List.mem_map_of_mem hmem) (he.trans hptr.symm)
      rw [updateAt_of_notMem _ hother]
  · refine .inr (.inr ⟨by simp [Kmem.stale, hends], by simpa using hends, ?_⟩)
    have hlist : (if k.freeEnd ≠ 0 then linkEnd KmemFree.ptr k.freeEnd (.ofPages top c) k.freeList
        else [.ofPages top c]) = k.freeList ++ [.ofPages top c] := by
      rw [h.freeEnd]
      by_cases hempty : k.freeList = []
      · simp [hempty]
      · obtain ⟨free, hfree, he⟩ := List.mem_map.mp
          (lastPtr_mem hempty : lastPtr KmemFree.ptr k.freeList ∈ _)
        rw [if_pos (he ▸ h.ptr_pos hfree), linkEnd_lastPtr hempty h.freeList_nodup]
    rw [← hlist, Kmem.attach]
    simp only [if_neg hends]
    rfl

@[simp] theorem attach_memoryEnd (loc : ℕ) :
    (k.attach prev n c loc).memoryEnd = k.memoryEnd := by
  rw [Kmem.attach]
  split_ifs <;> rfl

@[simp] theorem attach_memoryUsed (loc : ℕ) :
    (k.attach prev n c loc).memoryUsed = k.memoryUsed := by
  rw [Kmem.attach]
  split_ifs <;> rfl

@[simp] theorem attach_memoryTotal (loc : ℕ) :
    (k.attach prev n c loc).memoryTotal = k.memoryTotal + n * pageSize := by
  rw [Kmem.attach]
  split_ifs <;> rfl

theorem Kmem.weighPool_attach (k : Kmem) (prev n c : ℕ) (w : Weight) (loc : ℕ) :
    (k.attach prev n c loc).weighPool w = w.of loc (loc + c * pageSize) + k.weighPool w := by
  rw [Kmem.weighPool, Kmem.weighPool, Kmem.attach]
  split_ifs <;> simp

/-- Growing adds the pages to the pool, and to the chunks and blocks unless they go to a
record that is on no list of blocks any more. -/
theorem HeapInv.weigh_attach (h : HeapInv held owned k top) (prev n : ℕ) (hc : 0 < c)
    (w : Weight) :
    (k.attach prev n c top).weigh w held =
      (if k.stale prev top then 0 else w.of top (top + c * pageSize)) + k.weigh w held := by
  have hfresh : ∀ x ∈ k.live, x.ptr ≠ top := fun x hx => (h.live_ptr_lt_top hx).ne
  rcases h.attach_cases prev n c with
    ⟨hstale, pre, free, hl, hptr, hfin, e⟩ | ⟨hstale, e⟩ | ⟨hstale, hends, e⟩
  · have hbase : free.base ≤ top := hfin ▸ Nat.le_add_right _ _
    have hadd := w.add hbase (Nat.le_add_right top (c * pageSize))
    have hfin' : KmemFree.finish { free with size := free.size + c * pageSize } =
        top + c * pageSize := by
      rw [← hfin, KmemFree.finish, KmemFree.finish, Nat.add_assoc]
    rw [if_neg (by simp [hstale]), e, Kmem.weigh, Kmem.weigh, hl]
    simp only [weigh_append, weigh_cons, weigh_nil, hfin', hfin, ← hadd]
    change Runs.weigh w KmemHeader.ptr KmemHeader.finish k.live + _ + _ = _
    omega
  · rw [if_pos hstale, e, Nat.zero_add]
    rfl
  · have hchunk : KmemHeader.finish ⟨top, sizeofFree, sentinelVal⟩ =
        (KmemFree.ofPages top c).base := rfl
    have hfin : (KmemFree.ofPages top c).finish = top + c * pageSize := by
      simp only [KmemFree.finish, KmemFree.ofPages, sizes]
      omega
    have hadd := w.add (b := (KmemFree.ofPages top c).base) (c := top + c * pageSize)
      (by simp only [KmemFree.ofPages]; omega : top ≤ (KmemFree.ofPages top c).base)
      (by simp only [KmemFree.ofPages, sizes]; omega)
    rw [if_neg (by simp [hstale]), e, Kmem.weigh, Kmem.weigh, Kmem.live, Kmem.live,
      liveOf_putHeader hfresh]
    simp only [List.cons_append, weigh_append, weigh_cons, weigh_nil, hchunk, hfin, ← hadd]
    omega

theorem HeapInv.attach (h : HeapInv held owned k top) (hc : 0 < c) :
    HeapInv held owned (k.attach prev n c top) (top + c * pageSize) := by
  have hweigh := h.weigh_attach prev n hc
  have hpool := k.weighPool_attach prev n c
  have htop := h.top_pos
  have hold : ∀ a, top ≤ a → k.weighPool (.point a) = 0 := by
    intro a ha
    by_contra hne
    obtain ⟨r, hr, hra⟩ := exists_of_one_le_weigh_point (Nat.one_le_iff_ne_zero.mpr hne)
    have := h.below r hr
    omega
  have hwithin : ∀ a, (k.attach prev n c top).weigh (.point a) held ≤
      (k.attach prev n c top).weighPool (.point a) := by
    intro a
    have := h.within a
    rw [hweigh, hpool]
    split_ifs <;> omega
  have honce : ∀ a, (k.attach prev n c top).weighPool (.point a) ≤ 1 := by
    intro a
    rw [hpool, point_of]
    by_cases ha : top ≤ a ∧ a < top + c * pageSize
    · rw [if_pos ha, hold a ha.1]
    · rw [if_neg ha, Nat.zero_add]
      exact h.once a
  have hbelow : ∀ r ∈ (top, c * pageSize) :: k.pool, r.1 + r.2 ≤ top + c * pageSize := by
    intro r hr
    rcases List.mem_cons.mp hr with rfl | hr
    · exact le_rfl
    · exact (h.below r hr).trans (Nat.le_add_right _ _)
  have hco := h.coalesced
  rcases h.attach_cases prev n c with ⟨-, pre, free, hl, -, hfin, e⟩ | ⟨-, e⟩ | ⟨-, -, e⟩
  · have hrec : (k.attach prev n c top).records = k.records := by
      rw [e, Kmem.records, Kmem.records, hl]
      simp
    refine ⟨by omega, e ▸ h.headers, hwithin, honce, e ▸ hbelow, ?_, ?_, ?_, ?_⟩
    · rw [e]
      refine (hl ▸ hco).extend_last rfl ?_
      simp only [KmemFree.finish]
      omega
    · rw [e, h.freeEnd, hl, lastPtr_append_singleton, lastPtr_append_singleton]
    · rw [hrec]
      exact h.nodup
    · rw [hrec, e]
      exact h.backed
  · have hrec : (k.attach prev n c top).records.Perm k.records := by
      refine records_perm ?_
      rw [e, List.map_append, List.map_append]
      exact List.Perm.append_left _ (.of_eq (map_ptr_updateAt fun _ => rfl))
    refine ⟨by omega, e ▸ h.headers, hwithin, honce, e ▸ hbelow, e ▸ hco, e ▸ h.freeEnd, ?_, ?_⟩
    · exact ((hrec.append_right owned).map _).nodup_iff.mpr h.nodup
    · intro p hp
      rw [e]
      exact h.backed p ((hrec.append_right owned).mem_iff.mp hp)
  · have hfresh : ∀ x ∈ k.live, x.ptr ≠ top := fun x hx => (h.live_ptr_lt_top hx).ne
    have hrec : ((k.attach prev n c top).records ++ owned).Perm
        ((top + sizeofHeader, sizeofFree) :: (k.records ++ owned)) := by
      rw [e, Kmem.records, Kmem.records]
      simp only [List.map_append, List.map_cons, List.append_assoc, List.cons_append,
        List.nil_append]
      exact List.perm_middle
    have hlive : (k.attach prev n c top).live = ⟨top, sizeofFree, sentinelVal⟩ :: k.live := by
      rw [e]
      exact liveOf_putHeader hfresh
    obtain ⟨hnodup, hbacked⟩ := h.own hfresh le_rfl hlive hrec
    refine ⟨by omega, ?_, hwithin, honce, e ▸ hbelow, ?_, ?_, hnodup, hbacked⟩
    · rw [e]
      exact nodup_putHeader h.headers
    · rw [e]
      refine hco.concat (fun z hz => ?_) ?_
      · have := h.finish_le_top hz
        simp only [KmemFree.ofPages, sizes]
        omega
      · simp only [KmemFree.finish, KmemFree.ofPages, sizes]
        omega
    · rw [e, lastPtr_append_singleton]
      rfl

end Attach

/-! ## Freeing -/

section Free
variable {held : List KmemHeader} {owned : List (ℕ × ℕ)} {k : Kmem} {top : ℕ} {hdr : KmemHeader}
  {free : KmemFree} {pre post : List KmemFree}

/-- The block `first` grown by the block behind it. -/
def KmemFree.join (first hold : KmemFree) : KmemFree :=
  { first with size := first.size + hold.size }

/-- What a step of `kfree` does to the lists of blocks and records. -/
structure Relinks (k k' : Kmem) : Prop where
  freeEnd : k.freeEnd = lastPtr KmemFree.ptr k.freeList →
    k'.freeEnd = lastPtr KmemFree.ptr k'.freeList
  structs : ((k'.freeList ++ k'.freeFreeStructs).map KmemFree.ptr).Perm
    ((k.freeList ++ k.freeFreeStructs).map KmemFree.ptr)
  headers : k'.headers = k.headers
  pool : k'.pool = k.pool
  memoryEnd : k'.memoryEnd = k.memoryEnd
  memoryTotal : k'.memoryTotal = k.memoryTotal

theorem Relinks.trans {k k' k'' : Kmem} (h : Relinks k k') (h' : Relinks k' k'') :
    Relinks k k'' where
  freeEnd he := h'.freeEnd (h.freeEnd he)
  structs := h'.structs.trans h.structs
  headers := h'.headers.trans h.headers
  pool := h'.pool.trans h.pool
  memoryEnd := h'.memoryEnd.trans h.memoryEnd
  memoryTotal := h'.memoryTotal.trans h.memoryTotal

/-- `_merge_free` joins a block with the next one when they touch. -/
theorem mergeFree_spec (hl : k.freeList = pre ++ free :: post)
    (hn : (k.freeList.map KmemFree.ptr).Nodup) :
    (k.mergeFree free.ptr).freeList =
      pre ++ joinRight KmemFree.base KmemFree.finish KmemFree.join free post ∧
    Relinks k (k.mergeFree free.ptr) := by
  rw [hl] at hn
  have hsame : Relinks k k := ⟨id, .refl _, rfl, rfl, rfl, rfl⟩
  rw [Kmem.mergeFree, hl, joinNext_eq hn]
  cases post with
  | nil => exact ⟨hl, hsame⟩
  | cons hold rest =>
    by_cases ht : free.finish = hold.base
    · have ht' : (free.base + free.size == hold.base) = true := by simpa [KmemFree.finish] using ht
      simp only [ht', if_true, joinRight, if_pos ht]
      refine ⟨rfl, fun he => ?_, ?_, rfl, rfl, rfl, rfl⟩
      · -- The joined block is the last one, or the last block is behind it as before.
        change (if lastPtr KmemFree.ptr (pre ++ free.join hold :: rest) = free.ptr then free.ptr
          else k.freeEnd) = lastPtr KmemFree.ptr (pre ++ free.join hold :: rest)
        split_ifs with hlast
        · exact hlast.symm
        · rw [he, hl, lastPtr_append_cons, lastPtr_append_cons]
          cases rest with
          | nil => exact absurd (by rw [lastPtr_append_singleton]; rfl) hlast
          | cons z rest => simp only [lastPtr_cons_cons]
      · rw [hl]
        simp only [List.map_append, List.map_cons, List.append_assoc, List.cons_append]
        refine List.Perm.append_left _ (List.Perm.cons _ ?_)
        exact List.perm_middle
    · have ht' : (free.base + free.size == hold.base) = false := by
        simpa [KmemFree.finish] using ht
      simp only [ht', Bool.false_eq_true, if_false, joinRight, if_neg ht]
      exact ⟨hl, hsame⟩

/-- The list of free blocks with `entry` between the blocks before `entry.base` and the
others, before it is joined with them. -/
def Kmem.link (entry : KmemFree) (k : Kmem) : Kmem :=
  let after := k.freeList.dropWhile fun now => now.base < entry.base
  { k with
    freeList := (k.freeList.takeWhile fun now => now.base < entry.base) ++ entry :: after
    freeEnd := if after.isEmpty then entry.ptr else k.freeEnd }

theorem insertFree_eq (newEntry p fullSize : ℕ) (k : Kmem) :
    k.insertFree newEntry p fullSize =
      let before := k.freeList.takeWhile fun now => now.base < p
      let merged := (k.link ⟨newEntry, fullSize, p⟩).mergeFree newEntry
      if before.isEmpty then merged else merged.mergeFree (lastPtr KmemFree.ptr before) := by
  rw [Kmem.insertFree]
  rcases hfree : k.freeList with _ | ⟨first, rest⟩
  · simp [Kmem.link, hfree, Kmem.mergeFree, joinNext]
  · simp only [Kmem.link, hfree]

@[simp] theorem link_memoryEnd (entry : KmemFree) : (k.link entry).memoryEnd = k.memoryEnd := rfl

@[simp] theorem link_memoryTotal (entry : KmemFree) :
    (k.link entry).memoryTotal = k.memoryTotal := rfl

theorem link_freeEnd {entry : KmemFree} (hend : k.freeEnd = lastPtr KmemFree.ptr k.freeList) :
    (k.link entry).freeEnd = lastPtr KmemFree.ptr (k.link entry).freeList := by
  have hl := List.takeWhile_append_dropWhile (p := fun now => decide (now.base < entry.base))
    (l := k.freeList)
  simp only [Kmem.link, hend]
  generalize k.freeList.dropWhile (fun now => now.base < entry.base) = after at hl ⊢
  cases after with
  | nil => simp
  | cons z after =>
    rw [lastPtr_append_cons, lastPtr_cons_cons]
    conv_lhs => rw [← hl]
    exact lastPtr_append_cons

theorem Kmem.link_structs (k : Kmem) (entry : KmemFree) :
    (((k.link entry).freeList ++ (k.link entry).freeFreeStructs).map KmemFree.ptr).Perm
      (entry.ptr :: (k.freeList ++ k.freeFreeStructs).map KmemFree.ptr) := by
  have hl := List.takeWhile_append_dropWhile (p := fun now => decide (now.base < entry.base))
    (l := k.freeList)
  rw [Kmem.link]
  conv_rhs => rw [← hl]
  simp only [List.map_append, List.map_cons, List.append_assoc, List.cons_append]
  exact List.perm_middle

/-- `kfree_nolock` links a chunk into the list of free blocks, and joins it with the
blocks it touches. -/
theorem insertFree_spec {newEntry : ℕ} (p fullSize : ℕ)
    (hn : (newEntry :: (k.freeList ++ k.freeFreeStructs).map KmemFree.ptr).Nodup) :
    (k.insertFree newEntry p fullSize).freeList = insertRun KmemFree.base KmemFree.finish
      KmemFree.join (k.freeList.takeWhile fun now => now.base < p) ⟨newEntry, fullSize, p⟩
      (k.freeList.dropWhile fun now => now.base < p) ∧
    Relinks (k.link ⟨newEntry, fullSize, p⟩) (k.insertFree newEntry p fullSize) := by
  have hstructs := k.link_structs ⟨newEntry, fullSize, p⟩
  have hn₁ : ((k.link ⟨newEntry, fullSize, p⟩).freeList.map KmemFree.ptr).Nodup := by
    have := hstructs.nodup_iff.mpr hn
    rw [List.map_append] at this
    exact this.of_append_left
  obtain ⟨hl, hre⟩ := mergeFree_spec (k := k.link ⟨newEntry, fullSize, p⟩) rfl hn₁
  rw [insertFree_eq]
  generalize k.freeList.dropWhile (fun now => now.base < p) = after at hl ⊢
  generalize k.freeList.takeWhile (fun now => now.base < p) = before at hl ⊢
  rcases List.eq_nil_or_concat before with rfl | ⟨pre, q, rfl⟩
  · exact ⟨hl, hre⟩
  · rw [List.concat_eq_append] at hl ⊢
    have hn₂ := hre.structs.nodup_iff.mpr (hstructs.nodup_iff.mpr hn)
    rw [List.map_append] at hn₂
    rw [List.append_assoc, List.singleton_append] at hl
    obtain ⟨hl₂, hre₂⟩ := mergeFree_spec hl hn₂.of_append_left
    have hne : ¬ (pre ++ [q]).isEmpty := by simp
    simp only [if_neg hne, lastPtr_append_singleton, insertRun_append_singleton]
    exact ⟨hl₂, hre.trans hre₂⟩

/-- A chunk between the lists covers no byte of a free block. -/
theorem HeapInv.held_apart (h : HeapInv (hdr :: held) owned k top) (hf : free ∈ k.freeList)
    {a : ℕ} (ha : free.base ≤ a ∧ a < free.finish) : ¬ (hdr.ptr ≤ a ∧ a < hdr.finish) := by
  intro hhdr
  have h₁ := one_le_weigh_point hf ha
  have h₂ : 1 ≤ Runs.weigh (.point a) KmemHeader.ptr KmemHeader.finish (k.live ++ hdr :: held) :=
    one_le_weigh_point (by simp) hhdr
  have h₃ := h.within a
  have h₄ := h.once a
  rw [Kmem.weigh] at h₃
  omega

theorem HeapInv.entry_apart (h : HeapInv (hdr :: held) owned k top) :
    (∀ x ∈ k.freeList.takeWhile fun now => now.base < hdr.ptr, x.finish ≤ hdr.ptr) ∧
    ∀ x ∈ k.freeList.dropWhile fun now => now.base < hdr.ptr, hdr.finish ≤ x.base := by
  constructor
  · intro x hx
    have hbase := lt_of_mem_takeWhile hx
    have hmem := (List.takeWhile_subset _) hx
    have hhdr : hdr.ptr < hdr.finish := by simp only [KmemHeader.finish, sizes]; omega
    by_contra hlt
    exact h.held_apart hmem (a := hdr.ptr) ⟨by omega, by omega⟩ ⟨le_rfl, hhdr⟩
  · intro x hx
    have hbase := h.coalesced.le_of_mem_dropWhile hx
    have hmem := (List.dropWhile_subset _) hx
    have hpos := h.coalesced.pos x hmem
    by_contra hlt
    exact h.held_apart hmem (a := x.base) ⟨le_rfl, hpos⟩ ⟨hbase, by omega⟩

theorem KmemFree.join_base (u v : KmemFree) : (u.join v).base = u.base := rfl

theorem KmemFree.join_finish (u v : KmemFree) (h : u.finish = v.base) :
    (u.join v).finish = v.finish := by
  simp only [KmemFree.finish, KmemFree.join] at *
  omega

theorem HeapInv.newEntry_nodup {newEntry n : ℕ} (h : HeapInv held ((newEntry, n) :: owned) k top) :
    (newEntry :: (k.freeList ++ k.freeFreeStructs).map KmemFree.ptr).Nodup := by
  have hn := (List.perm_middle.map Prod.fst).nodup_iff.mp h.nodup
  rw [List.map_cons, List.map_append, ← List.cons_append, Kmem.records, List.map_map] at hn
  exact hn.of_append_left

/-- Freeing keeps every weight: the bytes of the chunk become free. -/
theorem HeapInv.weigh_insertFree {newEntry n : ℕ}
    (h : HeapInv (hdr :: held) ((newEntry, n) :: owned) k top) (w : Weight) :
    (k.insertFree newEntry hdr.ptr (hdr.size + sizeofHeader)).weigh w held =
      k.weigh w (hdr :: held) := by
  obtain ⟨hl, hre⟩ := insertFree_spec hdr.ptr (hdr.size + sizeofHeader) h.newEntry_nodup
  have hfin : KmemFree.finish ⟨newEntry, hdr.size + sizeofHeader, hdr.ptr⟩ = hdr.finish := by
    simp only [KmemFree.finish, KmemHeader.finish]
    omega
  have hpos : ∀ x ∈ k.freeList, x.base ≤ x.finish := fun x hx => (h.coalesced.pos x hx).le
  rw [Kmem.weigh, hl, weigh_insertRun w KmemFree.join_base KmemFree.join_finish,
    List.takeWhile_append_dropWhile, Kmem.live, hre.headers, hfin, Kmem.weigh, weigh_append,
    weigh_append, weigh_cons]
  · simp only [Kmem.link, Kmem.live]
    omega
  · rw [hfin]
    exact Nat.le_add_right_of_le (Nat.le_add_right _ _)
  · rwa [List.takeWhile_append_dropWhile]

/-- The block joins the list of free blocks. -/
theorem HeapInv.insertFree {newEntry : ℕ}
    (h : HeapInv (hdr :: held) ((newEntry, sizeofFree) :: owned) k top) :
    HeapInv held owned (k.insertFree newEntry hdr.ptr (hdr.size + sizeofHeader)) top := by
  have hweigh := h.weigh_insertFree
  obtain ⟨hl, hre⟩ := insertFree_spec hdr.ptr (hdr.size + sizeofHeader) h.newEntry_nodup
  have hfin : KmemFree.finish ⟨newEntry, hdr.size + sizeofHeader, hdr.ptr⟩ = hdr.finish := by
    simp only [KmemFree.finish, KmemHeader.finish]
    omega
  have hlt : hdr.ptr < hdr.finish := by simp only [KmemHeader.finish, sizes]; omega
  obtain ⟨hbefore, hafter⟩ := h.entry_apart
  have hstructs := hre.structs.trans (k.link_structs _)
  have hrec : ((k.insertFree newEntry hdr.ptr (hdr.size + sizeofHeader)).records ++ owned).Perm
      (k.records ++ (newEntry, sizeofFree) :: owned) := by
    have hmap := hstructs.map fun p => (p, sizeofFree)
    rw [List.map_map, List.map_cons, List.map_map] at hmap
    exact (hmap.append_right owned).trans List.perm_middle.symm
  refine ⟨h.top_pos, hre.headers ▸ h.headers, fun a => ?_, ?_, hre.pool ▸ h.below, ?_,
    hre.freeEnd (link_freeEnd h.freeEnd), ?_, fun p hp => ?_⟩
  · rw [hweigh, Kmem.weighPool, hre.pool]
    exact h.within a
  · intro a
    rw [Kmem.weighPool, hre.pool]
    exact h.once a
  · rw [hl]
    refine coalesced_insertRun KmemFree.join_base KmemFree.join_finish (by rwa [hfin]) ?_
      hbefore (by rwa [hfin])
    rw [List.takeWhile_append_dropWhile]
    exact h.coalesced
  · exact (hrec.map _).nodup_iff.mpr h.nodup
  · rw [Kmem.live, hre.headers]
    exact h.backed p (hrec.mem_iff.mp hp)

end Free

end Cantos
