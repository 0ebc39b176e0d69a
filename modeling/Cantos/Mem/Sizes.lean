import Cantos.Mem.High

/-!
# The sizes of a request, in 32 bits

`do_kmalloc` rounds the size it is asked for, adds a header to it, and computes the
pages to grow by, all in `size_t`.  The functions of `Mem/Alloc.lean` compute them in
natural numbers, which is the same for the sizes the kernel asks for; here a request may
be for any 32-bit number.

A block of the heap has fewer than `2 ^ 31` bytes, since the pool lies in the kernel's
gigabyte.  So a request is served as it should be unless its size wraps to a small one,
and the last eleven sizes do.

## Main definitions

* `Kmem.roundSize32`, `Kmem.sizeNeeded32`, `Kmem.pagesNeeded32`, `Kmem.takeBlock32`: the
  computations of `do_kmalloc`.
* `Kmem.granted`: the bytes that a request gets.
* `Kmem.kmalloc32`: `kmalloc`, with these computations.
* `Kmem.Serves`: a request gets the bytes it asked for.

## Main results

* `World.Reachable.kmalloc32_eq`: the requests of a run are those of `kmalloc32`.
-/

namespace Cantos

open Linked Exec Runs

/-! ## The computations -/

/-- The size `do_kmalloc` allocates for a request. -/
def Kmem.roundSize32 (size : ℕ) : ℕ :=
  let size := if size % 4 ≠ 0 then add32 size (4 - size % 4) else size
  if size < sizeofPage then sizeofPage else size

/-- `size + sizeof(kmem_header_t)` -/
def Kmem.sizeNeeded32 (size : ℕ) : ℕ := add32 size sizeofHeader

/-- The bytes that `kmalloc` sets aside behind the header, for a request that is not for
nothing. -/
def Kmem.granted (size : ℕ) : ℕ := Kmem.sizeNeeded32 (Kmem.roundSize32 size) - sizeofHeader

/-- Take the first `sizeNeeded` bytes off a block. -/
def KmemFree.shrink32 (sizeNeeded : ℕ) (free : KmemFree) : KmemFree :=
  { free with size := sub32 free.size sizeNeeded, base := add32 free.base sizeNeeded }

/-- Allocate from `free`, the block after `prev`. -/
def Kmem.takeBlock32 (prev : ℕ) (free : KmemFree) (size : ℕ) (k : Kmem) : Kmem :=
  let sizeNeeded := Kmem.sizeNeeded32 size
  if add32 sizeNeeded sizeofHeader ≥ free.size then
    let size := sub32 free.size sizeofHeader
    { k with
      freeList := unlink KmemFree.ptr free.ptr k.freeList
      freeEnd := if free.ptr = k.freeEnd then prev else k.freeEnd
      freeFreeStructs := free :: k.freeFreeStructs
      headers := putHeader ⟨free.base, size, sentinelVal⟩ k.headers
      memoryUsed := add32 k.memoryUsed (add32 size sizeofHeader) }
  else
    { k with
      freeList := updateAt KmemFree.ptr free.ptr (·.shrink32 sizeNeeded) k.freeList
      headers := putHeader ⟨free.base, size, sentinelVal⟩ k.headers
      memoryUsed := add32 k.memoryUsed sizeNeeded }

/-- The number of pages to grow by. -/
def Kmem.pagesNeeded32 (k : Kmem) (prev sizeNeeded : ℕ) : ℕ :=
  add32 (if k.endsAt prev k.memoryEnd then
    sub32 (add32 (add32 sizeNeeded sizeofPage) sizeofFree) ((k.freeAt prev).elim 0 (·.size)) /
      pageSize
  else add32 (add32 sizeNeeded sizeofPage) sizeofFree / pageSize) minimumPages

/-- `hdr->size`, which is an `int`. -/
def KmemHeader.int (h : KmemHeader) : ℤ := Int.bmod h.size (2 ^ 32)

mutual

/-- `do_kmalloc`, for any 32-bit size.  The request that `page::alloc` makes for its
record is small. -/
def Kmem.doKmalloc32 : (depth : ℕ) → (size : ℕ) → (flags : Flags) → M ℕ
  | 0, _, _ => Exec.stop .diverge
  | depth + 1, size, flags =>
      if size = 0 then pure 0
      else do
        let size := Kmem.roundSize32 size
        let sizeNeeded := Kmem.sizeNeeded32 size
        let s ← Exec.get
        match s.kmem.search sizeNeeded flags with
        | (prev, some free) => do
            Exec.set { s with kmem := s.kmem.takeBlock32 prev free size }
            pure (add32 free.base sizeofHeader)
        | (prev, none) => do
            let pagesNeeded := s.kmem.pagesNeeded32 prev sizeNeeded
            let newPage ← Page.alloc depth growthFlags pagesNeeded
            let installedLoc ← Page.kinstallAppend newPage pageTableRw false
            Exec.modify fun s => { s with
              kmem := s.kmem.attach prev pagesNeeded (Page.firstRun newPage) installedLoc }
            Page.used newPage false
            Kmem.kmalloc32 depth size (flags ||| kmallocNolock)

/-- `kmalloc`, for any 32-bit size. -/
def Kmem.kmalloc32 : (depth : ℕ) → (size : ℕ) → (flags : Flags) → M ℕ
  | 0, _, _ => Exec.stop .diverge
  | depth + 1, size, flags => do
      whenever (!flags.has kmallocNolock) mutexLock
      let ret ← Kmem.doKmalloc32 depth size flags
      whenever (!flags.has kmallocNolock) mutexUnlock
      pure ret

end

/-! ## Where the computations do not wrap -/

section Computations
variable {size n prev : ℕ} {k : Kmem} {free : KmemFree} {flags : Flags} {pre post : List KmemFree}

theorem Kmem.roundSize32_eq (h : size ≤ 2 ^ 32 - 4) :
    Kmem.roundSize32 size = Kmem.roundSize size := by
  simp only [Kmem.roundSize32, Kmem.roundSize, add32, sizes]
  split_ifs <;> omega

theorem Kmem.roundSize32_roundSize32 (size : ℕ) :
    Kmem.roundSize32 (Kmem.roundSize32 size) = Kmem.roundSize32 size := by
  simp only [Kmem.roundSize32, add32, sizes]
  split_ifs <;> omega

theorem Kmem.roundSize32_pos : 0 < Kmem.roundSize32 size := by
  simp only [Kmem.roundSize32, sizes]
  split_ifs <;> omega

theorem Kmem.sizeNeeded32_eq (h : n + sizeofHeader < 2 ^ 32) :
    Kmem.sizeNeeded32 n = Kmem.sizeNeeded n := Nat.mod_eq_of_lt h

theorem Kmem.le_granted (h : size ≤ 2 ^ 32 - 12) : size ≤ Kmem.granted size := by
  simp only [Kmem.granted, Kmem.sizeNeeded32, Kmem.roundSize32, add32, sizes]
  split_ifs <;> omega

/-- The size wraps to the one of a small block. -/
theorem Kmem.granted_lt (h : 2 ^ 32 - 12 < size) (hsize : size < 2 ^ 32) :
    Kmem.granted size < size := by
  simp only [Kmem.granted, Kmem.sizeNeeded32, Kmem.roundSize32, add32, sizes]
  split_ifs <;> omega

/-- Where a search fails, the block before is smaller than what is searched for. -/
theorem Kmem.freeAt_lt (h : k.search n flags = (prev, none)) (hprev : prev ≠ 0) :
    ∀ free, k.freeAt prev = some free → free.size < n := by
  intro free hfree
  rw [Kmem.search] at h
  split_ifs at h
  · exact absurd (Prod.mk.inj h).1.symm hprev
  · obtain ⟨hall, hlast⟩ := findFit_none h
    obtain ⟨last, hmem, hptr⟩ : ∃ last ∈ k.freeList, last.ptr = prev := by
      cases hget : k.freeList.getLast? with
      | none =>
        rw [hget] at hlast
        exact absurd hlast hprev
      | some last =>
        rw [hget] at hlast
        exact ⟨last, List.mem_of_getLast? hget, hlast.symm⟩
    rw [Kmem.freeAt, List.find?_append] at hfree
    cases hfind : k.freeList.find? (·.ptr = prev) with
    | none => exact absurd (List.find?_eq_none.mp hfind last hmem) (by simpa using hptr)
    | some x =>
      rw [hfind] at hfree
      obtain rfl := Option.some.inj hfree
      exact hall x (List.mem_of_find?_eq_some hfind)

theorem Kmem.pagesNeeded32_eq (h : k.search n flags = (prev, none))
    (hn : n + sizeofPage + sizeofFree < 2 ^ 32) :
    k.pagesNeeded32 prev n = k.pagesNeeded prev n := by
  have hprev : k.endsAt prev k.memoryEnd → (k.freeAt prev).elim 0 (·.size) < n + 1 := by
    intro hends
    simp only [Kmem.endsAt, decide_eq_true_eq] at hends
    cases hat : k.freeAt prev with
    | none => exact Nat.succ_pos n
    | some free => exact (Kmem.freeAt_lt h hends.1 free hat).trans (Nat.lt_succ_self n)
  simp only [Kmem.pagesNeeded32, Kmem.pagesNeeded, add32, sub32, sizes] at *
  split_ifs with hends
  · have := hprev hends
    omega
  · omega

/-- Where nothing wraps, the block is taken as it should be. -/
theorem Kmem.takeBlock32_eq (prev : ℕ) (hn : (k.freeList.map KmemFree.ptr).Nodup)
    (hl : k.freeList = pre ++ free :: post) (hfit : Kmem.sizeNeeded n ≤ free.size)
    (hsize : free.size < 2 ^ 31) (hend : free.base + free.size < 2 ^ 32) :
    k.takeBlock32 prev free n = k.takeBlock prev free n := by
  have hneeded : Kmem.sizeNeeded32 n = Kmem.sizeNeeded n := by
    refine Kmem.sizeNeeded32_eq (lt_of_le_of_lt hfit (by omega))
  have hshrink : free.shrink32 (Kmem.sizeNeeded n) = free.shrink (Kmem.sizeNeeded n) := by
    simp only [KmemFree.shrink32, KmemFree.shrink, sub32, add32, KmemFree.mk.injEq, true_and]
    omega
  simp only [Kmem.takeBlock32, Kmem.takeBlock, hneeded]
  have hadd : add32 (Kmem.sizeNeeded n) sizeofHeader = Kmem.sizeNeeded n + sizeofHeader := by
    simp only [add32, sizes]
    omega
  have hsub : sub32 free.size sizeofHeader = free.size - sizeofHeader := by
    simp only [Kmem.sizeNeeded, sub32, sizes] at *
    omega
  have hadd' : add32 (free.size - sizeofHeader) sizeofHeader =
      free.size - sizeofHeader + sizeofHeader := by
    simp only [Kmem.sizeNeeded, add32, sizes] at *
    omega
  rw [hadd, hsub, hadd']
  by_cases hwhole : Kmem.sizeNeeded n + sizeofHeader ≥ free.size
  · rw [if_pos hwhole, if_pos hwhole]
  · rw [if_neg hwhole, if_neg hwhole, hl, updateAt_eq _ (hl ▸ hn), updateAt_eq _ (hl ▸ hn), hshrink]

end Computations

/-! ## Runs -/

/-- The last pass of `do_kmalloc` for a request: it takes `free`. -/
structure Kmem.Takes (size : ℕ) (flags : Flags) (s : Mem) (free : KmemFree) (ptr : ℕ) (s' : Mem) :
    Prop where
  ptr : ptr = add32 free.base sizeofHeader
  block : ∃ prev,
    s.kmem.search (Kmem.sizeNeeded32 (Kmem.roundSize32 size)) flags = (prev, some free) ∧
    s'.kmem = s.kmem.takeBlock32 prev free (Kmem.roundSize32 size)

section Runs
variable {held : List KmemHeader} {owned : List (ℕ × ℕ)} {s s' : Mem} {depth size ptr : ℕ}
  {flags : Flags}

theorem Kmem.two_le_pagesNeeded32 (k : Kmem) (prev sizeNeeded : ℕ) :
    2 ≤ k.pagesNeeded32 prev sizeNeeded := by
  simp only [Kmem.pagesNeeded32, add32, sub32, sizes]
  split_ifs <;> omega

theorem kmalloc32_nolock (hf : flags.has kmallocNolock = true) (depth size : ℕ) :
    Kmem.kmalloc32 (depth + 1) size flags = Kmem.doKmalloc32 depth size flags := by
  funext s
  rw [Kmem.kmalloc32, hf, Bool.not_true, whenever_false, whenever_false]
  change (Kmem.doKmalloc32 depth size flags >>= fun ret => pure () >>= fun _ => pure ret) s = _
  rw [Exec.bind_def]
  rcases Kmem.doKmalloc32 depth size flags s with ⟨_ | a, s'⟩ <;> rfl

/-- What a growth leaves behind: a sound heap, above `KERNEL_VM_BASE`. -/
theorem growth_inv {n prev loc : ℕ} {newPage : List Page} {s₁ s₂ s₃ : Mem} {u : Unit} (hn : 2 ≤ n)
    (halloc : (Page.alloc depth growthFlags n).Returns s newPage s₁)
    (happ : (Page.kinstallAppend newPage pageTableRw false).Returns s₁ loc s₂)
    (hused : (Page.used newPage false).Returns { s₂ with
      kmem := s₂.kmem.attach prev n (Page.firstRun newPage) loc } u s₃)
    (hs : s.mutex = true) (hm : MemInv held owned s) (hh : s.High) :
    s₃.mutex = true ∧ MemInv held owned s₃ ∧ s₃.High := by
  have hs₁ : s₁.mutex = true := (locks_alloc depth growthFlags _).returns halloc hs
  have hh₁ := (recursion_high depth).2.2 _ _ s hh _ _ halloc
  obtain ⟨hh₂, hloc₂⟩ := kinstallAppend_high happ hh₁
  have hh₃ := used_preserves _ _ _ (hh₂.attach hloc₂) _ _ hused
  obtain ⟨page, rfl, ⟨table, cursor, rfl⟩, hk⟩ := kinstallAppend_returns hs₁ happ
  obtain rfl := used_returns hused
  have hgets := alloc_gets hn halloc
  have hpos : 0 < page.consecutive := by
    have := hgets.enough
    omega
  have htop := hm.heap.top_pos
  rw [← hgets.virtualPointer] at htop
  exact ⟨hs₁, (hgets.memInv hm).grow hpos ((hk hpos).1 htop), hh₃⟩

theorem doKmalloc32_takes (hs : s.mutex = true) (hm : MemInv held owned s) (hh : s.High)
    (hsize : size ≠ 0) (h : (Kmem.doKmalloc32 depth size flags).Returns s ptr s') :
    ∃ s₁ free, MemInv held owned s₁ ∧ s₁.High ∧ s₁.mutex = true ∧
      Kmem.Takes size flags s₁ free ptr s' ∧ s'.mutex = true := by
  induction depth using Nat.strongRecOn generalizing size flags s with
  | _ depth ih =>
    rcases depth with _ | depth
    · exact absurd h returns_stop
    rw [Kmem.doKmalloc32, if_neg hsize, returns_get_bind] at h
    rcases hfit : s.kmem.search (Kmem.sizeNeeded32 (Kmem.roundSize32 size)) flags with
      ⟨prev, _ | free⟩
    · simp only [hfit] at h
      obtain ⟨newPage, s₁, halloc, hrest⟩ := returns_bind.mp h
      obtain ⟨loc, s₂, happ, hrest⟩ := returns_bind.mp hrest
      rw [returns_modify_bind] at hrest
      obtain ⟨_, s₃, hused, hretry⟩ := returns_bind.mp hrest
      obtain ⟨hs₃, hm₃, hh₃⟩ :=
        growth_inv (s.kmem.two_le_pagesNeeded32 _ _) halloc happ hused hs hm hh
      rcases depth with _ | depth
      · exact absurd hretry returns_stop
      · rw [kmalloc32_nolock (has_or_self (by decide))] at hretry
        obtain ⟨s₄, free, hm₄, hh₄, hs₄, ⟨hptr, prev', hfit', hk⟩, hs'⟩ :=
          ih depth (by omega) hs₃ hm₃ hh₃ (Nat.ne_of_gt Kmem.roundSize32_pos) hretry
        rw [Kmem.roundSize32_roundSize32, Kmem.search_nolock] at hfit'
        rw [Kmem.roundSize32_roundSize32] at hk
        exact ⟨s₄, free, hm₄, hh₄, hs₄, ⟨hptr, prev', hfit', hk⟩, hs'⟩
    · simp only [hfit, returns_set_bind] at h
      obtain ⟨rfl, rfl⟩ := returns_pure.mp h
      exact ⟨s, free, hm, hh, hs, ⟨rfl, prev, hfit, rfl⟩, hs⟩

/-- A request that returns a pointer takes a block of a sound heap. -/
theorem kmalloc32_takes (hs : s.mutex = flags.has kmallocNolock) (hm : MemInv held owned s)
    (hh : s.High) (h : (Kmem.kmalloc32 depth size flags).Returns s ptr s') (hptr : ptr ≠ 0) :
    ∃ s₁ free, MemInv held owned s₁ ∧ s₁.High ∧ Kmem.Takes size flags s₁ free ptr s' := by
  rcases depth with _ | depth
  · exact absurd h returns_stop
  rw [Kmem.kmalloc32] at h
  obtain ⟨_, s₀, hlock, hbody⟩ := returns_bind.mp h
  obtain rfl := lockUnless_returns hs hlock
  obtain ⟨ret, s₁, hdo, hend⟩ := returns_bind.mp hbody
  obtain ⟨_, s₂, hunlock, hret⟩ := returns_bind.mp hend
  obtain ⟨rfl, rfl⟩ := returns_pure.mp hret
  by_cases hsize : size = 0
  · subst hsize
    rcases depth with _ | depth
    · exact absurd hdo returns_stop
    · rw [Kmem.doKmalloc32, if_pos rfl] at hdo
      exact absurd (returns_pure.mp hdo).1 hptr
  · obtain ⟨s₃, free, hm₃, hh₃, -, ⟨hp, prev, hfit, hk⟩, hs₁⟩ :=
      doKmalloc32_takes (s := { s with mutex := true }) rfl (hm.same rfl rfl rfl) (hh.same rfl rfl)
        hsize hdo
    obtain rfl := unlockUnless_returns hs₁ hunlock
    exact ⟨s₃, free, hm₃, hh₃, ⟨hp, prev, hfit, hk⟩⟩

/-- The sizes the kernel asks for are far from the end: the two forms of `do_kmalloc` agree. -/
theorem doKmalloc32_eq (hs : s.mutex = true) (hm : MemInv held owned s) (hh : s.High)
    (hsize : Kmem.roundSize size + sizeofHeader + sizeofPage + sizeofFree < 2 ^ 32) :
    Kmem.doKmalloc32 depth size flags s = Kmem.doKmalloc depth size flags s := by
  induction depth using Nat.strongRecOn generalizing size flags s with
  | _ depth ih =>
    rcases depth with _ | depth
    · rw [Kmem.doKmalloc32, Kmem.doKmalloc]
    rw [Kmem.doKmalloc32, Kmem.doKmalloc]
    by_cases hzero : size = 0
    · rw [if_pos hzero, if_pos hzero]
    rw [if_neg hzero, if_neg hzero]
    have hle := Kmem.roundSize_le size
    have hround : Kmem.roundSize32 size = Kmem.roundSize size := by
      refine Kmem.roundSize32_eq ?_
      simp only [sizes] at hsize
      omega
    have hneeded := Kmem.sizeNeeded32_eq (n := Kmem.roundSize size) (by omega)
    rw [hround, hneeded]
    refine bind_congr (x := Exec.get) fun t s' hget => ?_
    obtain ⟨rfl, rfl⟩ := returns_get.mp hget
    rcases hfit : s'.kmem.search (Kmem.sizeNeeded (Kmem.roundSize size)) flags with
      ⟨prev, _ | free⟩
    · have hpages := Kmem.pagesNeeded32_eq hfit (by exact hsize)
      simp only [hpages]
      refine bind_congr fun newPage s₁ halloc => bind_congr fun loc s₂ happ => ?_
      refine bind_congr (x := Exec.modify _) fun _ s₃ hattach => bind_congr fun _ s₄ hused => ?_
      obtain rfl := returns_modify.mp hattach
      obtain ⟨hs₄, hm₄, hh₄⟩ :=
        growth_inv (s'.kmem.two_le_pagesNeeded _ _) halloc happ hused hs hm hh
      rcases depth with _ | depth
      · rw [Kmem.kmalloc32, Kmem.kmalloc]
      · rw [kmalloc32_nolock (has_or_self (by decide)), kmalloc_nolock (has_or_self (by decide))]
        exact ih depth (by omega) hs₄ hm₄ hh₄ (by rwa [Kmem.roundSize_roundSize])
    · obtain ⟨pre, post, hl, hfits, -, -⟩ := findFit_some (search_some hfit)
      have hfree : free ∈ s'.kmem.freeList := by simp [hl]
      obtain ⟨hbase, hend⟩ := hh.block hm hfree
      simp only [kernelVmBase, sizes] at hbase hend
      have htake := Kmem.takeBlock32_eq prev hm.heap.freeList_nodup hl hfits
        (by omega) (by omega)
      have hadd : add32 free.base sizeofHeader = free.base + sizeofHeader := by
        simp only [Kmem.sizeNeeded, add32, sizes] at *
        omega
      simp only [htake, hadd]

/-- So the requests of a run are those of `kmalloc32`. -/
theorem World.Reachable.kmalloc32_eq {w : World} {memTable : List Entry}
    (h : w.Reachable memTable) (allows : w.Allows (.kmalloc size flags)) :
    Kmem.kmalloc32 depth size flags { w.mem with mutex := flags.has kmallocNolock } =
      Kmem.kmalloc depth size flags { w.mem with mutex := flags.has kmallocNolock } := by
  rcases depth with _ | depth
  · rw [Kmem.kmalloc32, Kmem.kmalloc]
  rw [Kmem.kmalloc32, Kmem.kmalloc]
  refine bind_congr fun _ s₀ hlock => ?_
  have hheld : Mem.mutex { w.mem with mutex := flags.has kmallocNolock } =
      flags.has kmallocNolock := rfl
  obtain rfl := lockUnless_returns hheld hlock
  have hround : Kmem.roundSize size + sizeofHeader + sizeofPage + sizeofFree < 2 ^ 32 := by
    simp only [World.Allows, Kmem.roundSize, sizes] at allows ⊢
    split_ifs <;> omega
  have hm : MemInv [] w.owned { w.mem with mutex := true } := h.memInv.same rfl rfl rfl
  exact bind_eq_of_eq (doKmalloc32_eq rfl hm (h.high.same rfl rfl) hround) _

end Runs

/-! ## What a request gets -/

/-- No computation for a request for `size` bytes wraps. -/
structure Kmem.Exact (size : ℕ) : Prop where
  round : Kmem.roundSize32 size = Kmem.roundSize size
  needed : Kmem.sizeNeeded32 (Kmem.roundSize size) = Kmem.sizeNeeded (Kmem.roundSize size)
  pages : ∀ (k : Kmem) (prev : ℕ) (flags : Flags),
    k.search (Kmem.sizeNeeded (Kmem.roundSize size)) flags = (prev, none) →
    k.pagesNeeded32 prev (Kmem.sizeNeeded (Kmem.roundSize size)) =
      k.pagesNeeded prev (Kmem.sizeNeeded (Kmem.roundSize size))

/-- The request for `size` bytes takes a free block of a sound heap, and the header and as
many bytes behind it lie in the block. -/
def World.Serves (w : World) (size : ℕ) (flags : Flags) (ptr : ℕ) (s' : Mem) : Prop :=
  ∃ (s : Mem) (free : KmemFree) (hdr : KmemHeader),
    World.Sound { w with mem := s } ∧ Kmem.Takes size flags s free ptr s' ∧
    s'.kmem.headers.find? (·.ptr = free.base) = some hdr ∧ (size : ℤ) ≤ hdr.int ∧
    ptr = free.base + sizeofHeader ∧ ptr + size ≤ free.base + free.size

section Serves
variable {w : World} {s s' : Mem} {size ptr prev : ℕ} {flags : Flags} {free : KmemFree}

theorem KmemHeader.int_lt (h : KmemHeader) : h.int < 2 ^ 31 := by
  change Int.bmod h.size 4294967296 < 2147483648
  rw [Int.bmod]
  split_ifs <;> omega

theorem KmemHeader.int_eq {h : KmemHeader} (hsize : h.size < 2 ^ 31) : h.int = h.size := by
  change Int.bmod h.size 4294967296 = h.size
  rw [Int.bmod]
  split_ifs <;> omega

/-- A header has room for fewer than `2 ^ 31` bytes. -/
theorem World.Serves.lt (h : w.Serves size flags ptr s') : size < 2 ^ 31 := by
  obtain ⟨s, free, hdr, -, -, -, hsize, -⟩ := h
  have := hdr.int_lt
  omega

/-- The block is taken, and its header holds at least the size rounded up. -/
theorem takeBlock_header (k : Kmem) (prev : ℕ) {n : ℕ} (hfit : Kmem.sizeNeeded n ≤ free.size) :
    ∃ hdr, (k.takeBlock prev free n).headers.find? (·.ptr = free.base) = some hdr ∧
      n ≤ hdr.size ∧ hdr.size ≤ free.size - sizeofHeader := by
  have hle : n ≤ free.size - sizeofHeader := Nat.le_sub_of_add_le hfit
  by_cases hwhole : Kmem.sizeNeeded n + sizeofHeader ≥ free.size
  · rw [Kmem.takeBlock, if_pos hwhole]
    exact ⟨⟨free.base, free.size - sizeofHeader, sentinelVal⟩, by simp [putHeader], hle, le_rfl⟩
  · rw [Kmem.takeBlock, if_neg hwhole]
    exact ⟨⟨free.base, n, sentinelVal⟩, by simp [putHeader], le_rfl, hle⟩

/-- What a request takes that did not wrap. -/
theorem MemInv.serves (hm : MemInv [] w.owned s) (hh : s.High)
    (ht : Kmem.Takes size flags s free ptr s')
    (hsize : size ≤ 2 ^ 32 - 12) : w.Serves size flags ptr s' ∧ Kmem.Exact size := by
  obtain ⟨hptr, prev, hfit, hk⟩ := ht
  have hround := @Kmem.roundSize32_eq size (by omega)
  have hroundlt : Kmem.roundSize size + sizeofHeader < 2 ^ 32 := by
    simp only [Kmem.roundSize, sizes]
    split_ifs <;> omega
  have hneeded := Kmem.sizeNeeded32_eq hroundlt
  obtain ⟨pre, post, hl, hfits, -, -⟩ := findFit_some (search_some hfit)
  rw [hround, hneeded] at hfits
  have hfree : free ∈ s.kmem.freeList := by simp [hl]
  obtain ⟨hbase, hend⟩ := hh.block hm hfree
  simp only [kernelVmBase, sizes] at hbase hend
  have htake := Kmem.takeBlock32_eq prev hm.heap.freeList_nodup hl hfits (by omega) (by omega)
  obtain ⟨hdr, hfind, hle, hge⟩ := takeBlock_header s.kmem prev hfits
  have hsizeNeeded : Kmem.sizeNeeded (Kmem.roundSize size) = Kmem.roundSize size + 8 := rfl
  have hle' := Kmem.roundSize_le size
  have hadd : add32 free.base sizeofHeader = free.base + sizeofHeader := by
    simp only [add32, sizes]
    omega
  refine ⟨⟨s, free, hdr, hm.sound, ⟨hptr, prev, hfit, hk⟩, ?_, ?_, hptr.trans hadd, ?_⟩,
    hround, hneeded, fun k prev flags h => Kmem.pagesNeeded32_eq h ?_⟩
  · rw [hk, hround, htake]
    exact hfind
  · simp only [sizes] at hge
    rw [KmemHeader.int_eq (by omega)]
    omega
  · rw [hptr, hadd]
    simp only [sizes]
    omega
  · simp only [sizes]
    omega

/-- A request that returns a pointer is served, and none of its computations wraps, unless
it is one of the last eleven sizes. -/
theorem kmalloc_serves_iff {memTable : List Entry} {depth : ℕ} (h : w.Reachable memTable)
    (returns : (Kmem.kmalloc32 depth size flags).Returns
      { w.mem with mutex := (Call.kmalloc size flags).held } ptr s')
    (hptr : ptr ≠ 0) :
    w.Serves size flags ptr s' ∧ Kmem.Exact size ↔ size ≤ 0xfffffff4 := by
  constructor
  · rintro ⟨hserves, -⟩
    exact hserves.lt.le.trans (by decide)
  · intro hle
    have hm : MemInv [] w.owned { w.mem with mutex := (Call.kmalloc size flags).held } :=
      h.memInv.same rfl rfl rfl
    obtain ⟨s, free, hm, hh, ht⟩ := kmalloc32_takes rfl hm (h.high.same rfl rfl) returns hptr
    exact hm.serves hh ht hle

theorem kmalloc_serves_iff_roomy :
    World.roomy.Serves 8000 0 3222278172 (Kmem.kmalloc32 12 8000 0 World.roomy.mem).2 ∧
      Kmem.Exact 8000 ↔ 8000 ≤ 0xfffffff4 :=
  kmalloc_serves_iff World.roomy_reachable
    (returns_of_fst (by decide +kernel)) (by decide)

/-- The size wraps to zero with the header, and the header is all that is taken off the
block, with a negative size in it. -/
theorem not_serves_roomy : World.roomy.Reachable roomyMap ∧ ∃ s',
    (Kmem.kmalloc32 12 0xfffffff5 0).Returns World.roomy.mem 3222274132 s' ∧
      ¬ World.roomy.Serves 0xfffffff5 0 3222274132 s' :=
  ⟨World.roomy_reachable, _, returns_of_fst (by decide +kernel), fun h => absurd h.lt (by decide)⟩

end Serves

end Cantos
