import Cantos.Mem.Bookkeeping
import Cantos.Mem.Cuts
import Cantos.Mem.Termination

/-!
# When a call locks again

Two calls take the lock that their caller holds: `page::alloc` calls itself for the rest of a
chain without `FLAG_NOLOCK`, and `kinstall_append` maps the rest of a chain without `lock = false`.
Neither happens where the frames come in one run: those that the call asks for, and those of every
growth of the heap that the call makes.

Whether they do is seen on the free list and on the region in front of each request.  The records
that a growth needs are served or asked for without end, so that they never lock.  A call that
gives memory back asks for the record of the free block, and what it gives back holds the next one.

## Main definitions

* `PageState.OneRun`: the frames come in one run.
* `Mem.GrowsInOne`: so do those of every growth of a request.
* `Kmem.Provides`: there is a record for a free block.
* `Call.Clear`: the condition on the state before a call.

## Main results

* `not_keepsLock_of_short`: a first entry that is too short is all that a deadlock takes.
-/

namespace Cantos

open Linked Exec

/-! ## Functions that do not lock -/

section Quiet

theorem readMap_avoids : Avoids .deadlock readMap := .get fun s => by
  rcases s.page.memTable[s.page.currentMap]? with _ | e
  · exact .stop (by decide)
  · exact .pure e

theorem seekRegion_avoids (k : ℕ) : Avoids .deadlock (seekRegion k) := by
  induction k with
  | zero => exact .pure ()
  | succ k ih =>
    exact readMap_avoids.bind fun e => .get fun s =>
      .ite ((Avoids.modify _).bind fun _ => ih) (.pure ())

theorem nextRegion_avoids : Avoids .deadlock nextRegion := by
  refine (Avoids.modify _).bind fun _ => (seekRegion_avoids _).bind fun _ => .get fun s => ?_
  refine .ite (.stop (by decide)) (readMap_avoids.bind fun e => ?_)
  exact .ite (.stop (by decide)) (.modify _)

theorem whenever_avoids (c : Bool) {x : M Unit} (h : Avoids .deadlock x) :
    Avoids .deadlock (whenever c x) := .ite h (.pure ())

theorem allocNokmalloc_avoids {flags : Flags} (hf : flags.has flagNolock = true) (count : ℕ) :
    Avoids .deadlock (Page.allocNokmalloc flags count) := by
  rw [Page.allocNokmalloc, hf]
  refine (Avoids.pure ()).bind fun _ => readMap_avoids.bind fun e => .get fun s => ?_
  refine (Avoids.set _).bind fun _ => (whenever_avoids _ nextRegion_avoids).bind fun _ => ?_
  exact (Avoids.modify _).bind fun _ => (Avoids.pure ()).bind fun _ => .pure _

/-- A chain of one run is mapped under the lock of the caller. -/
theorem kinstallAppend_one (page : Page) (pageFlags : ℕ) :
    Avoids .deadlock (Page.kinstallAppend [page] pageFlags false) :=
  (Avoids.pure ()).bind fun _ => (appendRun_avoids (by simp)).bind fun first =>
    (Avoids.modify _).bind fun _ => (Avoids.pure ()).bind fun _ => .pure first

theorem used_quiet (chain : List Page) : Avoids .deadlock (Page.used chain false) := by
  induction chain with
  | nil => exact .stop (by decide)
  | cons page next ih =>
    exact (Avoids.pure ()).bind fun _ => (Avoids.modify _).bind fun _ =>
      (Avoids.pure ()).bind fun _ => .ite (.pure ()) ih

theorem clearRun_avoids (k entry base : ℕ) : Avoids .deadlock (Page.clearRun k entry base) := by
  induction k generalizing entry base with
  | zero => exact .pure base
  | succ k ih => exact (Avoids.modify _).bind fun _ => (Avoids.pure ()).bind fun _ => ih _ _

theorem writeRun_avoids (memBase pageFlags k i entry : ℕ) :
    Avoids .deadlock (Page.writeRun memBase pageFlags k i entry) := by
  induction k generalizing i entry with
  | zero => exact .pure entry
  | succ k ih => exact (Avoids.modify _).bind fun _ => (Avoids.pure ()).bind fun _ => ih _ _

theorem writeChain_avoids (consecutive pageFlags : ℕ) (chain : List Page) (entry : ℕ) :
    Avoids .deadlock (Page.writeChain consecutive pageFlags chain entry) := by
  induction chain generalizing entry with
  | nil => exact .pure ()
  | cons page next ih => exact (writeRun_avoids _ _ _ _ _).bind fun entry => ih entry

end Quiet

theorem mutexLock_of_mutex {s : Mem} (hs : s.mutex = false) :
    mutexLock.Returns s () { s with mutex := true } := lockUnless_of_mutex hs

/-! ## The first run of a chain -/

/-- The first run that `page::alloc` gets for `n` frames has them all: the first entry of the
free list does, or what is left of the region. -/
def PageState.OneRun (n : ℕ) (p : PageState) : Prop :=
  match p.pageFreeHead with
  | head :: _ => n ≤ head.consecutive
  | [] => ∀ e ∈ p.memTable[p.currentMap]?, n ≤ bumpSize e p.allocationPointer n / pageSize

section First
variable {depth count n ptr : ℕ} {flags : Flags} {page : Page} {s s' : Mem}

/-- Only the request for a record can lock. -/
theorem allocFirst_avoids (h : s.page.needsRecord count →
    AvoidsAt .deadlock (Kmem.kmalloc depth sizeofPage (allocFlag flags)) s) :
    AvoidsAt .deadlock (Page.allocFirst depth flags count) s := by
  refine .bind_returns (rfl : Exec.get.Returns s s s) ?_
  rcases hP : s.page.pageFreeHead with _ | ⟨head, next⟩
  · refine .bind (h (by simp [PageState.needsRecord, hP])) fun ptr t _ => .of_avoids ?_
    exact (allocNokmalloc_avoids (has_or_self (by decide)) count).bind fun _ => .pure _
  · simp only []
    split_ifs with hmore
    · refine .bind (h (by simpa [PageState.needsRecord, hP] using hmore)) fun ptr t _ => ?_
      exact .of_avoids (cutHead_avoids (by decide))
    · exact .of_avoids ((Avoids.modify _).bind fun _ => .pure _)

/-- `page::alloc` calls itself with the lock held only where the caller holds it. -/
theorem alloc_avoids (hs : s.mutex = flags.has flagNolock) (hc : count ≠ 0)
    (hfirst : AvoidsAt .deadlock (Page.allocFirst depth flags count) { s with mutex := true })
    (hrest : ∀ page s₁, FirstRun depth flags count { s with mutex := true } page s₁ →
      page.consecutive < count → AvoidsAt .deadlock
        (Page.alloc depth flags (count - page.consecutive))
        { s₁ with trace := .allocRest flags :: s₁.trace }) :
    AvoidsAt .deadlock (Page.alloc (depth + 1) flags count) s := by
  rw [alloc_eq hc]
  refine .bind_returns (lockUnless_of_mutex hs) (.bind hfirst fun page s₁ hr => ?_)
  refine .bind ?_ fun next s₂ _ => .of_avoids ((unlock_avoids _).bind fun _ => .pure _)
  split_ifs with hless
  · have hnote : (note (.allocRest flags)).Returns s₁ () _ := rfl
    exact .bind_returns hnote (hrest page s₁ (allocFirst_returns hr) hless)
  · exact .of_avoids (.pure [])

end First

/-! ## The growths of a request -/

section Growth
variable {depth n size prev : ℕ} {flags : Flags} {s t : Mem} {held : List KmemHeader}
  {owned : List (ℕ × ℕ)}

/-- The request for the record of a growth is served, or does not end. -/
theorem record_avoids (h : (∃ prev free, s.kmem.recordFit = (prev, some free)) ∨
    s.page.needsRecord 2) (depth : ℕ) :
    AvoidsAt .deadlock (Kmem.kmalloc depth sizeofPage (kmallocReserved ||| kmallocNolock)) s := by
  rcases hfit : s.kmem.recordFit with ⟨prev, _ | free⟩
  · have hn : s.page.needsRecord 2 := h.resolve_left (by simp [hfit])
    exact .of_stops (record_diverges hfit hn depth) (by decide)
  · rcases depth with _ | _ | depth
    · exact .of_avoids (.stop (by decide))
    · rw [kmalloc_nolock (by decide)]
      exact .of_avoids (.stop (by decide))
    · exact .of_returns (record_served hfit (depth + 2) (by omega))

/-- The run for a growth that is to be in one run. -/
theorem FirstRun.enough {page : Page} {s₁ : Mem} (h : FirstRun depth growthFlags n s page s₁)
    (hone : s.page.OneRun n) : n ≤ page.consecutive := by
  cases h with
  | fresh empty record bump =>
    obtain ⟨prev, free, -, -, rfl⟩ :=
      record_returns (by simp [PageState.needsRecord, empty]) record
    obtain ⟨e, he, hcons, -⟩ := bump.region
    rw [PageState.OneRun, empty] at hone
    exact (hone e he).trans_eq hcons.symm
  | cut => exact le_rfl
  | whole entries less =>
    rw [PageState.OneRun, entries] at hone
    exact hone

theorem needsRecord_two (hn : 2 ≤ n) (h : s.page.needsRecord n) : s.page.needsRecord 2 :=
  fun head hhead => hn.trans_lt (h head hhead)

/-- A growth gets one run, without a deadlock. -/
theorem growth_avoids (hs : s.mutex = true) (hn : 2 ≤ n) (hone : s.page.OneRun n) (depth : ℕ) :
    AvoidsAt .deadlock (Page.alloc depth growthFlags n) s ∧
      ∀ chain s', (Page.alloc depth growthFlags n).Returns s chain s' → ∃ page, chain = [page] := by
  have hc : n ≠ 0 := by omega
  have hf : growthFlags.has flagNolock = true := by decide
  have hheld : s = { s with mutex := true } := by rw [← hs]
  rcases depth with _ | depth
  · have hstop := alloc_zero_diverges hf hc s
    exact ⟨.of_stops hstop (by decide), fun _ _ hr => absurd hstop hr.not_stops⟩
  refine ⟨alloc_avoids (hs.trans hf.symm) hc ?_ ?_, fun chain s' hr => ?_⟩
  · rw [← hheld]
    exact allocFirst_avoids fun h => record_avoids (.inr (needsRecord_two hn h)) depth
  · rw [← hheld]
    exact fun page s₁ hfirst hless => absurd (hfirst.enough hone) (by omega)
  · obtain ⟨page, s₁, next, hfirst, rfl, hrest⟩ := alloc_returns_held hf hc hr
    rcases hrest with ⟨-, rfl, -⟩ | ⟨hless, -⟩
    · exact ⟨page, rfl⟩
    · exact absurd (hfirst.enough hone) (by omega)

/-- The request behind a growth is the request again. -/
theorem Mem.Grows.again (h : t.Grows (Kmem.roundSize size) (flags ||| kmallocNolock) prev n)
    (hsize : size ≠ 0) : t.Grows size flags prev n := by
  obtain ⟨-, hfit, hpages⟩ := h
  rw [Kmem.roundSize_roundSize, Kmem.search_nolock] at hfit
  rw [Kmem.roundSize_roundSize] at hpages
  exact ⟨hsize, hfit, hpages⟩

theorem Mem.Behind.again (h : s.Behind (Kmem.roundSize size) (flags ||| kmallocNolock) t)
    (hsize : size ≠ 0) : s.Behind size flags t := by
  induction h with
  | start => exact .start
  | grown _ grows gets room ih => exact ih.grown (grows.again hsize) gets room

/-- A request whose growths are in one run each does not lock again. -/
theorem doKmalloc_avoids (hs : s.mutex = true) (hm : MemInv held owned s)
    (h : ∀ t prev n, s.Behind size flags t → t.Grows size flags prev n → t.page.OneRun n)
    (depth : ℕ) : AvoidsAt .deadlock (Kmem.doKmalloc depth size flags) s := by
  induction depth using Nat.strongRecOn generalizing s size flags with
  | _ depth ih =>
    rcases depth with _ | depth
    · exact .of_avoids (.stop (by decide))
    by_cases hsize : size = 0
    · rw [Kmem.doKmalloc, if_pos hsize]
      exact .of_avoids (.pure 0)
    rcases hfit : s.kmem.search (Kmem.sizeNeeded (Kmem.roundSize size)) flags with
      ⟨prev, _ | free⟩
    · have hgrows : s.Grows size flags prev _ := ⟨hsize, hfit, rfl⟩
      have htwo := s.kmem.two_le_pagesNeeded prev (Kmem.sizeNeeded (Kmem.roundSize size))
      obtain ⟨halloc, hone⟩ := growth_avoids hs htwo (h s prev _ .start hgrows) depth
      refine AvoidsAt.congr ?_ (doKmalloc_growth_eq hsize hfit depth)
      refine halloc.bind fun newPage s₁ hr => ?_
      obtain ⟨page, rfl⟩ := hone newPage s₁ hr
      have hs₁ : s₁.mutex = true := (locks_alloc depth growthFlags _).returns hr hs
      have hgets := alloc_gets htwo hr
      refine AvoidsAt.bind (.of_avoids (kinstallAppend_one page pageTableRw)) fun loc s₂ happ => ?_
      obtain ⟨run, hrun, ⟨table, cursor, rfl⟩, hk⟩ := kinstallAppend_returns hs₁ happ
      obtain rfl := List.cons.inj hrun |>.1
      obtain ⟨hloc, hroom⟩ := hk (lt_of_lt_of_le (by decide : 0 < 2) (htwo.trans hgets.enough))
      have htop := hm.heap.top_pos
      rw [← hgets.virtualPointer] at htop
      obtain rfl : loc = s.page.virtualPointer := (hloc htop).trans hgets.virtualPointer
      refine .bind_returns rfl (.bind (.of_avoids (used_quiet [page])) fun _ s₃ hused => ?_)
      obtain rfl := used_returns hused
      rcases depth with _ | depth
      · exact .of_avoids (.stop (by decide))
      rw [kmalloc_nolock (has_or_self (by decide))]
      refine ih depth (by omega) hs₁ (hgets.memInv_grown hm htwo table cursor prev _) ?_
      intro t prev' n hbehind hagain
      have hfirst : s.Behind size flags
          (s₁.grown page table cursor prev _ s.page.virtualPointer) :=
        .grown .start hgrows hgets hroom
      exact h t prev' n (hfirst.trans (hbehind.again hsize)) (hagain.again hsize)
    · rw [Kmem.doKmalloc, if_neg hsize]
      refine .bind_returns (rfl : Exec.get.Returns s s s) ?_
      simp only [hfit]
      exact .of_avoids ((Avoids.set _).bind fun _ => .pure _)

/-- In the state in which the request is made, and behind each of its growths, the frames for
the next growth are one run. -/
def Mem.GrowsInOne (size : ℕ) (flags : Flags) (s : Mem) : Prop :=
  ∀ t prev n, Mem.Behind size flags { s with mutex := true } t → t.Grows size flags prev n →
    t.page.OneRun n

theorem kmalloc_avoids (hs : s.mutex = flags.has kmallocNolock) (hm : MemInv held owned s)
    (h : s.GrowsInOne size flags) (depth : ℕ) :
    AvoidsAt .deadlock (Kmem.kmalloc depth size flags) s := by
  rcases depth with _ | depth
  · exact .of_avoids (.stop (by decide))
  rw [Kmem.kmalloc]
  refine .bind_returns (lockUnless_of_mutex hs) ?_
  have hdo : AvoidsAt .deadlock (Kmem.doKmalloc depth size flags) { s with mutex := true } :=
    doKmalloc_avoids (s := { s with mutex := true }) rfl (hm.same rfl rfl rfl) h depth
  refine hdo.bind fun ret s₁ _ => ?_
  exact .of_avoids ((unlock_avoids _).bind fun _ => .pure ret)

end Growth

/-! ## Giving memory back -/

/-- The record for a free block is at hand, or a free block holds it. -/
def Kmem.Provides (k : Kmem) : Prop :=
  k.freeFreeStructs ≠ [] ∨ k.Fits (Kmem.sizeNeeded sizeofPage)

section Fits
variable {k : Kmem} {m n newEntry hdr fullSize : ℕ}

theorem Kmem.Fits.le (h : k.Fits n) (hle : m ≤ n) : k.Fits m := by
  obtain ⟨free, hfree, hsize⟩ := h
  exact ⟨free, hfree, hle.trans hsize⟩

theorem Kmem.Fits.mergeFree (h : k.Fits n) (first : ℕ) : (k.mergeFree first).Fits n := by
  rw [Kmem.mergeFree]
  split
  next => exact h
  next l hold hjoin =>
    obtain ⟨pre, x, post, hl, -, -, rfl⟩ := joinNext_eq_some hjoin
    obtain ⟨free, hfree, hsize⟩ := h
    rw [hl] at hfree
    simp only [List.mem_append, List.mem_cons] at hfree
    rcases hfree with hpre | rfl | rfl | hpost
    · exact ⟨free, by simp [hpre], hsize⟩
    · exact ⟨{ free with size := free.size + hold.size }, by simp, by simp only; omega⟩
    · exact ⟨{ x with size := x.size + free.size }, by simp, by simp only; omega⟩
    · exact ⟨free, by simp [hpost], hsize⟩

/-- The block that is linked in is one of the blocks, or a part of one. -/
theorem Kmem.Fits.insertFree (h : k.Fits n ∨ n ≤ fullSize) :
    (k.insertFree newEntry hdr fullSize).Fits n := by
  rw [Kmem.insertFree]
  rcases hl : k.freeList with _ | ⟨x, next⟩
  · refine ⟨⟨newEntry, fullSize, hdr⟩, by simp, ?_⟩
    refine h.resolve_left fun hfits => ?_
    obtain ⟨free, hfree, -⟩ := hfits
    rw [hl] at hfree
    cases hfree
  · simp only []
    have hinserted : ∀ freeEnd, Kmem.Fits n { k with
        freeList := (x :: next).takeWhile (fun now => now.base < hdr) ++
          ⟨newEntry, fullSize, hdr⟩ :: (x :: next).dropWhile fun now => now.base < hdr
        freeEnd } := by
      intro freeEnd
      rcases h with ⟨free, hfree, hsize⟩ | hsize
      · refine ⟨free, ?_, hsize⟩
        rw [hl, ← List.takeWhile_append_dropWhile (l := x :: next)
          (p := fun now => decide (now.base < hdr))] at hfree
        simp only [List.mem_append, List.mem_cons] at hfree ⊢
        exact hfree.imp_right .inr
      · exact ⟨⟨newEntry, fullSize, hdr⟩, by simp, hsize⟩
    split_ifs <;> first
      | exact (hinserted _).mergeFree _
      | exact ((hinserted _).mergeFree _).mergeFree _

theorem Kmem.Fits.setUsed (h : k.Fits n) (used : ℕ) : (k.setUsed used).Fits n := h

theorem Kmem.Fits.recordFit (h : k.Fits (Kmem.sizeNeeded sizeofPage)) :
    ∃ prev free, k.recordFit = (prev, some free) := by
  rcases hfit : k.recordFit with ⟨prev, _ | free⟩
  · obtain ⟨free, hfree, hsize⟩ := h
    exact absurd ((findFit_none hfit).1 free hfree) (by omega)
  · exact ⟨prev, free, rfl⟩

/-- A record takes its bytes off one block. -/
theorem Kmem.Fits.takeBlock {prev : ℕ} {free : KmemFree}
    (h : k.Fits (Kmem.sizeNeeded sizeofPage + m)) (hm : sizeofHeader < m)
    (hn : (k.freeList.map KmemFree.ptr).Nodup)
    (hfit : k.recordFit = (prev, some free)) : (k.takeBlock prev free sizeofPage).Fits m := by
  obtain ⟨pre, post, hl, -, -, -⟩ := findFit_some hfit
  obtain ⟨big, hbig, hsize⟩ := h
  rw [hl] at hbig
  simp only [List.mem_append, List.mem_cons] at hbig
  rcases takeBlock_cases prev sizeofPage hn hl with ⟨hwhole, e⟩ | ⟨-, e⟩ <;> rw [e]
  · rcases hbig with hpre | rfl | hpost
    · exact ⟨big, by simp [hpre], by omega⟩
    · omega
    · exact ⟨big, by simp [hpost], by omega⟩
  · rcases hbig with hpre | rfl | hpost
    · exact ⟨big, by simp [hpre], by omega⟩
    · refine ⟨big.shrink (Kmem.sizeNeeded sizeofPage), by simp, ?_⟩
      simp only [KmemFree.shrink]
      omega
    · exact ⟨big, by simp [hpost], by omega⟩

end Fits

section Freeing
variable {depth p n : ℕ} {s s' : Mem} {u : Unit} {held : List KmemHeader} {owned : List (ℕ × ℕ)}

/-- A record of the free list is as large as one of the smallest chunks. -/
theorem kmalloc_sizeofFree (depth : ℕ) (flags : Flags) :
    Kmem.kmalloc depth sizeofFree flags = Kmem.kmalloc depth sizeofPage flags := by
  have hround : Kmem.roundSize sizeofFree = Kmem.roundSize sizeofPage := by decide
  rcases depth with _ | _ | depth
  · rfl
  · rfl
  · rw [Kmem.kmalloc, Kmem.kmalloc, Kmem.doKmalloc, Kmem.doKmalloc, if_neg (by decide),
      if_neg (by decide), hround]

theorem getStruct_avoids (h : s.kmem.Provides ∨ s.page.needsRecord 2) :
    AvoidsAt .deadlock (Kmem.getStruct depth) s := by
  refine .bind_returns (rfl : Exec.get.Returns s s s) ?_
  rcases hfree : s.kmem.freeFreeStructs with _ | ⟨hold, next⟩
  · simp only [kmalloc_sizeofFree]
    refine record_avoids (h.imp_left fun h => ?_) depth
    exact (h.resolve_left (by simp [hfree])).recordFit
  · exact .of_avoids ((Avoids.set _).bind fun _ => .pure _)

theorem kfreeNolock_avoids (h : s.kmem.Provides ∨ s.page.needsRecord 2) (p : ℕ) :
    AvoidsAt .deadlock (Kmem.kfreeNolock depth p) s := by
  rw [Kmem.kfreeNolock]
  split_ifs
  · exact .of_avoids (.pure ())
  refine .bind_returns (rfl : Exec.get.Returns s s s) ?_
  split
  · exact .of_avoids (.stop (by decide))
  next hdr _ =>
    split_ifs
    · exact .of_avoids (.stop (by decide))
    · exact .of_avoids (.stop (by decide))
    · refine .bind_returns rfl (.bind ?_ fun newEntry s₁ _ => .of_avoids (.modify _))
      exact getStruct_avoids h

/-- A freed record of a run leaves a block that holds the record of the next free block. -/
theorem kfreeNolock_provides (hr : (Kmem.kfreeNolock depth p).Returns s u s') (hs : s.mutex = true)
    (hm : MemInv held ((p, sizeofPage) :: owned) s) : s'.kmem.Provides := by
  obtain ⟨hdr, s₀, newEntry, s₁, hsize, -, -, -, -, rfl⟩ := kfreeNolock_returns hr hs hm
  exact .inr (Kmem.Fits.setUsed (.insertFree (.inr (Nat.add_le_add_right hsize _))) _)

/-- The state behind `_get_struct`, when a block that is left holds the record. -/
theorem getStruct_fits {m r : ℕ} (hr : (Kmem.getStruct depth).Returns s r s')
    (hn : (s.kmem.freeList.map KmemFree.ptr).Nodup) (hm : sizeofHeader < m)
    (h : s.kmem.Fits (Kmem.sizeNeeded sizeofPage + m)) : s'.kmem.Fits m := by
  rw [Kmem.getStruct, returns_get_bind] at hr
  rcases hfree : s.kmem.freeFreeStructs with _ | ⟨hold, next⟩
  · simp only [hfree, kmalloc_sizeofFree] at hr
    obtain ⟨prev, free, hfit⟩ := (h.le (Nat.le_add_right _ m)).recordFit
    have hserved : ∀ d ≥ 2, (Kmem.kmalloc d sizeofPage (kmallocReserved ||| kmallocNolock)).Returns
        s (free.base + sizeofHeader) (s.recorded prev free) := record_served hfit
    rcases depth with _ | _ | depth
    · exact absurd hr returns_stop
    · rw [kmalloc_nolock (by decide)] at hr
      exact absurd hr returns_stop
    · obtain ⟨-, rfl⟩ := (hserved (depth + 2) (by omega)).unique hr
      exact h.takeBlock hm hn hfit
  · simp only [hfree, returns_set_bind] at hr
    obtain ⟨-, rfl⟩ := returns_pure.mp hr
    exact h.le (Nat.le_add_left m _)

theorem kfreeNolock_fits {m : ℕ} (hr : (Kmem.kfreeNolock depth p).Returns s u s')
    (hs : s.mutex = true) (hm : MemInv held ((p, n) :: owned) s) (hlt : sizeofHeader < m)
    (h : s.kmem.Fits (Kmem.sizeNeeded sizeofPage + m)) : s'.kmem.Fits m := by
  obtain ⟨hdr, s₀, newEntry, s₁, -, rfl, -, hget, -, rfl⟩ := kfreeNolock_returns hr hs hm
  have hfits := getStruct_fits hget hm.heap.freeList_nodup hlt h
  exact Kmem.Fits.setUsed (.insertFree (.inl hfits)) _

end Freeing

/-! ## Chains of frames -/

section Chains
variable {depth first : ℕ} {s s' : Mem} {u : Unit} {held : List KmemHeader} {owned : List (ℕ × ℕ)}

theorem page_mergeFree_avoids (h : s.kmem.Provides) :
    AvoidsAt .deadlock (Page.mergeFree depth first) s := by
  refine .bind_returns (rfl : Exec.get.Returns s s s) ?_
  split
  · refine .bind_returns rfl (kfreeNolock_avoids (.inl ?_) _)
    exact h
  · split
    · refine .bind_returns rfl (kfreeNolock_avoids (.inl ?_) _)
      exact h
    · exact .of_avoids (.pure ())

theorem page_mergeFree_provides (hr : (Page.mergeFree depth first).Returns s u s')
    (hs : s.mutex = true) (hm : MemInv held owned s) (h : s.kmem.Provides) :
    s'.kmem.Provides := by
  rcases page_mergeFree_frees hr hm with rfl | ⟨t, ptr, ht, -, hmutex, hfree⟩
  · exact h
  · exact kfreeNolock_provides hfree (hmutex.trans hs) ht

theorem freeRun_avoids {page : Page} (hs : s.mutex = true)
    (hm : MemInv held ((page.ptr, sizeofPage) :: owned) s) (h : s.kmem.Provides) :
    AvoidsAt .deadlock (Page.freeRun depth page) s := by
  refine .bind_returns (rfl : Exec.get.Returns s s s) (.bind_returns rfl ?_)
  refine AvoidsAt.bind (page_mergeFree_avoids (by exact h)) fun _ s₁ hr => ?_
  have hprovides := page_mergeFree_provides hr (by exact hs) hm.linkRun (by exact h)
  split_ifs
  · exact .of_avoids (.pure ())
  · exact page_mergeFree_avoids hprovides

theorem freeRun_provides {page : Page} (hr : (Page.freeRun depth page).Returns s u s')
    (hs : s.mutex = true) (hm : MemInv held ((page.ptr, sizeofPage) :: owned) s)
    (h : s.kmem.Provides) : s'.kmem.Provides := by
  rw [Page.freeRun, returns_get_bind] at hr
  simp only [returns_set_bind] at hr
  obtain ⟨_, s₁, hmerge, hrest⟩ := returns_bind.mp hr
  have hprovides := page_mergeFree_provides hmerge (by exact hs) hm.linkRun (by exact h)
  split_ifs at hrest
  · obtain ⟨-, rfl⟩ := returns_pure.mp hrest
    exact hprovides
  · have hs₁ : s₁.mutex = true := (locks_mergeFree depth page.ptr).returns hmerge hs
    exact page_mergeFree_provides hrest hs₁ (page_mergeFree_memInv hmerge (by exact hs) hm.linkRun)
      hprovides

/-- `page::free` frees the rest of the chain first. -/
theorem free_cons (depth : ℕ) (page : Page) (next : List Page) :
    Page.free depth (page :: next) = (do
      Page.free depth next
      mutexLock
      Page.freeRun depth page
      mutexUnlock) := by
  cases next <;> rfl

theorem free_provides {chain : List Page} (hr : (Page.free depth chain).Returns s u s')
    (hs : s.mutex = false) (hm : MemInv held (pageRecords chain ++ owned) s)
    (h : s.kmem.Provides) : s'.kmem.Provides := by
  induction chain generalizing s s' owned with
  | nil =>
    obtain ⟨-, rfl⟩ := returns_pure.mp hr
    exact h
  | cons page next ih =>
    rw [free_cons] at hr
    obtain ⟨_, s₁, hnext, hr⟩ := returns_bind.mp hr
    have hm' : MemInv held (pageRecords next ++ (page.ptr, sizeofPage) :: owned) s :=
      hm.perm List.perm_middle
    have hs₁ := (locks_free depth next).returns hnext hs
    obtain ⟨_, s₂, hlock, hr⟩ := returns_bind.mp hr
    obtain rfl := mutexLock_returns hs₁ hlock
    obtain ⟨_, s₃, hrun, hunlock⟩ := returns_bind.mp hr
    obtain rfl := returns_modify.mp hunlock
    have hprovides := ih hnext hs hm' h
    have hfree := freeRun_provides (s := { s₁ with mutex := true }) hrun rfl
      ((free_memInv hnext hs hm').same rfl rfl rfl) hprovides
    exact hfree

/-- A chain is freed without a deadlock where the first record for a free block is provided. -/
theorem free_avoids {chain : List Page} (hs : s.mutex = false)
    (hm : MemInv held (pageRecords chain ++ owned) s) (h : s.kmem.Provides) :
    AvoidsAt .deadlock (Page.free depth chain) s := by
  induction chain generalizing owned with
  | nil => exact .of_avoids (.pure ())
  | cons page next ih =>
    have hm' : MemInv held (pageRecords next ++ (page.ptr, sizeofPage) :: owned) s :=
      hm.perm List.perm_middle
    rw [free_cons]
    refine (ih hm').bind fun _ s₁ hnext => ?_
    have hs₁ := (locks_free depth next).returns hnext hs
    refine .bind_returns (mutexLock_of_mutex hs₁) (.bind ?_ fun _ _ _ => .of_avoids (.modify _))
    have hprovides := free_provides hnext hs hm' h
    exact freeRun_avoids rfl ((free_memInv hnext hs hm').same rfl rfl rfl) hprovides

end Chains

/-! ## Virtual memory -/

section Virtual
variable {depth first : ℕ} {s s' : Mem} {u : Unit} {held : List KmemHeader} {owned : List (ℕ × ℕ)}

/-- A chain is mapped run by run, every run under a lock of its own. -/
theorem kinstallAppend_avoids_unlocked (chain : List Page) (pageFlags : ℕ)
    (hs : s.mutex = false) :
    AvoidsAt .deadlock (Page.kinstallAppend chain pageFlags true) s := by
  induction chain generalizing s with
  | nil => exact .of_avoids (.stop (by decide))
  | cons page next ih =>
    rw [Page.kinstallAppend]
    refine .bind_returns (mutexLock_of_mutex hs) ?_
    refine AvoidsAt.bind (.of_avoids (appendRun_avoids (by simp))) fun first s₁ _ => ?_
    refine .bind_returns rfl (.bind_returns rfl ?_)
    split_ifs
    · exact .of_avoids (.pure first)
    · exact .bind_returns rfl ((ih rfl).bind fun _ _ _ => .of_avoids (.pure first))

theorem used_avoids_unlocked (chain : List Page) (hs : s.mutex = false) :
    AvoidsAt .deadlock (Page.used chain true) s := by
  induction chain generalizing s with
  | nil => exact .of_avoids (.stop (by decide))
  | cons page next ih =>
    rw [Page.used]
    refine .bind_returns (mutexLock_of_mutex hs) ?_
    refine .bind_returns rfl (.bind_returns rfl ?_)
    split_ifs
    · exact .of_avoids (.pure ())
    · exact ih rfl

theorem takeSlot_avoids {totalPages : ℕ} {slot : EmptySlot} {rest : List EmptySlot}
    (h : slot.pages = totalPages → s.kmem.Provides) :
    AvoidsAt .deadlock (Page.takeSlot depth totalPages slot rest) s := by
  refine .bind_returns (rfl : Exec.get.Returns s s s) ?_
  split_ifs with hpages
  · exact .bind_returns rfl (kfreeNolock_avoids (.inl (by exact h hpages)) _)
  · exact .of_avoids (.set _)

theorem kinstall_avoids {chain : List Page} {pageFlags : ℕ} (hs : s.mutex = false)
    (h : (∃ slot ∈ s.page.emptySlot, slot.pages = Page.count chain) → s.kmem.Provides) :
    AvoidsAt .deadlock (Page.kinstall depth chain pageFlags) s := by
  refine .bind_returns (mutexLock_of_mutex hs) ?_
  refine .bind_returns (rfl : Exec.get.Returns _ _ _) ?_
  split
  next slot hfind =>
    have hslot : slot ∈ s.page.emptySlot := List.mem_of_find?_eq_some hfind
    refine AvoidsAt.bind (takeSlot_avoids fun hpages => by exact h ⟨slot, hslot, hpages⟩) ?_
    intro _ s₁ _
    split_ifs
    · refine AvoidsAt.bind (.of_avoids (writeChain_avoids _ _ _ _)) fun _ s₂ _ => ?_
      exact .of_avoids ((Avoids.modify _).bind fun _ => .pure _)
    · exact .bind_returns rfl (kinstallAppend_avoids_unlocked chain pageFlags rfl)
  next => exact .bind_returns rfl (kinstallAppend_avoids_unlocked chain pageFlags rfl)

theorem mergeFreeSlots_avoids (h : s.kmem.Provides) :
    AvoidsAt .deadlock (Page.mergeFreeSlots depth first) s := by
  refine .bind_returns (rfl : Exec.get.Returns s s s) ?_
  split
  · exact .bind_returns rfl (kfreeNolock_avoids (.inl (by exact h)) _)
  · exact .of_avoids (.pure ())

theorem mergeFreeSlots_fits {m : ℕ} (hr : (Page.mergeFreeSlots depth first).Returns s u s')
    (hs : s.mutex = true) (hm : MemInv held owned s) (hlt : sizeofHeader < m)
    (h : s.kmem.Fits (Kmem.sizeNeeded sizeofPage + m)) : s'.kmem.Fits m := by
  rcases mergeFreeSlots_frees hr hm with rfl | ⟨t, ptr, ht, hkmem, hmutex, hfree⟩
  · exact h.le (Nat.le_add_left m _)
  · exact kfreeNolock_fits hfree (hmutex.trans hs) ht hlt (hkmem ▸ h)

/-- What `kuninstall` does under one lock, for one run of the chain. -/
def Page.uninstallRun (depth base : ℕ) (page : Page) : M ℕ := do
  mutexLock
  let newSlot ← Kmem.kmalloc depth sizeofSlot kmallocNolock
  let s ← Exec.get
  let before := s.page.emptySlot.takeWhile fun now => now.base < base
  let after := s.page.emptySlot.dropWhile fun now => now.base < base
  let slot : EmptySlot := { ptr := newSlot, base, pages := page.consecutive }
  Exec.set { s with page.emptySlot := before ++ slot :: after }
  let base ← Page.clearRun page.consecutive (tableIndex base) base
  Page.mergeFreeSlots depth newSlot
  (if before.isEmpty then pure ()
  else Page.mergeFreeSlots depth (lastPtr EmptySlot.ptr before))
  mutexUnlock
  pure base

theorem kuninstall_eq_run (depth base : ℕ) (page : Page) (next : List Page) :
    Page.kuninstall depth base (page :: next) = (do
      let base ← Page.uninstallRun depth base page
      Page.kuninstall depth base next) := by
  rw [Page.kuninstall, Page.uninstallRun]
  simp only [Exec.bind_bind]
  cases next <;> rfl

/-- The request for the record of a hole is met without a deadlock, and leaves a block for the
records of the holes that are merged. -/
def Mem.TakesHole (s : Mem) : Prop :=
  s.GrowsInOne sizeofSlot kmallocNolock ∧
    ∀ t, Mem.Behind sizeofSlot kmallocNolock { s with mutex := true } t →
      (t.kmem.search (Kmem.sizeNeeded sizeofPage) kmallocNolock).2.isSome →
        t.kmem.Fits (3 * Kmem.sizeNeeded sizeofPage)

theorem Mem.Behind.memInv {size : ℕ} {flags : Flags} {t : Mem} (h : s.Behind size flags t)
    (hm : MemInv held owned s) : MemInv held owned t := by
  induction h with
  | start => exact hm
  | grown _ grows gets room ih =>
    obtain ⟨-, -, hpages⟩ := grows
    exact gets.memInv_grown ih (hpages ▸ Kmem.two_le_pagesNeeded _ _ _) _ _ _ _

/-- The state behind a request that returns. -/
theorem kmalloc_behind {size r : ℕ} {flags : Flags}
    (hr : (Kmem.kmalloc depth size flags).Returns s r s') (hs : s.mutex = flags.has kmallocNolock)
    (hsize : size ≠ 0) (hm : MemInv held owned s) :
    ∃ t prev free, Mem.Behind size flags { s with mutex := true } t ∧
      t.kmem.search (Kmem.sizeNeeded (Kmem.roundSize size)) flags = (prev, some free) ∧
        s'.kmem = t.kmem.takeBlock prev free (Kmem.roundSize size) ∧ s'.page = t.page := by
  rcases kmalloc_returns hs hr with ⟨hzero, -⟩ | ⟨-, s₁, hgrants, rfl⟩
  · exact absurd hzero hsize
  · obtain ⟨t, prev, free, hbehind, hfit, rfl⟩ := hgrants.behind (hm.same rfl rfl rfl) hsize
    exact ⟨t, prev, free, hbehind, hfit, rfl, rfl⟩

theorem uninstallRun_avoids {base : ℕ} {page : Page} (hs : s.mutex = false)
    (hm : MemInv held owned s) (h : s.TakesHole) :
    AvoidsAt .deadlock (Page.uninstallRun depth base page) s := by
  obtain ⟨hgrows, hfits⟩ := h
  have hround : Kmem.roundSize sizeofSlot = sizeofPage := by decide
  have hlocked : MemInv held owned { s with mutex := true } := hm.same rfl rfl rfl
  refine .bind_returns (mutexLock_of_mutex hs) ?_
  have hkmalloc : AvoidsAt .deadlock (Kmem.kmalloc depth sizeofSlot kmallocNolock)
      { s with mutex := true } := kmalloc_avoids (by exact rfl) hlocked hgrows depth
  refine hkmalloc.bind fun newSlot s₁ hrec => ?_
  have hs₁ : s₁.mutex = true := (locks_kmalloc depth sizeofSlot kmallocNolock).returns hrec rfl
  have hm₁ : MemInv held ((newSlot, sizeofSlot) :: owned) s₁ :=
    kmalloc_record_memInv hrec (by decide) (by decide) rfl hlocked
  have hfits₁ : s₁.kmem.Fits (Kmem.sizeNeeded sizeofPage + Kmem.sizeNeeded sizeofPage) := by
    obtain ⟨t, prev, free, hbehind, hfit, e, -⟩ :=
      kmalloc_behind hrec rfl (by decide) hlocked
    rw [hround] at hfit e
    have hbig := hfits t hbehind (by simp [hfit])
    rw [e]
    exact (hbig.le (by simp only [Kmem.sizeNeeded, sizes]; omega)).takeBlock (by decide)
      (hbehind.memInv hlocked).heap.freeList_nodup (search_some hfit)
  refine .bind_returns (rfl : Exec.get.Returns s₁ s₁ s₁) (.bind_returns rfl ?_)
  refine AvoidsAt.bind (.of_avoids (clearRun_avoids _ _ _)) fun base' s₂ hclear => ?_
  obtain ⟨table, rfl⟩ := clearRun_returns hclear
  have hl : s₁.page.emptySlot.takeWhile (fun now => decide (now.base < base)) ++
      s₁.page.emptySlot.dropWhile (fun now => decide (now.base < base)) = s₁.page.emptySlot :=
    List.takeWhile_append_dropWhile
  have hm₂ : MemInv held owned { s₁ with
      page.emptySlot := s₁.page.emptySlot.takeWhile (fun now => decide (now.base < base)) ++
        ⟨newSlot, base, page.consecutive⟩ ::
          s₁.page.emptySlot.dropWhile fun now => decide (now.base < base)
      page.table := table } := MemInv.linkSlot hm₁ hl table
  have hprovides : s₁.kmem.Provides := .inr (hfits₁.le (Nat.le_add_right _ _))
  refine AvoidsAt.bind (mergeFreeSlots_avoids (by exact hprovides)) fun _ s₃ hmerge => ?_
  have hfits₃ : s₃.kmem.Fits (Kmem.sizeNeeded sizeofPage) :=
    mergeFreeSlots_fits hmerge (by exact hs₁) (by exact hm₂) (by decide) (by exact hfits₁)
  refine AvoidsAt.bind ?_ fun _ s₄ _ => .of_avoids ((Avoids.modify _).bind fun _ => .pure _)
  split_ifs
  · exact .of_avoids (.pure ())
  · exact mergeFreeSlots_avoids (.inr hfits₃)

/-- Before every run of the chain, the request for the record of its hole is met. -/
def Page.UninstallsClear (depth : ℕ) : (base : ℕ) → (chain : List Page) → (s : Mem) → Prop
  | _, [], _ => True
  | base, page :: next, s => s.TakesHole ∧ ∀ base' s',
      (Page.uninstallRun depth base page).Returns s base' s' →
        Page.UninstallsClear depth base' next s'

theorem kuninstall_avoids {base : ℕ} {chain : List Page} (hs : s.mutex = false)
    (hm : MemInv held owned s) (h : Page.UninstallsClear depth base chain s) :
    AvoidsAt .deadlock (Page.kuninstall depth base chain) s := by
  induction chain generalizing s base with
  | nil => exact .of_avoids (.pure ())
  | cons page next ih =>
    obtain ⟨htakes, hnext⟩ := h
    rw [kuninstall_eq_run]
    refine (uninstallRun_avoids hs hm htakes).bind fun base' s₁ hr => ?_
    -- The run is `kuninstall` on a chain of one run.
    have hone : (Page.kuninstall depth base [page]).Returns s () s₁ := by
      rw [kuninstall_eq_run]
      exact returns_bind.mpr ⟨base', s₁, hr, rfl⟩
    exact ih ((locks_kuninstall depth base [page]).returns hone hs)
      (kuninstall_memInv hone hs hm) (hnext base' s₁ hr)

end Virtual

/-! ## Chains of fresh frames -/

section Alloc
variable {depth count : ℕ} {flags : Flags} {s t : Mem} {held : List KmemHeader}
  {owned : List (ℕ × ℕ)}

/-- The first run of the chain has all frames: the first entry of the free list does, or what is
left of the region when the record is at hand. -/
def Mem.TakesOne (flags : Flags) (count : ℕ) (s : Mem) : Prop :=
  match s.page.pageFreeHead with
  | head :: _ => count ≤ head.consecutive
  | [] => ∀ t, Mem.Behind sizeofPage (allocFlag flags) { s with mutex := true } t →
      (t.kmem.search (Kmem.sizeNeeded sizeofPage) (allocFlag flags)).2.isSome →
        t.page.OneRun count

theorem Mem.Behind.empty {size : ℕ} (h : s.Behind size flags t) (hs : s.page.pageFreeHead = []) :
    t.page.pageFreeHead = [] := by
  induction h with
  | start => exact hs
  | grown _ grows gets room ih => exact gets.empty ih

theorem FirstRun.takesOne {page : Page} {s₁ : Mem}
    (h : FirstRun depth flags count { s with mutex := true } page s₁) (hm : MemInv held owned s)
    (hone : s.TakesOne flags count) : count ≤ page.consecutive := by
  cases h with
  | fresh empty record bump =>
    have hround : Kmem.roundSize sizeofPage = sizeofPage := Kmem.roundSize_record
    obtain ⟨t, prev, free, hbehind, hfit, -, hpage⟩ := kmalloc_behind record
      (allocFlag_has_nolock flags).symm (by decide) (hm.same rfl rfl rfl)
    rw [hround] at hfit
    rw [Mem.TakesOne, show s.page.pageFreeHead = [] from empty] at hone
    have hrun := hone t hbehind (by simp [hfit])
    rw [PageState.OneRun, hbehind.empty empty] at hrun
    obtain ⟨e, he, hcons, -⟩ := bump.region
    rw [hpage] at he hcons
    exact (hrun e he).trans_eq hcons.symm
  | cut => exact le_rfl
  | whole entries less =>
    rw [Mem.TakesOne, show s.page.pageFreeHead = _ from entries] at hone
    exact hone

/-- The growths for the records are in one run each, and so is the chain, unless the caller
holds the lock and the rest is as clear as the first run. -/
def Page.AllocsClear (flags : Flags) : (depth : ℕ) → (count : ℕ) → (s : Mem) → Prop
  | 0, _, _ => True
  | depth + 1, count, s => count ≠ 0 →
      (s.page.needsRecord count → s.GrowsInOne sizeofPage (allocFlag flags)) ∧
      if flags.has flagNolock then ∀ page s₁,
        FirstRun depth flags count { s with mutex := true } page s₁ → page.consecutive < count →
          Page.AllocsClear flags depth (count - page.consecutive)
            { s₁ with trace := .allocRest flags :: s₁.trace }
      else s.TakesOne flags count

theorem alloc_clear (hs : s.mutex = flags.has flagNolock) (hm : MemInv held owned s)
    (h : Page.AllocsClear flags depth count s) :
    AvoidsAt .deadlock (Page.alloc depth flags count) s := by
  induction depth generalizing count s owned with
  | zero =>
    rw [Page.alloc]
    split_ifs
    · exact .of_avoids (.pure [])
    · exact .bind_returns (lockUnless_of_mutex hs) (.of_avoids (.stop (by decide)))
  | succ depth ih =>
    by_cases hc : count = 0
    · rw [Page.alloc, if_pos hc]
      exact .of_avoids (.pure [])
    obtain ⟨hrecord, hrest⟩ := h hc
    have hlocked : MemInv held owned { s with mutex := true } := hm.same rfl rfl rfl
    refine alloc_avoids hs hc (allocFirst_avoids fun hneeds => ?_) fun page s₁ hfirst hless => ?_
    · exact kmalloc_avoids (s := { s with mutex := true }) (allocFlag_has_nolock flags).symm hlocked
        (hrecord hneeds) depth
    · split_ifs at hrest with hf
      · exact ih ((hfirst.mutex rfl).trans hf.symm) ((hfirst.memInv rfl hlocked).same rfl rfl rfl)
          (hrest page s₁ hfirst hless)
      · exact absurd (hfirst.takesOne hm hrest) (by omega)

end Alloc

/-! ## The calls -/

section Calls
variable {depth : ℕ} {c : Call} {w : World} {memTable : List Entry}

/-- When a call does not lock again, on the state before it: the growths that it may make are in
one run each, and so are the frames that it asks for and those that it maps under the lock of its
caller; and where it gives memory back, there is a record for the free block, or there will never
be one. -/
def Call.Clear (depth : ℕ) (s : Mem) : Call → Prop
  | .kmalloc size flags => s.GrowsInOne size flags
  | .kfree _ => s.kmem.Provides ∨ s.page.needsRecord 2
  | .kfreeNolock _ => s.kmem.Provides ∨ s.page.needsRecord 2
  | .alloc flags count => Page.AllocsClear flags depth count s
  | .create _ _ _ => s.GrowsInOne sizeofPage (kmallocReserved ||| kmallocNolock)
  | .free _ => s.kmem.Provides
  | .used _ _ => True
  | .kinstall page _ =>
      (∃ slot ∈ s.page.emptySlot, slot.pages = Page.count page) → s.kmem.Provides
  | .kinstallAppend page _ lock => lock = true ∨ page.length ≤ 1
  | .kuninstall base page => Page.UninstallsClear depth base page s

/-- A call that is clear does not lock a lock it holds. -/
theorem exec_avoids {s : Mem} (hs : s.mutex = c.held) (hm : MemInv [] w.owned s)
    (allows : w.Allows c) (hc : c.Clear depth s) : AvoidsAt .deadlock (c.exec depth) s := by
  cases c with
  | kmalloc size flags =>
    exact (kmalloc_avoids hs hm hc depth).bind fun _ _ _ => .of_avoids (.pure _)
  | kfree ptr =>
    refine AvoidsAt.bind ?_ fun _ _ _ => .of_avoids (.pure _)
    refine .bind_returns (mutexLock_of_mutex hs) ?_
    exact (kfreeNolock_avoids (by exact hc) ptr).bind fun _ _ _ => .of_avoids (.modify _)
  | kfreeNolock ptr => exact (kfreeNolock_avoids hc ptr).bind fun _ _ _ => .of_avoids (.pure _)
  | alloc flags count => exact (alloc_clear hs hm hc).bind fun _ _ _ => .of_avoids (.pure _)
  | create base flags count =>
    refine AvoidsAt.bind ?_ fun _ _ _ => .of_avoids (.pure _)
    refine .bind_returns (mutexLock_of_mutex hs) ?_
    have hrecord : AvoidsAt .deadlock (Kmem.kmalloc depth sizeofPage
        (kmallocReserved ||| kmallocNolock)) { s with mutex := true } :=
      kmalloc_avoids (s := { s with mutex := true }) rfl (hm.same rfl rfl rfl) hc depth
    refine hrecord.bind fun write s₁ _ => .bind_returns (rfl : Exec.get.Returns s₁ s₁ s₁) ?_
    exact .of_avoids ((Avoids.set _).bind fun _ => (Avoids.modify _).bind fun _ => .pure _)
  | free page =>
    refine AvoidsAt.bind ?_ fun _ _ _ => .of_avoids (.pure _)
    by_cases hpage : page ∈ w.chains
    · exact free_avoids hs (hm.perm (World.owned_erase hpage).symm) hc
    · obtain rfl := allows.resolve_right hpage
      exact .of_avoids (.pure ())
  | used page lock =>
    refine AvoidsAt.bind ?_ fun _ _ _ => .of_avoids (.pure _)
    cases lock with
    | false => exact .of_avoids (used_quiet page)
    | true => exact used_avoids_unlocked page hs
  | kinstall page pageFlags =>
    exact (kinstall_avoids hs hc).bind fun _ _ _ => .of_avoids (.pure _)
  | kinstallAppend page pageFlags lock =>
    refine AvoidsAt.bind ?_ fun _ _ _ => .of_avoids (.pure _)
    cases lock with
    | true => exact kinstallAppend_avoids_unlocked page pageFlags hs
    | false =>
      rcases page with _ | ⟨run, _ | ⟨_, _⟩⟩
      · exact .of_avoids (.stop (by decide))
      · exact .of_avoids (kinstallAppend_one run pageFlags)
      · exact absurd (hc.resolve_left (by simp)) (by simp)
  | kuninstall base page =>
    exact (kuninstall_avoids hs hm hc).bind fun _ _ _ => .of_avoids (.pure _)

/-- An entry that is too short is all it takes: `page::alloc` locks again for the rest. -/
theorem not_keepsLock_of_short {s : Mem} {flags : Flags} {count : ℕ} {head : Page}
    {next : List Page} (hs : s.mutex = (Call.alloc flags count).held)
    (hf : flags.has flagNolock = false) (entries : s.page.pageFreeHead = head :: next)
    (hshort : head.consecutive < count) : ¬ (Call.alloc flags count).KeepsLock (depth + 1) s := by
  rintro ⟨hne, -⟩
  have hfirst : (Page.allocFirst depth flags count).Returns { s with mutex := true }
      { head with flags } { s with mutex := true, page.pageFreeHead := next } := by
    rw [Page.allocFirst, returns_get_bind]
    simp only [entries, if_neg (Nat.not_lt_of_lt hshort), returns_modify_bind]
    exact returns_pure.mpr ⟨rfl, rfl⟩
  let t : Mem := { s with
    mutex := true
    page.pageFreeHead := next
    trace := .allocRest flags :: s.trace }
  have hrest : (Page.alloc depth flags (count - head.consecutive)).Stops t .deadlock t :=
    page_alloc_stops hf (by omega) rfl
  have hstop : (Page.alloc (depth + 1) flags count).Stops s .deadlock t := by
    rw [alloc_eq (by omega)]
    refine stops_bind.mpr (.inr ⟨(), _, lockUnless_of_mutex hs, ?_⟩)
    refine stops_bind.mpr (.inr ⟨_, _, hfirst, stops_bind.mpr (.inl ?_)⟩)
    rw [if_pos hshort]
    exact stops_bind.mpr (.inr ⟨(), t, rfl, hrest⟩)
  have hexec : ((Call.alloc flags count).exec (depth + 1)).Stops s .deadlock t :=
    stops_bind.mpr (.inl hstop)
  exact hne (congrArg Prod.fst hexec)

/-- In every state of every run, a call that is clear keeps the lock. -/
theorem keepsLock_run (h : w.Reachable memTable) (allows : w.Allows c)
    (hc : c.Clear depth { w.mem with mutex := c.held }) :
    c.KeepsLock depth { w.mem with mutex := c.held } := by
  have hm : MemInv [] w.owned { w.mem with mutex := c.held } := h.memInv.same rfl rfl rfl
  refine ⟨fun hdead => ?_, fun reply hr => ?_⟩
  · exact exec_avoids rfl hm allows hc _ (Prod.ext hdead rfl)
  · exact (locks_exec depth c).returns (returns_of_fst hr) rfl

/-- A request from the reserve does not make the heap grow where a block fits. -/
theorem Mem.Grows.not_fits {size prev n : ℕ} {flags : Flags} {t : Mem}
    (h : t.Grows size flags prev n) (hf : flags.has kmallocReserved = true) :
    ¬ t.kmem.Fits (Kmem.sizeNeeded (Kmem.roundSize size)) := by
  rintro ⟨free, hfree, hsize⟩
  obtain ⟨-, hfit, -⟩ := h
  rw [Kmem.search_reserved hf] at hfit
  exact absurd ((findFit_none hfit).1 free hfree) (by omega)

/-- A request from the reserve makes the heap grow once, by two fresh frames. -/
theorem roomy_growsInOne : World.roomy.mem.GrowsInOne 8000 kmallocReserved := by
  have hm : MemInv [] World.roomy.owned { World.roomy.mem with mutex := true } :=
    World.roomy_reachable.memInv.same rfl rfl rfl
  have hhigh : Mem.High { World.roomy.mem with mutex := true } :=
    World.roomy_reachable.high.same rfl rfl
  have hrecord : World.roomy.mem.kmem.recordFit = (0, some ⟨0xc0100024, 4048, 0xc0100030⟩) := by
    decide +kernel
  have hfew : ∀ t, Mem.Behind 8000 kmallocReserved { World.roomy.mem with mutex := true } t →
      t = { World.roomy.mem with mutex := true } ∨
        t.kmem.Fits (Kmem.sizeNeeded (Kmem.roundSize 8000)) := by
    intro t hbehind
    induction hbehind with
    | start => exact .inl rfl
    | grown behind grows gets room ih =>
      rcases ih with rfl | hfits
      · refine .inr (gets.ample hm hhigh grows ?_ room _ _).request
        rintro ⟨-, before, free, hfit, -, hsize, -⟩
        obtain rfl := Option.some.inj (congrArg Prod.snd (hrecord.symm.trans hfit))
        exact absurd hsize (by decide)
      · exact absurd hfits (grows.not_fits (by decide))
  intro t prev n hbehind hgrows
  obtain rfl := (hfew t hbehind).resolve_right (hgrows.not_fits (by decide))
  obtain ⟨-, hfit, hn⟩ := hgrows
  have hsearch : World.roomy.mem.kmem.search (Kmem.sizeNeeded (Kmem.roundSize 8000))
      kmallocReserved = (0xc0100024, none) := by decide +kernel
  obtain rfl : prev = 0xc0100024 := congrArg Prod.fst (hfit.symm.trans hsearch)
  obtain rfl : n = 2 := hn.trans (by decide +kernel)
  have hempty : World.roomy.mem.page.pageFreeHead = [] := by decide +kernel
  have hregion : World.roomy.mem.page.memTable[World.roomy.mem.page.currentMap]? =
      some ⟨0x100000, 0x1000000, 1⟩ := by decide +kernel
  rw [PageState.OneRun, show PageState.pageFreeHead _ = [] from hempty]
  intro e he
  obtain rfl := Option.some.inj (hregion.symm.trans he)
  decide +kernel

theorem keepsLock_run_roomy : (Call.kmalloc 8000 kmallocReserved).KeepsLock 8
    { World.roomy.mem with mutex := (Call.kmalloc 8000 kmallocReserved).held } :=
  keepsLock_run World.roomy_reachable (by decide) roomy_growsInOne

/-- The machine with four frames in the first region, booted. -/
def World.fourFrames : World := ⟨Cantos.fourFrames, [], []⟩

theorem World.fourFrames_reachable : Reachable fourFramesMap fourFrames :=
  ⟨fourFrames, ⟨⟨0xc0100000, by decide, by decide, returns_of_fst (by decide +kernel)⟩, rfl, rfl⟩,
    .refl⟩

/-- Five frames are not left in the first region: the call for the rest of the chain takes the lock
that `page::alloc` holds. -/
theorem not_keepsLock_alloc : World.fourFrames.Reachable fourFramesMap ∧
    World.fourFrames.Allows (.alloc 0 5) ∧ ¬ (Call.alloc 0 5).KeepsLock 12
      { World.fourFrames.mem with mutex := (Call.alloc 0 5).held } := by
  have hdead : ((Call.alloc 0 5).exec 12
      { World.fourFrames.mem with mutex := (Call.alloc 0 5).held }).1 = .error .deadlock := by
    decide +kernel
  exact ⟨World.fourFrames_reachable, trivial, fun h => h.1 hdead⟩

end Calls

end Cantos
