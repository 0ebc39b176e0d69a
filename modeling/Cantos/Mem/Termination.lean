import Cantos.Mem.High
import Cantos.Mem.Records

/-!
# The recursion of a request

A growth whose records fit into the free blocks ends, and gives the heap a block with room for
all records that another growth could need, unless the record for it took the whole of the last
block.  Behind it every growth has what it needs, and the address space bounds their number.

## Main definitions

* `Kmem.Ends`: the calls of a request are nested less deep than some bound.
* `Mem.Supplied`: the free blocks have room for the records of the first growth.
* `Mem.Behind`: the states behind the growths of a request.
* `Mem.Ample`: what every growth leaves.
-/

namespace Cantos

open Linked Exec

/-- The calls that `kmalloc` leads to are finitely many: they do not reach some depth. -/
def Kmem.Ends (size : ℕ) (flags : Flags) (s : Mem) : Prop :=
  ∃ depth, ∀ s', ¬ (Kmem.kmalloc depth size flags).Stops s .diverge s'

/-- The request makes the heap grow by `n` pages, behind the block `prev`. -/
structure Mem.Grows (size : ℕ) (flags : Flags) (prev n : ℕ) (s : Mem) : Prop where
  size_ne : size ≠ 0
  fit : s.kmem.search (Kmem.sizeNeeded (Kmem.roundSize size)) flags = (prev, none)
  pages : n = s.kmem.pagesNeeded prev (Kmem.sizeNeeded (Kmem.roundSize size))

/-- The free blocks have room for the records that a growth by `n` pages needs. -/
def Mem.HoldsRecords (n : ℕ) (s : Mem) : Prop := ∃ records ≤ s.kmem.room, s.Needs n records

/-- Where the request makes the heap grow, the free blocks have room for the records, and none
of these takes the whole of the last block. -/
def Mem.Supplied (size : ℕ) (flags : Flags) (s : Mem) : Prop :=
  ∀ prev n, s.Grows size flags prev n → s.HoldsRecords n ∧ ¬ s.RecordTakes n prev

/-- The states in which the request is made, at first and behind each of its growths. -/
inductive Mem.Behind (size : ℕ) (flags : Flags) (s : Mem) : Mem → Prop
  | start : s.Behind size flags s
  | grown {t prev n page t₁ table cursor} (behind : s.Behind size flags t)
      (grows : t.Grows size flags prev n) (gets : Gets n t page t₁)
      (room : t₁.page.virtualPointer + page.consecutive * pageSize < totalVmSize) :
      s.Behind size flags (t₁.grown page table cursor prev n t.page.virtualPointer)

/-! ## One growth -/

section Growth
variable {held : List KmemHeader} {owned : List (ℕ × ℕ)} {s s₁ : Mem} {page : Page}
  {size n prev : ℕ} {flags : Flags}

theorem lock_avoids (c : Bool) : Avoids .diverge (whenever c mutexLock) := by
  cases c with
  | false => exact .pure ()
  | true => exact .get fun s => .ite (.stop (by decide)) (.set _)

theorem unlock_avoids {e : Stuck} (c : Bool) : Avoids e (whenever c mutexUnlock) := by
  cases c with
  | false => exact .pure ()
  | true => exact .modify _

theorem appendRun_avoids {memBase pageFlags k i first : ℕ} {e : Stuck}
    (he : ∀ msg, .panic msg ≠ e) : Avoids e (Page.appendRun memBase pageFlags k i first) := by
  induction k generalizing i first with
  | zero => exact .pure first
  | succ k ih => exact .get fun s => .ite (.stop (he _)) ((Avoids.set _).bind fun _ => ih)

theorem kinstallAppend_avoids (chain : List Page) (pageFlags : ℕ) (lock : Bool) :
    Avoids .diverge (Page.kinstallAppend chain pageFlags lock) := by
  induction chain generalizing lock with
  | nil => exact .stop (by decide)
  | cons page next ih =>
    refine (lock_avoids lock).bind fun _ => (appendRun_avoids (by simp)).bind fun first => ?_
    refine (Avoids.modify _).bind fun _ => (unlock_avoids lock).bind fun _ => .ite (.pure _) ?_
    exact (Avoids.modify _).bind fun _ => (ih true).bind fun _ => .pure _

theorem used_avoids (chain : List Page) (lock : Bool) : Avoids .diverge (Page.used chain lock) := by
  induction chain with
  | nil => exact .stop (by decide)
  | cons page next ih =>
    refine (lock_avoids lock).bind fun _ => (Avoids.modify _).bind fun _ => ?_
    exact (unlock_avoids lock).bind fun _ => .ite (.pure ()) ih

/-- What `do_kmalloc` does with the chain for a growth. -/
def Kmem.growBy (depth size : ℕ) (flags : Flags) (prev n : ℕ) (newPage : List Page) : M ℕ := do
  let installedLoc ← Page.kinstallAppend newPage pageTableRw false
  Exec.modify fun s => { s with kmem := s.kmem.attach prev n (Page.firstRun newPage) installedLoc }
  Page.used newPage false
  Kmem.kmalloc depth size (flags ||| kmallocNolock)

theorem doKmalloc_growth_eq (hsize : size ≠ 0)
    (hfit : s.kmem.search (Kmem.sizeNeeded (Kmem.roundSize size)) flags = (prev, none))
    (depth : ℕ) : Kmem.doKmalloc (depth + 1) size flags s =
      (Page.alloc depth growthFlags
          (s.kmem.pagesNeeded prev (Kmem.sizeNeeded (Kmem.roundSize size))) >>=
        Kmem.growBy depth (Kmem.roundSize size) flags prev
          (s.kmem.pagesNeeded prev (Kmem.sizeNeeded (Kmem.roundSize size)))) s := by
  rw [Kmem.doKmalloc, if_neg hsize, Returns.bind_eq (rfl : Exec.get.Returns s s s), hfit]
  rfl

/-- A request that is served ends. -/
theorem settles_served {free : KmemFree} (hsize : size ≠ 0)
    (hfit : s.kmem.search (Kmem.sizeNeeded (Kmem.roundSize size)) flags = (prev, some free)) :
    Settles .diverge (fun depth => Kmem.doKmalloc depth size flags) s := by
  have hreturns : ∀ depth ≥ 1, (Kmem.doKmalloc depth size flags).Returns s
      (free.base + sizeofHeader)
      { s with kmem := s.kmem.takeBlock prev free (Kmem.roundSize size) } := by
    intro depth hdepth
    obtain ⟨depth, rfl⟩ := Nat.exists_eq_add_of_le' hdepth
    rw [Kmem.doKmalloc, if_neg hsize, returns_get_bind]
    simp only [hfit, returns_set_bind]
    exact returns_pure.mpr ⟨rfl, rfl⟩
  exact .of_returns 1 hreturns

/-- A growth whose records fit ends, if the request ends that is made again behind it. -/
theorem settles_growth (hs : s.mutex = true) (hm : MemInv held owned s)
    (hgrows : s.Grows size flags prev n) (hholds : s.HoldsRecords n)
    (hretry : ∀ page s₁ table cursor, Gets n s page s₁ → s₁.mutex = true →
      s₁.page.virtualPointer + page.consecutive * pageSize < totalVmSize →
        Settles .diverge (fun depth => Kmem.doKmalloc depth (Kmem.roundSize size)
          (flags ||| kmallocNolock)) (s₁.grown page table cursor prev n s.page.virtualPointer)) :
    Settles .diverge (fun depth => Kmem.doKmalloc depth size flags) s := by
  obtain ⟨records, hle, hneeds⟩ := hholds
  obtain ⟨hsize, hfit, hn⟩ := hgrows
  refine .succ (Settles.congr ?_ (doKmalloc_growth_eq hsize hfit))
  rw [← hn]
  have halloc := settles_alloc hneeds rfl hle hm.heap.freeList_nodup
  refine halloc.bind fun depth newPage s₁ halloc => ?_
  have hs₁ : s₁.mutex = true := (locks_alloc depth growthFlags n).returns halloc hs
  refine Settles.bind (.of_avoids (kinstallAppend_avoids newPage pageTableRw false))
    fun _ loc s₂ happ => ?_
  obtain ⟨page, rfl, ⟨table, cursor, rfl⟩, hk⟩ := kinstallAppend_returns hs₁ happ
  have hgets : Gets n s page s₁ := alloc_gets (hn ▸ s.kmem.two_le_pagesNeeded _ _) halloc
  have hpos : 0 < page.consecutive :=
    lt_of_lt_of_le (by decide : 0 < 2) ((hn ▸ s.kmem.two_le_pagesNeeded _ _).trans hgets.enough)
  have htop := hm.heap.top_pos
  rw [← hgets.virtualPointer] at htop
  have hloc : loc = s.page.virtualPointer := ((hk hpos).1 htop).trans hgets.virtualPointer
  refine .bind_step rfl (Settles.bind (.of_avoids (used_avoids [page] false)) ?_)
  intro _ _ s₃ hused
  obtain rfl := used_returns hused
  have hagain := hretry page s₁ table cursor hgets hs₁ (hk hpos).2
  subst hloc
  exact .succ (hagain.congr fun depth => by rw [kmalloc_nolock (has_or_self (by decide))])

/-! ## The growths of a request -/

/-- A growth that loses nothing gives the heap a block of its pages. -/
theorem Gets.fits_run (hg : Gets n s page s₁) (h : MemInv held owned s)
    (hstale : s₁.kmem.stale prev s.page.virtualPointer = false) (table : ℕ → ℕ) (cursor m : ℕ) :
    (s₁.grown page table cursor prev m s.page.virtualPointer).kmem.Fits
      (page.consecutive * pageSize - sizeofHeader - sizeofFree) := by
  rcases (hg.heap h page.consecutive table cursor).attach_cases prev m page.consecutive with
    ⟨-, pre, free, -, -, -, e⟩ | ⟨htaken, -⟩ | ⟨-, -, e⟩
  · refine ⟨{ free with size := free.size + page.consecutive * pageSize }, ?_, ?_⟩
    · simp [Mem.grown, Mem.attached, e]
    · simp only
      omega
  · exact absurd (htaken.symm.trans hstale) (by decide)
  · refine ⟨KmemFree.ofPages s.page.virtualPointer page.consecutive, ?_, le_rfl⟩
    simp [Mem.grown, Mem.attached, e]

/-- Without a block before the pages there is none that the record could take. -/
theorem MemInv.not_recordTakes_zero (h : MemInv held owned s) : ¬ s.RecordTakes n 0 := by
  rintro ⟨-, before, free, hfit, hptr, -, -⟩
  obtain ⟨pre, post, hl, -, -, -⟩ := findFit_some hfit
  have hpos := h.heap.ptr_pos (show free ∈ s.kmem.freeList by simp [hl])
  omega

/-- The pages for a request that would fit into memory are few. -/
theorem pagesNeeded_lt (hm : MemInv held owned s) (hh : s.High) {sizeNeeded : ℕ}
    (hfits : s.kmem.Fits sizeNeeded) : s.kmem.pagesNeeded 0 sizeNeeded < 2 ^ 20 := by
  obtain ⟨free, hfree, hsize⟩ := hfits
  obtain ⟨hbase, hend⟩ := hh.block hm hfree
  have hends : s.kmem.endsAt 0 s.kmem.memoryEnd = false := by simp [Kmem.endsAt]
  rw [Kmem.pagesNeeded, hends]
  simp only [kernelVmBase, Bool.false_eq_true, if_false, sizes] at *
  omega

/-- What every growth leaves that loses nothing: a block for the request, and a block for the
records of any growth. -/
structure Mem.Ample (held : List KmemHeader) (owned : List (ℕ × ℕ)) (sizeNeeded : ℕ) (s : Mem) :
    Prop where
  inv : MemInv held owned s
  high : s.High
  request : s.kmem.Fits sizeNeeded
  records : s.kmem.Fits (maxRecords * Kmem.sizeNeeded sizeofPage)

theorem Gets.pool (hg : Gets n s page s₁) : s₁.kmem.pool = s.kmem.pool := by
  cases hg with
  | fresh empty fit bump enough =>
    obtain ⟨pageId, pointer, map, rfl⟩ := bump.state
    exact takeBlock_pool
  | cut entries more fit => exact takeBlock_pool
  | whole entries enough => rfl

theorem Gets.high_grown (hg : Gets n s page s₁) (h : s.High)
    (hroom : s₁.page.virtualPointer + page.consecutive * pageSize < totalVmSize) (table : ℕ → ℕ)
    (cursor prev m : ℕ) : (s₁.grown page table cursor prev m s.page.virtualPointer).High := by
  have hmapped : (s₁.mapped page.consecutive table cursor).High := by
    refine ⟨?_, hroom, fun r hr => h.pool r (hg.pool ▸ hr)⟩
    exact (hg.virtualPointer.symm ▸ h.pointer).trans (Nat.le_add_right _ _)
  have hattached := @Mem.High.attach _ [page] prev m s.page.virtualPointer hmapped (.inr h.pointer)
  exact hattached.same rfl rfl

/-- A growth leaves enough for the request, and for any other growth. -/
theorem Gets.ample (hg : Gets n s page s₁) (hm : MemInv held owned s) (hh : s.High)
    (hgrows : s.Grows size flags prev n) (htaken : ¬ s.RecordTakes n prev)
    (hroom : s₁.page.virtualPointer + page.consecutive * pageSize < totalVmSize) (table : ℕ → ℕ)
    (cursor : ℕ) : (s₁.grown page table cursor prev n s.page.virtualPointer).Ample held owned
      (Kmem.sizeNeeded (Kmem.roundSize size)) := by
  obtain ⟨-, hfit, rfl⟩ := hgrows
  have hprev : prev = 0 ∨ prev ∈ s.kmem.freeList.map KmemFree.ptr :=
    (search_none hfit).imp_right And.left
  have htwo := s.kmem.two_le_pagesNeeded prev (Kmem.sizeNeeded (Kmem.roundSize size))
  have henough := hg.enough
  have hstale : s₁.kmem.stale prev s.page.virtualPointer = false :=
    Bool.eq_false_iff.mpr ((hg.stale_iff hm hprev).not.mpr htaken)
  refine ⟨hg.memInv_grown hm htwo table cursor prev _, hg.high_grown hh hroom table cursor prev _,
    hg.fits hm hprev hstale table cursor _, ?_⟩
  obtain ⟨free, hfree, hle⟩ := hg.fits_run hm hstale table cursor
    (s.kmem.pagesNeeded prev (Kmem.sizeNeeded (Kmem.roundSize size)))
  refine ⟨free, hfree, le_trans ?_ hle⟩
  simp only [maxRecords, sizeofMemTable, Kmem.sizeNeeded, sizes] at *
  omega

/-- Behind a growth, another one has its records. -/
theorem Mem.Ample.supplied {sizeNeeded : ℕ} (h : s.Ample held owned sizeNeeded)
    (hneeded : sizeNeeded = Kmem.sizeNeeded (Kmem.roundSize size)) : s.Supplied size flags := by
  subst hneeded
  rintro prev n ⟨-, hfit, rfl⟩
  obtain rfl := prev_eq_zero h.request hfit
  obtain ⟨records, hle, hneeds⟩ := @needs_le s _ (pagesNeeded_lt h.inv h.high h.request)
  exact ⟨⟨records, hle.trans (le_room_of_fits h.records), hneeds⟩, h.inv.not_recordTakes_zero⟩

end Growth

/-! ## Requests -/

section Request
variable {held : List KmemHeader} {owned : List (ℕ × ℕ)} {s : Mem} {size : ℕ} {flags : Flags}

/-- A supplied request ends.  The address space bounds the number of its growths. -/
theorem settles_doKmalloc (hs : s.mutex = true) (hm : MemInv held owned s) (hh : s.High)
    (hsupplied : s.Supplied size flags) :
    Settles .diverge (fun depth => Kmem.doKmalloc depth size flags) s := by
  generalize hk : totalVmSize - s.page.virtualPointer = k
  induction k using Nat.strongRecOn generalizing s size flags with
  | _ k ih =>
    by_cases hsize : size = 0
    · have hreturns : ∀ depth ≥ 1, (Kmem.doKmalloc depth size flags).Returns s 0 s := by
        intro depth hdepth
        obtain ⟨depth, rfl⟩ := Nat.exists_eq_add_of_le' hdepth
        rw [Kmem.doKmalloc, if_pos hsize]
        exact returns_pure.mpr ⟨rfl, rfl⟩
      exact .of_returns 1 hreturns
    rcases hfit : s.kmem.search (Kmem.sizeNeeded (Kmem.roundSize size)) flags with
      ⟨prev, _ | free⟩
    · have hgrows : s.Grows size flags prev _ := ⟨hsize, hfit, rfl⟩
      obtain ⟨hholds, htaken⟩ := hsupplied prev _ hgrows
      refine settles_growth hs hm hgrows hholds fun page s₁ table cursor hgets hmutex hroom => ?_
      have hample := hgets.ample hm hh hgrows htaken hroom table cursor
      have hagain := congrArg Kmem.sizeNeeded (Kmem.roundSize_roundSize size).symm
      refine ih _ ?_ hmutex hample.inv hample.high (hample.supplied hagain) rfl
      have htwo := s.kmem.two_le_pagesNeeded prev (Kmem.sizeNeeded (Kmem.roundSize size))
      have henough := hgets.enough
      have hbelow := hh.room
      rw [← hk, hgets.virtualPointer_grown]
      simp only [sizes] at *
      omega
    · exact settles_served hsize hfit

theorem Mem.Behind.trans {t u : Mem} (h : s.Behind size flags t) (h' : t.Behind size flags u) :
    s.Behind size flags u := by
  induction h' with
  | start => exact h
  | grown _ grows gets room ih => exact ih.grown grows gets room

/-- A request that is granted takes its block in a state behind its growths. -/
theorem Grants.behind {r : ℕ} {s' : Mem} (hg : Grants (Kmem.roundSize size) flags s r s')
    (hm : MemInv held owned s) (hsize : size ≠ 0) :
    ∃ t prev free, s.Behind size flags t ∧
      t.kmem.search (Kmem.sizeNeeded (Kmem.roundSize size)) flags = (prev, some free) ∧
        s' = { t with kmem := t.kmem.takeBlock prev free (Kmem.roundSize size) } := by
  induction hg with
  | served fit => exact ⟨_, _, _, .start, fit, rfl⟩
  | @grown s prev page s₁ table cursor loc r s' fit gets loc_eq room _ ih =>
    have htop := hm.heap.top_pos
    rw [← gets.virtualPointer] at htop
    obtain rfl : loc = s.page.virtualPointer := (loc_eq htop).trans gets.virtualPointer
    have hstep := @Mem.Behind.grown size flags s s prev _ page s₁ table cursor .start
      ⟨hsize, fit, rfl⟩ gets room
    obtain ⟨t, before, free, hbehind, hfree, rfl⟩ :=
      ih (gets.memInv_grown hm (s.kmem.two_le_pagesNeeded _ _) table cursor prev _)
    exact ⟨t, before, free, hstep.trans hbehind, hfree, rfl⟩

/-- Behind every growth of a supplied request, the next growth has its records. -/
theorem Mem.Behind.supplied {t : Mem} (h : s.Behind size flags t) (hm : MemInv held owned s)
    (hh : s.High) (hsupplied : s.Supplied size flags) :
    MemInv held owned t ∧ t.High ∧ t.Supplied size flags := by
  induction h with
  | start => exact ⟨hm, hh, hsupplied⟩
  | @grown t prev n page t₁ table cursor _ grows gets room ih =>
    obtain ⟨hm, hh, hsupplied⟩ := ih
    have hample := gets.ample hm hh grows (hsupplied prev n grows).2 room table cursor
    exact ⟨hample.inv, hample.high, hample.supplied rfl⟩

theorem Mem.Grows.unlock {prev n : ℕ} {b : Bool}
    (h : Mem.Grows size flags prev n { s with mutex := b }) : s.Grows size flags prev n :=
  ⟨h.size_ne, h.fit, h.pages⟩

theorem Mem.Supplied.lock (h : s.Supplied size flags) (b : Bool) :
    Mem.Supplied size flags { s with mutex := b } := by
  intro prev n hgrows
  obtain ⟨⟨records, hle, hneeds⟩, htaken⟩ := h prev n hgrows.unlock
  exact ⟨⟨records, hle, hneeds.congr rfl⟩, htaken⟩

theorem settles_kmalloc (hs : s.mutex = flags.has kmallocNolock) (hm : MemInv held owned s)
    (hh : s.High) (hsupplied : s.Supplied size flags) :
    Settles .diverge (fun depth => Kmem.kmalloc depth size flags) s := by
  refine .succ (Settles.bind (.of_avoids (lock_avoids _)) fun depth _ s₀ hlock => ?_)
  obtain rfl := lockUnless_returns hs hlock
  have hdo : Settles .diverge (fun depth => Kmem.doKmalloc depth size flags)
      { s with mutex := true } :=
    settles_doKmalloc rfl (hm.same rfl rfl rfl) (hh.same rfl rfl) (hsupplied.lock true)
  exact hdo.bind fun _ ret _ _ => .of_avoids ((unlock_avoids _).bind fun _ => .pure ret)

theorem lockUnless_of_mutex {held : Bool} (hs : s.mutex = held) :
    (whenever (!held) mutexLock).Returns s () { s with mutex := true } := by
  cases held with
  | true => exact returns_pure.mpr ⟨rfl, by rw [← hs]⟩
  | false =>
    change (Exec.get >>= _).Returns s () _
    rw [returns_get_bind, if_neg (by simp [hs])]
    exact returns_set.mpr rfl

/-- A request that makes the heap grow, where the records do not fit, does not end. -/
theorem not_ends_of_lacks {prev n : ℕ} (hs : s.mutex = flags.has kmallocNolock)
    (hn : (s.kmem.freeList.map KmemFree.ptr).Nodup) (hgrows : s.Grows size flags prev n)
    (hlacks : s.Lacks n) : ¬ Kmem.Ends size flags s := by
  obtain ⟨hsize, hfit, hpages⟩ := hgrows
  rintro ⟨depth, hends⟩
  obtain _ | depth := depth
  · exact hends s (stops_stop.mpr ⟨rfl, rfl⟩)
  suffices hdo : ∃ s', (Kmem.doKmalloc depth size flags).Stops { s with mutex := true }
      .diverge s' by
    obtain ⟨s', hstop⟩ := hdo
    exact hends s' (stops_bind.mpr (.inr ⟨(), _, lockUnless_of_mutex hs,
      stops_bind.mpr (.inl hstop)⟩))
  obtain _ | depth := depth
  · exact ⟨_, stops_stop.mpr ⟨rfl, rfl⟩⟩
  have hlocked : Mem.Lacks n { s with mutex := true } :=
    ⟨fun records hle hneeds => hlacks.short records hle (hneeds.congr rfl), hlacks.single⟩
  obtain ⟨s', hstop⟩ := alloc_diverges hlocked hn depth
  exact ⟨s', doKmalloc_alloc hsize hfit (hpages ▸ hstop)⟩

end Request

/-! ## The calls of a machine -/

section Calls
variable {w : World} {memTable : List Entry} {size : ℕ} {flags : Flags}

/-- In every state of every run, a request that is supplied ends, and its growths have their
records. -/
theorem ends_run (h : w.Reachable memTable) (hsupplied : w.mem.Supplied size flags) :
    Kmem.Ends size flags { w.mem with mutex := (Call.kmalloc size flags).held } ∧
      ∀ t, w.mem.Behind size flags t → ∀ prev n, t.Grows size flags prev n → t.HoldsRecords n := by
  refine ⟨?_, fun t ht prev n hgrows => ?_⟩
  · have hsettles : Settles .diverge (fun depth => Kmem.kmalloc depth size flags)
        { w.mem with mutex := flags.has kmallocNolock } :=
      settles_kmalloc rfl (h.memInv.same rfl rfl rfl) (h.high.same rfl rfl) (hsupplied.lock _)
    exact hsettles.exists_depth
  · obtain ⟨-, -, hsupplied⟩ := ht.supplied h.memInv h.high hsupplied
    exact (hsupplied prev n hgrows).1

/-- The first request of a machine makes the heap grow by three fresh frames. -/
theorem roomy_supplied : World.roomy.mem.Supplied 8000 0 := by
  rintro prev n ⟨-, hfit, hn⟩
  have hsearch : World.roomy.mem.kmem.search (Kmem.sizeNeeded (Kmem.roundSize 8000)) 0 =
      (0, none) := by decide +kernel
  obtain rfl : prev = 0 := congrArg Prod.fst (hfit.symm.trans hsearch)
  obtain rfl : n = 3 := hn.trans (by decide +kernel)
  refine ⟨⟨1, by decide +kernel, ?_⟩, World.roomy_reachable.memInv.not_recordTakes_zero⟩
  have hbump : (Page.allocNokmalloc bumpFlags 3).Returns World.roomy.mem
      ⟨0, 1, 0x101000, 0x0f, 3⟩ _ := returns_of_fst (by decide +kernel)
  exact .fresh (by decide) (by decide +kernel) hbump .done

theorem ends_roomy : Kmem.Ends 8000 0
      { World.roomy.mem with mutex := (Call.kmalloc 8000 0).held } ∧
    ∀ t, World.roomy.mem.Behind 8000 0 t → ∀ prev n, t.Grows 8000 0 prev n → t.HoldsRecords n :=
  ends_run World.roomy_reachable roomy_supplied

/-- A request from the reserve has taken the only block. -/
def World.exhausted : World := roomy.run 12 (.kmalloc 4040 kmallocReserved)

theorem World.exhausted_reachable : Reachable roomyMap exhausted :=
  roomy_reachable.run (by decide +kernel) (by decide +kernel)

/-- The smallest request makes the heap grow, and there is no room for the record. -/
theorem not_ends_exhausted : World.exhausted.Reachable roomyMap ∧
    ¬ Kmem.Ends 1 0 { World.exhausted.mem with mutex := (Call.kmalloc 1 0).held } := by
  have hinv := World.exhausted_reachable.memInv
  have hgrows : Mem.Grows 1 0 0 2
      { World.exhausted.mem with mutex := (Call.kmalloc 1 0).held } :=
    ⟨by decide, by decide +kernel, by decide +kernel⟩
  have hroom : World.exhausted.mem.kmem.room = 0 := by decide +kernel
  have hempty : World.exhausted.mem.page.pageFreeHead = [] := by decide +kernel
  refine ⟨World.exhausted_reachable, not_ends_of_lacks rfl hinv.heap.freeList_nodup hgrows
    ⟨fun records hle hneeds => ?_, ?_⟩⟩
  · obtain rfl : records = 0 := Nat.le_zero.mp (hle.trans_eq hroom)
    exact hneeds.ne_zero hempty (by decide) rfl
  · rw [hempty]
    exact id

end Calls

end Cantos
