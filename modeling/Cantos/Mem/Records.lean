import Cantos.Lib.Settles
import Cantos.Mem.Loss
import Cantos.Mem.Regions
import Mathlib.Algebra.Order.BigOperators.Group.List
import Mathlib.Algebra.Order.Group.Nat

/-!
# The records for a growth

`page::alloc` needs a record for every run that it does not take off the list of free frames
as it is: for frames that it cuts off an entry, and for every run that the bump allocator hands
out.  The nested requests for the records are served as long as the free blocks have room, and
with them `page::alloc` ends.

## Main definitions

* `Kmem.room`: how many records the free blocks hold.
* `Mem.Needs`: how many records a call of `page::alloc` needs.
-/

namespace Cantos

open Linked Exec

/-! ## Room for records -/

/-- The records that fit into the free blocks, one after the other. -/
def Kmem.room (k : Kmem) : ℕ :=
  (k.freeList.map fun free => free.size / Kmem.sizeNeeded sizeofPage).sum

section Room
variable {k : Kmem} {s : Mem} {prev : ℕ} {free : KmemFree} {pre post : List KmemFree}

/-- Where there is room, a request for a record finds a block. -/
theorem recordFit_of_room (h : 0 < k.room) : ∃ prev free, k.recordFit = (prev, some free) := by
  rcases hfit : k.recordFit with ⟨prev, _ | free⟩
  · refine absurd h (Nat.not_lt_of_le (Nat.le_of_eq (List.sum_eq_zero fun n hn => ?_)))
    obtain ⟨free, hfree, rfl⟩ := List.mem_map.mp hn
    exact Nat.div_eq_of_lt ((findFit_none hfit).1 free hfree)
  · exact ⟨prev, free, rfl⟩

/-- A record takes up the room of one. -/
theorem room_takeBlock (hn : (k.freeList.map KmemFree.ptr).Nodup)
    (hl : k.freeList = pre ++ free :: post) (hfit : Kmem.sizeNeeded sizeofPage ≤ free.size) :
    (k.takeBlock prev free sizeofPage).room + 1 = k.room := by
  rcases takeBlock_cases prev sizeofPage hn hl with ⟨hsize, e⟩ | ⟨hsize, e⟩
  · have hone : free.size / Kmem.sizeNeeded sizeofPage = 1 := by
      simp only [Kmem.sizeNeeded, sizes] at *
      omega
    rw [e, Kmem.room, Kmem.room, hl]
    simp only [List.map_append, List.map_cons, List.sum_append, List.sum_cons, hone]
    omega
  · have hone : (free.shrink (Kmem.sizeNeeded sizeofPage)).size / Kmem.sizeNeeded sizeofPage + 1 =
        free.size / Kmem.sizeNeeded sizeofPage := by
      simp only [KmemFree.shrink, Kmem.sizeNeeded, sizes] at *
      omega
    rw [e, Kmem.room, Kmem.room, hl]
    simp only [List.map_append, List.map_cons, List.sum_append, List.sum_cons]
    omega

theorem nodup_takeBlock {size : ℕ} (hn : (k.freeList.map KmemFree.ptr).Nodup)
    (hl : k.freeList = pre ++ free :: post) :
    ((k.takeBlock prev free size).freeList.map KmemFree.ptr).Nodup := by
  rcases takeBlock_cases prev size hn hl with ⟨-, e⟩ | ⟨-, e⟩
  · rw [hl] at hn
    rw [e]
    exact hn.sublist (((List.sublist_cons_self free post).append_left pre).map _)
  · rw [hl] at hn
    rw [e]
    simpa [KmemFree.shrink] using hn

/-- The state after a request for a record has room for one record less. -/
theorem recorded_room (hn : (s.kmem.freeList.map KmemFree.ptr).Nodup)
    (hfit : s.kmem.recordFit = (prev, some free)) :
    (s.recorded prev free).kmem.room + 1 = s.kmem.room ∧
      ((s.recorded prev free).kmem.freeList.map KmemFree.ptr).Nodup := by
  obtain ⟨pre, post, hl, hsize, -, -⟩ := findFit_some hfit
  exact ⟨room_takeBlock hn hl hsize, nodup_takeBlock hn hl⟩

/-- A block has room for as many records as fit into it. -/
theorem le_room_of_fits {n : ℕ} (h : k.Fits (n * Kmem.sizeNeeded sizeofPage)) : n ≤ k.room := by
  obtain ⟨free, hfree, hsize⟩ := h
  have hdiv : n ≤ free.size / Kmem.sizeNeeded sizeofPage :=
    (Nat.le_div_iff_mul_le (by decide)).mpr hsize
  exact hdiv.trans (List.le_sum_of_mem (List.mem_map_of_mem hfree))

/-- A nested request for a record that fits. -/
theorem record_served (hfit : s.kmem.recordFit = (prev, some free)) :
    ∀ depth ≥ 2, (Kmem.kmalloc depth sizeofPage (allocFlag growthFlags)).Returns s
      (free.base + sizeofHeader) (s.recorded prev free) := by
  intro depth hdepth
  obtain ⟨depth, rfl⟩ := Nat.exists_eq_add_of_le' hdepth
  have hsearch : s.kmem.search (Kmem.sizeNeeded sizeofPage) (allocFlag growthFlags) =
      (prev, some free) := by
    rw [Kmem.search_reserved (by decide)]
    exact hfit
  rw [kmalloc_nolock (by decide), Kmem.doKmalloc, if_neg (by decide), returns_get_bind]
  simp only [Kmem.roundSize_record, hsearch, returns_set_bind]
  exact returns_pure.mpr ⟨rfl, rfl⟩

end Room

/-! ## The bump allocator -/

section Bump
variable {s t s' : Mem} {count : ℕ} {p : Page}

/-- Two runs end in the same way, with the same state of the frames. -/
def SamePage {α : Type} (x y : Except Stuck α × Mem) : Prop := x.1 = y.1 ∧ x.2.page = y.2.page

theorem SamePage.bind {α β : Type} {x y : M α} {f g : α → M β} (hx : SamePage (x s) (y t))
    (hf : ∀ a s' t', s'.page = t'.page → SamePage (f a s') (g a t')) :
    SamePage ((x >>= f) s) ((y >>= g) t) := by
  rw [Exec.bind_def, Exec.bind_def]
  rcases hxs : x s with ⟨_ | a, s'⟩ <;> rcases hyt : y t with ⟨_ | b, t'⟩ <;>
    rw [hxs, hyt] at hx <;> obtain ⟨hr, hp⟩ := hx
  · exact ⟨congrArg Except.error (Except.error.inj hr), hp⟩
  · cases hr
  · cases hr
  · obtain rfl := Except.ok.inj hr
    exact hf a s' t' hp

theorem SamePage.ite {α : Type} {c : Prop} [Decidable c] {x y x' y' : M α}
    (hx : SamePage (x s) (x' t)) (hy : SamePage (y s) (y' t)) :
    SamePage ((if c then x else y) s) ((if c then x' else y') t) := by
  split_ifs
  · exact hx
  · exact hy

theorem readMap_same (h : s.page = t.page) : SamePage (readMap s) (readMap t) := by
  rw [readMap, Exec.bind_def, Exec.bind_def]
  simp only [Exec.get, h]
  rcases t.page.memTable[t.page.currentMap]? with _ | e
  · exact ⟨rfl, h⟩
  · exact ⟨rfl, h⟩

theorem advanceMap_same (h : s.page = t.page) : SamePage (advanceMap s) (advanceMap t) :=
  ⟨rfl, by simp only [advanceMap, Exec.modify, h]⟩

theorem seekRegion_same (k : ℕ) (h : s.page = t.page) :
    SamePage (seekRegion k s) (seekRegion k t) := by
  induction k generalizing s t with
  | zero => exact ⟨rfl, h⟩
  | succ k ih =>
    refine (readMap_same h).bind fun e s t h => ?_
    change SamePage ((if _ then _ else _ : M Unit) s) ((if _ then _ else _ : M Unit) t)
    rw [h]
    exact .ite ((advanceMap_same h).bind fun _ s t h => ih h) ⟨rfl, h⟩

theorem nextRegion_same (h : s.page = t.page) : SamePage (nextRegion s) (nextRegion t) := by
  refine (advanceMap_same h).bind fun _ s t h => (seekRegion_same _ h).bind fun _ s t h => ?_
  change SamePage ((if _ then _ else _ : M Unit) s) ((if _ then _ else _ : M Unit) t)
  rw [h]
  refine .ite ⟨rfl, h⟩ ((readMap_same h).bind fun e s t h => .ite ⟨rfl, h⟩ ⟨rfl, ?_⟩)
  simp only [Exec.modify, h]

/-- The flags that `page::alloc` passes on for a growth. -/
abbrev bumpFlags : Flags := growthFlags ||| flagNolock

theorem SamePage.get {α : Type} {f g : Mem → M α} (h : SamePage (f s s) (g t t)) :
    SamePage ((Exec.get >>= f) s) ((Exec.get >>= g) t) := h

theorem SamePage.whenever {c : Bool} {x : M Unit} (h : s.page = t.page)
    (hx : SamePage (x s) (x t)) : SamePage (Cantos.whenever c x s) (Cantos.whenever c x t) := by
  cases c with
  | false => exact ⟨rfl, h⟩
  | true => exact hx

/-- The bump allocator does not look at the heap. -/
theorem bump_same (h : s.page = t.page) :
    SamePage (Page.allocNokmalloc bumpFlags count s) (Page.allocNokmalloc bumpFlags count t) := by
  refine (readMap_same h).bind fun e s t h => .get ?_
  simp only [h]
  refine SamePage.bind ⟨rfl, rfl⟩ fun _ s t h => ?_
  exact (SamePage.whenever h (nextRegion_same h)).bind fun _ s t h => ⟨rfl, h⟩

end Bump

/-! ## What a call needs -/

/-- `page::alloc` needs `records` records for `count` frames. -/
inductive Mem.Needs : (count : ℕ) → Mem → (records : ℕ) → Prop
  | done {s} : Needs 0 s 0
  /-- The first free entry is taken as it is. -/
  | whole {s count head next records} (pos : count ≠ 0)
      (entries : s.page.pageFreeHead = head :: next) (less : head.consecutive ≤ count)
      (rest : Needs (count - head.consecutive) { s with page.pageFreeHead := next } records) :
      Needs count s records
  /-- The frames are cut off the first free entry. -/
  | cut {s count head next} (pos : count ≠ 0) (entries : s.page.pageFreeHead = head :: next)
      (more : count < head.consecutive) : Needs count s 1
  /-- The bump allocator hands out a run, and more for the rest. -/
  | fresh {s count p s' records} (pos : count ≠ 0) (empty : s.page.pageFreeHead = [])
      (bump : (Page.allocNokmalloc bumpFlags count).Returns s p s')
      (rest : Needs (count - p.consecutive) s' records) : Needs count s (records + 1)
  /-- There are no more frames. -/
  | out {s count e s'} (pos : count ≠ 0) (empty : s.page.pageFreeHead = [])
      (bump : (Page.allocNokmalloc bumpFlags count).Stops s e s') : Needs count s 1

section Needs
variable {s t s' : Mem} {count records : ℕ} {p : Page} {held : List KmemHeader}
  {owned : List (ℕ × ℕ)}

/-- The bump allocator leaves the heap and the list of free frames alone. -/
theorem bump_kept (hr : (Page.allocNokmalloc bumpFlags count).Returns s p s') :
    s'.kmem = s.kmem ∧ s'.page.pageFreeHead = s.page.pageFreeHead := by
  obtain ⟨pageId, pointer, map, rfl⟩ :=
    (allocNokmalloc_returns (.inl (has_or_self (by decide))) hr).state
  exact ⟨rfl, rfl⟩

theorem bump_returns_same (h : s.page = t.page)
    (hr : (Page.allocNokmalloc bumpFlags count).Returns s p s') :
    ∃ t', (Page.allocNokmalloc bumpFlags count).Returns t p t' ∧ s'.page = t'.page := by
  obtain ⟨hres, hpage⟩ := @bump_same s t count h
  rw [hr] at hres hpage
  exact ⟨_, returns_of_fst hres.symm, hpage⟩

theorem bump_stops_same {e : Stuck} (h : s.page = t.page)
    (hr : (Page.allocNokmalloc bumpFlags count).Stops s e s') :
    ∃ t', (Page.allocNokmalloc bumpFlags count).Stops t e t' := by
  obtain ⟨hres, -⟩ := @bump_same s t count h
  rw [hr] at hres
  exact ⟨(Page.allocNokmalloc bumpFlags count t).2, Prod.ext hres.symm rfl⟩

/-- What is needed depends on the frames only. -/
theorem Mem.Needs.congr (h : s.Needs count records) (hst : s.page = t.page) :
    t.Needs count records := by
  induction h generalizing t with
  | done => exact .done
  | whole pos entries less _ ih =>
    exact .whole pos (hst ▸ entries) less (ih (by simp only [hst]))
  | cut pos entries more => exact .cut pos (hst ▸ entries) more
  | fresh pos empty bump _ ih =>
    obtain ⟨t', ht, hpage⟩ := bump_returns_same hst bump
    exact .fresh pos (hst ▸ empty) ht (ih hpage)
  | out pos empty bump =>
    obtain ⟨t', ht⟩ := bump_stops_same hst bump
    exact .out pos (hst ▸ empty) ht

/-- Without free frames a record is needed. -/
theorem Mem.Needs.ne_zero (h : s.Needs count records) (hempty : s.page.pageFreeHead = [])
    (hc : count ≠ 0) : records ≠ 0 := by
  cases h with
  | done => exact absurd rfl hc
  | whole _ entries => simp [hempty] at entries
  | cut => exact Nat.one_ne_zero
  | fresh => exact Nat.succ_ne_zero _
  | out => exact Nat.one_ne_zero

theorem bump_avoids : Avoids .diverge (Page.allocNokmalloc bumpFlags count) := by
  have hread : Avoids .diverge readMap :=
    .get fun s => by
      split
      · exact .pure _
      · exact .stop (by decide)
  have hseek : ∀ k, Avoids .diverge (seekRegion k) := by
    intro k
    induction k with
    | zero => exact .pure ()
    | succ k ih =>
      exact hread.bind fun e => .get fun s => .ite ((Avoids.modify _).bind fun _ => ih) (.pure ())
  have hnext : Avoids .diverge nextRegion :=
    (Avoids.modify _).bind fun _ => (hseek _).bind fun _ => .get fun s =>
      .ite (.stop (by decide)) (hread.bind fun e => .ite (.stop (by decide)) (.modify _))
  refine hread.bind fun e => .get fun s => (Avoids.set _).bind fun _ => ?_
  refine Avoids.bind (.ite hnext (.pure ())) fun _ => ?_
  exact (Avoids.modify _).bind fun _ => .pure _

/-- The first run of `page::alloc` for a growth. -/
def Page.first (depth count : ℕ) : List Page → M Page
  | head :: next =>
      if head.consecutive > count then do
        let ptr ← Kmem.kmalloc depth sizeofPage (allocFlag growthFlags)
        Page.cutHead ptr growthFlags count
      else do
        Exec.modify fun s => { s with page.pageFreeHead := next }
        pure { head with flags := growthFlags }
  | [] => do
      let ptr ← Kmem.kmalloc depth sizeofPage (allocFlag growthFlags)
      let staticPage ← Page.allocNokmalloc bumpFlags count
      pure { staticPage with ptr }

theorem first_fresh {prev : ℕ} {free : KmemFree} {depth : ℕ} (hdepth : 2 ≤ depth)
    (hfit : s.kmem.recordFit = (prev, some free))
    (hbump : (Page.allocNokmalloc bumpFlags count).Returns (s.recorded prev free) p s') :
    (Page.first depth count []).Returns s { p with ptr := free.base + sizeofHeader } s' :=
  returns_bind.mpr ⟨_, _, record_served hfit depth hdepth,
    returns_bind.mpr ⟨_, _, hbump, returns_pure.mpr ⟨rfl, rfl⟩⟩⟩

/-- The chain of `page::alloc` for a growth, behind its first run. -/
def Page.chain (depth count : ℕ) (newPage : Page) : M (List Page) := do
  let next ← (if newPage.consecutive < count then do
      note (.allocRest growthFlags)
      Page.alloc depth growthFlags (count - newPage.consecutive)
    else pure [])
  pure (newPage :: next)

theorem alloc_growth_eq (depth : ℕ) (hc : count ≠ 0) (s : Mem) :
    Page.alloc (depth + 1) growthFlags count s =
      (Page.first depth count s.page.pageFreeHead >>= Page.chain depth count) s := by
  have hlock : growthFlags.has flagNolock = true := by decide
  rw [Page.alloc, if_neg hc, hlock, Bool.not_true, whenever_false]
  rw [Returns.bind_eq (rfl : (pure () : M Unit).Returns s () s),
    Returns.bind_eq (rfl : Exec.get.Returns s s s)]
  cases s.page.pageFreeHead <;> rfl

theorem cutHead_avoids {ptr : ℕ} {flags : Flags} {e : Stuck} (he : .nullDeref ≠ e) :
    Avoids e (Page.cutHead ptr flags count) := by
  refine .get fun s => ?_
  split
  · exact .stop he
  · exact (Avoids.modify _).bind fun _ => (Avoids.modify _).bind fun _ => .pure _

theorem settles_chain {newPage : Page}
    (h : newPage.consecutive < count → Settles .diverge
      (fun depth => Page.alloc depth growthFlags (count - newPage.consecutive))
      { s with trace := .allocRest growthFlags :: s.trace }) :
    Settles .diverge (fun depth => Page.chain depth count newPage) s := by
  refine Settles.bind ?_ fun depth next s' _ => .of_avoids (.pure _)
  by_cases hless : newPage.consecutive < count
  · simp only [if_pos hless]
    exact .bind_step rfl (h hless)
  · simp only [if_neg hless]
    exact .of_avoids (.pure [])

/-- With room for the records that it needs, `page::alloc` ends. -/
theorem settles_alloc (h : s.Needs count records) (hst : s.page = t.page)
    (hle : records ≤ t.kmem.room) (hn : (t.kmem.freeList.map KmemFree.ptr).Nodup) :
    Settles .diverge (fun depth => Page.alloc depth growthFlags count) t := by
  induction h generalizing t with
  | done =>
    refine .succ (Settles.congr (.of_avoids (.pure [])) fun depth => ?_)
    rw [Page.alloc, if_pos rfl]
  | @whole s count head next records pos entries less _ ih =>
    refine .succ (Settles.congr ?_ fun depth => alloc_growth_eq depth pos t)
    rw [← hst, entries]
    simp only [Page.first, if_neg (Nat.not_lt.mpr less)]
    refine .bind_step rfl (settles_chain fun _ => ?_)
    exact ih (by simp only [hst]) hle hn
  | @cut s count head next pos entries more =>
    refine .succ (Settles.congr ?_ fun depth => alloc_growth_eq depth pos t)
    obtain ⟨prev, free, hfit⟩ := recordFit_of_room hle
    rw [← hst, entries]
    simp only [Page.first, if_pos more]
    refine Settles.bind (.bind_returns 2 (record_served hfit) ?_) ?_
    · exact .of_avoids (cutHead_avoids (by decide))
    intro depth p t' hp
    obtain ⟨_, _, -, hcut⟩ := returns_bind.mp hp
    obtain ⟨_, _, -, -, rfl⟩ := cutHead_returns hcut
    exact settles_chain fun hless => absurd hless (Nat.lt_irrefl count)
  | @fresh s count p s' records pos empty bump _ ih =>
    refine .succ (Settles.congr ?_ fun depth => alloc_growth_eq depth pos t)
    obtain ⟨prev, free, hfit⟩ := recordFit_of_room (Nat.lt_of_lt_of_le (Nat.succ_pos _) hle)
    obtain ⟨hroom, hnodup⟩ := recorded_room hn hfit
    obtain ⟨t', ht, hpage⟩ := @bump_returns_same _ (t.recorded prev free) _ _ _ hst bump
    obtain ⟨hkmem, -⟩ := bump_kept ht
    rw [← hst, empty]
    refine .bind_returns 2 (fun depth hdepth => first_fresh hdepth hfit ht) ?_
    refine settles_chain fun _ => ih hpage ?_ ?_
    · rw [hkmem]
      omega
    · rw [hkmem]
      exact hnodup
  | @out s count e s' pos empty bump =>
    refine .succ (Settles.congr ?_ fun depth => alloc_growth_eq depth pos t)
    obtain ⟨prev, free, hfit⟩ := recordFit_of_room hle
    obtain ⟨t', ht⟩ := @bump_stops_same _ (t.recorded prev free) _ _ _ hst bump
    rw [← hst, empty]
    simp only [Page.first]
    have hne : e ≠ .diverge := fun he => bump_avoids _ _ (he ▸ ht)
    exact .of_stops 2 (fun depth hdepth => stops_bind.mpr (.inl (stops_bind.mpr (.inr
      ⟨_, _, record_served hfit depth hdepth, stops_bind.mpr (.inl ht)⟩)))) hne

end Needs

/-! ## Where the room is short -/

/-- One frame is left to find when the first free entry has two. -/
def Page.Pair : (count : ℕ) → List Page → Prop
  | _, [] => False
  | count, head :: next =>
      if head.consecutive ≤ count then Page.Pair (count - head.consecutive) next
      else count = 1 ∧ head.consecutive = 2

/-- The records for `count` frames do not fit into the free blocks.  A pair of frames would
spare a growth for one of them the record of its own. -/
structure Mem.Lacks (count : ℕ) (s : Mem) : Prop where
  short : ∀ records ≤ s.kmem.room, ¬ s.Needs count records
  single : ¬ Page.Pair count s.page.pageFreeHead

section Lacks
variable {s : Mem} {count depth : ℕ} {newPage : Page}

theorem Mem.Lacks.ne_zero (h : s.Lacks count) : count ≠ 0 := by
  rintro rfl
  exact h.short 0 (Nat.zero_le _) .done

theorem record_stops (hroom : s.kmem.room = 0) (hn : (s.kmem.freeList.map KmemFree.ptr).Nodup)
    (hneeds : s.page.needsRecord 2) (depth : ℕ) :
    (Kmem.kmalloc depth sizeofPage (allocFlag growthFlags)).Stops s .diverge s := by
  rcases hfit : s.kmem.recordFit with ⟨prev, _ | free⟩
  · exact record_diverges hfit hneeds depth
  · obtain ⟨hone, -⟩ := recorded_room hn hfit
    omega

/-- A request for a record at the end of the depth. -/
theorem record_cut (hdepth : depth < 2) (s : Mem) :
    (Kmem.kmalloc depth sizeofPage (allocFlag growthFlags)).Stops s .diverge s := by
  obtain _ | _ | depth := depth
  · exact stops_stop.mpr ⟨rfl, rfl⟩
  · rw [kmalloc_nolock (by decide)]
    exact stops_stop.mpr ⟨rfl, rfl⟩
  · omega

theorem chain_stops {s' : Mem} (hless : newPage.consecutive < count)
    (h : (Page.alloc depth growthFlags (count - newPage.consecutive)).Stops
      { s with trace := .allocRest growthFlags :: s.trace } .diverge s') :
    (Page.chain depth count newPage).Stops s .diverge s' := by
  rw [Page.chain, if_pos hless]
  exact stops_bind.mpr (.inl (stops_bind.mpr (.inr ⟨(), _, rfl, h⟩)))

/-- The rest behind an entry that is taken as it is. -/
theorem Mem.Lacks.whole {head : Page} {next : List Page} (h : s.Lacks count)
    (entries : s.page.pageFreeHead = head :: next) (less : head.consecutive ≤ count)
    (trace : List Event) : head.consecutive < count ∧
      Mem.Lacks (count - head.consecutive) { s with page.pageFreeHead := next, trace } := by
  have hc := h.ne_zero
  obtain ⟨hshort, hsingle⟩ := h
  rw [entries, Page.Pair, if_pos less] at hsingle
  refine ⟨Nat.lt_of_le_of_ne less fun heq => ?_, fun records hle hneeds => ?_, hsingle⟩
  · refine hshort 0 (Nat.zero_le _) (.whole hc entries less ?_)
    rw [heq, Nat.sub_self]
    exact .done
  · exact hshort records hle (.whole hc entries less (hneeds.congr rfl))

/-- The rest behind a run of the bump allocator. -/
theorem Mem.Lacks.fresh {prev : ℕ} {free : KmemFree} {p : Page} {t : Mem} (h : s.Lacks count)
    (hn : (s.kmem.freeList.map KmemFree.ptr).Nodup) (empty : s.page.pageFreeHead = [])
    (hfit : s.kmem.recordFit = (prev, some free))
    (ht : (Page.allocNokmalloc bumpFlags count).Returns (s.recorded prev free) p t)
    (trace : List Event) : p.consecutive < count ∧
      Mem.Lacks (count - p.consecutive) { t with trace } := by
  have hc := h.ne_zero
  obtain ⟨hone, -⟩ := recorded_room hn hfit
  obtain ⟨s', hs', hpage⟩ := @bump_returns_same (s.recorded prev free) s _ _ _ rfl ht
  obtain ⟨hkmem, hframes⟩ := bump_kept ht
  refine ⟨Nat.lt_of_not_le fun hall => ?_, fun records hle hneeds => ?_, ?_⟩
  · refine h.short 1 (by omega) (.fresh hc empty hs' ?_)
    rw [Nat.sub_eq_zero_of_le hall]
    exact .done
  · rw [hkmem] at hle
    exact h.short (records + 1) (by omega) (.fresh hc empty hs' (hneeds.congr hpage))
  · rw [show t.page.pageFreeHead = [] from hframes.trans empty]
    exact id

/-- Without room for the records that it needs, `page::alloc` does not end. -/
theorem alloc_diverges (h : s.Lacks count) (hn : (s.kmem.freeList.map KmemFree.ptr).Nodup)
    (depth : ℕ) : ∃ s', (Page.alloc depth growthFlags count).Stops s .diverge s' := by
  induction depth generalizing s count with
  | zero => exact ⟨s, alloc_zero_diverges (by decide) h.ne_zero s⟩
  | succ depth ih =>
    have hc := h.ne_zero
    simp only [Stops, alloc_growth_eq depth hc s]
    rcases hfree : s.page.pageFreeHead with _ | ⟨head, next⟩
    · rcases Nat.eq_zero_or_pos s.kmem.room with hroom | hroom
      · have hneeds : s.page.needsRecord 2 := by simp [PageState.needsRecord, hfree]
        have hstop := record_stops hroom hn hneeds depth
        exact ⟨s, stops_bind.mpr (.inl (stops_bind.mpr (.inl hstop)))⟩
      rcases Nat.lt_or_ge depth 2 with hdepth | hdepth
      · exact ⟨s, stops_bind.mpr (.inl (stops_bind.mpr (.inl (record_cut hdepth s))))⟩
      obtain ⟨prev, free, hfit⟩ := recordFit_of_room hroom
      obtain ⟨p, t, ht⟩ | ⟨e, t, ht⟩ :=
        (Page.allocNokmalloc bumpFlags count).returns_or_stops (s.recorded prev free)
      · obtain ⟨hless, hlacks⟩ := h.fresh hn hfree hfit ht (.allocRest growthFlags :: t.trace)
        have hnodup : (t.kmem.freeList.map KmemFree.ptr).Nodup :=
          (bump_kept ht).1 ▸ (recorded_room hn hfit).2
        obtain ⟨s'', hstop⟩ := ih hlacks hnodup
        exact ⟨s'', stops_bind.mpr (.inr ⟨_, t, first_fresh hdepth hfit ht,
          chain_stops hless hstop⟩)⟩
      · obtain ⟨s', hs'⟩ := @bump_stops_same (s.recorded prev free) s _ _ _ rfl ht
        exact absurd (.out hc hfree hs') (h.short 1 hroom)
    · by_cases hmore : count < head.consecutive
      · have hroom : s.kmem.room = 0 :=
          Nat.eq_zero_of_not_pos fun hpos => h.short 1 hpos (.cut hc hfree hmore)
        have hneeds : s.page.needsRecord 2 := by
          have hsingle := h.single
          rw [hfree, Page.Pair, if_neg (Nat.not_le.mpr hmore)] at hsingle
          simp only [PageState.needsRecord, hfree, List.head?_cons, Option.mem_def,
            Option.some.injEq, forall_eq']
          omega
        have hstop := record_stops hroom hn hneeds depth
        rw [Page.first, if_pos hmore]
        exact ⟨s, stops_bind.mpr (.inl (stops_bind.mpr (.inl hstop)))⟩
      · obtain ⟨hless, hlacks⟩ :=
          h.whole hfree (Nat.le_of_not_lt hmore) (.allocRest growthFlags :: s.trace)
        obtain ⟨s', hstop⟩ := ih hlacks hn
        rw [Page.first, if_neg hmore]
        exact ⟨s', stops_bind.mpr (.inr ⟨{ head with flags := growthFlags },
          { s with page.pageFreeHead := next }, rfl, chain_stops hless hstop⟩)⟩

end Lacks

/-! ## The number of records -/

section Count
variable {s s' : Mem} {count : ℕ} {p : Page}

theorem seekRegion_le {k : ℕ} {u : Unit} (h : (seekRegion k).Returns s u s') :
    s.page.currentMap ≤ s'.page.currentMap := by
  induction k generalizing s with
  | zero =>
    obtain ⟨-, rfl⟩ := returns_pure.mp h
    exact le_rfl
  | succ k ih =>
    rw [seekRegion] at h
    obtain ⟨e, s₁, hr, hrest⟩ := returns_bind.mp h
    obtain ⟨-, rfl⟩ := readMap_returns hr
    rw [returns_get_bind] at hrest
    split_ifs at hrest with hc
    · exact (Nat.le_succ _).trans (ih (returns_modify_bind.mp hrest))
    · obtain ⟨-, rfl⟩ := returns_pure.mp hrest
      exact le_rfl

theorem nextRegion_advances {u : Unit} (h : nextRegion.Returns s u s') :
    s.page.currentMap < s'.page.currentMap ∧ s'.page.currentMap < sizeofMemTable ∧
      s'.page.allocationPointer < 2 ^ 32 := by
  obtain ⟨_, s₁, hseek, hrest⟩ := returns_bind.mp (returns_modify_bind.mp h)
  have hle := seekRegion_le hseek
  rw [returns_get_bind] at hrest
  split_ifs at hrest with hend
  · exact absurd hrest returns_stop
  obtain ⟨e, s₂, hr, hset⟩ := returns_bind.mp hrest
  obtain ⟨-, rfl⟩ := readMap_returns hr
  split_ifs at hset with hbase
  · exact absurd hset returns_stop
  · obtain rfl := returns_modify.mp hset
    dsimp only at hle ⊢
    omega

/-- The bump allocator hands out all frames, or goes on to a later region. -/
theorem bump_progress (hcount : count < 2 ^ 20)
    (hr : (Page.allocNokmalloc bumpFlags count).Returns s p s') :
    s'.page.allocationPointer < 2 ^ 32 ∧ (s.page.allocationPointer < 2 ^ 32 →
      count ≤ p.consecutive ∨
        s.page.currentMap < s'.page.currentMap ∧ s'.page.currentMap < sizeofMemTable) := by
  obtain ⟨_, s₀, hlock, hbody⟩ := returns_bind.mp hr
  obtain ⟨-, rfl⟩ := returns_pure.mp hlock
  obtain ⟨e, s₁, hmap, hrest⟩ := returns_bind.mp hbody
  obtain ⟨-, rfl⟩ := readMap_returns hmap
  rw [returns_get_bind] at hrest
  simp only [returns_set_bind] at hrest
  obtain ⟨_, s₂, hnext, hend⟩ := returns_bind.mp hrest
  rw [returns_note_bind] at hend
  obtain ⟨_, s₃, hunlock, hret⟩ := returns_bind.mp hend
  obtain ⟨-, rfl⟩ := returns_pure.mp hunlock
  obtain ⟨rfl, rfl⟩ := returns_pure.mp hret
  by_cases hfin : add32 s₁.page.allocationPointer
    (bumpSize e s₁.page.allocationPointer count) = e.finish
  · rw [whenever, if_pos (by simpa using hfin)] at hnext
    obtain ⟨hlater, hlt, hpointer⟩ := nextRegion_advances hnext
    exact ⟨hpointer, fun _ => .inr ⟨hlater, hlt⟩⟩
  · rw [whenever, if_neg (by simpa using hfin)] at hnext
    obtain ⟨-, rfl⟩ := returns_pure.mp hnext
    refine ⟨add32_lt _ _, fun hpointer => .inl ?_⟩
    have hunused : ¬ e.UsedUp s₁.page.allocationPointer count :=
      fun h => hfin ((Entry.usedUp_iff hpointer).mpr h)
    have hsize : bumpSize e s₁.page.allocationPointer count = mul32 count pageSize := if_neg hunused
    dsimp only
    rw [hsize, mul32, pageSize]
    omega

/-- Where the list of free frames is empty, a record is needed for every region at most. -/
theorem needs_regions (hcount : count < 2 ^ 20) (hempty : s.page.pageFreeHead = [])
    (hpointer : s.page.allocationPointer < 2 ^ 32) :
    ∃ records ≤ sizeofMemTable - s.page.currentMap + 1, s.Needs count records := by
  generalize hk : sizeofMemTable - s.page.currentMap = k
  induction k using Nat.strongRecOn generalizing s count with
  | _ k ih =>
    rcases Nat.eq_zero_or_pos count with rfl | hpos
    · exact ⟨0, Nat.zero_le _, .done⟩
    have hc : count ≠ 0 := Nat.ne_of_gt hpos
    obtain ⟨p, s', hr⟩ | ⟨e, s', hstop⟩ := (Page.allocNokmalloc bumpFlags count).returns_or_stops s
    · obtain ⟨hpointer', hprogress⟩ := bump_progress hcount hr
      have hempty' : s'.page.pageFreeHead = [] := (bump_kept hr).2.trans hempty
      obtain hall | ⟨hlater, hlt⟩ := hprogress hpointer
      · refine ⟨1, Nat.le_add_left _ _, .fresh hc hempty hr ?_⟩
        rw [Nat.sub_eq_zero_of_le hall]
        exact .done
      · obtain ⟨records, hle, hneeds⟩ := ih (sizeofMemTable - s'.page.currentMap) (by omega)
          (lt_of_le_of_lt (Nat.sub_le _ _) hcount) hempty' hpointer' rfl
        exact ⟨records + 1, by omega, .fresh hc hempty hr hneeds⟩
    · exact ⟨1, Nat.le_add_left _ _, .out hc hempty hstop⟩

/-- The most records that any call needs. -/
def maxRecords : ℕ := sizeofMemTable + 2

/-- A call for fewer than 2^20 frames needs few records. -/
theorem needs_le (hcount : count < 2 ^ 20) : ∃ records ≤ maxRecords, s.Needs count records := by
  generalize hfree : s.page.pageFreeHead = frames
  induction frames generalizing s count with
  | nil =>
    rcases Nat.eq_zero_or_pos count with rfl | hpos
    · exact ⟨0, Nat.zero_le _, .done⟩
    have hc : count ≠ 0 := Nat.ne_of_gt hpos
    obtain ⟨p, s', hr⟩ | ⟨e, s', hstop⟩ := (Page.allocNokmalloc bumpFlags count).returns_or_stops s
    · obtain ⟨hpointer, -⟩ := bump_progress hcount hr
      have hempty : s'.page.pageFreeHead = [] := (bump_kept hr).2.trans hfree
      obtain ⟨records, hle, hneeds⟩ :=
        needs_regions (lt_of_le_of_lt (Nat.sub_le _ p.consecutive) hcount) hempty hpointer
      refine ⟨records + 1, ?_, .fresh hc hfree hr hneeds⟩
      simp only [maxRecords]
      omega
    · exact ⟨1, by decide, .out hc hfree hstop⟩
  | cons head next ih =>
    rcases Nat.eq_zero_or_pos count with rfl | hpos
    · exact ⟨0, Nat.zero_le _, .done⟩
    have hc : count ≠ 0 := Nat.ne_of_gt hpos
    rcases Nat.lt_or_ge count head.consecutive with hmore | hless
    · exact ⟨1, by decide, .cut hc hfree hmore⟩
    · obtain ⟨records, hle, hneeds⟩ := @ih { s with page.pageFreeHead := next } _
        (lt_of_le_of_lt (Nat.sub_le _ head.consecutive) hcount) rfl
      exact ⟨records, hle, .whole hc hfree hless hneeds⟩

end Count

end Cantos
