import Cantos.Mem.Frames

/-!
# What is cut off the free list

`page::alloc` cuts frames off an entry of the free list behind the request for a record.  Where
a free block serves the request, the entry is the one that was tested, and has the frames.  The
growths of the heap cut their frames off behind such requests only, and so do the calls that ask
for no frames: for a growth that finds no block for its record there is no end.

## Main definitions

* `Mem.CutsRight`: what was cut off between two states was there.
* `Cuts`: programs that cut off what is there.
* `Mem.Serves`: there is a block for the record, where `page::alloc` cuts.
-/

namespace Cantos

open Exec Linked

/-- What a run from `s` to `s'` has cut off entries of the free list was there. -/
def Mem.CutsRight (s s' : Mem) : Prop := ∃ new, s'.trace = new ++ s.trace ∧ new.all Event.fits

namespace Mem.CutsRight
variable {s s' s'' : Mem} {e : Event}

theorem of_trace (h : s'.trace = s.trace) : s.CutsRight s' := ⟨[], h, rfl⟩

theorem event (h : s'.trace = e :: s.trace) (he : e.fits = true) : s.CutsRight s' :=
  ⟨[e], h, by simpa using he⟩

theorem trans (h : s.CutsRight s') (h' : s'.CutsRight s'') : s.CutsRight s'' := by
  obtain ⟨new, htrace, hfits⟩ := h
  obtain ⟨new', htrace', hfits'⟩ := h'
  refine ⟨new' ++ new, by rw [htrace', htrace, List.append_assoc], ?_⟩
  rw [List.all_append, hfits, hfits', Bool.and_self]

/-- The events between two states are known by their traces. -/
theorem all_fits (h : s.CutsRight s') {new : List Event} (hnew : s'.trace = new ++ s.trace) :
    new.all Event.fits := by
  obtain ⟨new', htrace, hfits⟩ := h
  rwa [List.append_cancel_right (hnew.symm.trans htrace)]

end Mem.CutsRight

/-! ## Requests for memory -/

section Requests
variable {n size r depth : ℕ} {flags : Flags} {page : Page} {s s' : Mem}

/-- The run for a growth is cut off an entry that is longer. -/
theorem Gets.cutsRight (h : Gets n s page s') : s.CutsRight s' := by
  cases h with
  | @fresh prev free p s' empty fit bump enough =>
    obtain ⟨pageId, pointer, map, rfl⟩ := bump.state
    exact .event rfl rfl
  | @cut prev free head next entries more fit =>
    exact .event (e := .cut n head.consecutive) rfl (by simpa [Event.fits] using more.le)
  | whole => exact .of_trace rfl

theorem Gets.empty (h : Gets n s page s') (hs : s.page.pageFreeHead = []) :
    s'.page.pageFreeHead = [] := by
  cases h with
  | fresh empty fit bump enough =>
    obtain ⟨pageId, pointer, map, rfl⟩ := bump.state
    exact hs
  | cut entries => cases hs.symm.trans entries
  | whole entries => cases hs.symm.trans entries

theorem Grants.cutsRight (h : Grants size flags s r s') : s.CutsRight s' := by
  induction h with
  | served => exact .of_trace rfl
  | grown fit gets loc_eq room rest ih =>
    exact gets.cutsRight.trans ih

theorem Grants.empty (h : Grants size flags s r s') (hs : s.page.pageFreeHead = []) :
    s'.page.pageFreeHead = [] := by
  induction h with
  | served => exact hs
  | grown fit gets loc_eq room rest ih => exact ih (gets.empty hs)

theorem kmalloc_cutsRight (hr : (Kmem.kmalloc depth size flags).Returns s r s')
    (hs : s.mutex = flags.has kmallocNolock) : s.CutsRight s' := by
  rcases kmalloc_returns hs hr with ⟨-, -, rfl⟩ | ⟨-, s₁, hgrants, rfl⟩
  · exact .of_trace rfl
  · have hcuts := hgrants.cutsRight
    exact hcuts

end Requests

/-! ## Programs -/

/-- A run of `x`, entered with the lock in the state `p`, cuts off only what is there. -/
def Cuts {α : Type} (p : Bool) (x : M α) : Prop :=
  ∀ s, s.mutex = p → ∀ a s', x.Returns s a s' → s.CutsRight s'

namespace Cuts
variable {α β : Type} {p q : Bool}

/-- How the first part leaves the lock, the second finds it. -/
theorem bind {x : M α} {f : α → M β} (hx : Cuts p x) (hq : Locks p q x)
    (hf : ∀ a, Cuts q (f a)) : Cuts p (x >>= f) := by
  intro s hs b s'' hr
  obtain ⟨a, s', hx', hf'⟩ := returns_bind.mp hr
  exact (hx s hs a s' hx').trans (hf a s' (hq.returns hx' hs) b s'' hf')

theorem quiet {x : M α} (h : ∀ s a s', x.Returns s a s' → s'.trace = s.trace) : Cuts p x :=
  fun s _ a s' hr => .of_trace (h s a s' hr)

theorem pure (a : α) : Cuts p (pure a : M α) := .quiet fun _ _ _ hr => by
  obtain ⟨-, rfl⟩ := returns_pure.mp hr
  rfl

theorem stop {e : Stuck} : Cuts p (Exec.stop e : M α) := .quiet fun _ _ _ hr =>
  absurd hr returns_stop

theorem modify {f : Mem → Mem} (hf : ∀ s, (f s).trace = s.trace) : Cuts p (Exec.modify f) :=
  .quiet fun s _ _ hr => by
    obtain rfl := returns_modify.mp hr
    exact hf s

/-- After reading the state, the run goes on from the state that was read. -/
theorem get {f : Mem → M α} (hf : ∀ s, s.mutex = p → ∀ a s', (f s).Returns s a s' →
    s.CutsRight s') : Cuts p (Exec.get >>= f) := hf

theorem ite {c : Prop} [Decidable c] {x y : M α} (hx : Cuts p x) (hy : Cuts p y) :
    Cuts p (if c then x else y) := by
  split_ifs
  · exact hx
  · exact hy

theorem lock : Cuts p mutexLock := .quiet fun s _ _ hr => by
  rw [mutexLock, returns_get_bind] at hr
  split_ifs at hr
  · exact absurd hr returns_stop
  · obtain rfl := returns_set.mp hr
    rfl

theorem unlock : Cuts p mutexUnlock := .modify fun _ => rfl

theorem kmalloc (depth size : ℕ) (flags : Flags) :
    Cuts (flags.has kmallocNolock) (Kmem.kmalloc depth size flags) :=
  fun _ hs _ _ hr => kmalloc_cutsRight hr hs

theorem getStruct (depth : ℕ) : Cuts true (Kmem.getStruct depth) := by
  refine .get fun s hs => ?_
  rcases s.kmem.freeFreeStructs with _ | ⟨hold, next⟩
  · exact kmalloc depth sizeofFree (kmallocReserved ||| kmallocNolock) s hs
  · intro a s' hr
    simp only [returns_set_bind] at hr
    obtain ⟨-, rfl⟩ := returns_pure.mp hr
    exact .of_trace rfl

theorem kfreeNolock (depth ptr : ℕ) : Cuts true (Kmem.kfreeNolock depth ptr) := by
  refine .ite (.pure ()) (.get fun s hs => ?_)
  split
  · exact Cuts.stop s hs
  · refine Cuts.ite .stop (.ite .stop ?_) s hs
    refine .bind (.modify fun _ => rfl) (.modify (fun _ => rfl) fun _ => rfl) fun _ => ?_
    exact (getStruct depth).bind (locks_getStruct depth) fun _ => .modify fun _ => rfl

theorem create (depth base : ℕ) (flags : Flags) (count : ℕ) :
    Cuts false (Page.create depth base flags count) := by
  refine lock.bind Locks.lock fun _ => ?_
  have hrecord := kmalloc depth sizeofPage (kmallocReserved ||| kmallocNolock)
  refine hrecord.bind (locks_kmalloc _ _ _) fun write => .get fun s hs a s' hr => ?_
  rw [returns_set_bind] at hr
  obtain ⟨_, s₁, hunlock, hret⟩ := returns_bind.mp hr
  obtain rfl := returns_modify.mp hunlock
  obtain ⟨-, rfl⟩ := returns_pure.mp hret
  exact .of_trace rfl

/-- A record is taken off its list and freed. -/
theorem freeRecord {depth ptr : ℕ} {s t : Mem} (ht : t.mutex = true) (htrace : t.trace = s.trace) :
    ∀ a s', (Exec.set t >>= fun _ => Kmem.kfreeNolock depth ptr).Returns s a s' →
      s.CutsRight s' := by
  intro a s' hr
  have hfree := kfreeNolock depth ptr t ht a s' (returns_set_bind.mp hr)
  exact (Mem.CutsRight.of_trace htrace).trans hfree

theorem mergeFree (depth first : ℕ) : Cuts true (Page.mergeFree depth first) := by
  refine .get fun s hs => ?_
  rcases joinNext Page.ptr Page.touches Page.join first s.page.pageFreeHead with _ | ⟨l, hold⟩
  · rcases joinNext Page.ptr Page.touches Page.join first s.page.usedStart with _ | ⟨l, hold⟩
    · exact Cuts.pure () s hs
    · exact freeRecord hs rfl
  · exact freeRecord hs rfl

theorem freeRun (depth : ℕ) (page : Page) : Cuts true (Page.freeRun depth page) := by
  refine .get fun s hs a s' hr => ?_
  obtain ⟨_, s₁, hset, hr⟩ := returns_bind.mp hr
  obtain rfl := returns_set.mp hset
  obtain ⟨_, s₂, hmerge, hr⟩ := returns_bind.mp hr
  have hcuts := mergeFree depth page.ptr _ (by exact hs) _ _ hmerge
  have hs₂ := (locks_mergeFree depth page.ptr).returns hmerge (by exact hs)
  split_ifs at hr
  · obtain ⟨-, rfl⟩ := returns_pure.mp hr
    exact hcuts
  · exact Mem.CutsRight.trans hcuts (mergeFree depth _ _ hs₂ _ _ hr)

theorem free (depth : ℕ) (chain : List Page) : Cuts false (Page.free depth chain) := by
  induction chain with
  | nil => exact .pure ()
  | cons page next ih =>
    have hcuts : Cuts false (if next.isEmpty then Pure.pure () else Page.free depth next) :=
      .ite (.pure ()) ih
    have hlocks : Locks false false (if next.isEmpty then Pure.pure () else Page.free depth next) :=
      .ite (fun _ => .pure ()) fun _ => locks_free depth next
    refine hcuts.bind hlocks fun _ => lock.bind Locks.lock fun _ => ?_
    exact (freeRun depth page).bind (locks_freeRun depth page) fun _ => unlock

end Cuts

/-! ## Allocation -/

/-- The walk of `page::alloc` over the free list for `count` frames ends inside an entry. -/
def Page.EndsInside : (count : ℕ) → List Page → Prop
  | _, [] => False
  | count, head :: next =>
      0 < count ∧ (count < head.consecutive ∨ EndsInside (count - head.consecutive) next)

/-- The decision goes along the list. -/
def decidableEndsInside : (count : ℕ) → (l : List Page) → Decidable (Page.EndsInside count l)
  | _, [] => inferInstanceAs (Decidable False)
  | count, head :: next =>
      have := decidableEndsInside (count - head.consecutive) next
      inferInstanceAs (Decidable (0 < count ∧
        (count < head.consecutive ∨ Page.EndsInside (count - head.consecutive) next)))

instance (count : ℕ) : DecidablePred (Page.EndsInside count) := decidableEndsInside count

/-- Where `page::alloc` cuts frames off an entry, a free block serves the request for the
record. -/
def Mem.Serves (s : Mem) (flags : Flags) (count : ℕ) : Prop :=
  Page.EndsInside count s.page.pageFreeHead →
    (s.kmem.search (Kmem.sizeNeeded sizeofPage) (allocFlag flags)).2.isSome

instance (s : Mem) (flags : Flags) : DecidablePred (s.Serves flags) := fun _ =>
  inferInstanceAs (Decidable (_ → _))

section Alloc
variable {depth count ptr : ℕ} {flags : Flags} {chain next : List Page} {head : Page} {s s' : Mem}

/-- A request for a record that a free block serves leaves the free list alone. -/
theorem record_served_page (hr : (Kmem.kmalloc depth sizeofPage (allocFlag flags)).Returns s ptr s')
    (hs : s.mutex = true)
    (h : (s.kmem.search (Kmem.sizeNeeded sizeofPage) (allocFlag flags)).2.isSome) :
    s'.page = s.page ∧ s'.trace = s.trace := by
  have hheld := hs.trans (allocFlag_has_nolock flags).symm
  rcases kmalloc_returns hheld hr with ⟨hsize, -⟩ | ⟨-, s₁, hgrants, rfl⟩
  · exact absurd hsize (by decide)
  · rw [Kmem.roundSize_record] at hgrants
    cases hgrants with
    | served => exact ⟨rfl, rfl⟩
    | grown fit =>
      change (s.kmem.search _ _) = _ at fit
      rw [fit] at h
      cases h

/-- An empty free list stays empty. -/
theorem record_empty (hr : (Kmem.kmalloc depth sizeofPage (allocFlag flags)).Returns s ptr s')
    (hs : s.mutex = true) (h : s.page.pageFreeHead = []) : s'.page.pageFreeHead = [] := by
  have hheld := hs.trans (allocFlag_has_nolock flags).symm
  rcases kmalloc_returns hheld hr with ⟨-, -, rfl⟩ | ⟨-, s₁, hgrants, rfl⟩
  · exact h
  · have hempty := hgrants.empty h
    exact hempty

/-- The first run, and what is to be said of the rest of the chain. -/
theorem FirstRun.cutsRight {page : Page} (h : FirstRun depth flags count s page s')
    (hs : s.mutex = true) (hc : count ≠ 0) (hserves : s.Serves flags count) :
    s.CutsRight s' ∧ (page.consecutive < count → s'.Serves flags (count - page.consecutive)) := by
  have hheld := hs.trans (allocFlag_has_nolock flags).symm
  cases h with
  | @fresh ptr t p _ empty record bump =>
    have hempty := record_empty record hs empty
    have hrecord := kmalloc_cutsRight record hheld
    obtain ⟨pageId, pointer, map, rfl⟩ := bump.state
    refine ⟨hrecord.trans (.event rfl rfl), fun _ hends => ?_⟩
    simp only [hempty] at hends
    exact hends.elim
  | @cut ptr t head head' next next' entries more record left =>
    have hends : Page.EndsInside count s.page.pageFreeHead := by
      rw [entries]
      exact ⟨Nat.pos_of_ne_zero hc, .inl more⟩
    obtain ⟨hpage, htrace⟩ := record_served_page record hs (hserves hends)
    rw [hpage, entries] at left
    obtain ⟨rfl, rfl⟩ := List.cons.inj left
    refine ⟨.event (e := .cut count head.consecutive) ?_ ?_, fun hless => ?_⟩
    · exact congrArg _ htrace
    · simpa [Event.fits] using more.le
    · exact absurd hless (lt_irrefl _)
  | whole entries less =>
    refine ⟨.of_trace rfl, fun hless hends => hserves ?_⟩
    rw [entries]
    exact ⟨Nat.pos_of_ne_zero hc, .inr hends⟩

/-- `page::alloc` cuts frames off the entry that it has tested. -/
theorem alloc_cutsRight (hr : (Page.alloc depth flags count).Returns s chain s')
    (hs : s.mutex = flags.has flagNolock) (hserves : s.Serves flags count) : s.CutsRight s' := by
  induction depth generalizing count s s' chain with
  | zero =>
    obtain ⟨-, rfl⟩ := alloc_zero_returns hr
    exact .of_trace rfl
  | succ depth ih =>
    by_cases hc : count = 0
    · rw [hc, Page.alloc, if_pos rfl] at hr
      obtain ⟨-, rfl⟩ := returns_pure.mp hr
      exact .of_trace rfl
    obtain ⟨s₀, page, s₁, next, s₂, hlock, hfirst, hrest, hunlock, rfl⟩ := alloc_returns hc hr
    obtain rfl := lockUnless_returns hs hlock
    have hs₁ := hfirst.mutex rfl
    obtain ⟨hcuts, hleft⟩ := hfirst.cutsRight rfl hc hserves
    have h₂ : Mem.CutsRight s s₂ ∧ s₂.mutex = true := by
      rcases hrest with ⟨-, -, rfl⟩ | ⟨hless, hrest⟩
      · exact ⟨hcuts, hs₁⟩
      · by_cases hf : flags.has flagNolock
        · have hnext := ih hrest (hs₁.trans hf.symm) (hleft hless)
          have hnote : s₁.CutsRight { s₁ with trace := .allocRest flags :: s₁.trace } :=
            .event rfl rfl
          refine ⟨(Mem.CutsRight.trans hcuts hnote).trans hnext, ?_⟩
          exact ((locks_alloc depth flags _).returns hrest (hs₁.trans hf.symm)).trans hf
        · exact absurd hrest (not_returns_alloc (by simpa using hf) (by omega) hs₁)
    obtain rfl := unlockUnless_returns h₂.2 hunlock
    exact h₂.1

end Alloc

end Cantos
