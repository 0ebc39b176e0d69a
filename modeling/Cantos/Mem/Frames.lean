import Cantos.Lib.Steps
import Cantos.Mem.World

/-!
# Physical frames

Where the frames are that the bump allocator has handed out: in one entry of the free list,
or in one live chain.  `page::alloc` tests the first entry of the free list, asks the heap
for a record, and then cuts its frames off the entry that is first by then; when the heap
grows in between, that entry may have fewer frames than are cut off it.

A program conserves frames when the frames it leaves behind and gives to its caller are frames it
has found, has been given, or has got from the bump allocator.

## Main definitions

* `frames`, `handed`: the frames of a chain, and those the bump allocator hands out.
* `Event.fits`: what is cut off an entry is there.
* `Conserves`: programs that make no frames.
* `Frames`, `Frames.step`: calls of `page::alloc` and `page::free`.
-/

namespace Cantos

open Exec Linked

/-! ## Frames -/

/-- The frames of a run, by their addresses. -/
def runFrames (memBase consecutive : ℕ) : List ℕ :=
  (List.range consecutive).map fun i => add32 memBase (mul32 pageSize i)

def Page.frames (page : Page) : List ℕ := runFrames page.memBase page.consecutive

/-- Where a run ends. -/
def Page.runEnd (page : Page) : ℕ := page.memBase + page.consecutive * pageSize

/-- The frames of a chain. -/
def frames (l : List Page) : List ℕ := l.flatMap Page.frames

/-- The frames the bump allocator hands out. -/
def Event.handed : Event → List ℕ
  | .handOut _ memBase consecutive => runFrames memBase consecutive
  | _ => []

def handed (trace : List Event) : List ℕ := trace.flatMap Event.handed

/-- What `page::alloc` cuts off an entry of the free list is there. -/
def Event.fits : Event → Bool
  | .cut count left => count ≤ left
  | _ => true

section Count
variable {f m a b k : ℕ} {page first hold : Page} {l l' : List Page} {t t' : List Event}

@[simp] theorem frames_nil : frames [] = [] := rfl

theorem frames_cons : frames (page :: l) = page.frames ++ frames l := List.flatMap_cons

theorem length_frames (l : List Page) : (frames l).length = Page.count l := by
  induction l with
  | nil => rfl
  | cons page next ih =>
    rw [frames_cons, List.length_append, ih, Page.count, Page.frames, runFrames, List.length_map,
      List.length_range]

@[simp] theorem count_frames_cons :
    (frames (page :: l)).count f = page.frames.count f + (frames l).count f := by
  rw [frames_cons, List.count_append]

@[simp] theorem count_frames_append :
    (frames (l ++ l')).count f = (frames l).count f + (frames l').count f := by
  rw [frames, List.flatMap_append, List.count_append, ← frames, ← frames]

@[simp] theorem count_handed_append :
    (handed (t ++ t')).count f = (handed t).count f + (handed t').count f := by
  rw [handed, List.flatMap_append, List.count_append, ← handed, ← handed]

theorem runFrames_add :
    runFrames m (a + b) = runFrames m a ++ runFrames (add32 m (mul32 a pageSize)) b := by
  rw [runFrames, List.range_add, List.map_append, List.map_map, runFrames, runFrames]
  congr 1
  refine List.map_congr_left fun i _ => ?_
  simp only [Function.comp_apply, add32, mul32, sizes]
  omega

theorem count_runFrames_le (h : a ≤ b) : (runFrames m a).count f ≤ (runFrames m b).count f := by
  obtain ⟨d, rfl⟩ := Nat.exists_eq_add_of_le h
  rw [runFrames_add, List.count_append]
  exact Nat.le_add_right _ _

/-- Two entries that touch are joined to one without more frames. -/
theorem count_frames_join (h : Page.touches first hold) :
    (Page.join first hold).frames.count f ≤ first.frames.count f + hold.frames.count f := by
  have hbase : add32 first.memBase (mul32 first.consecutive pageSize) = hold.memBase :=
    beq_iff_eq.mp h
  have hle : add32 first.consecutive hold.consecutive ≤ first.consecutive + hold.consecutive :=
    Nat.mod_le _ _
  have hsum := count_runFrames_le (f := f) (m := first.memBase) hle
  rw [runFrames_add, List.count_append, hbase] at hsum
  exact hsum

/-- A run is cut in two without more frames. -/
theorem count_frames_cut (h : k ≤ a) :
    (runFrames (add32 m (mul32 k pageSize)) (sub32 a k)).count f + (runFrames m k).count f ≤
      (runFrames m a).count f := by
  have hle : sub32 a k ≤ a - k := by
    rw [sub32, Nat.sub_add_comm h, Nat.add_mod_right]
    exact Nat.mod_le _ _
  have hback := count_runFrames_le (f := f) (m := add32 m (mul32 k pageSize)) hle
  have hsum : (runFrames m (k + (a - k))).count f =
      (runFrames m k).count f +
        (runFrames (add32 m (mul32 k pageSize)) (a - k)).count f := by
    rw [runFrames_add, List.count_append]
  rw [Nat.add_sub_cancel' h] at hsum
  omega

/-- There are no more frames than fit into the physical address space. -/
theorem le_of_runFrames_nodup (h : (runFrames m a).Nodup) : a ≤ 2 ^ 20 := by
  by_contra hlt
  have hzero : 0 ∈ List.range a := List.mem_range.mpr (by omega)
  have hlast : 2 ^ 20 ∈ List.range a := List.mem_range.mpr (by omega)
  have hsame : (0 : ℕ) = 2 ^ 20 := by
    apply List.inj_on_of_nodup_map h hzero hlast
    simp only [add32, mul32, sizes]
    omega
  omega

end Count

/-! ## Conserves programs -/

/-- The bump allocator is in the memory map, and no region of it wraps. -/
def PageState.Walks (p : PageState) : Prop :=
  p.Within ∧ ∀ e ∈ p.memTable, e.base + e.length < 2 ^ 64

/-- The run of `x` from `s` makes no frames, where it cuts off no more than is there: those
in the free list and those of `given` were in the free list before or are of `taken`, or are
handed out.  It keeps the bump allocator in the memory map. -/
def ConservesAt {α : Type} (taken : List Page) (x : M α) (given : α → List Page) (s : Mem) :
    Prop :=
  ∀ a s', x.Returns s a s' → (s.page.Walks → s'.page.Walks) ∧
    ∃ new, s'.trace = new ++ s.trace ∧ (new.all Event.fits → ∀ f,
      (frames s'.page.pageFreeHead).count f + (frames (given a)).count f ≤
        (frames s.page.pageFreeHead).count f + (frames taken).count f + (handed new).count f)

def Conserves {α : Type} (taken : List Page) (x : M α) (given : α → List Page) : Prop :=
  ∀ s, ConservesAt taken x given s

section Rules
variable {α β : Type} {s : Mem} {taken taken' : List Page} {g g₁ : α → List Page}
  {g₂ : β → List Page}

theorem ConservesAt.still {x : M α} (h : ∀ a s', x.Returns s a s' →
    s'.page.pageFreeHead = s.page.pageFreeHead ∧ s'.trace = s.trace ∧
      (s.page.Walks → s'.page.Walks)) : ConservesAt [] x (fun _ => []) s := by
  intro a s' hr
  obtain ⟨hfree, htrace, hkeep⟩ := h a s' hr
  exact ⟨hkeep, [], htrace, fun _ f => by rw [hfree]; simp [handed]⟩

theorem ConservesAt.set {t : Mem} (hfree : t.page.pageFreeHead = s.page.pageFreeHead)
    (htrace : t.trace = s.trace) (hwalks : s.page.Walks → t.page.Walks) :
    ConservesAt [] (Exec.set t) (fun _ => []) s :=
  .still fun _ s' hr => by
    obtain rfl := returns_set.mp hr
    exact ⟨hfree, htrace, hwalks⟩

theorem ConservesAt.bind {x : M α} {f : α → M β} (hx : ConservesAt taken x g s)
    (hf : ∀ a, Conserves (g a) (f a) g₂) : ConservesAt taken (x >>= f) g₂ s := by
  intro b s'' hr
  obtain ⟨a, s', hx', hf'⟩ := returns_bind.mp hr
  obtain ⟨hwalks, new, htrace, hle⟩ := hx a s' hx'
  obtain ⟨hwalks', new', htrace', hle'⟩ := hf a s' b s'' hf'
  refine ⟨hwalks' ∘ hwalks, new' ++ new, by rw [htrace', htrace, List.append_assoc], fun hfits f => ?_⟩
  rw [List.all_append, Bool.and_eq_true] at hfits
  have h := hle hfits.2 f
  have h' := hle' hfits.1 f
  rw [count_handed_append]
  omega

/-- What is taken and given may be weakened on both sides. -/
theorem ConservesAt.conseq {x : M α} (hx : ConservesAt taken x g s)
    (h : ∀ a f, (frames taken).count f + (frames (g₁ a)).count f ≤
      (frames taken').count f + (frames (g a)).count f) : ConservesAt taken' x g₁ s := by
  intro a s' hr
  obtain ⟨hwalks, new, htrace, hle⟩ := hx a s' hr
  refine ⟨hwalks, new, htrace, fun hfits f => ?_⟩
  have h₁ := hle hfits f
  have h₂ := h a f
  omega

namespace Conserves

theorem bind {x : M α} {f : α → M β} (hx : Conserves taken x g)
    (hf : ∀ a, Conserves (g a) (f a) g₂) : Conserves taken (x >>= f) g₂ :=
  fun s => (hx s).bind hf

theorem conseq {x : M α} (hx : Conserves taken x g)
    (h : ∀ a f, (frames taken).count f + (frames (g₁ a)).count f ≤
      (frames taken').count f + (frames (g a)).count f) : Conserves taken' x g₁ :=
  fun s => (hx s).conseq h

/-- A program may be called with frames it does not touch. -/
theorem frame {x : M α} (hx : Conserves [] x fun _ => []) (l : List Page) :
    Conserves l x fun _ => l :=
  hx.conseq fun _ _ => by simp

theorem get {f : Mem → M α} (hf : ∀ s, ConservesAt taken (f s) g s) :
    Conserves taken (Exec.get >>= f) g := hf

/-- What is taken can be given back. -/
theorem pure (a : α) (h : ∀ f, (frames (g a)).count f ≤ (frames taken).count f) :
    Conserves taken (pure a : M α) g := fun s b s' hr => by
  obtain ⟨rfl, rfl⟩ := returns_pure.mp hr
  exact ⟨id, [], rfl, fun _ f => by have := h f; simp [handed]; omega⟩

theorem stop {e : Stuck} : Conserves taken (Exec.stop e : M α) g :=
  fun _ _ _ hr => absurd hr returns_stop

theorem modify {f : Mem → Mem} (h : ∀ s, (f s).page.pageFreeHead = s.page.pageFreeHead ∧
    (f s).trace = s.trace ∧ (s.page.Walks → (f s).page.Walks)) :
    Conserves [] (Exec.modify f) fun _ => [] := fun s => .still fun _ s' hr => by
  obtain rfl := returns_modify.mp hr
  exact h s

theorem ite {c : Prop} [Decidable c] {x y : M α} (hx : c → Conserves taken x g)
    (hy : ¬ c → Conserves taken y g) : Conserves taken (if c then x else y) g := by
  split_ifs with hc
  · exact hx hc
  · exact hy hc

theorem lock : Conserves [] mutexLock fun _ => [] :=
  .get fun s => by
    by_cases hs : s.mutex
    · rw [if_pos hs]
      exact stop s
    · rw [if_neg hs]
      exact .set rfl rfl id

theorem unlock : Conserves [] mutexUnlock fun _ => [] := .modify fun _ => ⟨rfl, rfl, id⟩

theorem whenever (c : Bool) {x : M Unit} (hx : Conserves [] x fun _ => []) :
    Conserves [] (whenever c x) fun _ => [] := by
  cases c with
  | false => exact .pure () fun _ => le_rfl
  | true => exact hx

theorem note {e : Event} (he : e.handed = []) : Conserves [] (note e) fun _ => [] := by
  intro s _ s' hr
  obtain rfl := returns_modify.mp hr
  exact ⟨id, [e], rfl, fun _ f => by simp [handed, he]⟩

end Conserves
end Rules

/-! ## Allocation -/

namespace Conserves

theorem allocNokmalloc (flags : Flags) (count : ℕ) :
    Conserves [] (Page.allocNokmalloc (flags ||| flagNolock) count) fun p => [p] := by
  intro s p s' hr
  have hb := allocNokmalloc_returns (.inl (has_or_self (by decide))) hr
  have hwithin : s.page.Walks → s'.page.Within := fun h => hb.within h.1 h.2
  obtain ⟨pageId, pointer, map, rfl⟩ := hb.state
  refine ⟨fun h => ⟨hwithin h, h.2⟩, [_], rfl, fun _ f => ?_⟩
  simp [handed, Event.handed, Page.frames]

theorem cutHead (ptr : ℕ) (flags : Flags) (count : ℕ) :
    Conserves [] (Page.cutHead ptr flags count) fun p => [p] := by
  intro s p s' hr
  obtain ⟨head, next, hl, rfl, rfl⟩ := cutHead_returns hr
  refine ⟨id, [.cut count head.consecutive], rfl, fun hfits f => ?_⟩
  have hle : count ≤ head.consecutive := by simpa [Event.fits] using hfits
  have hcut := count_frames_cut (f := f) (m := head.memBase) hle
  simp only [Mem.cut, hl, count_frames_cons, Page.frames, frames_nil, List.count_nil] at *
  omega

theorem appendRun (memBase flags k i first : ℕ) :
    Conserves [] (Page.appendRun memBase flags k i first) fun _ => [] := fun s =>
  .still fun _ s' hr => by
    obtain ⟨⟨table, cursor, rfl⟩, -⟩ := appendRun_returns hr
    exact ⟨rfl, rfl, id⟩

theorem kinstallAppend (chain : List Page) (flags : ℕ) (lock : Bool) :
    Conserves [] (Page.kinstallAppend chain flags lock) fun _ => [] := by
  induction chain generalizing lock with
  | nil => exact .stop
  | cons page next ih =>
    refine (whenever _ Conserves.lock).bind fun _ => (appendRun _ _ _ _ _).bind fun first => ?_
    refine .bind (.modify fun _ => ⟨rfl, rfl, id⟩) fun _ => (whenever _ unlock).bind fun _ => ?_
    refine .ite (fun _ => .pure first fun _ => le_rfl) fun _ => (note rfl).bind fun _ => ?_
    exact (ih true).bind fun _ => .pure first fun _ => le_rfl

theorem used (chain : List Page) (lock : Bool) :
    Conserves [] (Page.used chain lock) fun _ => [] := by
  induction chain with
  | nil => exact .stop
  | cons page next ih =>
    refine (whenever _ Conserves.lock).bind fun _ => ?_
    refine .bind (.modify fun _ => ⟨rfl, rfl, id⟩) fun _ => (whenever _ unlock).bind fun _ => ?_
    exact .ite (fun _ => .pure () fun _ => le_rfl) fun _ => ih

/-- Taking the first entry off the free list. -/
theorem popHead {s : Mem} {head : Page} {next : List Page} (flags : Flags)
    (hl : s.page.pageFreeHead = head :: next) :
    ConservesAt [] (Exec.modify (fun s => { s with page.pageFreeHead := next }) >>= fun _ =>
      (Pure.pure { head with flags } : M Page)) (fun p => [p]) s := by
  intro p s' hr
  rw [returns_modify_bind] at hr
  obtain ⟨rfl, rfl⟩ := returns_pure.mp hr
  refine ⟨id, [], rfl, fun _ f => ?_⟩
  simp only [hl, count_frames_cons, Page.frames, frames_nil, List.count_nil]
  omega

/-- A request keeps what it takes for the heap, and `page::alloc` gives its caller a chain. -/
theorem recursion (depth : ℕ) :
    (∀ size flags, Conserves [] (Kmem.doKmalloc depth size flags) fun _ => []) ∧
    (∀ size flags, Conserves [] (Kmem.kmalloc depth size flags) fun _ => []) ∧
    ∀ flags count, Conserves [] (Page.alloc depth flags count) id := by
  induction depth with
  | zero =>
    refine ⟨fun _ _ => .stop, fun _ _ => .stop, fun flags count => ?_⟩
    rw [Page.alloc]
    exact .ite (fun _ => .pure [] fun _ => le_rfl) fun _ => (whenever _ lock).bind fun _ => .stop
  | succ depth ih =>
    obtain ⟨ihDo, ihKmalloc, ihAlloc⟩ := ih
    refine ⟨fun size flags => ?_, fun size flags => ?_, fun flags count => ?_⟩
    · rw [Kmem.doKmalloc]
      refine .ite (fun _ => .pure 0 fun _ => le_rfl) fun _ => .get fun s => ?_
      rcases s.kmem.search (Kmem.sizeNeeded (Kmem.roundSize size)) flags with ⟨prev, _ | free⟩
      · -- The frames of the chain stay with the heap.
        have hchain : Conserves [] (Page.alloc depth growthFlags
            (s.kmem.pagesNeeded prev (Kmem.sizeNeeded (Kmem.roundSize size)))) fun _ => [] :=
          (ihAlloc growthFlags _).conseq fun _ _ => by simp
        refine Conserves.bind hchain (fun newPage => ?_) s
        refine (kinstallAppend newPage pageTableRw false).bind fun installedLoc => ?_
        refine .bind (.modify fun _ => ⟨rfl, rfl, id⟩) fun _ => ?_
        exact (used newPage false).bind fun _ => ihKmalloc _ _
      · exact ConservesAt.bind (.set rfl rfl id) fun _ => .pure _ fun _ => le_rfl
    · rw [Kmem.kmalloc]
      exact (whenever _ lock).bind fun _ => (ihDo size flags).bind fun ret =>
        (whenever _ unlock).bind fun _ => .pure ret fun _ => le_rfl
    · rw [Page.alloc]
      refine .ite (fun _ => .pure [] fun _ => le_rfl) fun _ => (whenever _ lock).bind fun _ => ?_
      refine .get fun s => ConservesAt.bind (g := fun p => [p]) ?_ fun newPage => ?_
      · rcases hl : s.page.pageFreeHead with _ | ⟨head, next⟩
        · exact (ihKmalloc _ _).bind (fun ptr => (allocNokmalloc flags count).bind
            fun staticPage => .pure _ fun _ => by simp [Page.frames]) s
        · by_cases hmore : head.consecutive > count
          · simp only [if_pos hmore]
            exact (ihKmalloc _ _).bind (fun ptr => cutHead ptr flags count) s
          · simp only [if_neg hmore]
            exact popHead flags hl
      · refine .bind (g := fun next => newPage :: next) ?_ fun next => ?_
        · refine .ite (fun _ => ?_) fun _ => .pure [] fun _ => le_rfl
          refine ((note rfl).frame [newPage]).bind fun _ => ?_
          exact (ihAlloc flags _).conseq fun _ _ => by simp [Nat.add_comm]
        · exact ((whenever _ unlock).frame (newPage :: next)).bind fun _ =>
            .pure _ fun _ => le_rfl

theorem kmalloc (depth size : ℕ) (flags : Flags) :
    Conserves [] (Kmem.kmalloc depth size flags) fun _ => [] := (recursion depth).2.1 size flags

theorem alloc (depth : ℕ) (flags : Flags) (count : ℕ) :
    Conserves [] (Page.alloc depth flags count) id := (recursion depth).2.2 flags count

end Conserves

/-! ## Freeing -/

namespace Conserves

theorem getStruct (depth : ℕ) : Conserves [] (Kmem.getStruct depth) fun _ => [] := by
  refine .get fun s => ?_
  rcases s.kmem.freeFreeStructs with _ | ⟨hold, next⟩
  · exact kmalloc depth sizeofFree (kmallocReserved ||| kmallocNolock) s
  · exact ConservesAt.bind (.set rfl rfl id) fun _ => .pure _ fun _ => le_rfl

theorem kfreeNolock (depth ptr : ℕ) : Conserves [] (Kmem.kfreeNolock depth ptr) fun _ => [] := by
  refine .ite (fun _ => .pure () fun _ => le_rfl) fun _ => .get fun s => ?_
  split
  · exact stop s
  · refine Conserves.ite (fun _ => .stop) (fun _ => .ite (fun _ => .stop) fun _ => ?_) s
    refine .bind (.modify fun _ => ⟨rfl, rfl, id⟩) fun _ => ?_
    exact (getStruct depth).bind fun _ => .modify fun _ => ⟨rfl, rfl, id⟩

theorem create (depth base : ℕ) (flags : Flags) (count : ℕ) :
    Conserves [] (Page.create depth base flags count) fun _ => [] := by
  refine lock.bind fun _ => (kmalloc _ _ _).bind fun write => .get fun s => ?_
  exact ConservesAt.bind (.set rfl rfl id) fun _ => unlock.bind fun _ =>
    .pure _ fun _ => le_rfl

/-- The free list changes without more frames, and a record is freed. -/
theorem freeRecord {s : Mem} {l : List Page} {taken : List Page} (depth ptr : ℕ)
    (h : ∀ f, (frames l).count f ≤
      (frames s.page.pageFreeHead).count f + (frames taken).count f) :
    ConservesAt taken (Exec.set { s with page.pageFreeHead := l } >>= fun _ =>
      Kmem.kfreeNolock depth ptr) (fun _ => []) s := by
  intro u s' hr
  rw [returns_set_bind] at hr
  obtain ⟨hwalks, new, htrace, hle⟩ := kfreeNolock depth ptr _ u s' hr
  refine ⟨hwalks, new, htrace, fun hfits f => ?_⟩
  have h₁ := hle hfits f
  have h₂ := h f
  simp only [frames_nil, List.count_nil] at *
  omega

theorem mergeFree (depth first : ℕ) : Conserves [] (Page.mergeFree depth first) fun _ => [] := by
  refine .get fun s => ?_
  rcases hfree : joinNext Page.ptr Page.touches Page.join first s.page.pageFreeHead with
    _ | ⟨l, hold⟩
  · rcases joinNext Page.ptr Page.touches Page.join first s.page.usedStart with _ | ⟨l, hold⟩
    · exact Conserves.pure () (fun _ => le_rfl) s
    · exact ConservesAt.bind (.set rfl rfl id) fun _ => kfreeNolock depth hold.ptr
  · obtain ⟨pre, x, post, hl, -, ht, rfl⟩ := joinNext_eq_some hfree
    refine freeRecord depth hold.ptr fun f => ?_
    have hjoin := count_frames_join (f := f) ht
    simp only [hl, count_frames_append, count_frames_cons]
    omega

theorem freeRun (depth : ℕ) (page : Page) :
    Conserves [page] (Page.freeRun depth page) fun _ => [] := by
  refine .get fun s => ?_
  refine ConservesAt.bind (g := fun _ => []) ?_ fun _ => (mergeFree depth page.ptr).bind
    fun _ => .ite (fun _ => .pure () fun _ => le_rfl) fun _ => mergeFree depth _
  intro u s' hr
  obtain rfl := returns_set.mp hr
  refine ⟨id, [], rfl, fun _ f => ?_⟩
  have hl := List.takeWhile_append_dropWhile (l := s.page.pageFreeHead)
    (p := fun now => decide (now.memBase < page.memBase))
  have hcount := congrArg (fun l => (frames l).count f) hl
  simp only [count_frames_append, count_frames_cons, frames_nil, List.count_nil] at *
  omega

theorem free (depth : ℕ) (chain : List Page) :
    Conserves chain (Page.free depth chain) fun _ => [] := by
  induction chain with
  | nil => exact .pure () fun _ => le_rfl
  | cons page next ih =>
    have hnext : Conserves (page :: next)
        (if next.isEmpty then Pure.pure () else Page.free depth next) fun _ => [page] := by
      refine .ite (fun _ => .pure () fun _ => by simp) fun _ => ih.conseq fun _ _ => ?_
      simp [Nat.add_comm]
    refine Conserves.bind hnext fun _ => (lock.frame [page]).bind fun _ => ?_
    exact (freeRun depth page).bind fun _ => unlock

end Conserves

end Cantos
