import Cantos.Mem.Init

/-!
# The memory lock

`kmem::mutex` is not recursive, and which function holds it is a convention passed
along in flags and default arguments.  `Locks p q x` is the triple of that
convention: entered with the lock in the state `p`, a run of `x` leaves it in the
state `q`, and it locks a lock that is already held only behind one of two calls,
which it records: the call of `page::alloc` for the rest of a chain, which takes the
lock again unless `FLAG_NOLOCK` is set, and the call of `kinstall_append` for the
rest of a chain, which always does.

## Main definitions

* `Call`: the calls of the interface, and the state each one is to be entered in.
* `Event.harmful`: the two calls above.
* `Locks`: the triple, with a rule for every construct and every function.

## Main results

* `locks_exec`: every call follows the convention.
* `keepsLock_iff`: a call locks a lock it holds exactly where it makes one of the two calls.
-/

namespace Cantos

open Linked

/-- A call of an interface function. -/
inductive Call
  | kmalloc (size : ℕ) (flags : Flags)
  | kfree (ptr : ℕ)
  | kfreeNolock (ptr : ℕ)
  | alloc (flags : Flags) (count : ℕ)
  | create (base : ℕ) (flags : Flags) (count : ℕ)
  | free (page : List Page)
  | used (page : List Page) (lock : Bool)
  | kinstall (page : List Page) (pageFlags : ℕ)
  | kinstallAppend (page : List Page) (pageFlags : ℕ) (lock : Bool)
  | kuninstall (base : ℕ) (page : List Page)

/-- What a call returns. -/
inductive Reply
  | void
  | pointer (ptr : ℕ)
  | chain (page : List Page)
  deriving DecidableEq, Repr

/-- Run a call. -/
def Call.exec (depth : ℕ) : Call → M Reply
  | .kmalloc size flags => do pure (.pointer (← Kmem.kmalloc depth size flags))
  | .kfree ptr => do Kmem.kfree depth ptr; pure .void
  | .kfreeNolock ptr => do Kmem.kfreeNolock depth ptr; pure .void
  | .alloc flags count => do pure (.chain (← Page.alloc depth flags count))
  | .create base flags count => do pure (.chain (← Page.create depth base flags count))
  | .free page => do Page.free depth page; pure .void
  | .used page lock => do Page.used page lock; pure .void
  | .kinstall page pageFlags => do pure (.pointer (← Page.kinstall depth page pageFlags))
  | .kinstallAppend page pageFlags lock => do
      pure (.pointer (← Page.kinstallAppend page pageFlags lock))
  | .kuninstall base page => do Page.kuninstall depth base page; pure .void

/-- Whether the caller is to hold the lock. -/
def Call.held : Call → Bool
  | .kmalloc _ flags => flags.has kmallocNolock
  | .alloc flags _ => flags.has flagNolock
  | .kfreeNolock _ => true
  | .used _ lock => !lock
  | .kinstallAppend _ _ lock => !lock
  | _ => false

/-- A call for the rest of a chain that takes the lock its caller holds. -/
def Event.harmful : Event → Bool
  | .allocRest flags => !flags.has flagNolock
  | .appendRest lock => !lock
  | _ => false

/-- The run of `x` from `s` leaves the lock in the state `q` when it returns, and it
stops at a held lock exactly when it makes a harmful call. -/
def LocksAt {α : Type} (q : Bool) (x : M α) (s : Mem) : Prop :=
  ∃ new, (x s).2.trace = new ++ s.trace ∧
    ((x s).1 = .error .deadlock ↔ ∃ e ∈ new, e.harmful) ∧
    ∀ a, (x s).1 = .ok a → (x s).2.mutex = q

/-- Every run of `x` entered with the lock in the state `p` does so. -/
def Locks {α : Type} (p q : Bool) (x : M α) : Prop := ∀ s, s.mutex = p → LocksAt q x s

/-- The events a run from `s` to `s'` records. -/
def newEvents (s s' : Mem) : List Event := s'.trace.take (s'.trace.length - s.trace.length)

theorem newEvents_eq {s s' : Mem} {new : List Event} (h : s'.trace = new ++ s.trace) :
    newEvents s s' = new := by
  rw [newEvents, h, List.length_append, Nat.add_sub_cancel, List.take_left]

/-! ## Rules -/

section Rules
variable {α β : Type} {p q r : Bool} {s : Mem}

/-- A step that leaves the trace alone and does not stop at a lock. -/
theorem LocksAt.quiet {x : M α} (ht : (x s).2.trace = s.trace) (hd : (x s).1 ≠ .error .deadlock)
    (hm : ∀ a, (x s).1 = .ok a → (x s).2.mutex = q) : LocksAt q x s :=
  ⟨[], ht, by simpa using hd, hm⟩

theorem LocksAt.set {t : Mem} (ht : t.trace = s.trace) (hm : t.mutex = q) :
    LocksAt q (Exec.set t) s := .quiet ht nofun fun _ _ => hm

theorem LocksAt.bind {x : M α} {f : α → M β} (hx : LocksAt q x s) (hf : ∀ a, Locks q r (f a)) :
    LocksAt r (x >>= f) s := by
  obtain ⟨new, ht, hd, hq⟩ := hx
  rcases hr : x s with ⟨_ | a, s'⟩
  · rw [hr] at ht hd
    rw [LocksAt, Exec.bind_def, hr]
    exact ⟨new, ht, by simpa using hd, nofun⟩
  · rw [hr] at ht hd hq
    rw [LocksAt, Exec.bind_def, hr]
    obtain ⟨new', ht', hd', hq'⟩ := hf a s' (hq a rfl)
    refine ⟨new' ++ new, ?_, ?_, hq'⟩
    · rw [ht', ht, List.append_assoc]
    · have hnew : ¬ ∃ e ∈ new, e.harmful := hd.not.mp nofun
      simp only [hd', List.mem_append, or_and_right, exists_or, hnew, or_false]

namespace Locks

theorem bind {x : M α} {f : α → M β} (hx : Locks p q x) (hf : ∀ a, Locks q r (f a)) :
    Locks p r (x >>= f) := fun s hs => (hx s hs).bind hf

/-- After reading the state, the run goes on from the state that was read. -/
theorem get {f : Mem → M α} (hf : ∀ s, s.mutex = p → LocksAt q (f s) s) :
    Locks p q (Exec.get >>= f) := hf

theorem pure (a : α) : Locks p p (pure a : M α) := fun _ hs => .quiet rfl nofun fun _ _ => hs

theorem stop {e : Stuck} (he : e ≠ .deadlock) : Locks p q (Exec.stop e : M α) :=
  fun _ _ => .quiet rfl (by simpa [Exec.stop] using he) nofun

theorem modify {f : Mem → Mem} (ht : ∀ s, (f s).trace = s.trace)
    (hm : ∀ s, (f s).mutex = s.mutex) : Locks p p (Exec.modify f) :=
  fun s hs => .quiet (ht s) nofun fun _ _ => (hm s).trans hs

theorem note {e : Event} (he : e.harmful = false) : Locks p p (note e) := by
  intro s hs
  refine ⟨[e], rfl, ?_, fun _ _ => hs⟩
  simp [Cantos.note, Exec.modify, he]

theorem ite {c : Prop} [Decidable c] {x y : M α} (hx : c → Locks p q x)
    (hy : ¬ c → Locks p q y) : Locks p q (if c then x else y) := by
  by_cases hc : c
  · rw [if_pos hc]; exact hx hc
  · rw [if_neg hc]; exact hy hc

theorem when (c : Bool) {x : M Unit} (hx : Locks p p x) : Locks p p (whenever c x) :=
  ite (fun _ => hx) fun _ => pure ()

theorem lock : Locks false true mutexLock :=
  get fun s hs => by rw [if_neg (by simp [hs])]; exact .set rfl rfl

theorem unlock : Locks p false mutexUnlock := fun _ _ => .quiet rfl nofun fun _ _ => rfl

/-- A step that takes the lock unless the caller holds it. -/
theorem lockUnless (held : Bool) : Locks held true (whenever (!held) mutexLock) := by
  cases held with
  | false => exact lock
  | true => exact pure ()

/-- A step that gives the lock back unless the caller holds it. -/
theorem unlockUnless (held : Bool) : Locks true held (whenever (!held) mutexUnlock) := by
  cases held with
  | false => exact unlock
  | true => exact pure ()

/-- A harmful call, made with the lock held, stops at the lock. -/
theorem harm {e : Event} {x : M α} (he : e.harmful)
    (hx : ∀ s : Mem, s.mutex = true → x.Stops s .deadlock s) :
    Locks true q (Cantos.note e >>= fun _ => x) := by
  intro s hs
  have h := hx { s with trace := e :: s.trace } hs
  refine ⟨[e], ?_, ?_, ?_⟩ <;>
    simp [Exec.bind_def, Cantos.note, Exec.modify, show x _ = _ from h, he]

theorem returns {x : M α} {a : α} {s' : Mem} (h : Locks p q x) (hr : x.Returns s a s')
    (hs : s.mutex = p) : s'.mutex = q := by
  obtain ⟨_, -, -, hm⟩ := h s hs
  rw [Exec.Returns] at hr
  rw [hr] at hm
  exact hm a rfl

end Locks

theorem mutexLock_stops (h : s.mutex = true) : mutexLock.Stops s .deadlock s := by
  simp [mutexLock, Exec.Stops, Exec.bind_def, Exec.get, Exec.stop, h]

end Rules

/-! ## Functions that do not call the heap -/

section Functions
variable {p : Bool}

theorem locks_readMap : Locks p p readMap := .get fun s hs => by
  rcases s.page.memTable[s.page.currentMap]? with _ | e
  · exact Locks.stop (by decide) s hs
  · exact Locks.pure e s hs

theorem locks_advanceMap : Locks p p advanceMap := .modify (fun _ => rfl) fun _ => rfl

theorem locks_seekRegion (k : ℕ) : Locks p p (seekRegion k) := by
  induction k with
  | zero => exact .pure ()
  | succ k ih =>
    refine locks_readMap.bind fun e => .get fun s hs => ?_
    exact Locks.ite (fun _ => locks_advanceMap.bind fun _ => ih) (fun _ => .pure ()) s hs

theorem locks_nextRegion : Locks p p nextRegion := by
  refine locks_advanceMap.bind fun _ => (locks_seekRegion _).bind fun _ => .get fun s hs => ?_
  refine Locks.ite (fun _ => .stop (by decide)) (fun _ => locks_readMap.bind fun e => ?_) s hs
  exact .ite (fun _ => .stop (by decide)) fun _ => .modify (fun _ => rfl) fun _ => rfl

theorem locks_allocNokmalloc (flags : Flags) (count : ℕ) :
    Locks (flags.has flagNolock) (flags.has flagNolock) (Page.allocNokmalloc flags count) := by
  refine (Locks.lockUnless _).bind fun _ => locks_readMap.bind fun e => .get fun s hs => ?_
  refine LocksAt.bind (.set rfl hs) fun _ => ?_
  exact (Locks.when _ locks_nextRegion).bind fun _ => (Locks.note rfl).bind fun _ =>
    (Locks.unlockUnless _).bind fun _ => .pure _

theorem locks_appendRun (memBase flags k i first : ℕ) :
    Locks p p (Page.appendRun memBase flags k i first) := by
  induction k generalizing i first with
  | zero => exact .pure first
  | succ k ih =>
    refine .get fun s hs => ?_
    by_cases h : s.page.virtualPointer ≥ totalVmSize - pageSize
    · rw [if_pos h]
      exact Locks.stop (by decide) s hs
    · rw [if_neg h]
      exact LocksAt.bind (.set rfl hs) fun _ => ih _ _

theorem locks_cutHead (ptr : ℕ) (flags : Flags) (count : ℕ) :
    Locks p p (Page.cutHead ptr flags count) := .get fun s hs => by
  rcases s.page.pageFreeHead with _ | ⟨head, next⟩
  · exact Locks.stop (by decide) s hs
  · exact Locks.bind (.note rfl) (fun _ => .bind (.modify (fun _ => rfl) fun _ => rfl)
      fun _ => .pure _) s hs

theorem kinstallAppend_stops {page : List Page} {pageFlags : ℕ} {s : Mem} (hp : page ≠ [])
    (hs : s.mutex = true) : (Page.kinstallAppend page pageFlags true).Stops s .deadlock s := by
  obtain ⟨page, next, rfl⟩ := List.exists_cons_of_ne_nil hp
  rw [Page.kinstallAppend]
  exact Exec.stops_bind.mpr (.inl (mutexLock_stops hs))

/-- The call of `kinstall_append` for the rest of a chain takes the lock. -/
theorem locks_kinstallAppend (page : List Page) (pageFlags : ℕ) (lock : Bool) :
    Locks (!lock) (!lock) (Page.kinstallAppend page pageFlags lock) := by
  induction page generalizing lock with
  | nil => exact .stop (by decide)
  | cons page next ih =>
    have hlock : Locks (!lock) true (whenever lock mutexLock) := by
      simpa using Locks.lockUnless (!lock)
    have hunlock : Locks true (!lock) (whenever lock mutexUnlock) := by
      simpa using Locks.unlockUnless (!lock)
    refine hlock.bind fun _ => (locks_appendRun _ _ _ _ _).bind fun first => ?_
    refine .bind (.modify (fun _ => rfl) fun _ => rfl) fun _ => hunlock.bind fun _ => ?_
    refine .ite (fun _ => .pure first) fun hnext => ?_
    cases lock with
    | true => exact (Locks.note rfl).bind fun _ => (ih true).bind fun _ => .pure first
    | false =>
      refine .harm rfl fun s hs => ?_
      exact Exec.stops_bind.mpr (.inl (kinstallAppend_stops (by simpa using hnext) hs))

theorem locks_used (page : List Page) (lock : Bool) :
    Locks (!lock) (!lock) (Page.used page lock) := by
  induction page with
  | nil => exact .stop (by decide)
  | cons page oldNext ih =>
    have hlock : Locks (!lock) true (whenever lock mutexLock) := by
      simpa using Locks.lockUnless (!lock)
    have hunlock : Locks true (!lock) (whenever lock mutexUnlock) := by
      simpa using Locks.unlockUnless (!lock)
    refine hlock.bind fun _ => .bind (.modify (fun _ => rfl) fun _ => rfl) fun _ => ?_
    exact hunlock.bind fun _ => .ite (fun _ => .pure ()) fun _ => ih

end Functions

/-! ## The mutual recursion -/

theorem page_alloc_stops {depth : ℕ} {flags : Flags} {count : ℕ} {s : Mem}
    (hf : flags.has flagNolock = false) (hc : count ≠ 0) (hs : s.mutex = true) :
    (Page.alloc depth flags count).Stops s .deadlock s := by
  have h : (whenever (!flags.has flagNolock) mutexLock).Stops s .deadlock s := by
    rw [hf]
    exact mutexLock_stops hs
  cases depth with
  | zero =>
    rw [Page.alloc, if_neg hc]
    exact Exec.stops_bind.mpr (.inl h)
  | succ depth =>
    rw [Page.alloc, if_neg hc]
    exact Exec.stops_bind.mpr (.inl h)

/-- The lock is taken once only. -/
theorem not_returns_alloc {depth : ℕ} {flags : Flags} {count : ℕ} {chain : List Page}
    {s s' : Mem} (hf : flags.has flagNolock = false) (hc : count ≠ 0) (hs : s.mutex = true) :
    ¬ (Page.alloc depth flags count).Returns s chain s' :=
  fun h => h.not_stops (page_alloc_stops hf hc hs)

theorem has_or_self {flags bit : Flags} (h : bit ≠ 0) : (flags ||| bit).has bit = true := by
  have e : (flags ||| bit) &&& bit = bit := by
    rw [BitVec.and_or_distrib_right, BitVec.and_self]
    ext i hi
    simp only [BitVec.getElem_or, BitVec.getElem_and]
    cases flags[i] <;> cases bit[i] <;> rfl
  rw [Flags.has, e]
  simpa using h

theorem allocFlag_has_nolock (flags : Flags) : (allocFlag flags).has kmallocNolock = true :=
  has_or_self (by decide)

/-- The three functions together: `do_kmalloc` runs with the lock held, the other two
as their flags say. -/
theorem locks_recursion (depth : ℕ) :
    (∀ size flags, Locks true true (Kmem.doKmalloc depth size flags)) ∧
    (∀ size flags, Locks (flags.has kmallocNolock) (flags.has kmallocNolock)
      (Kmem.kmalloc depth size flags)) ∧
    ∀ flags count, Locks (flags.has flagNolock) (flags.has flagNolock)
      (Page.alloc depth flags count) := by
  induction depth with
  | zero =>
    refine ⟨fun _ _ => .stop (by decide), fun _ _ => .stop (by decide), fun flags count => ?_⟩
    rw [Page.alloc]
    exact .ite (fun _ => .pure []) fun _ =>
      (Locks.lockUnless _).bind fun _ => .stop (by decide)
  | succ depth ih =>
    obtain ⟨ihDo, ihKmalloc, ihAlloc⟩ := ih
    refine ⟨fun size flags => ?_, fun size flags => ?_, fun flags count => ?_⟩
    · rw [Kmem.doKmalloc]
      refine .ite (fun _ => .pure 0) fun _ => .get fun s hs => ?_
      have hKmalloc := ihKmalloc (Kmem.roundSize size) (flags ||| kmallocNolock)
      rw [has_or_self (by decide)] at hKmalloc
      rcases s.kmem.search (Kmem.sizeNeeded (Kmem.roundSize size)) flags with ⟨prev, _ | free⟩
      · refine Locks.bind (ihAlloc growthFlags _) (fun newPage => ?_) s hs
        refine (locks_kinstallAppend newPage pageTableRw false).bind fun installedLoc => ?_
        refine .bind (.modify (fun _ => rfl) fun _ => rfl) fun _ => ?_
        exact (locks_used newPage false).bind fun _ => hKmalloc
      · exact LocksAt.bind (.set rfl hs) fun _ => .pure _
    · rw [Kmem.kmalloc]
      exact (Locks.lockUnless _).bind fun _ => (ihDo size flags).bind fun ret =>
        (Locks.unlockUnless _).bind fun _ => .pure ret
    · have hKmalloc := ihKmalloc sizeofPage (allocFlag flags)
      have hNokmalloc := locks_allocNokmalloc (flags ||| flagNolock) count
      rw [allocFlag_has_nolock] at hKmalloc
      rw [has_or_self (by decide)] at hNokmalloc
      rw [Page.alloc]
      refine .ite (fun _ => .pure []) fun _ => (Locks.lockUnless _).bind fun _ => .get ?_
      intro s hs
      refine LocksAt.bind (q := true) ?_ fun newPage => ?_
      · rcases s.page.pageFreeHead with _ | ⟨head, next⟩
        · exact hKmalloc.bind (fun ptr => hNokmalloc.bind fun staticPage => .pure _) s hs
        · refine Locks.ite (fun _ => ?_) (fun _ => ?_) s hs
          · exact hKmalloc.bind fun ptr => locks_cutHead ptr flags count
          · exact .bind (.modify (fun _ => rfl) fun _ => rfl) fun _ => .pure _
      · refine .bind ?_ fun next => (Locks.unlockUnless _).bind fun _ => .pure _
        -- The rest of the chain: with `FLAG_NOLOCK` the call runs under the same lock.
        refine .ite (fun hrest => ?_) fun _ => .pure []
        by_cases hf : flags.has flagNolock
        · have hAlloc := ihAlloc flags (count - newPage.consecutive)
          rw [hf] at hAlloc
          exact (Locks.note (by rw [Event.harmful, hf]; rfl)).bind fun _ => hAlloc
        · have hf : flags.has flagNolock = false := by simpa using hf
          refine .harm (by rw [Event.harmful, hf]; rfl) fun s hs => ?_
          exact page_alloc_stops hf (by omega) hs

/-! ## The rest of the interface -/

theorem locks_kmalloc (depth size : ℕ) (flags : Flags) :
    Locks (flags.has kmallocNolock) (flags.has kmallocNolock) (Kmem.kmalloc depth size flags) :=
  (locks_recursion depth).2.1 size flags

theorem locks_alloc (depth : ℕ) (flags : Flags) (count : ℕ) :
    Locks (flags.has flagNolock) (flags.has flagNolock) (Page.alloc depth flags count) :=
  (locks_recursion depth).2.2 flags count

theorem locks_getStruct (depth : ℕ) : Locks true true (Kmem.getStruct depth) := by
  refine .get fun s hs => ?_
  rcases s.kmem.freeFreeStructs with _ | ⟨hold, next⟩
  · exact locks_kmalloc depth sizeofFree (kmallocReserved ||| kmallocNolock) s hs
  · exact LocksAt.bind (.set rfl hs) fun _ => .pure _

theorem locks_kfreeNolock (depth ptr : ℕ) :
    Locks true true (Kmem.kfreeNolock depth ptr) := by
  refine .ite (fun _ => .pure ()) fun _ => .get fun s hs => ?_
  split
  · exact Locks.stop (by decide) s hs
  · refine Locks.ite (fun _ => .stop (by decide)) (fun _ => ?_) s hs
    refine .ite (fun _ => .stop (by decide)) fun _ => ?_
    refine .bind (.modify (fun _ => rfl) fun _ => rfl) fun _ => ?_
    exact (locks_getStruct depth).bind fun _ => .modify (fun _ => rfl) fun _ => rfl

theorem locks_kfree (depth ptr : ℕ) : Locks false false (Kmem.kfree depth ptr) :=
  Locks.lock.bind fun _ => (locks_kfreeNolock depth ptr).bind fun _ => .unlock

theorem locks_create (depth base : ℕ) (flags : Flags) (count : ℕ) :
    Locks false false (Page.create depth base flags count) := by
  refine Locks.lock.bind fun _ => ?_
  refine (locks_kmalloc depth sizeofPage (kmallocReserved ||| kmallocNolock)).bind fun write => ?_
  refine .get fun s hs => LocksAt.bind (.set rfl hs) fun _ => ?_
  exact Locks.unlock.bind fun _ => .pure _

theorem locks_mergeFree (depth first : ℕ) :
    Locks true true (Page.mergeFree depth first) := by
  refine .get fun s hs => ?_
  rcases joinNext Page.ptr Page.touches Page.join first s.page.pageFreeHead with _ | ⟨l, hold⟩
  · rcases joinNext Page.ptr Page.touches Page.join first s.page.usedStart with _ | ⟨l, hold⟩
    · exact Locks.pure () s hs
    · exact LocksAt.bind (.set rfl hs) fun _ => locks_kfreeNolock depth hold.ptr
  · exact LocksAt.bind (.set rfl hs) fun _ => locks_kfreeNolock depth hold.ptr

theorem locks_freeRun (depth : ℕ) (page : Page) : Locks true true (Page.freeRun depth page) := by
  refine .get fun s hs => LocksAt.bind (.set rfl hs) fun _ => ?_
  refine (locks_mergeFree depth page.ptr).bind fun _ => ?_
  exact .ite (fun _ => .pure ()) fun _ => locks_mergeFree depth _

theorem locks_free (depth : ℕ) (page : List Page) :
    Locks false false (Page.free depth page) := by
  induction page with
  | nil => exact .pure ()
  | cons page next ih =>
    refine .bind (.ite (fun _ => .pure ()) fun _ => ih) fun _ => ?_
    exact Locks.lock.bind fun _ => (locks_freeRun depth page).bind fun _ => .unlock

theorem locks_writeRun (memBase pageFlags k i entry : ℕ) :
    Locks true true (Page.writeRun memBase pageFlags k i entry) := by
  induction k generalizing i entry with
  | zero => exact .pure entry
  | succ k ih =>
    refine .bind (.modify (fun _ => rfl) fun _ => rfl) fun _ => ?_
    exact (Locks.pure ()).bind fun _ => ih (i + 1) (entry + 1)

theorem locks_writeChain (consecutive pageFlags : ℕ) (page : List Page) (entry : ℕ) :
    Locks true true (Page.writeChain consecutive pageFlags page entry) := by
  induction page generalizing entry with
  | nil => exact .pure ()
  | cons page next ih => exact (locks_writeRun _ _ _ _ _).bind fun entry => ih entry

theorem locks_takeSlot (depth totalPages : ℕ) (slot : EmptySlot) (rest : List EmptySlot) :
    Locks true true (Page.takeSlot depth totalPages slot rest) := by
  refine .get fun s hs => ?_
  by_cases hpages : slot.pages = totalPages
  · simp only [if_pos hpages]
    exact LocksAt.bind (.set rfl hs) fun _ => locks_kfreeNolock depth slot.ptr
  · simp only [if_neg hpages]
    exact .set rfl hs

theorem locks_kinstall (depth : ℕ) (page : List Page) (pageFlags : ℕ) :
    Locks false false (Page.kinstall depth page pageFlags) := by
  refine Locks.lock.bind fun _ => .get fun s hs => ?_
  split
  next slot _ =>
    refine LocksAt.bind (locks_takeSlot _ _ _ _ s hs) fun _ => ?_
    refine .ite (fun _ => ?_) fun _ => Locks.unlock.bind fun _ =>
      locks_kinstallAppend page pageFlags true
    exact (locks_writeChain _ _ _ _).bind fun _ => Locks.unlock.bind fun _ => .pure _
  next => exact Locks.unlock.bind (fun _ => locks_kinstallAppend page pageFlags true) s hs

theorem locks_mergeFreeSlots (depth first : ℕ) :
    Locks true true (Page.mergeFreeSlots depth first) := by
  refine .get fun s hs => ?_
  rcases joinNext EmptySlot.ptr
    (fun first hold => first.base + first.pages * pageSize == hold.base)
    (fun first hold => { first with pages := first.pages + hold.pages })
    first s.page.emptySlot with _ | ⟨l, hold⟩
  · exact Locks.pure () s hs
  · exact LocksAt.bind (.set rfl hs) fun _ => locks_kfreeNolock depth hold.ptr

theorem locks_clearRun (k entry base : ℕ) :
    Locks true true (Page.clearRun k entry base) := by
  induction k generalizing entry base with
  | zero => exact .pure base
  | succ k ih =>
    refine .bind (.modify (fun _ => rfl) fun _ => rfl) fun _ => ?_
    exact (Locks.pure ()).bind fun _ => ih (entry + 1) (base + pageSize)

theorem locks_kuninstall (depth base : ℕ) (page : List Page) :
    Locks false false (Page.kuninstall depth base page) := by
  induction page generalizing base with
  | nil => exact .pure ()
  | cons page next ih =>
    refine Locks.lock.bind fun _ => (locks_kmalloc depth sizeofSlot kmallocNolock).bind ?_
    refine fun newSlot => .get fun s hs => LocksAt.bind (.set rfl hs) fun _ => ?_
    refine (locks_clearRun _ _ _).bind fun base => ?_
    refine (locks_mergeFreeSlots depth newSlot).bind fun _ => ?_
    refine .bind (.ite (fun _ => .pure ()) fun _ => locks_mergeFreeSlots depth _) fun _ => ?_
    exact Locks.unlock.bind fun _ => .ite (fun _ => .pure ()) fun _ => ih base

/-- Every call follows the convention. -/
theorem locks_exec (depth : ℕ) (c : Call) : Locks c.held c.held (c.exec depth) := by
  cases c with
  | kmalloc size flags => exact (locks_kmalloc depth size flags).bind fun _ => .pure _
  | kfree ptr => exact (locks_kfree depth ptr).bind fun _ => .pure _
  | kfreeNolock ptr => exact (locks_kfreeNolock depth ptr).bind fun _ => .pure _
  | alloc flags count => exact (locks_alloc depth flags count).bind fun _ => .pure _
  | create base flags count => exact (locks_create depth base flags count).bind fun _ => .pure _
  | free page => exact (locks_free depth page).bind fun _ => .pure _
  | used page lock => exact (locks_used page lock).bind fun _ => .pure _
  | kinstall page pageFlags => exact (locks_kinstall depth page pageFlags).bind fun _ => .pure _
  | kinstallAppend page pageFlags lock =>
    exact (locks_kinstallAppend page pageFlags lock).bind fun _ => .pure _
  | kuninstall base page => exact (locks_kuninstall depth base page).bind fun _ => .pure _

/-- The run of a call from `s` does not lock a lock it holds, and gives the lock back
as it found it. -/
def Call.KeepsLock (depth : ℕ) (c : Call) (s : Mem) : Prop :=
  (c.exec depth s).1 ≠ .error .deadlock ∧
    ∀ a, (c.exec depth s).1 = .ok a → (c.exec depth s).2.mutex = s.mutex

/-- A call that is entered as its caller is to enter it keeps the lock exactly when it
makes no harmful call. -/
theorem keepsLock_iff (c : Call) (depth : ℕ) (s : Mem) (h : s.mutex = c.held) :
    c.KeepsLock depth s ↔ ∀ e ∈ newEvents s (c.exec depth s).2, e.harmful = false := by
  obtain ⟨new, ht, hd, hm⟩ := locks_exec depth c s h
  rw [newEvents_eq ht]
  constructor
  · rintro ⟨hne, -⟩ e he
    by_contra hharm
    exact hne (hd.mpr ⟨e, he, by simpa using hharm⟩)
  · intro hnew
    refine ⟨fun hdead => ?_, fun a ha => by rw [hm a ha, h]⟩
    obtain ⟨e, he, hharm⟩ := hd.mp hdead
    rw [hnew e he] at hharm
    cases hharm

end Cantos
