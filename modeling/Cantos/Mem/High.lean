import Cantos.Lib.Preserves
import Cantos.Mem.Space
import Cantos.Mem.World

/-!
# Where the heap lies

`kinstall_append` maps what it is given at `virtual_pointer`, which starts above the
kernel image and only moves up, and panics before it reaches the end of the address
space.  So the pool of the heap lies in the kernel's gigabyte, whatever calls are made,
and in whatever way they take the lock.

## Main definitions

* `Mem.High`: the pool lies above `KERNEL_VM_BASE`, and the pointer below the end.
-/

namespace Cantos

open Linked Exec Runs

/-- The pool lies above `KERNEL_VM_BASE`, and so does what is mapped next.  A growth by no
pages may leave an empty region anywhere. -/
structure Mem.High (s : Mem) : Prop where
  pointer : kernelVmBase ≤ s.page.virtualPointer
  room : s.page.virtualPointer < totalVmSize
  pool : ∀ r ∈ s.kmem.pool, r.2 = 0 ∨ kernelVmBase ≤ r.1

section High
variable {s s' : Mem} {chain : List Page} {prev n loc : ℕ}

theorem Mem.High.same (h : s.High) (hk : s'.kmem.pool = s.kmem.pool)
    (hp : s'.page.virtualPointer = s.page.virtualPointer) : s'.High :=
  ⟨hp ▸ h.pointer, hp ▸ h.room, hk ▸ h.pool⟩

theorem Mem.High.attach (h : s.High) (hloc : Page.firstRun chain = 0 ∨ kernelVmBase ≤ loc) :
    Mem.High { s with kmem := s.kmem.attach prev n (Page.firstRun chain) loc } where
  pointer := h.pointer
  room := h.room
  pool r hr := by
    have hmem : r ∈ (loc, Page.firstRun chain * pageSize) :: s.kmem.pool := by
      rwa [attach_pool] at hr
    rcases List.mem_cons.mp hmem with rfl | hr
    · exact hloc.imp (fun hzero => by rw [hzero, Nat.zero_mul]) id
    · exact h.pool r hr

/-- `kinstall_append` panics when there is no room left. -/
theorem kinstallAppend_room {flags : ℕ} {lock : Bool} :
    Preserves (fun s : Mem => s.page.virtualPointer < totalVmSize)
      (Page.kinstallAppend chain flags lock) := by
  induction chain generalizing lock with
  | nil => exact .stop
  | cons page next ih =>
    rw [Page.kinstallAppend]
    refine (preserves_whenever _ (preserves_lock fun _ _ h => h)).bind fun _ => ?_
    refine Preserves.bind (fun s hs r s' hr => ?_) fun first => ?_
    · obtain ⟨⟨table, cursor, rfl⟩, -, hk⟩ := appendRun_returns hr
      rcases Nat.eq_zero_or_pos page.consecutive with hzero | hpos
      · simpa [hzero] using hs
      · exact (hk hpos).2
    refine .bind (.modify fun _ h => h) fun _ => ?_
    refine (preserves_whenever _ (preserves_unlock fun _ _ h => h)).bind fun _ => ?_
    refine .ite (.pure _) (.bind (.modify fun _ h => h) fun _ => ?_)
    exact ih.bind fun _ => .pure _

/-- A chain is mapped at the pointer; an empty first run leaves the address at zero. -/
theorem kinstallAppend_high {flags : ℕ} {lock : Bool}
    (hr : (Page.kinstallAppend chain flags lock).Returns s loc s') (h : s.High) :
    s'.High ∧ (Page.firstRun chain = 0 ∨ kernelVmBase ≤ loc) := by
  obtain ⟨happ, hloc⟩ := kinstallAppend_appended hr
  have hpool : s'.kmem.pool = s.kmem.pool := kinstallAppend_pool s rfl loc s' hr
  have hroom := kinstallAppend_room s h.room loc s' hr
  refine ⟨⟨?_, hroom, hpool ▸ h.pool⟩, ?_⟩
  · rw [happ.pointer]
    exact h.pointer.trans (Nat.le_add_right _ _)
  · rcases Nat.eq_zero_or_pos (Page.firstRun chain) with hzero | hpos
    · exact .inl hzero
    · have hpointer : 0 < s.page.virtualPointer := lt_of_lt_of_le (by decide) h.pointer
      rw [hloc hpos hpointer]
      exact .inr h.pointer

theorem kinstallAppend_preserves (chain : List Page) (flags : ℕ) (lock : Bool) :
    Preserves Mem.High (Page.kinstallAppend chain flags lock) :=
  fun _ h _ _ hr => (kinstallAppend_high hr h).1

theorem whenever_lock_high (c : Bool) : Preserves Mem.High (whenever c mutexLock) :=
  preserves_whenever c (preserves_lock fun _ _ h => h.same rfl rfl)

theorem whenever_unlock_high (c : Bool) : Preserves Mem.High (whenever c mutexUnlock) :=
  preserves_whenever c (preserves_unlock fun _ _ h => h.same rfl rfl)

theorem used_preserves (chain : List Page) (lock : Bool) :
    Preserves Mem.High (Page.used chain lock) := by
  induction chain with
  | nil => exact .stop
  | cons page next ih =>
    refine (whenever_lock_high _).bind fun _ =>
      .bind (.modify fun _ h => h.same rfl rfl) fun _ => ?_
    exact (whenever_unlock_high _).bind fun _ => .ite (.pure ()) ih

/-- The requests for memory map what they need above what is mapped. -/
theorem recursion_high (depth : ℕ) :
    (∀ size flags, Preserves Mem.High (Kmem.doKmalloc depth size flags)) ∧
    (∀ size flags, Preserves Mem.High (Kmem.kmalloc depth size flags)) ∧
    ∀ flags count, Preserves Mem.High (Page.alloc depth flags count) := by
  induction depth with
  | zero =>
    refine ⟨fun _ _ => .stop, fun _ _ => .stop, fun flags count => ?_⟩
    rw [Page.alloc]
    exact .ite (.pure []) ((whenever_lock_high _).bind fun _ => .stop)
  | succ depth ih =>
    obtain ⟨ihDo, ihKmalloc, ihAlloc⟩ := ih
    refine ⟨fun size flags => ?_, fun size flags => ?_, fun flags count => ?_⟩
    · rw [Kmem.doKmalloc]
      refine .ite (.pure 0) (.get fun s => ?_)
      rcases s.kmem.search (Kmem.sizeNeeded (Kmem.roundSize size)) flags with ⟨prev, _ | free⟩
      · refine Preserves.bind (ihAlloc growthFlags _) (fun newPage => ?_) s
        intro s₁ h₁ r s' hr
        obtain ⟨loc, s₂, happ, hrest⟩ := returns_bind.mp hr
        obtain ⟨h₂, hloc⟩ := kinstallAppend_high happ h₁
        rw [returns_modify_bind] at hrest
        exact (used_preserves newPage false).bind (fun _ => ihKmalloc _ _) _ (h₂.attach hloc) r s'
          hrest
      · exact PreservesAt.bind (.set fun h => h.same takeBlock_pool rfl) fun _ => .pure _
    · rw [Kmem.kmalloc]
      exact (whenever_lock_high _).bind fun _ => (ihDo size flags).bind fun ret =>
        (whenever_unlock_high _).bind fun _ => .pure ret
    · rw [Page.alloc]
      refine .ite (.pure []) ((whenever_lock_high _).bind fun _ => .get fun s => ?_)
      refine PreservesAt.bind ?_ fun newPage => ?_
      · rcases s.page.pageFreeHead with _ | ⟨head, next⟩
        · refine Preserves.bind (ihKmalloc _ _) (fun ptr => .bind ?_ fun staticPage => .pure _) s
          intro s₁ h₁ p s' hr
          obtain ⟨pageId, pointer, map, rfl⟩ :=
            (allocNokmalloc_returns (.inl (has_or_self (by decide))) hr).state
          exact h₁.same rfl rfl
        · refine Preserves.ite ?_ ?_ s
          · refine (ihKmalloc _ _).bind fun ptr s₁ h₁ p s' hr => ?_
            obtain ⟨head, next, -, rfl, -⟩ := cutHead_returns hr
            exact h₁.same rfl rfl
          · exact .bind (.modify fun _ h => h.same rfl rfl) fun _ => .pure _
      · refine .bind (.ite ?_ (.pure [])) fun next => (whenever_unlock_high _).bind fun _ => .pure _
        exact .bind (.modify fun _ h => h.same rfl rfl) fun _ => ihAlloc flags _

theorem kfreeNolock_preserves (depth ptr : ℕ) :
    Preserves Mem.High (Kmem.kfreeNolock depth ptr) := by
  refine .ite (.pure ()) (.get fun s => ?_)
  split
  · exact Preserves.stop s
  · refine Preserves.ite .stop (.ite .stop ?_) s
    refine .bind (.modify fun _ h => h.same rfl rfl) fun _ => ?_
    refine Preserves.bind (.get fun s => ?_) fun newEntry => .modify fun s h =>
      h.same ((setUsed_pool _ _).trans (insertFree_pool _ _ _ _)) rfl
    rcases s.kmem.freeFreeStructs with _ | ⟨hold, next⟩
    · exact (recursion_high depth).2.1 sizeofFree (kmallocReserved ||| kmallocNolock) s
    · exact PreservesAt.bind (.set fun h => h.same rfl rfl) fun _ => .pure _

theorem page_mergeFree_preserves (depth first : ℕ) :
    Preserves Mem.High (Page.mergeFree depth first) := by
  refine .get fun s => ?_
  rcases joinNext Page.ptr Page.touches Page.join first s.page.pageFreeHead with _ | ⟨l, hold⟩
  · rcases joinNext Page.ptr Page.touches Page.join first s.page.usedStart with _ | ⟨l, hold⟩
    · exact Preserves.pure () s
    · exact PreservesAt.bind (.set fun h => h.same rfl rfl) fun _ => kfreeNolock_preserves _ _
  · exact PreservesAt.bind (.set fun h => h.same rfl rfl) fun _ => kfreeNolock_preserves _ _

theorem mergeFreeSlots_preserves (depth first : ℕ) :
    Preserves Mem.High (Page.mergeFreeSlots depth first) := by
  refine .get fun s => ?_
  rcases joinNext EmptySlot.ptr
    (fun first hold => first.base + first.pages * pageSize == hold.base)
    (fun first hold => { first with pages := first.pages + hold.pages })
    first s.page.emptySlot with _ | ⟨l, hold⟩
  · exact Preserves.pure () s
  · exact PreservesAt.bind (.set fun h => h.same rfl rfl) fun _ => kfreeNolock_preserves _ _

theorem lock_high : Preserves Mem.High mutexLock := whenever_lock_high true

theorem unlock_high : Preserves Mem.High mutexUnlock := whenever_unlock_high true

theorem free_preserves (depth : ℕ) (chain : List Page) :
    Preserves Mem.High (Page.free depth chain) := by
  induction chain with
  | nil => exact .pure ()
  | cons page next ih =>
    refine .bind (.ite (.pure ()) ih) fun _ => lock_high.bind fun _ => .bind ?_ fun _ => unlock_high
    refine .get fun s => PreservesAt.bind (.set fun h => h.same rfl rfl) fun _ => ?_
    exact (page_mergeFree_preserves _ _).bind fun _ =>
      .ite (.pure ()) (page_mergeFree_preserves _ _)

theorem writeRun_preserves (memBase flags k i entry : ℕ) :
    Preserves Mem.High (Page.writeRun memBase flags k i entry) := by
  induction k generalizing i entry with
  | zero => exact .pure entry
  | succ k ih =>
    exact .bind (.modify fun _ h => h.same rfl rfl) fun _ =>
      (Preserves.pure ()).bind fun _ => ih _ _

theorem writeChain_preserves (consecutive flags : ℕ) (chain : List Page) (entry : ℕ) :
    Preserves Mem.High (Page.writeChain consecutive flags chain entry) := by
  induction chain generalizing entry with
  | nil => exact .pure ()
  | cons page next ih =>
    refine .bind ?_ fun entry => ih entry
    exact writeRun_preserves _ _ _ _ _

theorem clearRun_preserves (k entry base : ℕ) :
    Preserves Mem.High (Page.clearRun k entry base) := by
  induction k generalizing entry base with
  | zero => exact .pure base
  | succ k ih =>
    exact .bind (.modify fun _ h => h.same rfl rfl) fun _ =>
      (Preserves.pure ()).bind fun _ => ih _ _

theorem takeSlot_preserves (depth totalPages : ℕ) (slot : EmptySlot) (rest : List EmptySlot) :
    Preserves Mem.High (Page.takeSlot depth totalPages slot rest) := by
  refine .get fun s => ?_
  split_ifs
  · exact PreservesAt.bind (.set fun h => h.same rfl rfl) fun _ => kfreeNolock_preserves _ _
  · exact .set fun h => h.same rfl rfl

theorem kinstall_preserves (depth : ℕ) (chain : List Page) (flags : ℕ) :
    Preserves Mem.High (Page.kinstall depth chain flags) := by
  refine lock_high.bind fun _ => .get fun s => ?_
  split
  next slot _ =>
    refine Preserves.bind (takeSlot_preserves _ _ _ _) (fun _ => ?_) s
    refine .ite ?_ (unlock_high.bind fun _ => kinstallAppend_preserves chain flags true)
    exact (writeChain_preserves _ _ _ _).bind fun _ => unlock_high.bind fun _ => .pure _
  next => exact unlock_high.bind (fun _ => kinstallAppend_preserves chain flags true) s

theorem kuninstall_preserves (depth base : ℕ) (chain : List Page) :
    Preserves Mem.High (Page.kuninstall depth base chain) := by
  induction chain generalizing base with
  | nil => exact .pure ()
  | cons page next ih =>
    refine lock_high.bind fun _ => ((recursion_high depth).2.1 _ _).bind fun newSlot => ?_
    refine .get fun s => PreservesAt.bind (.set fun h => h.same rfl rfl) fun _ => ?_
    refine (clearRun_preserves _ _ _).bind fun base => ?_
    refine (mergeFreeSlots_preserves depth newSlot).bind fun _ => ?_
    refine .bind (.ite (.pure ()) (mergeFreeSlots_preserves depth _)) fun _ => ?_
    exact unlock_high.bind fun _ => .ite (.pure ()) (ih base)

theorem exec_preserves (depth : ℕ) (c : Call) : Preserves Mem.High (c.exec depth) := by
  obtain ⟨-, hKmalloc, hAlloc⟩ := recursion_high depth
  cases c with
  | kmalloc size flags => exact (hKmalloc size flags).bind fun _ => .pure _
  | kfree ptr =>
    exact .bind (lock_high.bind fun _ => (kfreeNolock_preserves _ _).bind fun _ => unlock_high)
      fun _ => .pure _
  | kfreeNolock ptr => exact (kfreeNolock_preserves depth ptr).bind fun _ => .pure _
  | alloc flags count => exact (hAlloc flags count).bind fun _ => .pure _
  | create base flags count =>
    refine .bind (lock_high.bind fun _ => (hKmalloc _ _).bind fun _ => .get fun s => ?_)
      fun _ => .pure _
    exact PreservesAt.bind (.set fun h => h.same rfl rfl) fun _ => unlock_high.bind fun _ => .pure _
  | free page => exact (free_preserves depth page).bind fun _ => .pure _
  | used page lock => exact (used_preserves page lock).bind fun _ => .pure _
  | kinstall page pageFlags => exact (kinstall_preserves depth page pageFlags).bind fun _ => .pure _
  | kinstallAppend page pageFlags lock =>
    exact (kinstallAppend_preserves page pageFlags lock).bind fun _ => .pure _
  | kuninstall base page => exact (kuninstall_preserves depth base page).bind fun _ => .pure _

/-- In every state of every run the heap lies above `KERNEL_VM_BASE`. -/
theorem World.Reachable.high {w : World} {memTable : List Entry} (h : w.Reachable memTable) :
    w.mem.High := by
  obtain ⟨w₀, ⟨⟨vmEnd, hbase, -, hinit⟩, -, -⟩, hsteps⟩ := h
  induction hsteps with
  | refl =>
    have hbooted := init_returns (lt_of_lt_of_le (by decide) hbase) hinit
    have hk := hbooted.kmem.trans (initial_eq vmEnd memTable)
    refine ⟨?_, ?_, fun r hr => .inr ?_⟩
    · rw [hbooted.virtualPointer]
      exact hbase.trans (Nat.le_add_right _ _)
    · rw [hbooted.virtualPointer]
      exact hbooted.room
    · rw [hk] at hr
      obtain rfl := List.mem_singleton.mp hr
      exact hbase
  | @tail w₁ w₂ _ hstep ih =>
    obtain ⟨allows, returns⟩ := hstep
    rename_i c depth reply s
    have hheld : Mem.High { w₁.mem with mutex := c.held } := ih.same rfl rfl
    rw [World.after_mem]
    exact (exec_preserves depth c _ hheld reply s returns).same rfl rfl

/-- A free block lies in the kernel's gigabyte. -/
theorem Mem.High.block {held : List KmemHeader} {owned : List (ℕ × ℕ)} (h : s.High)
    (hs : MemInv held owned s) {free : KmemFree} (hfree : free ∈ s.kmem.freeList) :
    kernelVmBase ≤ free.base ∧ free.base + free.size < totalVmSize := by
  have hpos : free.base < free.finish := hs.heap.coalesced.pos free hfree
  have hone : 1 ≤ Runs.weigh (.point free.base) KmemFree.base KmemFree.finish s.kmem.freeList :=
    one_le_weigh_point hfree ⟨le_rfl, hpos⟩
  have hpool := hs.heap.within free.base
  rw [Kmem.weigh] at hpool
  obtain ⟨r, hr, hbase, hend⟩ :=
    exists_of_one_le_weigh_point (show 1 ≤ s.kmem.weighPool (.point free.base) by omega)
  constructor
  · rcases h.pool r hr with hzero | hr
    · omega
    · exact hr.trans hbase
  · exact lt_of_le_of_lt (hs.heap.finish_le_top hfree) h.room

end High
end Cantos
