import Cantos.Mem.Soundness

/-!
# Runs of the memory subsystem

A kernel that has been booted makes calls one after the other, every call with the
lock as the call wants it, and remembers the pointers and the chains it has been given
and has not given back.  Whatever it does, the heap is sound.

## Main definitions

* `World`: the memory subsystem, with the pointers and chains that are live.
* `World.Boots`, `World.Step`, `World.Reachable`: the runs.
* `World.Sound`: what a sound heap is.
-/

namespace Cantos

open Linked Exec Runs

/-- The memory subsystem and what its users own. -/
structure World where
  mem : Mem
  /-- The live pointers returned by `kmalloc`, with the sizes asked for. -/
  pointers : List (ℕ × ℕ)
  /-- The live chains. -/
  chains : List (List Page)

namespace World

/-- The heap records the users own. -/
def owned (w : World) : List (ℕ × ℕ) := w.pointers ++ w.chains.flatMap pageRecords

/-- Calls give back only what is live, and the sizes computed for a request do not
wrap. -/
def Allows (w : World) : Call → Prop
  | .kmalloc size _ => size + 3 + sizeofHeader + sizeofPage + sizeofFree < 2 ^ 32
  | .kfree ptr => ptr = 0 ∨ ptr ∈ w.pointers.map Prod.fst
  | .kfreeNolock ptr => ptr = 0 ∨ ptr ∈ w.pointers.map Prod.fst
  | .free page => page = [] ∨ page ∈ w.chains
  | .used page _ => page ∈ w.chains
  | _ => True

instance (w : World) : DecidablePred w.Allows
  | .kmalloc _ _ => inferInstanceAs (Decidable (_ < _))
  | .kfree _ => inferInstanceAs (Decidable (_ ∨ _))
  | .kfreeNolock _ => inferInstanceAs (Decidable (_ ∨ _))
  | .free _ => inferInstanceAs (Decidable (_ ∨ _))
  | .used _ _ => inferInstanceAs (Decidable (_ ∈ _))
  | .alloc _ _ | .create _ _ _ | .kinstall _ _ | .kinstallAppend _ _ _ | .kuninstall _ _ =>
    inferInstanceAs (Decidable True)

/-- What is live after a call. -/
def after (w : World) (mem : Mem) : Call → Reply → World
  | .kmalloc size _, .pointer ptr =>
      { w with mem, pointers := if size = 0 then w.pointers else (ptr, size) :: w.pointers }
  | .kfree ptr, _ => { w with mem, pointers := unlink Prod.fst ptr w.pointers }
  | .kfreeNolock ptr, _ => { w with mem, pointers := unlink Prod.fst ptr w.pointers }
  | .alloc _ _, .chain page => { w with mem, chains := page :: w.chains }
  | .create _ _ _, .chain page => { w with mem, chains := page :: w.chains }
  | .free page, _ => { w with mem, chains := w.chains.erase page }
  | .used page _, _ => { w with mem, chains := w.chains.erase page }
  | _, _ => { w with mem }

@[simp] theorem after_mem (w : World) (mem : Mem) (c : Call) (reply : Reply) :
    (w.after mem c reply).mem = mem := by
  cases c <;> cases reply <;> rfl

/-- A call that returns.  Between the calls the lock is free; the forms for callers that
hold it are called with the lock taken, and it is given back behind them. -/
inductive Step (w : World) : World → Prop
  | call {c : Call} {depth : ℕ} {reply : Reply} {s : Mem} (allows : w.Allows c)
      (returns : (c.exec depth).Returns { w.mem with mutex := c.held } reply s) :
      Step w (w.after { s with mutex := false } c reply)

/-- The state `kmem::init` builds. -/
structure Boots (memTable : List Entry) (w : World) : Prop where
  init : ∃ vmEnd, kernelVmBase ≤ vmEnd ∧ vmEnd < totalVmSize ∧
    (Kmem.init vmEnd).Returns (bootMem memTable) () w.mem
  pointers : w.pointers = []
  chains : w.chains = []

/-- The states of the runs of a machine. -/
def Reachable (memTable : List Entry) (w : World) : Prop :=
  ∃ w₀, Boots memTable w₀ ∧ Relation.ReflTransGen Step w₀ w

/-- The world after a call that is allowed and returns. -/
def run (depth : ℕ) (w : World) (c : Call) : World :=
  match c.exec depth { w.mem with mutex := c.held } with
  | (.ok reply, s) => w.after { s with mutex := false } c reply
  | (.error _, _) => w

theorem run_step {depth : ℕ} {w : World} {c : Call} (allows : w.Allows c)
    (h : (c.exec depth { w.mem with mutex := c.held }).1.isOk = true) :
    w.Step (w.run depth c) := by
  rcases he : c.exec depth { w.mem with mutex := c.held } with ⟨_ | reply, s⟩
  · rw [he] at h
    cases h
  · rw [run, he]
    exact .call allows he

theorem Reachable.run {memTable : List Entry} {depth : ℕ} {w : World} {c : Call}
    (hw : Reachable memTable w) (allows : w.Allows c)
    (h : (c.exec depth { w.mem with mutex := c.held }).1.isOk = true) :
    Reachable memTable (w.run depth c) := by
  obtain ⟨w₀, hboots, hsteps⟩ := hw
  exact ⟨w₀, hboots, hsteps.tail (run_step allows h)⟩

/-- A machine with plenty of memory, booted. -/
def roomy : World := ⟨(Kmem.init 0xc0100000 (bootMem roomyMap)).2, [], []⟩

theorem roomy_boots : Boots roomyMap roomy :=
  ⟨⟨0xc0100000, by decide, by decide, returns_of_fst (by decide +kernel)⟩, rfl, rfl⟩

theorem roomy_reachable : Reachable roomyMap roomy := ⟨roomy, roomy_boots, .refl⟩

end World

/-! ## What a sound heap is -/

/-- The header in front of a pointer. -/
def Kmem.header (k : Kmem) (ptr : ℕ) : Option KmemHeader :=
  k.headers.find? (·.ptr = ptr - sizeofHeader)

/-- Every chunk that is in use, as the pointer to it and the bytes its user asked for:
those of the users, the records of the page lists and the records of the free lists. -/
def World.chunks (w : World) : List (ℕ × ℕ) :=
  w.mem.kmem.records ++ (w.mem.page.owned ++ w.owned)

/-- `a` is a byte of the chunk at `ptr` or of the header in front of it. -/
def Kmem.InChunk (k : Kmem) (ptr a : ℕ) : Prop :=
  ∃ hdr, k.header ptr = some hdr ∧ hdr.ptr ≤ a ∧ a < hdr.ptr + sizeofHeader + hdr.size

/-- `a` is a byte of a free block. -/
def Kmem.InFree (k : Kmem) (a : ℕ) : Prop :=
  ∃ free ∈ k.freeList, free.base ≤ a ∧ a < free.base + free.size

/-- `a` is a byte of the pool. -/
def Kmem.InPool (k : Kmem) (a : ℕ) : Prop := ∃ r ∈ k.pool, r.1 ≤ a ∧ a < r.1 + r.2

structure World.Sound (w : World) : Prop where
  /-- Every chunk has its header, and the bytes asked for. -/
  size : ∀ p ∈ w.chunks, ∃ hdr, w.mem.kmem.header p.1 = some hdr ∧
    hdr.ptr + sizeofHeader = p.1 ∧ p.2 ≤ hdr.size
  apart : w.chunks.Pairwise fun p q => ∀ a, w.mem.kmem.InChunk p.1 a → ¬ w.mem.kmem.InChunk q.1 a
  inPool : ∀ p ∈ w.chunks, ∀ a, w.mem.kmem.InChunk p.1 a → w.mem.kmem.InPool a
  notFree : ∀ p ∈ w.chunks, ∀ a, w.mem.kmem.InChunk p.1 a → ¬ w.mem.kmem.InFree a
  /-- The free list is in order, with a gap between neighbours. -/
  gap : w.mem.kmem.freeList.Pairwise fun free next => free.base + free.size < next.base
  nonempty : ∀ free ∈ w.mem.kmem.freeList, 0 < free.size
  freeEnd : w.mem.kmem.freeEnd = lastPtr KmemFree.ptr w.mem.kmem.freeList
  freeEnd_null : w.mem.kmem.freeEnd = 0 ↔ w.mem.kmem.freeList = []
  /-- No record is linked twice, in one list or in both. -/
  records : ((w.mem.kmem.freeList ++ w.mem.kmem.freeFreeStructs).map KmemFree.ptr).Nodup

/-! ## Boot -/

section Boot
variable {s s' : Mem} {u : Unit}

theorem seekStart_returns {k : ℕ} (h : (Page.seekStart k).Returns s u s') :
    ∃ map e, s' = { s with page.currentMap := map } ∧ s.page.memTable[map]? = some e ∧
      s.page.allocationPointer ≤ e.finish := by
  induction k generalizing s with
  | zero => exact absurd h returns_stop
  | succ k ih =>
    obtain ⟨e, s₁, hr, hrest⟩ := returns_bind.mp h
    obtain ⟨he, rfl⟩ := readMap_returns hr
    rw [returns_get_bind] at hrest
    split_ifs at hrest with hlt
    · obtain ⟨map, e', rfl, he', hle⟩ := ih (returns_modify_bind.mp hrest)
      exact ⟨map, e', rfl, he', hle⟩
    · obtain ⟨-, rfl⟩ := returns_pure.mp hrest
      exact ⟨s'.page.currentMap, e, rfl, he, not_lt.mp hlt⟩

/-- The allocation pointer is in the region it walks, or at its end. -/
def PageState.Within (p : PageState) : Prop :=
  ∃ e, p.memTable[p.currentMap]? = some e ∧ p.allocationPointer ≤ e.finish

/-- In its region the bump allocator hands out no more than it is asked for. -/
theorem bumpSize_le {e : Entry} {pointer count : ℕ} (h : pointer ≤ e.finish) :
    bumpSize e pointer count ≤ mul32 count pageSize := by
  rw [bumpSize]
  split_ifs with hend
  · have hle : add32 pointer (mul32 count pageSize) ≤ pointer + mul32 count pageSize :=
      Nat.mod_le _ _
    have hlt : mul32 count pageSize < 2 ^ 32 := Nat.mod_lt _ (by decide)
    have hfin : e.finish < 2 ^ 64 := Nat.mod_lt _ (by decide)
    omega
  · exact le_rfl

theorem Bumped.consecutive_le {count : ℕ} {p : Page} (h : Bumped count s p s')
    (hs : s.page.Within) : p.consecutive ≤ count := by
  obtain ⟨e, he, hcons, -⟩ := h.region
  obtain ⟨e', he', hle⟩ := hs
  obtain rfl := Option.some.inj (he.symm.trans he')
  rw [hcons]
  refine Nat.div_le_of_le_mul ((bumpSize_le hle).trans ?_)
  rw [Nat.mul_comm]
  exact Nat.mod_le _ _

/-- In a memory map of regions that do not wrap, the pointer stays in its region. -/
theorem Bumped.within {count : ℕ} {p : Page} (h : Bumped count s p s') (hs : s.page.Within)
    (hmap : ∀ e ∈ s.page.memTable, e.base + e.length < 2 ^ 64) : s'.page.Within := by
  obtain ⟨e, he, -, hnext⟩ := h.region
  obtain ⟨e', he', hle⟩ := hs
  obtain rfl := Option.some.inj (he.symm.trans he')
  obtain ⟨pageId, pointer, map, rfl⟩ := h.state
  rcases hnext with ⟨e', he', hbase⟩ | ⟨hmap', hpointer, hne⟩
  · refine ⟨e', he', hbase.trans_le ?_⟩
    rw [Entry.finish, Nat.mod_eq_of_lt (hmap e' (List.mem_of_getElem? he'))]
    exact Nat.le_add_right _ _
  · refine ⟨e, hmap' ▸ he, ?_⟩
    simp only at hpointer hne ⊢
    rw [hpointer] at hne ⊢
    rw [bumpSize] at hne ⊢
    have hfin : e.finish < 2 ^ 64 := Nat.mod_lt _ (by decide)
    have hsize : mul32 count pageSize < 2 ^ 32 := Nat.mod_lt _ (by decide)
    split_ifs at hne ⊢ with hend
    · -- All that is left of the region would have been taken, and the next one entered.
      simp only [add32] at hend hne ⊢
      omega
    · exact (not_le.mp hend).le

/-- What `kmem::init` leaves behind. -/
structure Booted (memTable : List Entry) (vmEnd : ℕ) (s : Mem) : Prop where
  kmem : s.kmem = Kmem.initial vmEnd (bootMem memTable).kmem
  virtualPointer : s.page.virtualPointer = vmEnd + pageSize
  room : vmEnd + pageSize < totalVmSize
  usedStart : s.page.usedStart = []
  pageFreeHead : s.page.pageFreeHead = []
  emptySlot : s.page.emptySlot = []
  map : s.page.memTable = memTable
  mutex : s.mutex = false
  within : (∀ e ∈ memTable, e.base + e.length < 2 ^ 64) → s.page.Within

/-- The heap is laid out whatever the end of memory was. -/
theorem initial_memoryEnd (memBase m : ℕ) (k : Kmem) :
    Kmem.initial memBase { k with memoryEnd := m } = Kmem.initial memBase k := rfl

/-- The part of `page::init` behind the first assignments. -/
theorem seekStart_within {t t' : Mem} {pointer cursor vmEnd : ℕ}
    (ht : t = { s with page.allocationPointer := pointer, page.currentMap := 0 })
    (h : (Page.seekStart (t.page.memTable.length + 1)).Returns t u t')
    (hs : s' = { t' with page.cursor := cursor, page.virtualPointer := vmEnd }) :
    ∃ pointer map cursor, s' = { s with
        page.allocationPointer := pointer
        page.currentMap := map
        page.cursor := cursor
        page.virtualPointer := vmEnd } ∧ s'.page.Within := by
  obtain ⟨map, e, rfl, he, hle⟩ := seekStart_returns h
  subst ht hs
  exact ⟨pointer, map, cursor, rfl, e, he, hle⟩

theorem pageInit_returns {vmEnd : ℕ} (h : (Page.init vmEnd).Returns s u s') :
    ∃ pointer map cursor, s' = { s with
        page.allocationPointer := pointer
        page.currentMap := map
        page.cursor := cursor
        page.virtualPointer := vmEnd } ∧ s'.page.Within := by
  rw [Page.init] at h
  obtain ⟨_, t, h₁, h₂⟩ := returns_bind.mp (returns_get_bind.mp (returns_modify_bind.mp h))
  exact seekStart_within rfl h₁ (returns_modify.mp h₂)

theorem init_returns {memTable : List Entry} {vmEnd : ℕ} (hpos : 0 < vmEnd)
    (h : (Kmem.init vmEnd).Returns (bootMem memTable) u s') : Booted memTable vmEnd s' := by
  obtain ⟨_, s₁, hinit, hbody⟩ := returns_bind.mp h
  obtain ⟨pointer, map, cursor, rfl, hw⟩ := pageInit_returns hinit
  obtain ⟨initial, s₂, hbump, hbody⟩ := returns_bind.mp hbody
  have hbumped := allocNokmalloc_returns (.inr rfl) hbump
  obtain ⟨memBase, s₃, happ, hwrite⟩ := returns_bind.mp hbody
  have hwithin := hbumped.within hw
  have hcons := hbumped.consecutive_le hw
  obtain ⟨pageId, pointer', map', rfl⟩ := hbumped.state
  rw [Page.kinstallAppend] at happ
  obtain ⟨_, s₄, hlock, happ⟩ := returns_bind.mp happ
  obtain rfl := mutexLock_returns rfl hlock
  obtain ⟨first, s₅, hrun, hend⟩ := returns_bind.mp happ
  obtain ⟨⟨table, cursor', rfl⟩, -, hk⟩ := appendRun_returns hrun
  rw [returns_modify_bind] at hend
  obtain ⟨_, s₆, hunlock, hret⟩ := returns_bind.mp hend
  obtain rfl := returns_modify.mp hunlock
  obtain ⟨rfl, rfl⟩ := returns_pure (a := first).mp hret
  split_ifs at hwrite with hnull
  · exact absurd hwrite returns_stop
  obtain rfl := returns_modify.mp hwrite
  have hone : initial.consecutive = 1 := by
    refine le_antisymm hcons (Nat.one_le_iff_ne_zero.mpr fun hzero => hnull ?_)
    rw [hzero] at hrun
    exact (returns_pure.mp hrun).1
  obtain ⟨hbase, hroom⟩ := hk (by omega)
  have hbase : memBase = vmEnd := hbase hpos rfl
  rw [hone, Nat.one_mul] at hroom
  exact ⟨by rw [hbase]; exact initial_memoryEnd _ _ _, by rw [hone, Nat.one_mul], hroom, rfl, rfl,
    rfl, rfl, rfl, hwithin⟩

/-- The two chunks and the free block that `kmem::init` lays out. -/
theorem initial_eq (base : ℕ) (memTable : List Entry) :
    Kmem.initial base (bootMem memTable).kmem =
      { freeList := [⟨base + 36, 4048, base + 48⟩], freeEnd := base + 36, freeFreeStructs := [],
        memoryTotal := 4096, memoryUsed := 48, memoryEnd := base + 48 + 4048,
        headers := [⟨base + 28, 12, sentinelVal⟩, ⟨base, 20, sentinelVal⟩],
        pool := [(base, 4096)] } := by
  simp [Kmem.initial, bootMem, putHeader, unlink, sizes, Nat.add_assoc]

theorem Booted.memInv {memTable : List Entry} {vmEnd : ℕ} (h : Booted memTable vmEnd s)
    (hpos : 0 < vmEnd) : MemInv [] [] s := by
  have hk := h.kmem.trans (initial_eq vmEnd memTable)
  have hvirtual := h.virtualPointer
  simp only [sizes] at hvirtual
  have howned : s.page.owned = [] := by
    simp [PageState.owned, h.usedStart, h.pageFreeHead, h.emptySlot, pageRecords, slotRecords]
  have hweigh : ∀ w : Weight, s.kmem.weigh w [] = w.of vmEnd (vmEnd + 4096) := by
    intro w
    have h₁ := w.add (Nat.le_add_right vmEnd 28) (Nat.le_add_right (vmEnd + 28) 20)
    have h₂ := w.add (Nat.le_add_right vmEnd 48) (Nat.le_add_right (vmEnd + 48) 4048)
    rw [Kmem.weigh, Kmem.live, hk]
    simp only [Nat.add_assoc, Nat.reduceAdd] at h₁ h₂
    simp [liveOf, KmemHeader.finish, KmemFree.finish, sizes, Nat.add_assoc]
    omega
  have hpool : ∀ w : Weight, s.kmem.weighPool w = w.of vmEnd (vmEnd + 4096) := by
    intro w
    rw [Kmem.weighPool, hk]
    simp
  refine ⟨⟨by omega, ?_, fun a => ?_, fun a => ?_, ?_, ?_, ?_, ?_, ?_⟩, ?_⟩
  · simp [hk]
  · rw [hweigh, hpool]
  · rw [hpool]
    exact point_of_le_one _ _ _
  · simp [hk, hvirtual]
  · rw [hk]
    exact coalesced_singleton (by simp [KmemFree.finish])
  · simp [hk, lastPtr]
  · simp [howned, Kmem.records, hk]
  · simp [howned, Kmem.records, hk, Kmem.live, liveOf, sizes]
  · rw [hk, hvirtual]

end Boot

/-! ## Steps -/

section Steps
variable {w w' : World} {s s' : Mem} {owned : List (ℕ × ℕ)}

/-- A pointer that is live is owned with the size asked for; taking it out of the live
ones leaves the rest. -/
theorem World.owned_unlink {ptr : ℕ} (hn : (w.pointers.map Prod.fst).Nodup)
    (hptr : ptr ∈ w.pointers.map Prod.fst) :
    ∃ n, w.owned.Perm ((ptr, n) ::
      (unlink Prod.fst ptr w.pointers ++ w.chains.flatMap pageRecords)) := by
  obtain ⟨⟨p, n⟩, hmem, rfl⟩ := List.mem_map.mp hptr
  obtain ⟨pre, post, hl⟩ := List.append_of_mem hmem
  refine ⟨n, ?_⟩
  rw [World.owned, hl, unlink_eq (x := (p, n)) (hl ▸ hn)]
  simp only [List.append_assoc, List.cons_append]
  exact List.perm_middle

theorem World.owned_erase {page : List Page} (hpage : page ∈ w.chains) :
    w.owned.Perm (pageRecords page ++
      (w.pointers ++ (w.chains.erase page).flatMap pageRecords)) := by
  have hperm := (List.perm_cons_erase hpage).flatMap_right pageRecords
  rw [World.owned]
  refine (hperm.append_left _).trans ?_
  rw [List.flatMap_cons]
  grind

theorem MemInv.pointers_nodup (h : MemInv [] w.owned s) : (w.pointers.map Prod.fst).Nodup := by
  have hn := h.heap.nodup
  rw [World.owned, List.map_append, List.map_append, List.map_append] at hn
  exact hn.of_append_right.of_append_right.of_append_left

/-- What `kfree` and `kfree_nolock` do to a live pointer or to the null pointer. -/
theorem MemInv.give {ptr : ℕ} (h : MemInv [] w.owned s)
    (hptr : ptr = 0 ∨ ptr ∈ w.pointers.map Prod.fst)
    (hnull : ptr = 0 → s'.kmem = s.kmem ∧ s'.page = s.page)
    (hfree : ∀ n owned, MemInv [] ((ptr, n) :: owned) s → MemInv [] owned s') :
    MemInv [] (unlink Prod.fst ptr w.pointers ++ w.chains.flatMap pageRecords) s' := by
  by_cases hmem : ptr ∈ w.pointers.map Prod.fst
  · obtain ⟨n, hperm⟩ := World.owned_unlink h.pointers_nodup hmem
    exact hfree n _ (h.perm hperm.symm)
  · obtain ⟨hk, hp⟩ := hnull (hptr.resolve_right hmem)
    have hsame : unlink Prod.fst ptr w.pointers = w.pointers :=
      List.filter_eq_self.mpr fun p hp => decide_eq_true fun he =>
        hmem (List.mem_map.mpr ⟨p, hp, he⟩)
    rw [hsame]
    exact h.same hk (by rw [hp]) (by rw [hp])

theorem kfreeNolock_zero {depth : ℕ} {u : Unit} (h : (Kmem.kfreeNolock depth 0).Returns s u s') :
    s' = s := by
  rw [Kmem.kfreeNolock, if_pos rfl] at h
  exact (returns_pure.mp h).2

theorem kfree_zero {depth : ℕ} {u : Unit} (h : (Kmem.kfree depth 0).Returns s u s')
    (hs : s.mutex = false) : s'.kmem = s.kmem ∧ s'.page = s.page := by
  obtain ⟨_, s₀, hlock, hbody⟩ := returns_bind.mp h
  obtain rfl := mutexLock_returns hs hlock
  obtain ⟨_, s₁, hfree, hunlock⟩ := returns_bind.mp hbody
  obtain rfl := kfreeNolock_zero hfree
  obtain rfl := returns_modify.mp hunlock
  exact ⟨rfl, rfl⟩

/-- A call keeps the invariant for what is live after it. -/
theorem World.Step.memInv (h : w.Step w') (hw : MemInv [] w.owned w.mem) :
    MemInv [] w'.owned w'.mem := by
  obtain ⟨allows, returns⟩ := h
  rename_i c depth reply s
  have hw : MemInv [] w.owned { w.mem with mutex := c.held } := hw.same rfl rfl rfl
  suffices hs : MemInv [] (w.after { s with mutex := false } c reply).owned s by
    rw [World.after_mem]
    exact hs.same rfl rfl rfl
  cases c with
  | kmalloc size flags =>
    obtain ⟨ptr, s₁, hr, hret⟩ := returns_bind.mp returns
    obtain ⟨rfl, rfl⟩ := returns_pure.mp hret
    rcases kmalloc_memInv hr rfl hw with ⟨rfl, -, rfl⟩ | ⟨hsize, hw'⟩
    · exact hw
    · simpa [World.after, World.owned, hsize] using hw'
  | kfree ptr =>
    obtain ⟨_, s₁, hr, hret⟩ := returns_bind.mp returns
    obtain ⟨rfl, rfl⟩ := returns_pure.mp hret
    exact hw.give allows (fun h₀ => kfree_zero (h₀ ▸ hr) rfl) fun n owned h => kfree_memInv hr rfl h
  | kfreeNolock ptr =>
    obtain ⟨_, s₁, hr, hret⟩ := returns_bind.mp returns
    obtain ⟨rfl, rfl⟩ := returns_pure.mp hret
    refine hw.give allows (fun h₀ => ?_) fun n owned h => kfreeNolock_memInv hr rfl h
    obtain rfl := kfreeNolock_zero (h₀ ▸ hr)
    exact ⟨rfl, rfl⟩
  | alloc flags count =>
    obtain ⟨page, s₁, hr, hret⟩ := returns_bind.mp returns
    obtain ⟨rfl, rfl⟩ := returns_pure.mp hret
    refine (alloc_memInv hr rfl hw).perm ?_
    simp only [World.after, World.owned, List.flatMap_cons]
    grind
  | create base flags count =>
    obtain ⟨page, s₁, hr, hret⟩ := returns_bind.mp returns
    obtain ⟨rfl, rfl⟩ := returns_pure.mp hret
    refine (create_memInv hr rfl hw).perm ?_
    simp only [World.after, World.owned, List.flatMap_cons]
    grind
  | free page =>
    obtain ⟨_, s₁, hr, hret⟩ := returns_bind.mp returns
    obtain ⟨rfl, rfl⟩ := returns_pure.mp hret
    by_cases hpage : page ∈ w.chains
    · exact free_memInv hr rfl (hw.perm (World.owned_erase hpage).symm)
    · obtain rfl := allows.resolve_right hpage
      simpa [World.after, World.owned, List.erase_of_not_mem hpage] using free_memInv hr rfl hw
  | used page lock =>
    obtain ⟨_, s₁, hr, hret⟩ := returns_bind.mp returns
    obtain ⟨rfl, rfl⟩ := returns_pure.mp hret
    exact used_memInv hr rfl (hw.perm (World.owned_erase allows).symm)
  | kinstall page pageFlags =>
    obtain ⟨_, s₁, hr, hret⟩ := returns_bind.mp returns
    obtain ⟨rfl, rfl⟩ := returns_pure.mp hret
    exact kinstall_memInv hr rfl hw
  | kinstallAppend page pageFlags lock =>
    obtain ⟨_, s₁, hr, hret⟩ := returns_bind.mp returns
    obtain ⟨rfl, rfl⟩ := returns_pure.mp hret
    exact kinstallAppend_memInv hr rfl hw
  | kuninstall base page =>
    obtain ⟨_, s₁, hr, hret⟩ := returns_bind.mp returns
    obtain ⟨rfl, rfl⟩ := returns_pure.mp hret
    exact kuninstall_memInv hr rfl hw

/-- Between the calls the lock is free. -/
theorem World.Reachable.mutex {memTable : List Entry} (h : w.Reachable memTable) :
    w.mem.mutex = false := by
  obtain ⟨w₀, ⟨⟨vmEnd, hbase, -, hinit⟩, -, -⟩, hsteps⟩ := h
  cases hsteps with
  | refl => exact (init_returns (lt_of_lt_of_le (by decide) hbase) hinit).mutex
  | tail _ hstep =>
    cases hstep with
    | call allows returns => rw [World.after_mem]

/-- Every run keeps the invariant. -/
theorem World.Reachable.memInv {memTable : List Entry} (h : w.Reachable memTable) :
    MemInv [] w.owned w.mem := by
  obtain ⟨w₀, ⟨⟨vmEnd, hbase, -, hinit⟩, hpointers, hchains⟩, hsteps⟩ := h
  induction hsteps with
  | refl =>
    rw [World.owned, hpointers, hchains]
    refine (init_returns ?_ hinit).memInv ?_ <;>
      · simp only [kernelVmBase, sizes] at hbase
        omega
  | tail _ hstep ih => exact hstep.memInv ih

end Steps

/-! ## Soundness -/

section Sound
variable {w : World}

/-- The header in front of a chunk in use is the header of a live chunk. -/
theorem MemInv.header (h : MemInv [] w.owned w.mem) {p : ℕ × ℕ} (hp : p ∈ w.chunks) :
    ∃ hdr ∈ w.mem.kmem.live, hdr.ptr + sizeofHeader = p.1 ∧ p.2 ≤ hdr.size ∧
      w.mem.kmem.header p.1 = some hdr := by
  obtain ⟨hdr, hhdr, hptr, hsize⟩ := h.heap.backed p hp
  refine ⟨hdr, hhdr, hptr, hsize, ?_⟩
  rw [Kmem.header, show p.1 - sizeofHeader = hdr.ptr by omega]
  exact find?_ptr_of_mem h.heap.headers (List.mem_filter.mp hhdr).1

/-- The byte of a chunk in use, as a byte of a live chunk. -/
theorem MemInv.inChunk (h : MemInv [] w.owned w.mem) {p : ℕ × ℕ} (hp : p ∈ w.chunks) {a : ℕ}
    (ha : w.mem.kmem.InChunk p.1 a) : ∃ hdr ∈ w.mem.kmem.live,
      hdr.ptr + sizeofHeader = p.1 ∧ hdr.ptr ≤ a ∧ a < hdr.finish := by
  obtain ⟨hdr, hhdr, hptr, -, hfind⟩ := h.header hp
  obtain ⟨hdr', hfind', ha⟩ := ha
  obtain rfl := Option.some.inj (hfind.symm.trans hfind')
  exact ⟨hdr, hhdr, hptr, ha⟩

theorem MemInv.weigh_le_one (h : MemInv [] w.owned w.mem) (a : ℕ) :
    Runs.weigh (.point a) KmemHeader.ptr KmemHeader.finish w.mem.kmem.live +
      Runs.weigh (.point a) KmemFree.base KmemFree.finish w.mem.kmem.freeList ≤ 1 := by
  have := (h.heap.within a).trans (h.heap.once a)
  rwa [Kmem.weigh, List.append_nil] at this

theorem MemInv.sound (h : MemInv [] w.owned w.mem) : w.Sound where
  size p hp := by
    obtain ⟨hdr, -, hptr, hsize, hfind⟩ := h.header hp
    exact ⟨hdr, hfind, hptr, hsize⟩
  apart := by
    have hn : (w.chunks.map Prod.fst).Nodup := h.heap.nodup
    rw [List.Nodup, List.pairwise_map] at hn
    refine hn.imp_of_mem fun {p q} hp hq hne a hpa hqa => ?_
    obtain ⟨hdr, hhdr, hptr, ha⟩ := h.inChunk hp hpa
    obtain ⟨hdr', hhdr', hptr', ha'⟩ := h.inChunk hq hqa
    have hne' : hdr ≠ hdr' := fun he => hne (by rw [← hptr, ← hptr', he])
    exact apart_of_weigh_point (Nat.le_of_add_right_le (h.weigh_le_one a)) hhdr hhdr' hne' ha ha'
  inPool p hp a ha := by
    obtain ⟨hdr, hhdr, -, ha⟩ := h.inChunk hp ha
    have hone := one_le_weigh_point hhdr ha
    have hpool := h.heap.within a
    rw [Kmem.weigh, List.append_nil] at hpool
    exact exists_of_one_le_weigh_point (show 1 ≤ w.mem.kmem.weighPool (.point a) by omega)
  notFree p hp a ha hfree := by
    obtain ⟨hdr, hhdr, -, ha⟩ := h.inChunk hp ha
    obtain ⟨free, hfree, hfa⟩ := hfree
    have h₁ := one_le_weigh_point hhdr ha
    have h₂ : 1 ≤ Runs.weigh (.point a) KmemFree.base KmemFree.finish w.mem.kmem.freeList :=
      one_le_weigh_point hfree hfa
    have h₃ := h.weigh_le_one a
    omega
  gap := h.heap.coalesced.gap
  nonempty free hfree := by
    have := h.heap.coalesced.pos free hfree
    simp only [KmemFree.finish] at this
    omega
  freeEnd := h.heap.freeEnd
  freeEnd_null := by
    rw [h.heap.freeEnd]
    constructor
    · intro hzero
      by_contra hne
      obtain ⟨free, hfree, he⟩ := List.mem_map.mp
        (lastPtr_mem hne : lastPtr KmemFree.ptr w.mem.kmem.freeList ∈ _)
      exact h.heap.ptr_pos hfree (he.trans hzero)
    · intro hnil
      rw [hnil, lastPtr_nil]
  records := h.heap.structs_nodup

/-- In every state of every run the heap is sound. -/
theorem heap_sound {memTable : List Entry} (h : w.Reachable memTable) : w.Sound := h.memInv.sound

/-- After a request that makes the heap grow. -/
theorem heap_sound_roomy : (World.roomy.run 12 (.kmalloc 8000 0)).Sound :=
  heap_sound (World.roomy_reachable.run (by decide +kernel) (by decide +kernel))

end Sound

end Cantos
