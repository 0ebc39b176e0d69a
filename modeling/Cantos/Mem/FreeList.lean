import Cantos.Mem.Frames
import Cantos.Mem.Init

/-!
# The list of free frames

`page::free` keeps `page_free_head` in order, without overlaps and fully joined.  What it
leaves is determined by the frames that are free: the frames of the list and of the chain.

A record that a join gives up is freed, and for that the heap may need a record of its own,
`_get_struct`.  Where neither a used one nor a free block is left, the heap grows in the
middle of the call, and a growth that returns has taken the first entry of this list.

## Main definitions

* `Mem.Sheds`: what freeing a record does to the list of free frames.
* `Page.Canonical`: the runs of the list are in order, apart and joined.
* `Mem.Freed`: what a call of `page::free` does to the list.
* `Page.freeEach`: `page::free` of one chain after the other.
-/

namespace Cantos

open Exec Linked Runs

/-! ## Freeing a record -/

/-- The frames of a chain, counted. -/
def Page.total (l : List Page) : ℕ := (l.map Page.consecutive).sum

/-- The heap has grown by the runs `taken`, the first entries of the list of free frames. -/
structure Mem.Sheds (taken : List Page) (s s' : Mem) : Prop where
  list : s.page.pageFreeHead = taken ++ s'.page.pageFreeHead
  memoryTotal : s'.kmem.memoryTotal = s.kmem.memoryTotal + Page.total taken * pageSize

section Sheds
variable {taken taken' : List Page} {s s₁ s' : Mem} {depth r : ℕ} {u : Unit}

theorem Mem.Sheds.refl (hlist : s'.page.pageFreeHead = s.page.pageFreeHead)
    (htotal : s'.kmem.memoryTotal = s.kmem.memoryTotal) : Mem.Sheds [] s s' :=
  ⟨hlist.symm, by simp [htotal, Page.total]⟩

theorem Mem.Sheds.trans (h : Mem.Sheds taken s s₁) (h' : Mem.Sheds taken' s₁ s') :
    Mem.Sheds (taken ++ taken') s s' := by
  refine ⟨by rw [h.list, h'.list, List.append_assoc], ?_⟩
  rw [h'.memoryTotal, h.memoryTotal, Page.total, Page.total, Page.total, List.map_append,
    List.sum_append, Nat.add_mul, Nat.add_assoc]

theorem grown_memoryTotal (page : Page) (table : ℕ → ℕ) (cursor prev n loc : ℕ) (s : Mem) :
    (s.grown page table cursor prev n loc).kmem.memoryTotal =
      s.kmem.memoryTotal + n * pageSize :=
  attach_memoryTotal loc

theorem mergeFree_memoryTotal (first : ℕ) (k : Kmem) :
    (k.mergeFree first).memoryTotal = k.memoryTotal := by
  rw [Kmem.mergeFree]
  split <;> rfl

theorem insertFree_memoryTotal (newEntry hdr fullSize : ℕ) (k : Kmem) :
    (k.insertFree newEntry hdr fullSize).memoryTotal = k.memoryTotal := by
  rw [Kmem.insertFree]
  split
  · rfl
  · dsimp only
    split_ifs <;> simp only [mergeFree_memoryTotal]

/-- A reserved request for a record that finds no block cannot have a record of its own
either: the growth takes a whole entry of the list of free frames. -/
theorem Grants.sheds {flags : Flags} (h : Grants sizeofPage flags s r s')
    (hf : flags.has kmallocReserved = true) : ∃ taken, Mem.Sheds taken s s' := by
  induction h with
  | served fit => exact ⟨[], .refl rfl takeBlock_memoryTotal⟩
  | @grown s prev page s₁ table cursor loc r s' fit gets _ _ _ ih =>
    obtain ⟨taken, htaken⟩ := ih
    rw [Kmem.search_reserved hf] at fit
    generalize hn : s.kmem.pagesNeeded prev (Kmem.sizeNeeded sizeofPage) = n at gets htaken
    cases gets with
    | fresh _ fit' _ _ => exact absurd (fit.symm.trans fit') (by simp)
    | cut _ _ fit' => exact absurd (fit.symm.trans fit') (by simp)
    | @whole head next entries enough =>
      have hhead : Mem.Sheds [head] s (Mem.grown { head with flags := growthFlags } table cursor
          prev n loc { s with page.pageFreeHead := next }) := by
        refine ⟨entries, ?_⟩
        rw [grown_memoryTotal]
        simp [Page.total, enough]
      exact ⟨[head] ++ taken, hhead.trans htaken⟩

theorem getStruct_sheds (hr : (Kmem.getStruct depth).Returns s r s') (hs : s.mutex = true) :
    ∃ taken, Mem.Sheds taken s s' := by
  rw [Kmem.getStruct, returns_get_bind] at hr
  rcases hfree : s.kmem.freeFreeStructs with _ | ⟨hold, next⟩
  · simp only [hfree] at hr
    rcases depth with _ | depth
    · exact absurd hr returns_stop
    rw [kmalloc_nolock (by decide)] at hr
    exact (doKmalloc_grants hs (by decide) hr).sheds (by decide)
  · simp only [hfree, returns_set_bind] at hr
    obtain ⟨-, rfl⟩ := returns_pure.mp hr
    exact ⟨[], .refl rfl rfl⟩

/-- Freeing a record changes the list of free frames by growths only. -/
theorem kfreeNolock_sheds {ptr : ℕ} (hr : (Kmem.kfreeNolock depth ptr).Returns s u s')
    (hs : s.mutex = true) : ∃ taken, Mem.Sheds taken s s' := by
  rw [Kmem.kfreeNolock] at hr
  split_ifs at hr with hnull
  · obtain ⟨-, rfl⟩ := returns_pure.mp hr
    exact ⟨[], .refl rfl rfl⟩
  rw [returns_get_bind] at hr
  rcases hfind : s.kmem.headers.find? (·.ptr = ptr - sizeofHeader) with _ | hdr
  · simp only [hfind] at hr
    exact absurd hr returns_stop
  simp only [hfind] at hr
  split_ifs at hr
  · exact absurd hr returns_stop
  · exact absurd hr returns_stop
  rw [returns_modify_bind] at hr
  obtain ⟨newEntry, s₁, hget, hlink⟩ := returns_bind.mp hr
  obtain rfl := returns_modify.mp hlink
  obtain ⟨taken, htaken⟩ := getStruct_sheds hget (by exact hs)
  refine ⟨taken, htaken.list, ?_⟩
  rw [setUsed_memoryTotal, insertFree_memoryTotal]
  exact htaken.memoryTotal

end Sheds

/-! ## Joining -/

/-- Two runs as one. -/
def Page.joinRun (first hold : Page) : Page :=
  { first with consecutive := first.consecutive + hold.consecutive }

theorem Page.ptr_joinRun (first hold : Page) : (first.joinRun hold).ptr = first.ptr := rfl

theorem Page.memBase_joinRun (first hold : Page) :
    (first.joinRun hold).memBase = first.memBase := rfl

theorem Page.runEnd_joinRun (first hold : Page) (h : first.runEnd = hold.memBase) :
    (first.joinRun hold).runEnd = hold.runEnd := by
  simp only [Page.runEnd, Page.joinRun] at *
  rw [Nat.add_mul]
  omega

/-- The code compares and adds 32-bit numbers, which makes no difference in memory. -/
theorem touches_iff {first hold : Page} (hfirst : first.runEnd ≤ 2 ^ 32) (hpos : 0 < hold.memBase)
    (hlt : hold.memBase < 2 ^ 32) : first.touches hold = true ↔ first.runEnd = hold.memBase := by
  have heq : add32 first.memBase (mul32 first.consecutive pageSize) = first.runEnd % 2 ^ 32 := by
    rw [add32, mul32, Nat.add_mod_mod, Page.runEnd]
  rw [Page.touches, beq_iff_eq, heq]
  rcases hfirst.eq_or_lt with hend | hend
  · rw [hend]
    omega
  · rw [Nat.mod_eq_of_lt hend]

theorem join_eq {first hold : Page} (hfirst : first.runEnd ≤ 2 ^ 32)
    (hhold : hold.runEnd ≤ 2 ^ 32) : first.join hold = first.joinRun hold := by
  have hlt : first.consecutive + hold.consecutive < 2 ^ 32 := by
    simp only [Page.runEnd, sizes] at hfirst hhold
    omega
  rw [Page.join, Page.joinRun, add32, Nat.mod_eq_of_lt hlt]

/-- The list of free frames: in order, without overlaps and fully joined, in physical memory,
with a record of its own for every run. -/
structure Page.Canonical (l : List Page) : Prop where
  coalesced : Coalesced Page.memBase Page.runEnd l
  bounded : ∀ page ∈ l, page.runEnd ≤ 2 ^ 32
  records : (l.map Page.ptr).Nodup

section Merge
variable {s s' : Mem} {depth : ℕ} {u : Unit} {pre post : List Page} {x : Page}

theorem mergeFree_of_some {first : ℕ} {l : List Page} {hold : Page}
    (hr : (Page.mergeFree depth first).Returns s u s') (hs : s.mutex = true)
    (hjoin : joinNext Page.ptr Page.touches Page.join first s.page.pageFreeHead = some (l, hold)) :
    ∃ taken, Mem.Sheds taken { s with page.pageFreeHead := l } s' := by
  rw [Page.mergeFree, returns_get_bind, hjoin] at hr
  exact kfreeNolock_sheds hr hs

/-- Where the list has nothing to join, the used runs may have. -/
theorem mergeFree_of_none {first : ℕ} (hr : (Page.mergeFree depth first).Returns s u s')
    (hs : s.mutex = true)
    (hjoin : joinNext Page.ptr Page.touches Page.join first s.page.pageFreeHead = none) :
    ∃ taken, Mem.Sheds taken s s' := by
  rw [Page.mergeFree, returns_get_bind, hjoin] at hr
  rcases hused : joinNext Page.ptr Page.touches Page.join first s.page.usedStart with _ | ⟨l, hold⟩
  · simp only [hused] at hr
    obtain ⟨-, rfl⟩ := returns_pure.mp hr
    exact ⟨[], .refl rfl rfl⟩
  · simp only [hused, returns_set_bind] at hr
    obtain ⟨taken, htaken⟩ := kfreeNolock_sheds hr hs
    exact ⟨taken, htaken.list, htaken.memoryTotal⟩

/-- `_merge_free` on a run of the list. -/
theorem mergeFree_sheds (hr : (Page.mergeFree depth x.ptr).Returns s u s') (hs : s.mutex = true)
    (hl : s.page.pageFreeHead = pre ++ x :: post) (hn : ((pre ++ x :: post).map Page.ptr).Nodup)
    (hb : ∀ z ∈ x :: post, z.runEnd ≤ 2 ^ 32)
    (hpos : ∀ z ∈ post, 0 < z.memBase ∧ z.memBase < z.runEnd) :
    ∃ taken, Mem.Sheds taken { s with
      page.pageFreeHead := pre ++ joinRight Page.memBase Page.runEnd Page.joinRun x post } s' := by
  have hjoin : joinNext Page.ptr Page.touches Page.join x.ptr (pre ++ x :: post) = _ :=
    joinNext_eq hn
  rw [← hl] at hjoin
  have hsame : s = { s with page.pageFreeHead := pre ++ x :: post } := by rw [← hl]
  cases post with
  | nil =>
    obtain ⟨taken, htaken⟩ := mergeFree_of_none hr hs hjoin
    exact ⟨taken, hsame ▸ htaken⟩
  | cons y post =>
    have hx := hb x List.mem_cons_self
    have hy := hb y (List.mem_cons_of_mem _ List.mem_cons_self)
    obtain ⟨hbase, hlt⟩ := hpos y List.mem_cons_self
    have htouch := touches_iff hx hbase (hlt.trans_le hy)
    rw [joinRight]
    by_cases hxy : x.runEnd = y.memBase
    · simp only [if_pos (htouch.mpr hxy)] at hjoin
      rw [if_pos hxy, ← join_eq hx hy]
      exact mergeFree_of_some hr hs hjoin
    · simp only [if_neg fun h => hxy (htouch.mp h)] at hjoin
      rw [if_neg hxy]
      obtain ⟨taken, htaken⟩ := mergeFree_of_none hr hs hjoin
      exact ⟨taken, hsame ▸ htaken⟩

/-- `_merge_free` on a record that is not in the list. -/
theorem mergeFree_sheds_of_notMem {first : ℕ}
    (hr : (Page.mergeFree depth first).Returns s u s') (hs : s.mutex = true)
    (hfirst : first ∉ s.page.pageFreeHead.map Page.ptr) : ∃ taken, Mem.Sheds taken s s' := by
  refine mergeFree_of_none hr hs (Option.eq_none_iff_forall_not_mem.mpr fun ⟨l, hold⟩ h => ?_)
  obtain ⟨pre, x, post, hl, hx, -, -⟩ := joinNext_eq_some h
  exact hfirst (List.mem_map.mpr ⟨x, by simp [hl], hx⟩)

end Merge

/-! ## Freeing a chain -/

/-- How often the runs of a chain cover the address `a`. -/
def Page.covers (l : List Page) (a : ℕ) : ℕ := weigh (.point a) Page.memBase Page.runEnd l

/-- The list after a call: it is canonical, and the frames of the list before and of the chain
are those of the list and of the runs `taken` that the heap has grown by. -/
structure Mem.Freed (chain taken : List Page) (s s' : Mem) : Prop where
  canonical : Page.Canonical s'.page.pageFreeHead
  covers : ∀ a, Page.covers s'.page.pageFreeHead a + Page.covers taken a =
    Page.covers s.page.pageFreeHead a + Page.covers chain a
  memoryTotal : s'.kmem.memoryTotal = s.kmem.memoryTotal + Page.total taken * pageSize
  records : ∀ p ∈ s'.page.pageFreeHead.map Page.ptr,
    p ∈ s.page.pageFreeHead.map Page.ptr ∨ p ∈ chain.map Page.ptr

/-- A chain that may be freed: nonempty runs in memory, with records of their own, whose frames
are neither in the list nor twice in the chain. -/
structure Mem.Frees (chain : List Page) (s : Mem) : Prop where
  canonical : Page.Canonical s.page.pageFreeHead
  positive : ∀ page ∈ chain, 0 < page.consecutive
  bounded : ∀ page ∈ chain, page.runEnd ≤ 2 ^ 32
  records : ((s.page.pageFreeHead ++ chain).map Page.ptr).Nodup
  apart : ∀ a, Page.covers s.page.pageFreeHead a + Page.covers chain a ≤ 1

section Free
variable {s s₁ s' : Mem} {depth : ℕ} {u : Unit} {chain next taken taken' l : List Page} {page : Page}

theorem Page.memBase_lt_runEnd (h : 0 < page.consecutive) : page.memBase < page.runEnd := by
  simp only [Page.runEnd, sizes]
  omega

@[simp] theorem covers_nil (a : ℕ) : Page.covers [] a = 0 := rfl

@[simp] theorem covers_cons (a : ℕ) : Page.covers (page :: l) a =
    (Weight.point a).of page.memBase page.runEnd + Page.covers l a := weigh_cons _

@[simp] theorem covers_append (a : ℕ) :
    Page.covers (l ++ next) a = Page.covers l a + Page.covers next a := weigh_append _

/-- The list in two parts, between which the run is put. -/
structure Mem.Between (s : Mem) (page : Page) (before after : List Page) : Prop where
  list : before ++ after = s.page.pageFreeHead
  start : ∀ p ∈ before, p.memBase < page.memBase
  before : ∀ p ∈ before, p.runEnd ≤ page.memBase
  after : ∀ y ∈ after, page.runEnd ≤ y.memBase

theorem Mem.Frees.apart_of_mem (h : s.Frees [page]) {z : Page} (hz : z ∈ s.page.pageFreeHead)
    {a : ℕ} (hle : page.memBase ≤ a) (hlt : a < page.runEnd) (hza : z.memBase ≤ a) :
    z.runEnd ≤ a := by
  by_contra hin
  have hone : 1 ≤ Page.covers s.page.pageFreeHead a :=
    one_le_weigh_point hz ⟨hza, not_le.mp hin⟩
  have hsum := h.apart a
  rw [covers_cons, point_of_mem ⟨hle, hlt⟩] at hsum
  omega

/-- The run goes between those that begin before it and the others. -/
theorem Mem.Frees.between (h : s.Frees [page]) :
    s.Between page (s.page.pageFreeHead.takeWhile fun now => now.memBase < page.memBase)
      (s.page.pageFreeHead.dropWhile fun now => now.memBase < page.memBase) := by
  have hpos := Page.memBase_lt_runEnd (h.positive page List.mem_cons_self)
  refine ⟨List.takeWhile_append_dropWhile, fun p hp => lt_of_mem_takeWhile hp, ?_, ?_⟩
  · intro p hp
    have hlt := lt_of_mem_takeWhile hp
    exact h.apart_of_mem ((List.takeWhile_prefix _).subset hp) le_rfl hpos hlt.le
  · intro y hy
    have hle := h.canonical.coalesced.le_of_mem_dropWhile hy
    have hmem := (List.dropWhile_suffix _).subset hy
    have hypos := h.canonical.coalesced.pos y hmem
    by_contra hlt
    have hend := h.apart_of_mem hmem hle (not_le.mp hlt) le_rfl
    omega

/-- A run with what follows it. -/
def Page.joined (page : Page) (after : List Page) : List Page :=
  joinRight Page.memBase Page.runEnd Page.joinRun page after

theorem total_append : Page.total (l ++ next) = Page.total l + Page.total next := by
  rw [Page.total, List.map_append, List.sum_append, ← Page.total, ← Page.total]

/-- Runs that cover no more than runs in memory are in memory. -/
theorem bounded_of_covers (hl : Coalesced Page.memBase Page.runEnd l)
    (hnext : ∀ z ∈ next, z.runEnd ≤ 2 ^ 32) (h : ∀ a, Page.covers l a ≤ Page.covers next a) :
    ∀ z ∈ l, z.runEnd ≤ 2 ^ 32 := by
  intro z hz
  have hpos := hl.pos z hz
  have hlast : z.memBase ≤ z.runEnd - 1 ∧ z.runEnd - 1 < z.runEnd := by omega
  have hone : 1 ≤ Page.covers l (z.runEnd - 1) := one_le_weigh_point hz hlast
  obtain ⟨y, hy, -, hlt⟩ := exists_of_one_le_weigh_point (hone.trans (h _))
  have hle := hnext y hy
  omega

theorem Mem.Frees.bounded_all (h : s.Frees chain) :
    ∀ z ∈ s.page.pageFreeHead ++ chain, z.runEnd ≤ 2 ^ 32 := by
  intro z hz
  rcases List.mem_append.mp hz with hz | hz
  · exact h.canonical.bounded z hz
  · exact h.bounded z hz

/-! The list with the run in it, joined with what follows. -/

section Joined
variable {before after : List Page}

theorem Mem.Between.perm (h : s.Between page before after) :
    (before ++ page :: after).Perm (s.page.pageFreeHead ++ [page]) := by
  rw [← h.list]
  exact List.perm_middle.trans (List.perm_append_singleton page _).symm

theorem Mem.Between.nodup (h : s.Between page before after) (hfrees : s.Frees [page]) :
    ((before ++ page :: after).map Page.ptr).Nodup :=
  (h.perm.map Page.ptr).nodup_iff.mpr hfrees.records

theorem Mem.Between.bounded (h : s.Between page before after) (hfrees : s.Frees [page]) :
    ∀ z ∈ before ++ page :: after, z.runEnd ≤ 2 ^ 32 :=
  fun z hz => hfrees.bounded_all z (h.perm.subset hz)

/-- The list after the two joins, when `l` is the list before the heap has taken runs. -/
theorem Mem.Frees.freed (h : s.Frees [page])
    (hb : s.Between page before after) (hl : l = taken ++ s'.page.pageFreeHead)
    (hcovers : ∀ a, Page.covers l a = Page.covers s.page.pageFreeHead a + Page.covers [page] a)
    (hrecords : (l.map Page.ptr).Sublist ((before ++ page :: after).map Page.ptr))
    (hcoalesced : Coalesced Page.memBase Page.runEnd s'.page.pageFreeHead)
    (htotal : s'.kmem.memoryTotal = s.kmem.memoryTotal + Page.total taken * pageSize) :
    Mem.Freed [page] taken s s' := by
  have hsum : ∀ a, Page.covers s'.page.pageFreeHead a + Page.covers taken a =
      Page.covers s.page.pageFreeHead a + Page.covers [page] a := by
    intro a
    rw [← hcovers a, hl, covers_append, Nat.add_comm]
  have hsub : (s'.page.pageFreeHead.map Page.ptr).Sublist ((before ++ page :: after).map Page.ptr) :=
    ((List.sublist_append_right taken _).map Page.ptr).trans (hl ▸ hrecords)
  refine ⟨⟨hcoalesced, ?_, hsub.nodup (hb.nodup h)⟩, hsum, htotal, ?_⟩
  · refine bounded_of_covers hcoalesced h.bounded_all fun a => ?_
    rw [covers_append, ← hsum a]
    exact Nat.le_add_right _ _
  · intro p hp
    have hmem := (hb.perm.map Page.ptr).subset (hsub.subset hp)
    rw [List.map_append] at hmem
    exact List.mem_append.mp hmem

theorem Mem.Between.coalesced (h : s.Between page before after) (hfrees : s.Frees [page]) :
    Coalesced Page.memBase Page.runEnd (before ++ after) :=
  h.list ▸ hfrees.canonical.coalesced

theorem Mem.Between.coalesced_after (h : s.Between page before after) (hfrees : s.Frees [page]) :
    Coalesced Page.memBase Page.runEnd after :=
  (coalesced_append.mp (h.coalesced hfrees)).2.1

theorem Mem.Frees.pos (h : s.Frees [page]) : page.memBase < page.runEnd :=
  Page.memBase_lt_runEnd (h.positive page List.mem_cons_self)

theorem Mem.Between.coalesced_joined (h : s.Between page before after)
    (hfrees : s.Frees [page]) : Coalesced Page.memBase Page.runEnd (page.joined after) :=
  coalesced_joinRight Page.memBase_joinRun Page.runEnd_joinRun hfrees.pos
    (h.coalesced_after hfrees) h.after

theorem Mem.Between.le_joined (h : s.Between page before after) (hfrees : s.Frees [page])
    {z : Page} (hz : z ∈ page.joined after) : page.memBase ≤ z.memBase :=
  le_of_mem_joinRight Page.memBase_joinRun hfrees.pos h.after hz

/-- Joining changes no frame. -/
theorem covers_joined {x : Page} (hx : x.memBase ≤ x.runEnd)
    (hafter : ∀ z ∈ after, z.memBase ≤ z.runEnd) (a : ℕ) :
    Page.covers (x.joined after) a = Page.covers (x :: after) a := by
  rw [covers_cons]
  exact weigh_joinRight (.point a) Page.memBase_joinRun Page.runEnd_joinRun hx hafter

theorem map_ptr_joined_sublist (x : Page) (after : List Page) :
    ((x.joined after).map Page.ptr).Sublist ((x :: after).map Page.ptr) :=
  map_joinRight_sublist Page.ptr_joinRun

theorem Mem.Between.covers (h : s.Between page before after) (hfrees : s.Frees [page]) (a : ℕ) :
    Page.covers (before ++ page.joined after) a =
      Page.covers s.page.pageFreeHead a + Page.covers [page] a := by
  have hafter : ∀ z ∈ after, z.memBase ≤ z.runEnd := fun z hz =>
    ((h.coalesced_after hfrees).pos z hz).le
  rw [← h.list, covers_append, covers_append, covers_joined hfrees.pos.le hafter, covers_cons,
    covers_cons, covers_nil]
  omega

theorem Mem.Between.records : ((before ++ page.joined after).map Page.ptr).Sublist
    ((before ++ page :: after).map Page.ptr) := by
  rw [List.map_append, List.map_append]
  exact List.Sublist.append_left (map_ptr_joined_sublist page after) _

theorem Mem.Between.bounded_joined (h : s.Between page before after) (hfrees : s.Frees [page]) :
    ∀ z ∈ page.joined after, z.runEnd ≤ 2 ^ 32 := by
  refine bounded_of_covers (h.coalesced_joined hfrees) hfrees.bounded_all fun a => ?_
  rw [covers_append, ← h.covers hfrees, covers_append]
  exact Nat.le_add_left _ _

/-- The first join. -/
theorem Mem.Between.first (h : s.Between page before after) (hfrees : s.Frees [page])
    (hs : s.mutex = true) (hr : (Page.mergeFree depth page.ptr).Returns
      { s with page.pageFreeHead := before ++ page :: after } u s₁) :
    ∃ taken, Mem.Sheds taken { s with page.pageFreeHead := before ++ page.joined after } s₁ := by
  refine mergeFree_sheds (s := { s with page.pageFreeHead := before ++ page :: after }) hr hs rfl
    (h.nodup hfrees) (fun z hz => h.bounded hfrees z (List.mem_append_right _ hz)) fun z hz => ?_
  have hle := h.after z hz
  have hpos := hfrees.pos
  exact ⟨by omega, (h.coalesced_after hfrees).pos z hz⟩

/-- The second join, where the heap has taken the run before: its record is among the used
ones by now. -/
theorem Mem.Between.second_taken {pre c : List Page} {p : Page}
    (h : s.Between page (pre ++ [p]) after) (hfrees : s.Frees [page]) (hs : s₁.mutex = true)
    (hfirst : Mem.Sheds taken { s with page.pageFreeHead := pre ++ [p] ++ page.joined after } s₁)
    (hc : page.joined after = c ++ s₁.page.pageFreeHead)
    (hr : (Page.mergeFree depth p.ptr).Returns s₁ u s') :
    ∃ taken, Mem.Freed [page] taken s s' := by
  have hlist := hfirst.list
  simp only at hlist
  have hnotMem : p.ptr ∉ s₁.page.pageFreeHead.map Page.ptr := by
    have hnodup := Mem.Between.records.nodup (h.nodup hfrees)
    rw [hc, List.append_assoc, List.map_append, List.singleton_append, List.map_cons,
      List.map_append] at hnodup
    have hp := (List.nodup_cons.mp (List.nodup_append.mp hnodup).2.1).1
    exact fun hmem => hp (List.mem_append_right _ hmem)
  obtain ⟨taken', htaken'⟩ := mergeFree_sheds_of_notMem hr hs hnotMem
  refine ⟨taken ++ taken', hfrees.freed h ?_ (h.covers hfrees) Mem.Between.records ?_ ?_⟩
  · rw [hlist, htaken'.list, List.append_assoc]
  · have hjoined := h.coalesced_joined hfrees
    rw [hc, htaken'.list] at hjoined
    exact (coalesced_append.mp (coalesced_append.mp hjoined).2.1).2.1
  · rw [htaken'.memoryTotal, hfirst.memoryTotal, total_append, Nat.add_mul, Nat.add_assoc]

/-- The second join, where the run before is still in the list, and may touch the run. -/
theorem Mem.Between.second_kept {pre c : List Page} {p : Page}
    (h : s.Between page (pre ++ [p]) after) (hfrees : s.Frees [page]) (hs : s₁.mutex = true)
    (hfirst : Mem.Sheds taken { s with page.pageFreeHead := pre ++ [p] ++ page.joined after } s₁)
    (hpre : pre = taken ++ c) (hlist : s₁.page.pageFreeHead = c ++ p :: page.joined after)
    (hr : (Page.mergeFree depth p.ptr).Returns s₁ u s') :
    ∃ taken, Mem.Freed [page] taken s s' := by
  have hp : p ∈ pre ++ [p] := by simp
  have hn : ((c ++ p :: page.joined after).map Page.ptr).Nodup := by
    have hnodup := Mem.Between.records.nodup (h.nodup hfrees)
    rw [hpre, List.append_assoc, List.append_assoc, List.map_append] at hnodup
    exact (List.nodup_append.mp hnodup).2.1
  have hbounded : ∀ z ∈ p :: page.joined after, z.runEnd ≤ 2 ^ 32 := by
    intro z hz
    rcases List.mem_cons.mp hz with rfl | hz
    · exact h.bounded hfrees z (List.mem_append_left _ hp)
    · exact h.bounded_joined hfrees z hz
  have hpos : ∀ z ∈ page.joined after, 0 < z.memBase ∧ z.memBase < z.runEnd := by
    intro z hz
    have hlt := h.start p hp
    have hle := h.le_joined hfrees hz
    exact ⟨by omega, (h.coalesced_joined hfrees).pos z hz⟩
  obtain ⟨taken', htaken'⟩ := mergeFree_sheds hr hs hlist hn hbounded hpos
  have hlist' : c ++ p.joined (page.joined after) = taken' ++ s'.page.pageFreeHead := htaken'.list
  have hcovers : ∀ a, Page.covers (p.joined (page.joined after)) a =
      Page.covers (p :: page.joined after) a :=
    covers_joined ((h.coalesced hfrees).pos p (List.mem_append_left _ hp)).le
      fun z hz => (hpos z hz).2.le
  have hinsert : Coalesced Page.memBase Page.runEnd
      (pre ++ p.joined (page.joined after)) := by
    rw [Page.joined, Page.joined, ← insertRun_append_singleton]
    exact coalesced_insertRun Page.memBase_joinRun Page.runEnd_joinRun hfrees.pos
      (h.coalesced hfrees) h.before h.after
  refine ⟨taken ++ taken', hfrees.freed (l := pre ++ p.joined (page.joined after)) h
    ?_ ?_ ?_ ?_ ?_⟩
  · rw [hpre, List.append_assoc, List.append_assoc, hlist']
  · intro a
    rw [← h.covers hfrees a, covers_append, hcovers, List.append_assoc, List.singleton_append,
      covers_append]
  · refine List.Sublist.trans ?_ Mem.Between.records
    rw [List.append_assoc, List.singleton_append, List.map_append, List.map_append]
    exact List.Sublist.append_left (map_ptr_joined_sublist p _) _
  · rw [hpre, List.append_assoc, hlist'] at hinsert
    exact (coalesced_append.mp (coalesced_append.mp hinsert).2.1).2.1
  · rw [htaken'.memoryTotal, hfirst.memoryTotal, total_append, Nat.add_mul, Nat.add_assoc]

end Joined

/-- `page::free` of one run, with the lock held. -/
theorem freeRun_freed (hr : (Page.freeRun depth page).Returns s u s') (hs : s.mutex = true)
    (h : s.Frees [page]) : ∃ taken, Mem.Freed [page] taken s s' := by
  have hb := h.between
  rw [Page.freeRun, returns_get_bind] at hr
  simp only [returns_set_bind] at hr
  obtain ⟨_, s₁, hmerge, hrest⟩ := returns_bind.mp hr
  obtain ⟨taken, htaken⟩ := hb.first h hs hmerge
  have hs₁ : s₁.mutex = true := (locks_mergeFree depth page.ptr).returns hmerge hs
  generalize s.page.pageFreeHead.takeWhile (fun now => decide (now.memBase < page.memBase)) =
    before at hb hrest htaken
  generalize s.page.pageFreeHead.dropWhile (fun now => decide (now.memBase < page.memBase)) =
    after at hb htaken
  have hlist := htaken.list
  simp only at hlist
  rcases List.eq_nil_or_concat before with rfl | ⟨pre, p, rfl⟩
  · obtain ⟨-, rfl⟩ := returns_pure.mp hrest
    have hjoined := hb.coalesced_joined h
    rw [← List.nil_append (page.joined after), hlist] at hjoined
    exact ⟨taken, h.freed hb hlist (hb.covers h) Mem.Between.records
      (coalesced_append.mp hjoined).2.1 htaken.memoryTotal⟩
  rw [List.concat_eq_append] at *
  rw [if_neg (by simp), lastPtr_append_singleton] at hrest
  rw [List.append_assoc, List.singleton_append] at hlist
  rcases List.append_eq_append_iff.mp hlist with ⟨c, hc, hjoin⟩ | ⟨c, hc, hkept⟩
  · cases c with
    | nil =>
      have hpre : pre = taken ++ [] := by simpa using hc.symm
      exact hb.second_kept h hs₁ htaken hpre hjoin.symm hrest
    | cons q c =>
      obtain ⟨rfl, hrun⟩ := List.cons.inj hjoin
      exact hb.second_taken h hs₁ htaken hrun hrest
  · exact hb.second_kept h hs₁ htaken hc hkept hrest

/-- A part of what may be freed may be freed first, and then the rest. -/
theorem Mem.Freed.frees (h : s.Frees (chain ++ next)) (hfreed : Mem.Freed next taken s s') :
    s'.Frees chain := by
  refine ⟨hfreed.canonical, fun z hz => h.positive z (List.mem_append_left _ hz),
    fun z hz => h.bounded z (List.mem_append_left _ hz), ?_, fun a => ?_⟩
  · have hn := h.records
    rw [List.map_append, List.map_append] at hn
    obtain ⟨hlist, hchains, hapart⟩ := List.nodup_append.mp hn
    obtain ⟨hchain, -, hapart'⟩ := List.nodup_append.mp hchains
    rw [List.map_append]
    refine List.nodup_append.mpr ⟨hfreed.canonical.records, hchain, fun p hp q hq => ?_⟩
    rcases hfreed.records p hp with hp | hp
    · exact hapart p hp q (List.mem_append_left _ hq)
    · exact (hapart' q hq p hp).symm
  · have hcovers := hfreed.covers a
    have hapart := h.apart a
    rw [covers_append] at hapart
    omega

/-- What two calls free, one after the other. -/
theorem Mem.Freed.trans (h : Mem.Freed next taken s s₁) (h' : Mem.Freed chain taken' s₁ s') :
    Mem.Freed (chain ++ next) (taken ++ taken') s s' := by
  refine ⟨h'.canonical, fun a => ?_, ?_, fun p hp => ?_⟩
  · have h₁ := h.covers a
    have h₂ := h'.covers a
    rw [covers_append, covers_append]
    omega
  · rw [h'.memoryTotal, h.memoryTotal, total_append, Nat.add_mul, Nat.add_assoc]
  · rw [List.map_append, List.mem_append]
    rcases h'.records p hp with hp | hp
    · exact (h.records p hp).imp_right .inr
    · exact .inr (.inl hp)

theorem Mem.Frees.right (h : s.Frees (chain ++ next)) : s.Frees next := by
  have hsub : (s.page.pageFreeHead ++ next).Sublist (s.page.pageFreeHead ++ (chain ++ next)) :=
    List.Sublist.append_left (List.sublist_append_right chain next) _
  refine ⟨h.canonical, fun z hz => h.positive z (List.mem_append_right _ hz),
    fun z hz => h.bounded z (List.mem_append_right _ hz), (hsub.map Page.ptr).nodup h.records,
    fun a => ?_⟩
  have hapart := h.apart a
  rw [covers_append] at hapart
  omega

theorem Mem.Freed.nil (h : s.Frees []) : Mem.Freed [] [] s s :=
  ⟨h.canonical, fun _ => rfl, by simp [Page.total], fun _ hp => .inl hp⟩

theorem free_freed (hr : (Page.free depth chain).Returns s u s') (hs : s.mutex = false)
    (h : s.Frees chain) : ∃ taken, Mem.Freed chain taken s s' := by
  induction chain generalizing s' with
  | nil =>
    obtain ⟨-, rfl⟩ := returns_pure.mp hr
    exact ⟨[], .nil h⟩
  | cons page next ih =>
    replace h : s.Frees ([page] ++ next) := h
    rw [Page.free] at hr
    obtain ⟨_, s₁, hnext, hbody⟩ := returns_bind.mp hr
    have h₁ : s₁.mutex = false ∧ ∃ taken, Mem.Freed next taken s s₁ := by
      split_ifs at hnext with hempty
      · obtain ⟨-, rfl⟩ := returns_pure.mp hnext
        obtain rfl := List.isEmpty_iff.mp hempty
        exact ⟨hs, [], .nil h.right⟩
      · exact ⟨(locks_free depth next).returns hnext hs, ih hnext h.right⟩
    obtain ⟨hs₁, taken, htaken⟩ := h₁
    obtain ⟨_, s₂, hlock, hbody⟩ := returns_bind.mp hbody
    obtain rfl := mutexLock_returns hs₁ hlock
    obtain ⟨_, s₃, hrun, hunlock⟩ := returns_bind.mp hbody
    obtain rfl := returns_modify.mp hunlock
    have hpage := htaken.frees h
    obtain ⟨taken', htaken'⟩ := freeRun_freed hrun rfl
      ⟨hpage.canonical, hpage.positive, hpage.bounded, hpage.records, hpage.apart⟩
    have hunlocked : Mem.Freed [page] taken' s₁ { s₃ with mutex := false } :=
      ⟨htaken'.canonical, htaken'.covers, htaken'.memoryTotal, htaken'.records⟩
    exact ⟨taken ++ taken', htaken.trans hunlocked⟩

/-- `page::free` of one chain after the other. -/
def Page.freeEach (depth : ℕ) : List (List Page) → M Unit
  | [] => pure ()
  | chain :: chains => do
      Page.free depth chain
      Page.freeEach depth chains

theorem freeEach_freed {chains : List (List Page)}
    (hr : (Page.freeEach depth chains).Returns s u s') (hs : s.mutex = false)
    (h : s.Frees chains.reverse.flatten) :
    ∃ taken, Mem.Freed chains.reverse.flatten taken s s' := by
  induction chains generalizing s with
  | nil =>
    obtain ⟨-, rfl⟩ := returns_pure.mp hr
    exact ⟨[], .nil h⟩
  | cons chain chains ih =>
    rw [Page.freeEach] at hr
    obtain ⟨_, s₁, hfree, hrest⟩ := returns_bind.mp hr
    rw [List.reverse_cons, List.flatten_append, List.flatten_singleton] at h ⊢
    obtain ⟨taken, htaken⟩ := free_freed hfree hs h.right
    have hs₁ := (locks_free depth chain).returns hfree hs
    obtain ⟨taken', htaken'⟩ := ih hrest hs₁ (htaken.frees h)
    exact ⟨taken ++ taken', htaken.trans htaken'⟩

theorem covers_perm (h : chain.Perm next) (a : ℕ) : Page.covers chain a = Page.covers next a :=
  weigh_perm _ h

theorem Mem.Frees.perm (h : s.Frees chain) (hperm : chain.Perm next) : s.Frees next := by
  refine ⟨h.canonical, fun z hz => h.positive z (hperm.symm.subset hz),
    fun z hz => h.bounded z (hperm.symm.subset hz), ?_, fun a => ?_⟩
  · exact (((hperm.append_left _).map Page.ptr).nodup_iff).mp h.records
  · rw [← covers_perm hperm]
    exact h.apart a

theorem Mem.Freed.perm (h : Mem.Freed chain taken s s') (hperm : chain.Perm next) :
    Mem.Freed next taken s s' := by
  refine ⟨h.canonical, fun a => ?_, h.memoryTotal, fun p hp => ?_⟩
  · rw [← covers_perm hperm]
    exact h.covers a
  · exact (h.records p hp).imp_right fun hp => (hperm.map Page.ptr).subset hp

/-- A heap that has not grown has taken no frame. -/
theorem Mem.Freed.exact (h : Mem.Freed chain taken s s')
    (htotal : s'.kmem.memoryTotal = s.kmem.memoryTotal) (a : ℕ) :
    Page.covers s'.page.pageFreeHead a = Page.covers s.page.pageFreeHead a + Page.covers chain a := by
  have hzero : Page.total taken = 0 := by
    have hmem := h.memoryTotal
    simp only [sizes] at hmem
    omega
  have hnone : Page.covers taken a = 0 := by
    by_contra hne
    obtain ⟨z, hz, hle, hlt⟩ := exists_of_one_le_weigh_point (Nat.one_le_iff_ne_zero.mpr hne)
    have hz0 := List.sum_eq_zero_iff_forall_eq_nat.mp hzero z.consecutive (List.mem_map_of_mem hz)
    rw [Page.runEnd, hz0] at hlt
    omega
  rw [← h.covers a, hnone, Nat.add_zero]

/-- The runs of a list as the claim names them. -/
def Page.pairs (l : List Page) : List (ℕ × ℕ) := l.map fun page => (page.memBase, page.consecutive)

/-- The list of free frames is determined by the frames. -/
theorem Page.Canonical.ext (h : Page.Canonical l) (h' : Page.Canonical next)
    (hcovers : ∀ a, Page.covers l a = Page.covers next a) : Page.pairs l = Page.pairs next := by
  have hbounds := h.coalesced.ext h'.coalesced hcovers
  have hpairs : ∀ l : List Page, Page.pairs l =
      (l.map fun page => (page.memBase, page.runEnd)).map
        fun r => (r.1, (r.2 - r.1) / pageSize) := by
    intro l
    rw [Page.pairs, List.map_map]
    refine List.map_congr_left fun page _ => ?_
    simp only [Function.comp_apply, Page.runEnd, sizes, Nat.add_sub_cancel_left,
      Nat.mul_div_cancel _ (Nat.succ_pos 4095)]
  rw [hpairs, hbounds, ← hpairs]

theorem flatten_reverse_perm {order chains : List (List Page)} (h : order.Perm chains) :
    order.reverse.flatten.Perm chains.flatten :=
  ((List.reverse_perm order).trans h).flatten

/-- Freeing chains in any order keeps the list canonical, and the frames of the list and of
the chains are those of the list afterwards, but for the runs that the heap has grown by; two
orders in which it has not grown leave the same list. -/
theorem Page.freeEach_keeps {chains order : List (List Page)} (hs : s.mutex = false)
    (h : s.Frees chains.flatten) (horder : order.Perm chains)
    (hr : (Page.freeEach depth order).Returns s u s') :
    (∃ taken, Mem.Freed chains.flatten taken s s') ∧
      ∀ order' depth' s'', order'.Perm chains →
        (Page.freeEach depth' order').Returns s u s'' →
        s'.kmem.memoryTotal = s.kmem.memoryTotal → s''.kmem.memoryTotal = s.kmem.memoryTotal →
        Page.pairs s'.page.pageFreeHead = Page.pairs s''.page.pageFreeHead := by
  have hperm := flatten_reverse_perm horder
  obtain ⟨taken, htaken⟩ := freeEach_freed hr hs (h.perm hperm.symm)
  refine ⟨⟨taken, htaken.perm hperm⟩, fun order' depth' s'' horder' hr' htotal htotal' => ?_⟩
  have hperm' := flatten_reverse_perm horder'
  obtain ⟨taken', htaken'⟩ := freeEach_freed hr' hs (h.perm hperm'.symm)
  refine htaken.canonical.ext htaken'.canonical fun a => ?_
  rw [(htaken.perm hperm).exact htotal, (htaken'.perm hperm').exact htotal']

end Free

/-! ## A heap that grows in the middle -/

/-- Two frames and one frame are freed, and the heap keeps no block for another record. The
chain that is left ends where nothing is free, and begins where the one frame ends. -/
def lastBlock : M (List Page) := do
  let first ← Page.alloc 9 flagReserved 2
  let _ ← Page.alloc 9 flagReserved 1
  let second ← Page.alloc 9 flagReserved 1
  let third ← Page.alloc 9 flagReserved 1
  Page.free 9 first
  Page.free 9 second
  let _ ← Kmem.kmalloc 9 3916 kmallocReserved
  pure third

/-- That machine. -/
def lastBlockMem : Mem := (lastBlock (Kmem.init 0xc0100000 (bootMem roomyMap)).2).2

/-- The chain that is left, of one frame. -/
def lastFrame : Page := ⟨3222274188, 4, 0x105000, 13, 1⟩

theorem lastBlock_list : lastBlockMem.page.pageFreeHead =
    [⟨3222274104, 1, 0x101000, 13, 2⟩, ⟨3222274160, 3, 0x104000, 13, 1⟩] := by
  decide +kernel

theorem lastFrame_frees : lastBlockMem.Frees [lastFrame] := by
  refine ⟨⟨⟨?_, ?_⟩, ?_, ?_⟩, by decide, by decide, ?_, fun a => ?_⟩ <;> rw [lastBlock_list]
  · decide
  · decide
  · decide
  · decide
  · decide
  · simp only [covers_cons, covers_nil, point_of, Page.runEnd, lastFrame, sizes]
    split_ifs <;> omega

/-- The last frame is freed. -/
theorem Page.freeEach_keeps_lastFrame : ∃ taken, Mem.Freed [lastFrame] taken lastBlockMem
    (Page.freeEach 9 [[lastFrame]] lastBlockMem).2 :=
  (@Page.freeEach_keeps _ _ _ _ [[lastFrame]] _ (by decide +kernel) lastFrame_frees
    (List.Perm.refl _) (returns_of_fst (a := ()) (by decide +kernel))).1

/-- The join of the last two frames gives up a record. For the record of its memory the heap
grows by the two frames at the front of the list: they were free, and are not any more. -/
theorem not_exact_lastFrame : lastBlockMem.mutex = false ∧ lastBlockMem.Frees [lastFrame] ∧
    ∃ s', (Page.free 9 [lastFrame]).Returns lastBlockMem () s' ∧ ∃ a,
      Page.covers s'.page.pageFreeHead a ≠
        Page.covers lastBlockMem.page.pageFreeHead a + Page.covers [lastFrame] a := by
  refine ⟨by decide +kernel, lastFrame_frees, _, returns_of_fst (by decide +kernel), 0x101000, ?_⟩
  have hlist : (Page.free 9 [lastFrame] lastBlockMem).2.page.pageFreeHead =
      [⟨3222274160, 3, 0x104000, 13, 2⟩] := by decide +kernel
  rw [hlist, lastBlock_list]
  decide

end Cantos
