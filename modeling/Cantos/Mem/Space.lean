import Cantos.Lib.Preserves
import Cantos.Mem.Soundness

/-!
# The page tables behind kernel virtual memory

What the calls that map and unmap do to the entries of the kernel page tables, and to the
cursor that runs along them.  Pages are named by the index of their entry.

Every call may grow the heap, and a growth maps a run at the end and gives its pages to the
heap: `Grows` says what is the same after any number of growths, and which installations were
added.

## Main definitions

* `Page.entryAt`: the entry of a page of a chain.
* `Installation`: a chain that is mapped.
* `Grows`: installations are added at the end.
* `Mem.Adds`: they are those of the heap.
* `Growing`: a program that does nothing else to virtual memory.
-/

namespace Cantos

open Exec Linked Runs

/-! ## Addresses and entries -/

/-- The address of a page of kernel virtual memory. -/
def Aligned (a : ℕ) : Prop := kernelVmBase ≤ a ∧ a % pageSize = 0

instance : DecidablePred Aligned := fun _ => inferInstanceAs (Decidable (_ ∧ _))

theorem kernelVmBase_eq : kernelVmBase = 786432 * 4096 := by decide

theorem tableIndex_add {a k : ℕ} (h : Aligned a) :
    tableIndex (a + k * pageSize) = tableIndex a + k := by
  obtain ⟨hle, hmod⟩ := h
  simp only [tableIndex, kernelVmBase_eq, sizes] at *
  omega

theorem Aligned.add {a : ℕ} (h : Aligned a) (k : ℕ) : Aligned (a + k * pageSize) := by
  obtain ⟨hle, hmod⟩ := h
  simp only [Aligned, kernelVmBase_eq, sizes] at *
  omega

theorem tableIndex_inj {a b : ℕ} (ha : Aligned a) (hb : Aligned b) :
    tableIndex a = tableIndex b ↔ a = b := by
  obtain ⟨hle, hmod⟩ := ha
  obtain ⟨hle', hmod'⟩ := hb
  simp only [tableIndex, kernelVmBase_eq, sizes] at *
  omega

/-- The entry of the `k`-th page of a chain. -/
def Page.entryAt (flags : ℕ) : List Page → ℕ → ℕ
  | [], _ => 0
  | page :: next, k =>
      if k < page.consecutive then tableEntry page.memBase k flags
      else entryAt flags next (k - page.consecutive)

/-- A chain that is mapped at `base`. -/
structure Installation where
  base : ℕ
  chain : List Page
  flags : ℕ
  deriving DecidableEq

namespace Installation

/-- The first entry of an installation, and the one behind its last. -/
def lo (i : Installation) : ℕ := tableIndex i.base

def hi (i : Installation) : ℕ := i.lo + Page.count i.chain

theorem mem_page (i : Installation) {k : ℕ} (hk : k < Page.count i.chain) :
    i.lo ≤ i.lo + k ∧ i.lo + k < i.hi :=
  ⟨Nat.le_add_right _ _, Nat.add_lt_add_left hk _⟩

/-- The part of kernel virtual memory that an installation takes. -/
def range (i : Installation) : ℕ × ℕ := (i.base, Page.count i.chain * pageSize)

/-- The entries of an installation are those of its chain. -/
def Mapped (table : ℕ → ℕ) (i : Installation) : Prop :=
  ∀ k < Page.count i.chain, table (i.lo + k) = Page.entryAt i.flags i.chain k

instance (table : ℕ → ℕ) : DecidablePred (Mapped table) := fun _ =>
  inferInstanceAs (Decidable (∀ k < _, _ = _))

end Installation

/-! ## Growth at the end -/

/-- `cursor` is the entry of `virtual_pointer`. -/
structure PageState.Tracked (p : PageState) : Prop where
  aligned : Aligned p.virtualPointer
  cursor : p.cursor = tableIndex p.virtualPointer

/-- Installations are added at the end of kernel virtual memory. -/
structure Grows (more : List Installation) (p p' : PageState) : Prop where
  tracked : p'.Tracked
  le : p.cursor ≤ p'.cursor
  below : ∀ e < p.cursor, p'.table e = p.table e
  aligned : ∀ i ∈ more, Aligned i.base
  once : ∀ e, weigh (.point e) Installation.lo Installation.hi more =
    if p.cursor ≤ e ∧ e < p'.cursor then 1 else 0
  mapped : ∀ i ∈ more, i.Mapped p'.table

section Grows
variable {more more' : List Installation} {p p' p'' : PageState}

theorem Grows.of_same (h : p.Tracked) (hpointer : p'.virtualPointer = p.virtualPointer)
    (hcursor : p'.cursor = p.cursor) (htable : p'.table = p.table) : Grows [] p p' where
  tracked := ⟨hpointer ▸ h.aligned, by rw [hcursor, hpointer, h.cursor]⟩
  le := hcursor.ge
  below _ _ := by rw [htable]
  aligned := by simp
  once e := by
    rw [hcursor, weigh_nil, if_neg (by omega)]
  mapped := by simp

/-- What was mapped below the cursor stays mapped. -/
theorem Installation.Mapped.grows {i : Installation} (h : i.Mapped p.table) (hg : Grows more p p')
    (hi : i.hi ≤ p.cursor) : i.Mapped p'.table := by
  intro k hk
  rw [hg.below _ (by simp only [Installation.hi] at hi; omega)]
  exact h k hk

theorem Grows.hi_le (h : Grows more p p') {i : Installation} (hi : i ∈ more) : i.hi ≤ p'.cursor ∨
    Page.count i.chain = 0 := by
  by_cases hzero : Page.count i.chain = 0
  · exact .inr hzero
  · left
    have hlast : i.lo ≤ i.hi - 1 ∧ i.hi - 1 < i.hi := by
      simp only [Installation.hi]
      omega
    have hone := one_le_weigh_point hi hlast
    rw [h.once] at hone
    split_ifs at hone with hlt
    · omega
    · omega

theorem Grows.trans (h : Grows more p p') (h' : Grows more' p' p'') :
    Grows (more' ++ more) p p'' where
  tracked := h'.tracked
  le := h.le.trans h'.le
  below e he := by rw [h'.below e (he.trans_le h.le), h.below e he]
  aligned i hi := (List.mem_append.mp hi).elim (h'.aligned i) (h.aligned i)
  once e := by
    have hle := h.le
    have hle' := h'.le
    rw [weigh_append, h.once, h'.once]
    split_ifs <;> omega
  mapped i hi := by
    rcases List.mem_append.mp hi with hnew | hold
    · exact h'.mapped i hnew
    · rcases h.hi_le hold with hlt | hzero
      · exact (h.mapped i hold).grows h' hlt
      · intro k hk
        omega

end Grows

/-- `more` is mapped at the end and given to the heap, and nothing else happens to virtual
memory. -/
structure Mem.Adds (more : List Installation) (s s' : Mem) : Prop where
  grows : Grows more s.page s'.page
  emptySlot : s'.page.emptySlot = s.page.emptySlot
  pool : s'.kmem.pool = more.map Installation.range ++ s.kmem.pool
  mutex : s'.mutex = s.mutex

/-- Virtual memory, the pool and the lock are left alone. -/
structure Mem.Still (s s' : Mem) : Prop where
  pointer : s'.page.virtualPointer = s.page.virtualPointer
  cursor : s'.page.cursor = s.page.cursor
  table : s'.page.table = s.page.table
  emptySlot : s'.page.emptySlot = s.page.emptySlot
  pool : s'.kmem.pool = s.kmem.pool
  mutex : s'.mutex = s.mutex

theorem Mem.Still.adds {s s' : Mem} (h : s.Still s') (ht : s.page.Tracked) : s.Adds [] s' :=
  ⟨.of_same ht h.pointer h.cursor h.table, h.emptySlot, by simp [h.pool], h.mutex⟩

theorem Mem.Adds.trans {more more' : List Installation} {s s' s'' : Mem} (h : s.Adds more s')
    (h' : s'.Adds more' s'') : s.Adds (more' ++ more) s'' where
  grows := h.grows.trans h'.grows
  emptySlot := h'.emptySlot.trans h.emptySlot
  pool := by rw [h'.pool, h.pool, List.map_append, List.append_assoc]
  mutex := h'.mutex.trans h.mutex

/-- The run of `x` from `s`, with the lock held, maps what the heap needs at the end, and does
nothing else to virtual memory. -/
def GrowingAt {α : Type} (x : M α) (s : Mem) : Prop :=
  s.mutex = true → ∀ a s', x.Returns s a s' → s.page.Tracked → ∃ more, s.Adds more s'

/-- A program that, with the lock held, maps what the heap needs at the end, and does nothing
else to virtual memory. -/
def Growing {α : Type} (x : M α) : Prop := ∀ s, GrowingAt x s

section Rules
variable {α β : Type} {s : Mem}

/-- A run that does not touch virtual memory. -/
theorem GrowingAt.still {x : M α} (h : ∀ a s', x.Returns s a s' → s.Still s') : GrowingAt x s := by
  intro _ a s' hr htracked
  exact ⟨[], (h a s' hr).adds htracked⟩

theorem GrowingAt.set {t : Mem} (h : s.Still t) : GrowingAt (Exec.set t) s :=
  .still fun _ s' hr => by
    obtain rfl := returns_set.mp hr
    exact h

theorem GrowingAt.bind {x : M α} {f : α → M β} (hx : GrowingAt x s) (hf : ∀ a, Growing (f a)) :
    GrowingAt (x >>= f) s := by
  intro hs b s'' hr htracked
  obtain ⟨a, s', hx', hf'⟩ := returns_bind.mp hr
  obtain ⟨more, h⟩ := hx hs a s' hx' htracked
  obtain ⟨more', h'⟩ := hf a s' (h.mutex.trans hs) b s'' hf' h.grows.tracked
  exact ⟨more' ++ more, h.trans h'⟩

namespace Growing

theorem bind {x : M α} {f : α → M β} (hx : Growing x) (hf : ∀ a, Growing (f a)) :
    Growing (x >>= f) := fun s => (hx s).bind hf

theorem get {f : Mem → M α} (hf : ∀ s, GrowingAt (f s) s) : Growing (Exec.get >>= f) := hf

theorem pure (a : α) : Growing (pure a : M α) := fun _ => .still fun _ _ hr => by
  obtain ⟨-, rfl⟩ := returns_pure.mp hr
  exact ⟨rfl, rfl, rfl, rfl, rfl, rfl⟩

theorem stop {e : Stuck} : Growing (Exec.stop e : M α) :=
  fun _ _ _ _ hr => absurd hr returns_stop

theorem modify {f : Mem → Mem} (hf : ∀ s : Mem, s.Still (f s)) : Growing (Exec.modify f) :=
  fun s => .still fun _ s' hr => by
    obtain rfl := returns_modify.mp hr
    exact hf s

theorem ite {c : Prop} [Decidable c] {x y : M α} (hx : Growing x) (hy : Growing y) :
    Growing (if c then x else y) := by
  split_ifs
  · exact hx
  · exact hy

/-- A call that locks unless its caller holds the lock returns only where the caller says
so. -/
theorem lockUnless {held : Bool} {x : M α} (hx : held = true → Growing x) :
    Growing (Cantos.whenever (!held) mutexLock >>= fun _ => x) := by
  cases held with
  | true => exact (pure ()).bind fun _ => hx rfl
  | false =>
    intro s hs a s' hr
    obtain ⟨_, s₁, hlock, -⟩ := returns_bind.mp hr
    rw [Bool.not_false, whenever_true, mutexLock, returns_get_bind, if_pos hs] at hlock
    exact absurd hlock returns_stop

theorem unlockUnless {held : Bool} (h : held = true) :
    Growing (Cantos.whenever (!held) mutexUnlock) := by
  rw [h]
  exact pure ()

theorem note {e : Event} : Growing (note e) := .modify fun _ => ⟨rfl, rfl, rfl, rfl, rfl, rfl⟩

end Growing
end Rules

/-! ## The loops over the entries -/

/-- The table with the entries of a run from `e` on. -/
def writeEntries (memBase flags : ℕ) : (k i e : ℕ) → (ℕ → ℕ) → ℕ → ℕ
  | 0, _, _, table => table
  | k + 1, i, e, table =>
      writeEntries memBase flags k (i + 1) (e + 1)
        (Function.update table e (tableEntry memBase i flags))

theorem writeEntries_apply {memBase flags k i e : ℕ} {table : ℕ → ℕ} (x : ℕ) :
    writeEntries memBase flags k i e table x =
      if e ≤ x ∧ x < e + k then tableEntry memBase (i + (x - e)) flags else table x := by
  induction k generalizing i e table with
  | zero => rw [writeEntries, if_neg (by omega)]
  | succ k ih =>
    rw [writeEntries, ih]
    by_cases hx : x = e
    · subst hx
      rw [if_neg (by omega), Function.update_self, if_pos (by omega), Nat.sub_self]
      rfl
    · rw [Function.update_of_ne hx]
      by_cases hin : e + 1 ≤ x ∧ x < e + 1 + k
      · rw [if_pos hin, if_pos (by omega)]
        congr 1
        omega
      · rw [if_neg hin, if_neg (by omega)]

theorem appendRun_eq {memBase flags k i first r : ℕ} {s s' : Mem}
    (h : (Page.appendRun memBase flags k i first).Returns s r s') :
    s' = { s with
      page.table := writeEntries memBase flags k i s.page.cursor s.page.table
      page.cursor := s.page.cursor + k
      page.virtualPointer := s.page.virtualPointer + k * pageSize } := by
  induction k generalizing i first s with
  | zero =>
    obtain ⟨-, rfl⟩ := returns_pure.mp h
    simp [writeEntries]
  | succ k ih =>
    rw [Page.appendRun, returns_get_bind] at h
    by_cases hv : s.page.virtualPointer ≥ totalVmSize - pageSize
    · rw [if_pos hv] at h
      exact absurd h returns_stop
    · rw [if_neg hv, returns_set_bind] at h
      rw [ih h]
      simp only [writeEntries, sizes]
      congr 2 <;> omega

theorem whenever_lock_page {lock : Bool} {u : Unit} {s s' : Mem}
    (h : (whenever lock mutexLock).Returns s u s') : s'.page = s.page := by
  cases lock with
  | false =>
    obtain ⟨-, rfl⟩ := returns_pure.mp h
    rfl
  | true =>
    rw [whenever_true, mutexLock, returns_get_bind] at h
    split_ifs at h
    · exact absurd h returns_stop
    · obtain rfl := returns_set.mp h
      rfl

theorem whenever_unlock_page {lock : Bool} {u : Unit} {s s' : Mem}
    (h : (whenever lock mutexUnlock).Returns s u s') : s'.page = s.page := by
  cases lock with
  | false =>
    obtain ⟨-, rfl⟩ := returns_pure.mp h
    rfl
  | true =>
    obtain rfl := returns_modify.mp h
    rfl

/-- A chain is mapped at the end of virtual memory. -/
structure Appended (flags : ℕ) (chain : List Page) (p p' : PageState) : Prop where
  pointer : p'.virtualPointer = p.virtualPointer + Page.count chain * pageSize
  cursor : p'.cursor = p.cursor + Page.count chain
  below : ∀ e < p.cursor, p'.table e = p.table e
  mapped : ∀ k < Page.count chain, p'.table (p.cursor + k) = Page.entryAt flags chain k
  emptySlot : p'.emptySlot = p.emptySlot

section Appended
variable {flags : ℕ} {page : Page} {chain next : List Page} {p p' p'' : PageState}

/-- The entries of one run. -/
theorem Appended.run (hpointer : p'.virtualPointer = p.virtualPointer + page.consecutive * pageSize)
    (hcursor : p'.cursor = p.cursor + page.consecutive)
    (htable : p'.table = writeEntries page.memBase flags page.consecutive 0 p.cursor p.table)
    (hslot : p'.emptySlot = p.emptySlot) : Appended flags [page] p p' where
  pointer := hpointer
  cursor := hcursor
  below e he := by
    rw [htable, writeEntries_apply, if_neg]
    omega
  mapped k hk := by
    have hk : k < page.consecutive := hk
    rw [htable, writeEntries_apply, if_pos ⟨Nat.le_add_right _ _, by omega⟩, Page.entryAt,
      if_pos hk]
    congr 1
    omega
  emptySlot := hslot

theorem Appended.trans (h : Appended flags [page] p p') (h' : Appended flags next p' p'') :
    Appended flags (page :: next) p p'' where
  pointer := by
    rw [h'.pointer, h.pointer]
    simp only [Page.count, sizes]
    omega
  cursor := by
    rw [h'.cursor, h.cursor]
    simp only [Page.count]
    omega
  below e he := by
    rw [h'.below e (by rw [h.cursor]; omega), h.below e he]
  mapped k hk := by
    have hcount : Page.count [page] = page.consecutive := rfl
    rw [Page.entryAt]
    by_cases hlt : k < page.consecutive
    · rw [if_pos hlt, h'.below _ (by rw [h.cursor, hcount]; omega), h.mapped k hlt, Page.entryAt,
        if_pos hlt]
    · rw [if_neg hlt, ← h'.mapped _ (by simp only [Page.count] at hk; omega), h.cursor, hcount]
      congr 1
      omega
  emptySlot := h'.emptySlot.trans h.emptySlot

theorem Appended.grows (h : Appended flags chain p p') (ht : p.Tracked) :
    Grows [⟨p.virtualPointer, chain, flags⟩] p p' where
  tracked := by
    refine ⟨h.pointer ▸ ht.aligned.add _, ?_⟩
    rw [h.cursor, h.pointer, tableIndex_add ht.aligned, ht.cursor]
  le := h.cursor ▸ Nat.le_add_right _ _
  below := h.below
  aligned i hi := List.mem_singleton.mp hi ▸ ht.aligned
  once e := by
    simp only [weigh_cons, weigh_nil, point_of, Installation.hi, Installation.lo, ← ht.cursor,
      h.cursor, Nat.add_zero]
  mapped i hi := by
    obtain rfl := List.mem_singleton.mp hi
    intro k hk
    rw [Installation.lo, ← ht.cursor]
    exact h.mapped k hk

end Appended

theorem Aligned.pos {a : ℕ} (h : Aligned a) : 0 < a := by
  have := h.1
  rw [kernelVmBase_eq] at this
  omega

/-- `kinstall_append` maps the chain at `virtual_pointer`, and returns it. -/
theorem kinstallAppend_appended {chain : List Page} {flags r : ℕ} {lock : Bool} {s s' : Mem}
    (h : (Page.kinstallAppend chain flags lock).Returns s r s') :
    Appended flags chain s.page s'.page ∧
      (0 < Page.firstRun chain → 0 < s.page.virtualPointer → r = s.page.virtualPointer) := by
  induction chain generalizing s lock r with
  | nil => exact absurd h returns_stop
  | cons page next ih =>
    rw [Page.kinstallAppend] at h
    obtain ⟨_, s₀, hlock, hbody⟩ := returns_bind.mp h
    have hs₀ : s₀.page = s.page := whenever_lock_page hlock
    obtain ⟨first, s₁, hrun, hbody⟩ := returns_bind.mp hbody
    obtain ⟨-, -, hr⟩ := appendRun_returns hrun
    obtain rfl := appendRun_eq hrun
    rw [returns_modify_bind] at hbody
    obtain ⟨_, s₂, hunlock, hrest⟩ := returns_bind.mp hbody
    have hs₂ := whenever_unlock_page hunlock
    have hone : Appended flags [page] s.page s₂.page := by
      rw [← hs₀, hs₂]
      exact .run rfl rfl rfl rfl
    have hfirst : 0 < page.consecutive → 0 < s.page.virtualPointer →
        first = s.page.virtualPointer := by
      intro hpos hv
      rw [← hs₀] at hv ⊢
      exact (hr hpos).1 hv rfl
    split_ifs at hrest with hempty
    · obtain ⟨rfl, rfl⟩ := returns_pure.mp hrest
      obtain rfl := List.isEmpty_iff.mp hempty
      exact ⟨hone, hfirst⟩
    · rw [returns_note_bind] at hrest
      obtain ⟨_, s₃, hnext, hret⟩ := returns_bind.mp hrest
      obtain ⟨rfl, rfl⟩ := returns_pure.mp hret
      exact ⟨hone.trans (ih hnext).1, hfirst⟩

theorem preserves_whenever {P : Mem → Prop} (c : Bool) {x : M Unit} (hx : Preserves P x) :
    Preserves P (whenever c x) := by
  cases c with
  | false => exact .pure ()
  | true => exact hx

theorem preserves_lock {P : Mem → Prop} (h : ∀ s b, P s → P { s with mutex := b }) :
    Preserves P mutexLock :=
  .get fun s => by
    split_ifs
    · exact Preserves.stop s
    · exact .set (h s true)

theorem preserves_unlock {P : Mem → Prop} (h : ∀ s b, P s → P { s with mutex := b }) :
    Preserves P mutexUnlock := .modify fun s => h s false

/-- `kinstall_append` gives the heap nothing. -/
theorem kinstallAppend_pool {chain : List Page} {flags : ℕ} {lock : Bool} {pool : List (ℕ × ℕ)} :
    Preserves (fun s : Mem => s.kmem.pool = pool) (Page.kinstallAppend chain flags lock) := by
  induction chain generalizing lock with
  | nil => exact .stop
  | cons page next ih =>
    rw [Page.kinstallAppend]
    refine (preserves_whenever _ (preserves_lock fun _ _ h => h)).bind fun _ => ?_
    refine Preserves.bind (fun s hs r s' hr => ?_) fun first => ?_
    · obtain rfl := appendRun_eq hr
      exact hs
    refine .bind (.modify fun _ h => h) fun _ => ?_
    refine (preserves_whenever _ (preserves_unlock fun _ _ h => h)).bind fun _ => ?_
    refine .ite (.pure _) (.bind (.modify fun _ h => h) fun _ => ?_)
    exact ih.bind fun _ => .pure _

/-! ## The growth of the heap -/

/-- What a growth maps is given to the heap, with the page in front of it or not. -/
theorem attach_pool (k : Kmem) (prev n c loc : ℕ) :
    (k.attach prev n c loc).pool = (loc, c * pageSize) :: k.pool := by
  rw [Kmem.attach]
  split_ifs <;> rfl

namespace Growing

theorem allocNokmalloc (flags : Flags) (count : ℕ) :
    Growing (Page.allocNokmalloc (flags ||| flagNolock) count) := fun s => .still fun _ s' hr => by
  obtain ⟨pageId, pointer, map, rfl⟩ :=
    (allocNokmalloc_returns (.inl (has_or_self (by decide))) hr).state
  exact ⟨rfl, rfl, rfl, rfl, rfl, rfl⟩

theorem cutHead (ptr : ℕ) (flags : Flags) (count : ℕ) : Growing (Page.cutHead ptr flags count) :=
  fun s => .still fun _ s' hr => by
    obtain ⟨head, next, -, rfl, -⟩ := cutHead_returns hr
    exact ⟨rfl, rfl, rfl, rfl, rfl, rfl⟩

/-- The growth by `n` pages: the run is mapped at the end, and given to the heap. -/
theorem growth {α : Type} {depth prev n : ℕ} {rest : M α} (hn : 2 ≤ n)
    (halloc : Growing (Page.alloc depth growthFlags n)) (hrest : Growing rest) :
    Growing (do
      let newPage ← Page.alloc depth growthFlags n
      let installedLoc ← Page.kinstallAppend newPage pageTableRw false
      Exec.modify fun s => { s with
        kmem := s.kmem.attach prev n (Page.firstRun newPage) installedLoc }
      Page.used newPage false
      rest) := by
  intro s hs a s' hr ht
  obtain ⟨newPage, s₁, hr₁, hr⟩ := returns_bind.mp hr
  obtain ⟨more, h₁⟩ := halloc s hs newPage s₁ hr₁ ht
  have ht₁ := h₁.grows.tracked
  obtain ⟨loc, s₂, happ, hr⟩ := returns_bind.mp hr
  have happended := (kinstallAppend_appended happ).1
  obtain ⟨page, rfl, ⟨table, cursor, rfl⟩, hloc⟩ :=
    kinstallAppend_returns (h₁.mutex.trans hs) happ
  have hpos : 0 < page.consecutive := by
    have henough := (alloc_gets hn hr₁).enough
    omega
  obtain rfl := (hloc hpos).1 ht₁.aligned.pos
  rw [returns_modify_bind] at hr
  obtain ⟨_, s₃, hused, hr⟩ := returns_bind.mp hr
  obtain rfl := used_returns hused
  have h₂ : s₁.Adds [⟨s₁.page.virtualPointer, [page], pageTableRw⟩]
      (s₁.grown page table cursor prev n s₁.page.virtualPointer) := by
    have hg := happended.grows ht₁
    refine ⟨⟨⟨hg.tracked.aligned, hg.tracked.cursor⟩, hg.le, hg.below, hg.aligned, hg.once,
      hg.mapped⟩, happended.emptySlot, attach_pool _ _ _ _ _, rfl⟩
  obtain ⟨more', h₃⟩ := hrest _ (h₂.mutex.trans (h₁.mutex.trans hs)) a s' hr h₂.grows.tracked
  exact ⟨_, (h₁.trans h₂).trans h₃⟩

/-- The requests for memory map what they need at the end. -/
theorem recursion (depth : ℕ) :
    (∀ size flags, Growing (Kmem.doKmalloc depth size flags)) ∧
    (∀ size flags, Growing (Kmem.kmalloc depth size flags)) ∧
    ∀ flags count, Growing (Page.alloc depth flags count) := by
  induction depth with
  | zero =>
    refine ⟨fun _ _ => .stop, fun _ _ => .stop, fun flags count => ?_⟩
    rw [Page.alloc]
    exact .ite (.pure []) (lockUnless fun _ => .stop)
  | succ depth ih =>
    obtain ⟨ihDo, ihKmalloc, ihAlloc⟩ := ih
    refine ⟨fun size flags => ?_, fun size flags => ?_, fun flags count => ?_⟩
    · rw [Kmem.doKmalloc]
      refine .ite (.pure 0) (.get fun s => ?_)
      rcases s.kmem.search (Kmem.sizeNeeded (Kmem.roundSize size)) flags with ⟨prev, _ | free⟩
      · exact growth (s.kmem.two_le_pagesNeeded _ _) (ihAlloc growthFlags _) (ihKmalloc _ _) s
      · refine GrowingAt.bind (.set ?_) fun _ => .pure _
        exact ⟨rfl, rfl, rfl, rfl, takeBlock_pool, rfl⟩
    · rw [Kmem.kmalloc]
      exact lockUnless fun hheld => (ihDo size flags).bind fun ret =>
        (unlockUnless hheld).bind fun _ => .pure ret
    · rw [Page.alloc]
      refine .ite (.pure []) (lockUnless fun hheld => .get fun s => ?_)
      refine GrowingAt.bind ?_ fun newPage => ?_
      · rcases s.page.pageFreeHead with _ | ⟨head, next⟩
        · exact (ihKmalloc _ _).bind (fun ptr => (allocNokmalloc flags count).bind
            fun staticPage => .pure _) s
        · refine Growing.ite ?_ ?_ s
          · exact (ihKmalloc _ _).bind fun ptr => cutHead ptr flags count
          · exact .bind (.modify fun _ => ⟨rfl, rfl, rfl, rfl, rfl, rfl⟩) fun _ => .pure _
      · refine .bind (.ite ?_ (.pure [])) fun next => (unlockUnless hheld).bind fun _ => .pure _
        exact note.bind fun _ => ihAlloc flags _

theorem kmalloc (depth size : ℕ) (flags : Flags) : Growing (Kmem.kmalloc depth size flags) :=
  (recursion depth).2.1 size flags

theorem getStruct (depth : ℕ) : Growing (Kmem.getStruct depth) := by
  refine .get fun s => ?_
  rcases s.kmem.freeFreeStructs with _ | ⟨hold, next⟩
  · exact kmalloc depth sizeofFree (kmallocReserved ||| kmallocNolock) s
  · exact GrowingAt.bind (.set ⟨rfl, rfl, rfl, rfl, rfl, rfl⟩) fun _ => .pure _

theorem kfreeNolock (depth ptr : ℕ) : Growing (Kmem.kfreeNolock depth ptr) := by
  refine .ite (.pure ()) (.get fun s => ?_)
  split
  · exact stop s
  · refine Growing.ite .stop (.ite .stop ?_) s
    refine .bind (.modify fun _ => ⟨rfl, rfl, rfl, rfl, rfl, rfl⟩) fun _ => ?_
    refine (getStruct depth).bind fun _ => .modify fun _ => ⟨rfl, rfl, rfl, rfl, ?_, rfl⟩
    exact (setUsed_pool _ _).trans (insertFree_pool _ _ _ _)

end Growing

end Cantos
