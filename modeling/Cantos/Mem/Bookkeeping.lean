import Cantos.Lib.Steps
import Cantos.Mem.Space
import Cantos.Mem.World
import Mathlib.Data.List.TakeWhile

/-!
# The bookkeeping of kernel virtual memory

From the address at which `page::init` starts, every page is in one installation or in one
hole, up to `virtual_pointer`.  `kinstall_append` and `kuninstall` keep this for all chains.
`kinstall` keeps it where no hole is large enough, and where the runs of the chain have the
same length: to fill a hole it writes as many entries for every run as the first one has
frames.

## Main definitions

* `Covers`: every page is covered once, and has the entry it should have.
* `Bookkept`: the holes are those of `empty_slot`, and it is sorted and coalesced.
* `Mem.Keeps`: what the callers do not hold is in the pool of the heap.
* `Space`, `Space.step`: the calls that map and unmap, and what is mapped.
* `Space.EqualRuns`: the calls for which `kinstall` writes the right entries.
-/

namespace Cantos

open Exec Linked Runs

namespace EmptySlot

/-- The first entry of a hole, and the one behind its last. -/
def lo (slot : EmptySlot) : ℕ := tableIndex slot.base

def hi (slot : EmptySlot) : ℕ := slot.lo + slot.pages

/-- What `_merge_free_slots` makes of two holes that touch. -/
def join (first hold : EmptySlot) : EmptySlot := { first with pages := first.pages + hold.pages }

theorem lo_join (u v : EmptySlot) : (u.join v).lo = u.lo := rfl

theorem hi_join (u v : EmptySlot) (h : u.hi = v.lo) : (u.join v).hi = v.hi := by
  simp only [hi, join, lo] at *
  omega

end EmptySlot

/-- Every page between `start` and the cursor is in one installation or in one hole. -/
structure Covers (start : ℕ) (installed : List Installation) (slots : List EmptySlot)
    (p : PageState) : Prop where
  tracked : p.Tracked
  start_le : start ≤ p.cursor
  aligned : ∀ i ∈ installed, Aligned i.base
  slotAligned : ∀ slot ∈ slots, Aligned slot.base
  once : ∀ e, weigh (.point e) Installation.lo Installation.hi installed +
    weigh (.point e) EmptySlot.lo EmptySlot.hi slots = if start ≤ e ∧ e < p.cursor then 1 else 0
  mapped : ∀ i ∈ installed, i.Mapped p.table
  cleared : ∀ slot ∈ slots, ∀ e, slot.lo ≤ e ∧ e < slot.hi → p.table e = 0

/-- The holes are those of `empty_slot`. -/
structure Bookkept (start : ℕ) (installed : List Installation) (p : PageState) : Prop where
  covers : Covers start installed p.emptySlot p
  slots : Coalesced EmptySlot.lo EmptySlot.hi p.emptySlot

namespace Covers

variable {start : ℕ} {installed installed' more : List Installation}
  {slots slots' : List EmptySlot} {p p' : PageState} {i : Installation} {slot : EmptySlot}

theorem perm (h : Covers start installed slots p) (hi : installed'.Perm installed)
    (hs : slots'.Perm slots) : Covers start installed' slots' p where
  tracked := h.tracked
  start_le := h.start_le
  aligned i hmem := h.aligned i (hi.mem_iff.mp hmem)
  slotAligned slot hmem := h.slotAligned slot (hs.mem_iff.mp hmem)
  once e := by rw [weigh_perm _ hi, weigh_perm _ hs, h.once]
  mapped i hmem := h.mapped i (hi.mem_iff.mp hmem)
  cleared slot hmem := h.cleared slot (hs.mem_iff.mp hmem)

/-- Covering reads the cursor, the pointer and the entries. -/
theorem congr (h : Covers start installed slots p) (hpointer : p'.virtualPointer = p.virtualPointer)
    (hcursor : p'.cursor = p.cursor) (htable : p'.table = p.table) :
    Covers start installed slots p' where
  tracked := ⟨hpointer ▸ h.tracked.aligned, by rw [hcursor, hpointer, h.tracked.cursor]⟩
  start_le := hcursor ▸ h.start_le
  aligned := h.aligned
  slotAligned := h.slotAligned
  once e := by rw [hcursor, h.once]
  mapped := htable ▸ h.mapped
  cleared := htable ▸ h.cleared

theorem weigh_le_one (h : Covers start installed slots p) (e : ℕ) :
    weigh (.point e) Installation.lo Installation.hi installed +
      weigh (.point e) EmptySlot.lo EmptySlot.hi slots ≤ 1 := by
  rw [h.once]
  split_ifs <;> omega

theorem lt_cursor_of_installed (h : Covers start installed slots p) (hi : i ∈ installed) {e : ℕ}
    (he : i.lo ≤ e ∧ e < i.hi) : e < p.cursor := by
  have hone := one_le_weigh_point hi he
  have honce := h.once e
  by_contra hge
  rw [if_neg fun hlt => hge hlt.2] at honce
  omega

theorem lt_cursor_of_slot (h : Covers start installed slots p) (hs : slot ∈ slots) {e : ℕ}
    (he : slot.lo ≤ e ∧ e < slot.hi) : e < p.cursor := by
  have hone := one_le_weigh_point hs he
  have honce := h.once e
  by_contra hge
  rw [if_neg fun hlt => hge hlt.2] at honce
  omega

/-- What is mapped at the end is covered, and what was covered stays so. -/
theorem grows (h : Covers start installed slots p) (hg : Grows more p p') :
    Covers start (more ++ installed) slots p' where
  tracked := hg.tracked
  start_le := h.start_le.trans hg.le
  aligned i hi := (List.mem_append.mp hi).elim (hg.aligned i) (h.aligned i)
  slotAligned := h.slotAligned
  once e := by
    have hstart := h.start_le
    have hle := hg.le
    have honce := h.once e
    rw [weigh_append, hg.once]
    split_ifs at honce ⊢ <;> omega
  mapped i hi := by
    rcases List.mem_append.mp hi with hnew | hold
    · exact hg.mapped i hnew
    · intro k hk
      rw [hg.below _ (h.lt_cursor_of_installed hold (i.mem_page hk))]
      exact h.mapped i hold k hk
  cleared slot hs e he := by
    rw [hg.below e (h.lt_cursor_of_slot hs he)]
    exact h.cleared slot hs e he

/-- An installation without pages covers nothing. -/
theorem drop (h : Covers start (i :: installed) slots p) (hi : Page.count i.chain = 0) :
    Covers start installed slots p where
  tracked := h.tracked
  start_le := h.start_le
  aligned j hj := h.aligned j (List.mem_cons_of_mem _ hj)
  slotAligned := h.slotAligned
  once e := by
    have honce := h.once e
    rw [weigh_cons, Installation.hi, hi, Nat.add_zero, Weight.of_self, Nat.zero_add] at honce
    exact honce
  mapped j hj := h.mapped j (List.mem_cons_of_mem _ hj)
  cleared := h.cleared

/-- The first `n` pages of a hole can be held for a chain. -/
theorem split {n ptr : ℕ} (h : Covers start installed (slot :: slots) p) (hn : n ≤ slot.pages) :
    Covers start installed (⟨ptr, slot.base, n⟩ ::
      { slot with pages := slot.pages - n, base := slot.base + n * pageSize } :: slots) p := by
  have ha := h.slotAligned slot List.mem_cons_self
  have hlo : EmptySlot.lo { slot with pages := slot.pages - n, base := slot.base + n * pageSize } =
      slot.lo + n := tableIndex_add ha
  have hhi : EmptySlot.hi { slot with pages := slot.pages - n, base := slot.base + n * pageSize } =
      slot.hi := by
    rw [EmptySlot.hi, hlo, EmptySlot.hi, Nat.add_assoc, Nat.add_sub_cancel' hn]
  have hcl := h.cleared slot List.mem_cons_self
  refine ⟨h.tracked, h.start_le, h.aligned, ?_, fun e => ?_, h.mapped, ?_⟩
  · intro s hs
    rcases List.mem_cons.mp hs with rfl | hs
    · exact ha
    · rcases List.mem_cons.mp hs with rfl | hs
      · exact ha.add n
      · exact h.slotAligned s (List.mem_cons_of_mem _ hs)
  · have honce := h.once e
    have hadd := (Weight.point e).add (Nat.le_add_right slot.lo n) (Nat.add_le_add_left hn slot.lo)
    rw [weigh_cons] at honce
    rw [weigh_cons, weigh_cons, hlo, hhi]
    simp only [EmptySlot.hi, EmptySlot.lo] at *
    omega
  · intro s hs e he
    rcases List.mem_cons.mp hs with rfl | hs
    · apply hcl
      simp only [EmptySlot.hi, EmptySlot.lo] at he ⊢
      omega
    · rcases List.mem_cons.mp hs with rfl | hs
      · apply hcl
        rw [hlo, hhi] at he
        exact ⟨(Nat.le_add_right _ _).trans he.1, he.2⟩
      · exact h.cleared s (List.mem_cons_of_mem _ hs) e he

/-- A chain is mapped over pages that are held for it. -/
theorem install {hold : EmptySlot} {chain : List Page} {flags : ℕ}
    (h : Covers start installed (hold :: slots) p) (hpages : hold.pages = Page.count chain)
    (hpointer : p'.virtualPointer = p.virtualPointer) (hcursor : p'.cursor = p.cursor)
    (hin : ∀ k < Page.count chain, p'.table (hold.lo + k) = Page.entryAt flags chain k)
    (hout : ∀ e, ¬ (hold.lo ≤ e ∧ e < hold.hi) → p'.table e = p.table e) :
    Covers start (⟨hold.base, chain, flags⟩ :: installed) slots p' := by
  have hlo : Installation.lo ⟨hold.base, chain, flags⟩ = hold.lo := rfl
  have hhi : Installation.hi ⟨hold.base, chain, flags⟩ = hold.hi := by
    rw [Installation.hi, hlo, EmptySlot.hi, hpages]
  refine ⟨⟨hpointer ▸ h.tracked.aligned, by rw [hcursor, hpointer, h.tracked.cursor]⟩,
    hcursor ▸ h.start_le, ?_, ?_, fun e => ?_, ?_, ?_⟩
  · intro i hi
    rcases List.mem_cons.mp hi with rfl | hi
    · exact h.slotAligned hold List.mem_cons_self
    · exact h.aligned i hi
  · exact fun s hs => h.slotAligned s (List.mem_cons_of_mem _ hs)
  · have honce := h.once e
    rw [weigh_cons] at honce ⊢
    rw [hlo, hhi, hcursor]
    omega
  · intro i hi
    rcases List.mem_cons.mp hi with rfl | hi
    · exact hin
    · intro k hk
      rw [hout _ fun hover => ?_]
      · exact h.mapped i hi k hk
      · have hle := h.weigh_le_one (i.lo + k)
        have hone := one_le_weigh_point hi (i.mem_page hk)
        rw [weigh_cons, point_of_mem hover] at hle
        omega
  · intro s hs e he
    rw [hout _ fun hover => ?_]
    · exact h.cleared s (List.mem_cons_of_mem _ hs) e he
    · have hle := h.weigh_le_one e
      have hone := one_le_weigh_point hs he
      rw [weigh_cons, point_of_mem hover] at hle
      omega

/-- The first run of an installation becomes a hole. -/
theorem uninstall {base flags : ℕ} {page : Page} {next : List Page}
    (h : Covers start (⟨base, page :: next, flags⟩ :: installed) slots p)
    (hbase : slot.base = base) (hpages : slot.pages = page.consecutive)
    (hpointer : p'.virtualPointer = p.virtualPointer) (hcursor : p'.cursor = p.cursor)
    (hin : ∀ e, slot.lo ≤ e ∧ e < slot.hi → p'.table e = 0)
    (hout : ∀ e, ¬ (slot.lo ≤ e ∧ e < slot.hi) → p'.table e = p.table e) :
    Covers start (⟨base + page.consecutive * pageSize, next, flags⟩ :: installed)
      (slot :: slots) p' := by
  subst hbase
  have ha : Aligned slot.base := h.aligned _ List.mem_cons_self
  have hlo : Installation.lo ⟨slot.base + page.consecutive * pageSize, next, flags⟩ = slot.hi := by
    rw [Installation.lo, tableIndex_add ha, EmptySlot.hi, EmptySlot.lo, hpages]
  have hlo' : Installation.lo ⟨slot.base, page :: next, flags⟩ = slot.lo := rfl
  have hhi : Installation.hi ⟨slot.base + page.consecutive * pageSize, next, flags⟩ =
      Installation.hi ⟨slot.base, page :: next, flags⟩ := by
    rw [Installation.hi, Installation.hi, hlo, hlo', EmptySlot.hi, hpages]
    exact Nat.add_assoc _ _ _
  have hle : slot.lo ≤ slot.hi := Nat.le_add_right _ _
  have hle' : slot.hi ≤ Installation.hi ⟨slot.base, page :: next, flags⟩ := by
    rw [← hhi, ← hlo]
    exact Nat.le_add_right _ _
  -- The pages of the hole were pages of the installation, and of nothing else.
  have hpart : ∀ e, slot.lo ≤ e ∧ e < slot.hi →
      weigh (.point e) Installation.lo Installation.hi installed +
        weigh (.point e) EmptySlot.lo EmptySlot.hi slots = 0 := by
    intro e he
    have hone := h.weigh_le_one e
    rw [weigh_cons, hlo', point_of_mem ⟨he.1, he.2.trans_le hle'⟩] at hone
    omega
  refine ⟨⟨hpointer ▸ h.tracked.aligned, by rw [hcursor, hpointer, h.tracked.cursor]⟩,
    hcursor ▸ h.start_le, ?_, ?_, fun e => ?_, ?_, ?_⟩
  · intro i hi
    rcases List.mem_cons.mp hi with rfl | hi
    · exact ha.add _
    · exact h.aligned i (List.mem_cons_of_mem _ hi)
  · intro s hs
    rcases List.mem_cons.mp hs with rfl | hs
    · exact ha
    · exact h.slotAligned s hs
  · have honce := h.once e
    have hadd := (Weight.point e).add hle hle'
    rw [weigh_cons, hlo'] at honce
    rw [weigh_cons, weigh_cons, hlo, hhi, hcursor]
    omega
  · intro i hi
    rcases List.mem_cons.mp hi with rfl | hi
    · intro k hk
      have hk : k < Page.count next := hk
      have hm := h.mapped _ List.mem_cons_self (page.consecutive + k)
        (by simpa only [Page.count] using Nat.add_lt_add_left hk _)
      rw [Page.entryAt, if_neg (by omega), Nat.add_sub_cancel_left, hlo'] at hm
      rw [hlo, hout _ (by omega), EmptySlot.hi, hpages, Nat.add_assoc]
      exact hm
    · intro k hk
      rw [hout _ fun hover => ?_]
      · exact h.mapped i (List.mem_cons_of_mem _ hi) k hk
      · have hone := one_le_weigh_point hi (i.mem_page hk)
        have hzero := hpart _ hover
        omega
  · intro s hs e he
    rcases List.mem_cons.mp hs with rfl | hs
    · exact hin e he
    · rw [hout _ fun hover => ?_]
      · exact h.cleared s hs e he
      · have hone := one_le_weigh_point hs he
        have hzero := hpart _ hover
        omega

/-- A hole is put in its place, and joined with the holes it touches. -/
theorem insertRun {before after : List EmptySlot}
    (h : Covers start installed (slot :: (before ++ after)) p) :
    Covers start installed
      (Runs.insertRun EmptySlot.lo EmptySlot.hi EmptySlot.join before slot after) p := by
  have hle : ∀ s : EmptySlot, s.lo ≤ s.hi := fun s => Nat.le_add_right _ _
  have hweigh : ∀ e, weigh (.point e) EmptySlot.lo EmptySlot.hi
      (Runs.insertRun EmptySlot.lo EmptySlot.hi EmptySlot.join before slot after) =
        weigh (.point e) EmptySlot.lo EmptySlot.hi (slot :: (before ++ after)) := fun e => by
    rw [weigh_insertRun _ EmptySlot.lo_join EmptySlot.hi_join (hle slot) fun s _ => hle s,
      weigh_cons]
  refine ⟨h.tracked, h.start_le, h.aligned, fun s hs => ?_, fun e => ?_, h.mapped, ?_⟩
  · have hjoin : ∀ u v : EmptySlot, (u.join v).base = u.base := fun _ _ => rfl
    obtain ⟨z, hz, hbase⟩ := exists_of_mem_insertRun hjoin hs
    exact hbase ▸ h.slotAligned z hz
  · rw [hweigh, h.once]
  · intro s hs e he
    have hone := one_le_weigh_point hs he
    rw [hweigh] at hone
    obtain ⟨z, hz, hez⟩ := exists_of_one_le_weigh_point hone
    exact h.cleared z hz e hez

end Covers

/-! ## The loops -/

section Loops
variable {s s' : Mem}

theorem writeRun_eq {memBase flags k i entry r : ℕ}
    (h : (Page.writeRun memBase flags k i entry).Returns s r s') : r = entry + k ∧
      s' = { s with page.table := writeEntries memBase flags k i entry s.page.table } := by
  induction k generalizing s i entry with
  | zero => exact returns_pure.mp h
  | succ k ih =>
    rw [Page.writeRun, returns_modify_bind] at h
    obtain ⟨rfl, rfl⟩ := ih (returns_pure_bind.mp h)
    exact ⟨by omega, rfl⟩

/-- Where the runs of a chain have the length `kinstall` takes them to have, the entries
written are those of the chain. -/
theorem writeChain_eq {consecutive flags entry : ℕ} {chain : List Page} {u : Unit}
    (h : (Page.writeChain consecutive flags chain entry).Returns s u s')
    (hall : ∀ page ∈ chain, page.consecutive = consecutive) :
    ∃ table, s' = { s with page.table := table } ∧
      (∀ k < Page.count chain, table (entry + k) = Page.entryAt flags chain k) ∧
      ∀ e, ¬ (entry ≤ e ∧ e < entry + Page.count chain) → table e = s.page.table e := by
  induction chain generalizing s entry with
  | nil =>
    obtain ⟨-, rfl⟩ := returns_pure.mp h
    exact ⟨s'.page.table, rfl, fun k hk => absurd hk (Nat.not_lt_zero k), fun _ _ => rfl⟩
  | cons page next ih =>
    obtain ⟨entry', s₁, hrun, hrest⟩ := returns_bind.mp h
    obtain ⟨rfl, rfl⟩ := writeRun_eq hrun
    have hpage : page.consecutive = consecutive := hall page List.mem_cons_self
    obtain ⟨table, rfl, hin, hout⟩ := ih hrest fun q hq => hall q (List.mem_cons_of_mem _ hq)
    refine ⟨table, rfl, fun k hk => ?_, fun e he => ?_⟩
    · rw [Page.entryAt, hpage]
      by_cases hlt : k < consecutive
      · rw [if_pos hlt, hout _ (by omega)]
        refine (writeEntries_apply _).trans ?_
        rw [if_pos (by omega)]
        congr 1
        omega
      · simp only [Page.count, hpage] at hk
        rw [if_neg hlt, ← hin _ (by omega)]
        congr 1
        omega
    · simp only [Page.count, hpage] at he
      rw [hout _ (by omega)]
      refine (writeEntries_apply _).trans ?_
      rw [if_neg (by omega)]

theorem clearRun_eq {k entry base r : ℕ} (h : (Page.clearRun k entry base).Returns s r s') :
    r = base + k * pageSize ∧ ∃ table, s' = { s with page.table := table } ∧
      (∀ e, entry ≤ e ∧ e < entry + k → table e = 0) ∧
      ∀ e, ¬ (entry ≤ e ∧ e < entry + k) → table e = s.page.table e := by
  induction k generalizing s entry base with
  | zero =>
    obtain ⟨rfl, rfl⟩ := returns_pure.mp h
    exact ⟨by omega, s'.page.table, rfl, fun e he => by omega, fun _ _ => rfl⟩
  | succ k ih =>
    rw [Page.clearRun, returns_modify_bind] at h
    obtain ⟨rfl, table, rfl, hin, hout⟩ := ih (returns_pure_bind.mp h)
    refine ⟨by simp only [sizes]; omega, table, rfl, fun e he => ?_, fun e he => ?_⟩
    · by_cases he' : e = entry
      · rw [he', hout _ (by omega)]
        exact Function.update_self _ _ _
      · exact hin e (by omega)
    · rw [hout _ (by omega)]
      exact Function.update_of_ne (by omega) _ _

end Loops

/-! ## The holes -/

section Slots
variable {held : List KmemHeader} {owned : List (ℕ × ℕ)} {s s' : Mem} {depth : ℕ}
  {pre post : List EmptySlot} {slot : EmptySlot}

/-- A record that is owned is linked into the holes. -/
theorem MemInv.linkSlot {before after : List EmptySlot}
    (h : MemInv held ((slot.ptr, sizeofSlot) :: owned) s) (hl : before ++ after = s.page.emptySlot)
    (table : ℕ → ℕ) : MemInv held owned { s with
      page.emptySlot := before ++ slot :: after
      page.table := table } := by
  refine h.hand rfl rfl ?_
  simp only [PageState.owned, ← hl, slotRecords_append, slotRecords_cons]
  grind

/-- `_merge_free_slots` joins a hole with the one behind it when the two touch. -/
theorem mergeFreeSlots_returns {u : Unit}
    (hr : (Page.mergeFreeSlots depth slot.ptr).Returns s u s') (hs : s.page.Tracked)
    (hmutex : s.mutex = true) (hl : s.page.emptySlot = pre ++ slot :: post)
    (hn : (s.page.emptySlot.map EmptySlot.ptr).Nodup)
    (ha : ∀ z ∈ slot :: post, Aligned z.base) :
    ∃ more, (Grows more s.page s'.page ∧
      s'.kmem.pool = more.map Installation.range ++ s.kmem.pool) ∧ s'.page.emptySlot =
        pre ++ joinRight EmptySlot.lo EmptySlot.hi EmptySlot.join slot post := by
  have hsame : Grows [] s.page s.page := .of_same hs rfl rfl rfl
  rw [Page.mergeFreeSlots, returns_get_bind, hl, joinNext_eq (hl ▸ hn)] at hr
  cases post with
  | nil =>
    obtain ⟨-, rfl⟩ := returns_pure.mp hr
    exact ⟨[], ⟨hsame, rfl⟩, hl⟩
  | cons z post =>
    have haz : Aligned z.base := ha z (by simp)
    have has : Aligned slot.base := ha slot List.mem_cons_self
    have htouch : slot.base + slot.pages * pageSize = z.base ↔ slot.hi = z.lo := by
      rw [← tableIndex_inj (has.add _) haz, tableIndex_add has]
      rfl
    by_cases ht : slot.hi = z.lo
    · rw [joinRight, if_pos ht]
      simp only [beq_iff_eq, if_pos (htouch.mpr ht), returns_set_bind] at hr
      obtain ⟨more, hg, hslot, hpool, -⟩ := Growing.kfreeNolock depth z.ptr _ (by exact hmutex) _ _
        hr ⟨hs.aligned, hs.cursor⟩
      exact ⟨more, ⟨⟨hg.tracked, hg.le, hg.below, hg.aligned, hg.once, hg.mapped⟩, hpool⟩, hslot⟩
    · rw [joinRight, if_neg ht]
      simp only [beq_iff_eq, if_neg (mt htouch.mp ht)] at hr
      obtain ⟨-, rfl⟩ := returns_pure.mp hr
      exact ⟨[], ⟨hsame, rfl⟩, hl⟩

/-- A hole that is linked in front of `after` is joined with both its neighbours. -/
theorem mergeFreeSlots_twice {before after : List EmptySlot} {t : Mem} {u v : Unit}
    (hr : (Page.mergeFreeSlots depth slot.ptr).Returns s u t)
    (hr' : (if before.isEmpty then pure ()
      else Page.mergeFreeSlots depth (lastPtr EmptySlot.ptr before) : M Unit).Returns t v s')
    (hs : s.page.Tracked) (hl : s.page.emptySlot = before ++ slot :: after)
    (hm : MemInv held owned s) (hmutex : s.mutex = true)
    (ha : ∀ z ∈ before ++ slot :: after, Aligned z.base) :
    (∃ more, Grows more s.page s'.page ∧
      s'.kmem.pool = more.map Installation.range ++ s.kmem.pool) ∧ s'.page.emptySlot =
      insertRun EmptySlot.lo EmptySlot.hi EmptySlot.join before slot after ∧
        MemInv held owned s' ∧ s'.mutex = true := by
  obtain ⟨more, ⟨hg, hpool⟩, hl'⟩ := mergeFreeSlots_returns hr hs hmutex hl hm.slots_nodup
    fun z hz => ha z (List.mem_append_right _ hz)
  have hm' := mergeFreeSlots_memInv hr hmutex hm
  have hmutex' : t.mutex = true := (locks_mergeFreeSlots depth slot.ptr).returns hr hmutex
  rcases List.eq_nil_or_concat before with rfl | ⟨pre, p, rfl⟩
  · obtain ⟨-, rfl⟩ := returns_pure.mp hr'
    exact ⟨⟨more, hg, hpool⟩, hl', hm', hmutex'⟩
  · rw [List.concat_eq_append] at hr' hl' ha ⊢
    rw [if_neg (by simp), lastPtr_append_singleton] at hr'
    rw [List.append_assoc, List.singleton_append] at hl'
    obtain ⟨more', ⟨hg', hpool'⟩, hl''⟩ :=
      mergeFreeSlots_returns hr' hg.tracked hmutex' hl' hm'.slots_nodup fun z hz => by
        rcases List.mem_cons.mp hz with rfl | hz
        · exact ha z (by simp)
        · have hjoin : ∀ u v : EmptySlot, (u.join v).base = u.base := fun _ _ => rfl
          obtain ⟨y, hy, hzy⟩ := exists_of_mem_joinRight hjoin hz
          exact hzy ▸ ha y (List.mem_append_right _ hy)
    refine ⟨⟨more' ++ more, hg.trans hg', ?_⟩, ?_, mergeFreeSlots_memInv hr' hmutex' hm',
      (locks_mergeFreeSlots depth p.ptr).returns hr' hmutex'⟩
    · rw [hpool', hpool, List.map_append, List.append_assoc]
    · rw [hl'', insertRun_append_singleton]

end Slots

/-! ## The calls -/

/-- A chain of one or more runs, none of which is empty. -/
def Page.Positive (chain : List Page) : Prop :=
  chain ≠ [] ∧ ∀ page ∈ chain, 0 < page.consecutive

instance : DecidablePred Page.Positive := fun _ => inferInstanceAs (Decidable (_ ∧ _))

/-- Where `kinstall` fills a hole with the chain, its runs have the same length. -/
def Mem.FillsRight (s : Mem) (chain : List Page) : Prop :=
  (∃ slot ∈ s.page.emptySlot, Page.count chain ≤ slot.pages) →
    ∀ page ∈ chain, page.consecutive = Page.firstRun chain

instance (s : Mem) : DecidablePred s.FillsRight := fun _ => inferInstanceAs (Decidable (_ → _))

theorem Page.Positive.firstRun_pos {chain : List Page} (h : Page.Positive chain) :
    0 < Page.firstRun chain := by
  obtain ⟨page, next, rfl⟩ := List.exists_cons_of_ne_nil h.1
  exact h.2 page List.mem_cons_self

namespace Bookkept

variable {start flags r depth : ℕ} {installed installed' more : List Installation}
  {chain : List Page} {p p' : PageState} {s s' : Mem} {held : List KmemHeader}
  {owned : List (ℕ × ℕ)}

theorem perm (h : Bookkept start installed p) (hp : installed'.Perm installed) :
    Bookkept start installed' p := ⟨h.covers.perm hp (.refl _), h.slots⟩

theorem congr (h : Bookkept start installed p) (hpointer : p'.virtualPointer = p.virtualPointer)
    (hcursor : p'.cursor = p.cursor) (htable : p'.table = p.table)
    (hslot : p'.emptySlot = p.emptySlot) : Bookkept start installed p' := by
  refine ⟨?_, hslot ▸ h.slots⟩
  rw [hslot]
  exact h.covers.congr hpointer hcursor htable

theorem grows (h : Bookkept start installed p) (hg : Grows more p p')
    (hslot : p'.emptySlot = p.emptySlot) : Bookkept start (more ++ installed) p' := by
  refine ⟨?_, hslot ▸ h.slots⟩
  rw [hslot]
  exact h.covers.grows hg

theorem kinstallAppend {lock : Bool} (h : Bookkept start installed s.page)
    (hr : (Page.kinstallAppend chain flags lock).Returns s r s') (hpos : Page.Positive chain) :
    Bookkept start (⟨r, chain, flags⟩ :: installed) s'.page := by
  obtain ⟨happ, hbase⟩ := kinstallAppend_appended hr
  have ht := h.covers.tracked
  rw [hbase hpos.firstRun_pos ht.aligned.pos]
  exact h.grows (happ.grows ht) happ.emptySlot

/-- The pages that `kinstall` takes from a hole are in no hole any more. -/
theorem takeSlot {slot : EmptySlot} {pre post : List EmptySlot} {u : Unit}
    (h : Bookkept start installed s.page)
    (hr : (Page.takeSlot depth (Page.count chain) slot (pre ++ post)).Returns s u s')
    (hs : s.mutex = true) (hl : s.page.emptySlot = pre ++ slot :: post)
    (hn : (s.page.emptySlot.map EmptySlot.ptr).Nodup) (hle : Page.count chain ≤ slot.pages) :
    ∃ more ptr, Covers start (more ++ installed)
      (⟨ptr, slot.base, Page.count chain⟩ :: s'.page.emptySlot) s'.page ∧
        Coalesced EmptySlot.lo EmptySlot.hi s'.page.emptySlot ∧
          s'.kmem.pool = more.map Installation.range ++ s.kmem.pool := by
  rw [hl] at hn
  have hcovers := hl ▸ h.covers
  have hslots := hl ▸ h.slots
  have hfront := hcovers.perm (.refl _) List.perm_middle.symm
  rw [Page.takeSlot, returns_get_bind] at hr
  split_ifs at hr with hpages
  · rw [returns_set_bind] at hr
    obtain ⟨more, hg, hsame, hpool, -⟩ := Growing.kfreeNolock depth slot.ptr _ (by exact hs) _ _ hr
      ⟨h.covers.tracked.aligned, h.covers.tracked.cursor⟩
    refine ⟨more, slot.ptr, ?_, hsame ▸ hslots.remove, hpool⟩
    rw [hsame, ← hpages]
    refine Covers.grows ?_ hg
    exact hfront.congr rfl rfl rfl
  · obtain rfl := returns_set.mp hr
    refine ⟨[], 0, ?_, ?_, rfl⟩
    · simp only [hl, updateAt_eq _ hn]
      refine Covers.congr (p := s.page) ?_ rfl rfl rfl
      exact (hfront.split hle).perm (.refl _) (.cons _ List.perm_middle)
    · simp only [hl, updateAt_eq _ hn]
      have ha := hcovers.slotAligned slot (by simp)
      have hlo := tableIndex_add (k := Page.count chain) ha
      refine hslots.replace ?_ ?_ ?_
      · simp only [EmptySlot.lo, hlo]
        omega
      · simp only [EmptySlot.hi, EmptySlot.lo, hlo]
        omega
      · simp only [EmptySlot.hi, EmptySlot.lo, hlo]
        omega

/-- A chain whose runs have the same length is mapped over the pages that are taken. -/
theorem fill {slot : EmptySlot} {pre post : List EmptySlot} {u v : Unit} {s₁ : Mem}
    (h : Bookkept start installed s.page)
    (htake : (Page.takeSlot depth (Page.count chain) slot (pre ++ post)).Returns s u s₁)
    (hwrite : (Page.writeChain (Page.firstRun chain) flags chain (tableIndex slot.base)).Returns
      s₁ v s')
    (hs : s.mutex = true) (hl : s.page.emptySlot = pre ++ slot :: post)
    (hn : (s.page.emptySlot.map EmptySlot.ptr).Nodup) (hle : Page.count chain ≤ slot.pages)
    (hall : ∀ page ∈ chain, page.consecutive = Page.firstRun chain) :
    ∃ more, Bookkept start (⟨slot.base, chain, flags⟩ :: (more ++ installed)) s'.page ∧
      s'.kmem.pool = more.map Installation.range ++ s.kmem.pool := by
  obtain ⟨more, ptr, hheld, hcoalesced, hpool⟩ := h.takeSlot htake hs hl hn hle
  obtain ⟨table, rfl, hin, hout⟩ := writeChain_eq hwrite hall
  exact ⟨more, ⟨hheld.install rfl rfl rfl hin hout, hcoalesced⟩, hpool⟩

/-- `kinstall` fills the first hole that is large enough, or maps the chain at the end. -/
theorem kinstall (h : Bookkept start installed s.page)
    (hr : (Page.kinstall depth chain flags).Returns s r s') (hs : s.mutex = false)
    (hm : MemInv held owned s) (hpos : Page.Positive chain) (hfill : s.FillsRight chain) :
    ∃ more, Bookkept start (⟨r, chain, flags⟩ :: (more ++ installed)) s'.page ∧
      s'.kmem.pool = more.map Installation.range ++ s.kmem.pool := by
  rw [Page.kinstall] at hr
  obtain ⟨_, s₀, hlock, hbody⟩ := returns_bind.mp hr
  obtain rfl := mutexLock_returns hs hlock
  rw [returns_get_bind] at hbody
  split at hbody
  next slot hfind =>
    obtain ⟨_, s₁, hslot, hbody⟩ := returns_bind.mp hbody
    have hmem : slot ∈ s.page.emptySlot := List.mem_of_find?_eq_some hfind
    have hle : Page.count chain ≤ slot.pages := by simpa using List.find?_some hfind
    obtain ⟨pre, post, hl⟩ := List.append_of_mem hmem
    have hn := hm.slots_nodup
    have hbase : slot.base ≠ 0 := (h.covers.slotAligned slot hmem).pos.ne'
    rw [if_pos hbase] at hbody
    obtain ⟨_, s₂, hwrite, hrest⟩ := returns_bind.mp hbody
    obtain ⟨_, s₃, hunlock, hret⟩ := returns_bind.mp hrest
    obtain rfl := returns_modify.mp hunlock
    obtain ⟨rfl, rfl⟩ := returns_pure.mp hret
    simp only [hl, unlink_eq (hl ▸ hn)] at hslot
    have hheld : Bookkept start installed ({ s with mutex := true } : Mem).page :=
      h.congr rfl rfl rfl rfl
    have hfilled := hheld.fill hslot hwrite rfl hl hn hle (hfill ⟨slot, hmem, hle⟩)
    exact hfilled
  next =>
    obtain ⟨_, s₂, hunlock, happ⟩ := returns_bind.mp hbody
    obtain rfl := returns_modify.mp hunlock
    have hpool := @kinstallAppend_pool chain flags true s.kmem.pool _ (by rfl) _ _ happ
    refine ⟨[], Bookkept.kinstallAppend ?_ happ hpos, hpool⟩
    exact h.congr rfl rfl rfl rfl

/-- The holes before and behind a run that becomes a hole leave it alone. -/
theorem apart {base : ℕ} {page : Page} {next : List Page}
    (h : Bookkept start (⟨base, page :: next, flags⟩ :: installed) p) (slot : EmptySlot)
    (hbase : slot.base = base) (hpages : slot.pages = page.consecutive)
    (hpos : 0 < page.consecutive) :
    (∀ z ∈ p.emptySlot.takeWhile fun now => now.base < base, z.hi ≤ slot.lo) ∧
      ∀ z ∈ p.emptySlot.dropWhile fun now => now.base < base, slot.hi ≤ z.lo := by
  subst hbase
  have ha : Aligned slot.base := h.covers.aligned _ List.mem_cons_self
  have hlt : ∀ z ∈ p.emptySlot,
      decide (z.base < slot.base) = decide (EmptySlot.lo z < slot.lo) := fun z hz => by
    obtain ⟨hle, hmod⟩ := ha
    obtain ⟨hle', hmod'⟩ := h.covers.slotAligned z hz
    simp only [EmptySlot.lo, tableIndex, kernelVmBase_eq, sizes] at *
    apply decide_eq_decide.mpr
    omega
  have hrun : ∀ e, slot.lo ≤ e ∧ e < slot.hi →
      weigh (.point e) EmptySlot.lo EmptySlot.hi p.emptySlot = 0 := by
    intro e he
    have hone := h.covers.weigh_le_one e
    have hin : Installation.lo ⟨slot.base, page :: next, flags⟩ ≤ e ∧
        e < Installation.hi ⟨slot.base, page :: next, flags⟩ := by
      simp only [Installation.hi, Installation.lo, Page.count, EmptySlot.hi, EmptySlot.lo,
        hpages] at *
      omega
    rw [weigh_cons, point_of_mem hin] at hone
    omega
  refine ⟨fun z hz => ?_, fun z hz => ?_⟩
  · have hmem := List.takeWhile_subset _ hz
    have hbefore : z.lo < slot.lo := by
      have := List.mem_takeWhile_imp hz
      rw [hlt z hmem] at this
      exact of_decide_eq_true this
    by_contra hgt
    have hlo : slot.lo ≤ slot.lo ∧ slot.lo < slot.hi := by
      simp only [EmptySlot.hi]
      omega
    have hone := one_le_weigh_point hmem ⟨hbefore.le, not_le.mp hgt⟩
    rw [hrun _ hlo] at hone
    omega
  · have hmem := List.dropWhile_subset _ hz
    rw [dropWhile_congr hlt] at hz
    have hbehind := h.slots.le_of_mem_dropWhile hz
    by_contra hgt
    have hone := one_le_weigh_point (a := z.lo) hmem ⟨le_rfl, h.slots.pos z hmem⟩
    rw [hrun _ ⟨hbehind, by omega⟩] at hone
    omega

/-- Every run of the chain becomes a hole, joined with the holes it touches. -/
theorem kuninstall {base : ℕ} {u : Unit} (h : Bookkept start (⟨base, chain, flags⟩ :: installed) s.page)
    (hr : (Page.kuninstall depth base chain).Returns s u s') (hs : s.mutex = false)
    (hm : MemInv held owned s) (hpos : ∀ page ∈ chain, 0 < page.consecutive) :
    ∃ more, Bookkept start (more ++ installed) s'.page ∧
      s'.kmem.pool = more.map Installation.range ++ s.kmem.pool := by
  induction chain generalizing s s' base installed with
  | nil =>
    obtain ⟨-, rfl⟩ := returns_pure.mp hr
    exact ⟨[], ⟨h.covers.drop rfl, h.slots⟩, rfl⟩
  | cons page next ih =>
    have hpage : 0 < page.consecutive := hpos page List.mem_cons_self
    rw [Page.kuninstall] at hr
    obtain ⟨_, s₀, hlock, hbody⟩ := returns_bind.mp hr
    obtain rfl := mutexLock_returns hs hlock
    obtain ⟨newSlot, s₁, hrec, hbody⟩ := returns_bind.mp hbody
    have hm₁ : MemInv held ((newSlot, sizeofSlot) :: owned) s₁ :=
      kmalloc_record_memInv hrec (by decide) (by decide) rfl (hm.same rfl rfl rfl)
    have hs₁ : s₁.mutex = true := (locks_kmalloc depth sizeofSlot kmallocNolock).returns hrec rfl
    obtain ⟨more₁, hg₁, hslot₁, hpool₁, -⟩ := Growing.kmalloc depth sizeofSlot kmallocNolock _ rfl
      _ _ hrec ⟨h.covers.tracked.aligned, h.covers.tracked.cursor⟩
    have h₁ : Bookkept start (⟨base, page :: next, flags⟩ :: (more₁ ++ installed)) s₁.page := by
      refine (Bookkept.grows ?_ hg₁ hslot₁).perm List.perm_middle.symm
      exact h.congr rfl rfl rfl rfl
    rw [returns_get_bind] at hbody
    simp only [returns_set_bind] at hbody
    obtain ⟨base', s₂, hclear, hbody⟩ := returns_bind.mp hbody
    obtain ⟨rfl, table, rfl, hin, hout⟩ := clearRun_eq hclear
    have hl := List.takeWhile_append_dropWhile (l := s₁.page.emptySlot)
      (p := fun now => decide (now.base < base))
    obtain ⟨hbefore, hbehind⟩ := h₁.apart ⟨newSlot, base, page.consecutive⟩ rfl rfl hpage
    generalize s₁.page.emptySlot.takeWhile (fun now => decide (now.base < base)) = before at *
    generalize s₁.page.emptySlot.dropWhile (fun now => decide (now.base < base)) = after at *
    have hslots := hl.symm ▸ h₁.slots
    have hcovers : Covers start
        (⟨base + page.consecutive * pageSize, next, flags⟩ :: (more₁ ++ installed))
        (⟨newSlot, base, page.consecutive⟩ :: (before ++ after))
        { s₁.page with
          emptySlot := before ++ ⟨newSlot, base, page.consecutive⟩ :: after
          table := table } := by
      have hcov := h₁.covers
      rw [← hl] at hcov
      exact hcov.uninstall rfl rfl rfl rfl hin hout
    obtain ⟨_, s₃, hmerge, hbody⟩ := returns_bind.mp hbody
    obtain ⟨_, s₄, hmerge', hbody⟩ := returns_bind.mp hbody
    have hmerge : (Page.mergeFreeSlots depth
      (EmptySlot.ptr ⟨newSlot, base, page.consecutive⟩)).Returns _ _ s₃ := hmerge
    obtain ⟨⟨more₂, hg₂, hpool₂⟩, hslot₂, hm₄, hs₄⟩ := mergeFreeSlots_twice hmerge hmerge'
      ⟨hcovers.tracked.aligned, hcovers.tracked.cursor⟩ rfl
      (MemInv.linkSlot hm₁ hl table) hs₁
      fun z hz => hcovers.slotAligned z (by simpa [or_left_comm] using hz)
    have h₄ : Bookkept start
        (⟨base + page.consecutive * pageSize, next, flags⟩ :: (more₂ ++ (more₁ ++ installed)))
        s₄.page := by
      refine Bookkept.perm ⟨?_, ?_⟩ List.perm_middle.symm
      · rw [hslot₂]
        refine (Covers.grows ?_ hg₂).insertRun
        exact hcovers
      · rw [hslot₂]
        exact coalesced_insertRun EmptySlot.lo_join EmptySlot.hi_join
          (Nat.lt_add_of_pos_right hpage) hslots hbefore hbehind
    obtain ⟨_, s₅, hunlock, hrest⟩ := returns_bind.mp hbody
    obtain rfl := returns_modify.mp hunlock
    have hnext : ∃ more, Bookkept start (more ++ (more₂ ++ (more₁ ++ installed))) s'.page ∧
        s'.kmem.pool = more.map Installation.range ++ s₄.kmem.pool := by
      split_ifs at hrest with hempty
      · obtain ⟨-, rfl⟩ := returns_pure.mp hrest
        obtain rfl := List.isEmpty_iff.mp hempty
        exact ⟨[], ⟨h₄.covers.drop rfl, h₄.slots⟩, rfl⟩
      · exact ih (s := { s₄ with mutex := false }) h₄ hrest rfl (hm₄.same rfl rfl rfl)
          fun q hq => hpos q (List.mem_cons_of_mem _ hq)
    obtain ⟨more₃, h₅, hpool₅⟩ := hnext
    refine ⟨more₃ ++ (more₂ ++ more₁), ?_, ?_⟩
    · simpa only [List.append_assoc] using h₅
    · rw [hpool₅, hpool₂]
      simp only [List.map_append, List.append_assoc, hpool₁]

end Bookkept

/-- What is in the pages from `start` on, when the callers hold `installed`: besides there are
the installations of the heap, which are those of its pool. -/
def Mem.Keeps (start : ℕ) (installed : List Installation) (s : Mem) : Prop :=
  ∃ heap : List Installation, heap.map Installation.range = s.kmem.pool ∧
    Bookkept start (installed ++ heap) s.page

namespace Mem.Keeps

variable {start flags r depth base : ℕ} {installed installed' : List Installation}
  {chain : List Page} {s s' : Mem} {held : List KmemHeader} {owned : List (ℕ × ℕ)}

theorem perm (h : s.Keeps start installed) (hp : installed'.Perm installed) :
    s.Keeps start installed' := by
  obtain ⟨heap, hpool, hbook⟩ := h
  exact ⟨heap, hpool, hbook.perm (hp.append_right heap)⟩

theorem mapped (h : s.Keeps start installed) {i : Installation} (hi : i ∈ installed) :
    i.Mapped s.page.table := by
  obtain ⟨heap, -, hbook⟩ := h
  exact hbook.covers.mapped i (List.mem_append_left heap hi)

/-- An installation without pages is none. -/
theorem drop {i : Installation} (h : s.Keeps start (i :: installed))
    (hi : Page.count i.chain = 0) : s.Keeps start installed := by
  obtain ⟨heap, hpool, hbook⟩ := h
  exact ⟨heap, hpool, hbook.covers.drop hi, hbook.slots⟩

/-- What is added is the heap's. -/
theorem of_more {more : List Installation}
    (h : ∃ heap : List Installation, heap.map Installation.range = s.kmem.pool ∧
      Bookkept start (installed' ++ (more ++ heap)) s'.page)
    (hpool : s'.kmem.pool = more.map Installation.range ++ s.kmem.pool) :
    s'.Keeps start installed' := by
  obtain ⟨heap, hheap, hbook⟩ := h
  exact ⟨more ++ heap, by rw [List.map_append, hheap, hpool], hbook⟩

theorem kinstallAppend {lock : Bool} (h : s.Keeps start installed)
    (hr : (Page.kinstallAppend chain flags lock).Returns s r s') (hpos : Page.Positive chain) :
    s'.Keeps start (⟨r, chain, flags⟩ :: installed) := by
  obtain ⟨heap, hheap, hbook⟩ := h
  exact ⟨heap, hheap.trans (kinstallAppend_pool s rfl _ _ hr).symm, hbook.kinstallAppend hr hpos⟩

theorem kinstall (h : s.Keeps start installed) (hr : (Page.kinstall depth chain flags).Returns s r s')
    (hs : s.mutex = false) (hm : MemInv held owned s) (hpos : Page.Positive chain)
    (hfill : s.FillsRight chain) : s'.Keeps start (⟨r, chain, flags⟩ :: installed) := by
  obtain ⟨heap, hheap, hbook⟩ := h
  obtain ⟨more, hbook', hpool⟩ := hbook.kinstall hr hs hm hpos hfill
  refine of_more ⟨heap, hheap, hbook'.perm ?_⟩ hpool
  exact .cons _ (List.perm_append_comm_assoc installed more heap)

theorem kuninstall {u : Unit} (h : s.Keeps start (⟨base, chain, flags⟩ :: installed))
    (hr : (Page.kuninstall depth base chain).Returns s u s') (hs : s.mutex = false)
    (hm : MemInv held owned s) (hpos : ∀ page ∈ chain, 0 < page.consecutive) :
    s'.Keeps start installed := by
  obtain ⟨heap, hheap, hbook⟩ := h
  obtain ⟨more, hbook', hpool⟩ := hbook.kuninstall hr hs hm hpos
  exact of_more ⟨heap, hheap, hbook'.perm (List.perm_append_comm_assoc installed more heap)⟩ hpool

end Mem.Keeps

/-! ## Runs -/

/-- The memory subsystem, and the installations that are live. -/
structure Space where
  mem : Mem
  live : List Installation

namespace Space

open Steps

inductive Move
  | kinstall (depth : ℕ) (chain : List Page) (flags : ℕ)
  | kinstallAppend (chain : List Page) (flags : ℕ)
  /-- The base is passed back with the chain it was returned for. -/
  | kuninstall (depth : ℕ) (i : Installation)
  deriving DecidableEq

/-- A call that returns. -/
def step (sp : Space) : Move → Option Space
  | .kinstall depth chain flags =>
      if Page.Positive chain then
        match Page.kinstall depth chain flags sp.mem with
        | (.ok base, mem) => some ⟨mem, ⟨base, chain, flags⟩ :: sp.live⟩
        | (.error _, _) => none
      else none
  | .kinstallAppend chain flags =>
      if Page.Positive chain then
        match Page.kinstallAppend chain flags true sp.mem with
        | (.ok base, mem) => some ⟨mem, ⟨base, chain, flags⟩ :: sp.live⟩
        | (.error _, _) => none
      else none
  | .kuninstall depth i =>
      if i ∈ sp.live then
        match Page.kuninstall depth i.base i.chain sp.mem with
        | (.ok _, mem) => some ⟨mem, sp.live.erase i⟩
        | (.error _, _) => none
      else none

/-- `kinstall` fills a hole only with a chain whose runs have the same length. -/
def EqualRuns (sp : Space) : Move → Prop
  | .kinstall _ chain _ => sp.mem.FillsRight chain
  | .kinstallAppend _ _ => True
  | .kuninstall _ _ => True

instance : ∀ (sp : Space) (m : Move), Decidable (sp.EqualRuns m)
  | _, .kinstall _ _ _ => inferInstanceAs (Decidable (_ → _))
  | _, .kinstallAppend _ _ => inferInstanceAs (Decidable True)
  | _, .kuninstall _ _ => inferInstanceAs (Decidable True)

/-- Every page from `start` on is in one live installation, in one of the heap, or in one
hole. -/
def Sound (start : ℕ) (sp : Space) : Prop := sp.mem.Keeps start sp.live

structure Inv (start : ℕ) (sp : Space) : Prop where
  mem : MemInv [] [] sp.mem
  mutex : sp.mem.mutex = false
  positive : ∀ i ∈ sp.live, ∀ page ∈ i.chain, 0 < page.consecutive
  sound : sp.Sound start

theorem step_cases {sp sp' : Space} {m : Move} (h : sp.step m = some sp') :
    (∃ depth chain flags base mem, m = .kinstall depth chain flags ∧ Page.Positive chain ∧
      (Page.kinstall depth chain flags).Returns sp.mem base mem ∧
      sp' = ⟨mem, ⟨base, chain, flags⟩ :: sp.live⟩) ∨
    (∃ chain flags base mem, m = .kinstallAppend chain flags ∧ Page.Positive chain ∧
      (Page.kinstallAppend chain flags true).Returns sp.mem base mem ∧
      sp' = ⟨mem, ⟨base, chain, flags⟩ :: sp.live⟩) ∨
    ∃ depth i u mem, m = .kuninstall depth i ∧ i ∈ sp.live ∧
      (Page.kuninstall depth i.base i.chain).Returns sp.mem u mem ∧
      sp' = ⟨mem, sp.live.erase i⟩ := by
  cases m with
  | kinstall depth chain flags =>
    rw [step] at h
    split_ifs at h with hpos
    split at h
    next base mem hr =>
      exact .inl ⟨depth, chain, flags, base, mem, rfl, hpos, hr, (Option.some.inj h).symm⟩
    next => cases h
  | kinstallAppend chain flags =>
    rw [step] at h
    split_ifs at h with hpos
    split at h
    next base mem hr =>
      exact .inr (.inl ⟨chain, flags, base, mem, rfl, hpos, hr, (Option.some.inj h).symm⟩)
    next => cases h
  | kuninstall depth i =>
    rw [step] at h
    split_ifs at h with hlive
    split at h
    next u mem hr =>
      exact .inr (.inr ⟨depth, i, u, mem, rfl, hlive, hr, (Option.some.inj h).symm⟩)
    next => cases h

theorem step_inv {start : ℕ} {sp sp' : Space} {m : Move} (h : sp.Inv start)
    (hfill : sp.EqualRuns m) (hstep : sp.step m = some sp') : sp'.Inv start := by
  have hnew : ∀ {base chain flags}, Page.Positive chain →
      ∀ i ∈ (⟨base, chain, flags⟩ :: sp.live : List Installation),
        ∀ page ∈ i.chain, 0 < page.consecutive := by
    intro base chain flags hpos i hi
    rcases List.mem_cons.mp hi with rfl | hi
    · exact hpos.2
    · exact h.positive i hi
  obtain ⟨depth, chain, flags, base, mem, rfl, hpos, hr, rfl⟩ |
    ⟨chain, flags, base, mem, rfl, hpos, hr, rfl⟩ |
    ⟨depth, i, u, mem, rfl, hlive, hr, rfl⟩ := step_cases hstep
  · exact ⟨kinstall_memInv hr h.mutex h.mem, (locks_kinstall depth chain flags).returns hr h.mutex,
      hnew hpos, h.sound.kinstall hr h.mutex h.mem hpos hfill⟩
  · exact ⟨kinstallAppend_memInv hr h.mutex h.mem,
      (locks_kinstallAppend chain flags true).returns hr h.mutex, hnew hpos,
      h.sound.kinstallAppend hr hpos⟩
  · have hfront := h.sound.perm (List.perm_cons_erase hlive).symm
    exact ⟨kuninstall_memInv hr h.mutex h.mem,
      (locks_kuninstall depth i.base i.chain).returns hr h.mutex,
      fun j hj => h.positive j (List.mem_of_mem_erase hj),
      hfront.kuninstall hr h.mutex h.mem (h.positive i hlive)⟩

theorem pageInit_bookkept {memTable : List Entry} {vmEnd : ℕ} {u : Unit} {s : Mem}
    (h : (Page.init vmEnd).Returns (bootMem memTable) u s) (ha : Aligned vmEnd) :
    Bookkept (tableIndex vmEnd) [] s.page := by
  rw [Page.init] at h
  obtain ⟨_, t, h₁, h₂⟩ := returns_bind.mp (returns_get_bind.mp (returns_modify_bind.mp h))
  obtain ⟨map, e, rfl, -, -⟩ := seekStart_returns h₁
  obtain rfl := returns_modify.mp h₂
  refine ⟨⟨⟨ha, rfl⟩, le_rfl, by simp, by simp [bootMem], fun e => ?_, by simp, by simp [bootMem]⟩,
    coalesced_nil⟩
  have hnone : ¬ (tableIndex vmEnd ≤ e ∧ e < tableIndex vmEnd) := fun h => (h.1.trans_lt h.2).false
  exact (if_neg hnone).symm

/-- The page that `kmem::init` maps is the first installation of the heap. -/
theorem init_inv {memTable : List Entry} {vmEnd : ℕ} {u : Unit} {s : Mem}
    (h : (Kmem.init vmEnd).Returns (bootMem memTable) u s) (ha : Aligned vmEnd) :
    Inv (tableIndex vmEnd) ⟨s, []⟩ := by
  have hbooted := init_returns ha.pos h
  refine ⟨hbooted.memInv ha.pos, hbooted.mutex, by simp, ?_⟩
  obtain ⟨_, s₁, hinit, hbody⟩ := returns_bind.mp h
  have h₁ := pageInit_bookkept hinit ha
  obtain ⟨initial, s₂, hbump, hbody⟩ := returns_bind.mp hbody
  obtain ⟨memBase, s₃, happ, hwrite⟩ := returns_bind.mp hbody
  obtain ⟨hmutex, hbefore⟩ : s₁.mutex = false ∧ s₁.page.virtualPointer = vmEnd := by
    obtain ⟨pointer, map, cursor, rfl, -⟩ := pageInit_returns hinit
    exact ⟨rfl, rfl⟩
  obtain ⟨pageId, pointer, map, rfl⟩ := (allocNokmalloc_returns (.inr hmutex) hbump).state
  have h₂ := (kinstallAppend_appended happ).1
  have hpool : s.kmem.pool = [(vmEnd, pageSize)] := by
    rw [hbooted.kmem, initial_eq]
    rfl
  split_ifs at hwrite with hnull
  · exact absurd hwrite returns_stop
  obtain rfl := returns_modify.mp hwrite
  have hg := h₂.grows ⟨h₁.covers.tracked.aligned, h₁.covers.tracked.cursor⟩
  have h₃ : Bookkept (tableIndex vmEnd) [⟨s₁.page.virtualPointer, [initial], pageTableRw⟩]
      s₃.page := by
    refine Bookkept.grows ?_ hg h₂.emptySlot
    exact h₁.congr rfl rfl rfl rfl
  have hafter : s₃.page.virtualPointer = vmEnd + pageSize := hbooted.virtualPointer
  have hpage := h₂.pointer.symm.trans hafter
  refine ⟨[_], ?_, h₃⟩
  rw [hpool, List.map_singleton, Installation.range, hbefore]
  dsimp only at hpage hbefore
  rw [hbefore] at hpage
  exact congrArg (fun n => [(vmEnd, n)]) (Nat.add_left_cancel hpage)

variable {memTable : List Entry} {vmEnd : ℕ} {s : Mem} {sp : Space} {ms : List Move}

/-- In a run whose chains fit the holes they are to fill, every page of kernel virtual
memory is kept track of. -/
theorem covered_run (hinit : (Kmem.init vmEnd).Returns (bootMem memTable) () s) (ha : Aligned vmEnd)
    (hms : Along step EqualRuns ⟨s, []⟩ ms) (hrun : run step ⟨s, []⟩ ms = some sp) :
    sp.Sound (tableIndex vmEnd) :=
  (invariant (fun _ _ _ h hfill hstep => step_inv h hfill hstep) (init_inv hinit ha) hms hrun).sound

/-- A run of `consecutive` frames from `memBase`, without a record of its own. -/
def runOf (memBase consecutive : ℕ) : Page := ⟨0, 0, memBase, 0, consecutive⟩

/-- Three pages are mapped and unmapped, and a chain is mapped over the hole. -/
def reuse (chain : List Page) : List Move :=
  let i : Installation := ⟨0xc0101000, [runOf 0x200000 3], pageTableRw⟩
  [.kinstallAppend i.chain i.flags, .kuninstall 12 i, .kinstall 12 chain pageTableRw]

/-- The state of a machine with plenty of memory, after `kmem::init`. -/
def roomy : Space := ⟨(Kmem.init 0xc0100000 (bootMem roomyMap)).2, []⟩

theorem roomy_init : (Kmem.init 0xc0100000).Returns (bootMem roomyMap) () roomy.mem :=
  returns_of_fst (by decide +kernel)

theorem covered_reuse : ∃ sp,
    run step roomy (reuse [runOf 0x300000 1, runOf 0x400000 1]) = some sp ∧
      sp.Sound (tableIndex 0xc0100000) := by
  have hrun : (run step roomy (reuse [runOf 0x300000 1, runOf 0x400000 1])).isSome := by
    decide +kernel
  obtain ⟨sp, hsp⟩ := Option.isSome_iff_exists.mp hrun
  exact ⟨sp, hsp, covered_run roomy_init (by decide) (by decide +kernel) hsp⟩

/-- The second run is longer than the first: its last frame is not mapped. -/
theorem not_covered_reuse : ∃ sp,
    run step roomy (reuse [runOf 0x300000 1, runOf 0x400000 2]) = some sp ∧
      ¬ sp.Sound (tableIndex 0xc0100000) := by
  have hrun : ∃ sp ∈ run step roomy (reuse [runOf 0x300000 1, runOf 0x400000 2]),
      ∃ i ∈ sp.live, ¬ i.Mapped sp.mem.page.table := by
    decide +kernel
  obtain ⟨sp, hsp, i, hi, hnot⟩ := hrun
  refine ⟨sp, hsp, fun h => ?_⟩
  exact hnot (h.mapped hi)

end Space

end Cantos
