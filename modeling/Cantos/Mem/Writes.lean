import Cantos.Mem.High
import Cantos.Mem.Installs

/-!
# What the critical sections write to the page tables

A request for memory writes entries behind the cursor only, and moves the cursor over them.
A section of `kinstall` writes the entries of the hole that it fills besides, and one of
`kuninstall` those of the run.

## Main definitions

* `Mem.Kept`: the page tables outside of what the cursor went over are as they were.
-/

namespace Cantos

open Exec Linked Runs

/-- The cursor was at `c₀`, and the entries that it has not gone over are those of `t₀`. -/
structure Mem.Kept (t₀ : ℕ → ℕ) (c₀ : ℕ) (s : Mem) : Prop where
  le : c₀ ≤ s.page.cursor
  same : ∀ e, e < c₀ ∨ s.page.cursor ≤ e → s.page.table e = t₀ e

section Kept
variable {t₀ : ℕ → ℕ} {c₀ : ℕ} {s s' : Mem}

theorem Mem.Kept.refl (s : Mem) : s.Kept s.page.table s.page.cursor := ⟨le_rfl, fun _ _ => rfl⟩

theorem Mem.Kept.congr (h : s.Kept t₀ c₀) (hcursor : s'.page.cursor = s.page.cursor)
    (htable : s'.page.table = s.page.table) : s'.Kept t₀ c₀ :=
  ⟨hcursor ▸ h.le, by rw [hcursor, htable]; exact h.same⟩

theorem whenever_lock_kept (c : Bool) : Preserves (Mem.Kept t₀ c₀) (whenever c mutexLock) :=
  preserves_whenever c (preserves_lock fun _ _ h => h.congr rfl rfl)

theorem whenever_unlock_kept (c : Bool) : Preserves (Mem.Kept t₀ c₀) (whenever c mutexUnlock) :=
  preserves_whenever c (preserves_unlock fun _ _ h => h.congr rfl rfl)

/-- A run is mapped at the cursor. -/
theorem appendRun_kept {memBase flags k i first : ℕ} :
    Preserves (Mem.Kept t₀ c₀) (Page.appendRun memBase flags k i first) := by
  intro s h r s' hr
  obtain rfl := appendRun_eq hr
  refine ⟨h.le.trans (Nat.le_add_right _ _), fun e he => ?_⟩
  have hle := h.le
  dsimp only at he ⊢
  rw [writeEntries_apply, if_neg (by omega)]
  exact h.same e (by omega)

theorem kinstallAppend_kept (chain : List Page) (flags : ℕ) (lock : Bool) :
    Preserves (Mem.Kept t₀ c₀) (Page.kinstallAppend chain flags lock) := by
  induction chain generalizing lock with
  | nil => exact .stop
  | cons page next ih =>
    refine (whenever_lock_kept _).bind fun _ => appendRun_kept.bind fun first => ?_
    refine .bind (.modify fun _ h => h.congr rfl rfl) fun _ => ?_
    refine (whenever_unlock_kept _).bind fun _ => .ite (.pure _) ?_
    exact .bind (.modify fun _ h => h.congr rfl rfl) fun _ => (ih _).bind fun _ => .pure _

theorem used_kept (chain : List Page) (lock : Bool) :
    Preserves (Mem.Kept t₀ c₀) (Page.used chain lock) := by
  induction chain with
  | nil => exact .stop
  | cons page next ih =>
    refine (whenever_lock_kept _).bind fun _ =>
      .bind (.modify fun _ h => h.congr rfl rfl) fun _ => ?_
    exact (whenever_unlock_kept _).bind fun _ => .ite (.pure ()) ih

/-- The requests for memory write behind the cursor. -/
theorem recursion_kept (depth : ℕ) :
    (∀ size flags, Preserves (Mem.Kept t₀ c₀) (Kmem.doKmalloc depth size flags)) ∧
    (∀ size flags, Preserves (Mem.Kept t₀ c₀) (Kmem.kmalloc depth size flags)) ∧
    ∀ flags count, Preserves (Mem.Kept t₀ c₀) (Page.alloc depth flags count) := by
  induction depth with
  | zero =>
    refine ⟨fun _ _ => .stop, fun _ _ => .stop, fun flags count => ?_⟩
    rw [Page.alloc]
    exact .ite (.pure []) ((whenever_lock_kept _).bind fun _ => .stop)
  | succ depth ih =>
    obtain ⟨ihDo, ihKmalloc, ihAlloc⟩ := ih
    refine ⟨fun size flags => ?_, fun size flags => ?_, fun flags count => ?_⟩
    · rw [Kmem.doKmalloc]
      refine .ite (.pure 0) (.get fun s => ?_)
      rcases s.kmem.search (Kmem.sizeNeeded (Kmem.roundSize size)) flags with ⟨prev, _ | free⟩
      · refine Preserves.bind (ihAlloc growthFlags _) (fun newPage => ?_) s
        refine (kinstallAppend_kept newPage pageTableRw false).bind fun installedLoc => ?_
        refine .bind (.modify fun _ h => h.congr rfl rfl) fun _ => ?_
        exact (used_kept newPage false).bind fun _ => ihKmalloc _ _
      · exact PreservesAt.bind (.set fun h => h.congr rfl rfl) fun _ => .pure _
    · rw [Kmem.kmalloc]
      exact (whenever_lock_kept _).bind fun _ => (ihDo size flags).bind fun ret =>
        (whenever_unlock_kept _).bind fun _ => .pure ret
    · rw [Page.alloc]
      refine .ite (.pure []) ((whenever_lock_kept _).bind fun _ => .get fun s => ?_)
      refine PreservesAt.bind ?_ fun newPage => ?_
      · rcases s.page.pageFreeHead with _ | ⟨head, next⟩
        · refine Preserves.bind (ihKmalloc _ _) (fun ptr => .bind ?_ fun staticPage => .pure _) s
          intro s₁ h₁ p s' hr
          obtain ⟨pageId, pointer, map, rfl⟩ :=
            (allocNokmalloc_returns (.inl (has_or_self (by decide))) hr).state
          exact h₁.congr rfl rfl
        · refine Preserves.ite ?_ ?_ s
          · refine (ihKmalloc _ _).bind fun ptr s₁ h₁ p s' hr => ?_
            obtain ⟨head, next, -, rfl, -⟩ := cutHead_returns hr
            exact h₁.congr rfl rfl
          · exact .bind (.modify fun _ h => h.congr rfl rfl) fun _ => .pure _
      · refine .bind (.ite ?_ (.pure [])) fun next => (whenever_unlock_kept _).bind fun _ => .pure _
        exact .bind (.modify fun _ h => h.congr rfl rfl) fun _ => ihAlloc flags _

theorem kfreeNolock_kept (depth ptr : ℕ) :
    Preserves (Mem.Kept t₀ c₀) (Kmem.kfreeNolock depth ptr) := by
  refine .ite (.pure ()) (.get fun s => ?_)
  split
  · exact Preserves.stop s
  · refine Preserves.ite .stop (.ite .stop ?_) s
    refine .bind (.modify fun _ h => h.congr rfl rfl) fun _ => ?_
    refine Preserves.bind (.get fun s => ?_) fun newEntry => .modify fun s h => h.congr rfl rfl
    rcases s.kmem.freeFreeStructs with _ | ⟨hold, next⟩
    · exact (recursion_kept depth).2.1 sizeofFree (kmallocReserved ||| kmallocNolock) s
    · exact PreservesAt.bind (.set fun h => h.congr rfl rfl) fun _ => .pure _

theorem mergeFreeSlots_kept (depth first : ℕ) :
    Preserves (Mem.Kept t₀ c₀) (Page.mergeFreeSlots depth first) := by
  refine .get fun s => ?_
  split
  · exact PreservesAt.bind (.set fun h => h.congr rfl rfl) fun _ => kfreeNolock_kept _ _
  · exact Preserves.pure () s

theorem takeSlot_kept (depth totalPages : ℕ) (slot : EmptySlot) (rest : List EmptySlot) :
    Preserves (Mem.Kept t₀ c₀) (Page.takeSlot depth totalPages slot rest) := by
  refine .get fun s => ?_
  split_ifs
  · exact PreservesAt.bind (.set fun h => h.congr rfl rfl) fun _ => kfreeNolock_kept _ _
  · exact .set fun h => h.congr rfl rfl

end Kept

/-! ## The sections -/

section Sections
variable {depth head flags base : ℕ} {page : Page} {chain : List Page} {s s' : Mem}

/-- A section of `kinstall` that fills a hole writes its entries, and behind the cursor. -/
theorem kinstallSection_kept
    (h : (Page.kinstallSection depth head chain flags).Returns s (some base) s')
    (hquiet : s.TakesRight head chain) :
    ∃ slot, s.holeFrom head chain = some slot ∧ slot.base = base ∧ s.page.cursor ≤ s'.page.cursor ∧
        (∀ k < Page.count chain, s'.page.table (slot.lo + k) = Page.entryAt flags chain k) ∧
        ∀ e, ¬ (slot.lo ≤ e ∧ e < slot.lo + Page.count chain) →
          e < s.page.cursor ∨ s'.page.cursor ≤ e → s'.page.table e = s.page.table e := by
  rw [Page.kinstallSection] at h
  obtain ⟨_, s₀, hlock, hbody⟩ := returns_bind.mp h
  have hs₀ : s₀.page = s.page := @whenever_lock_page true _ _ _ hlock
  rw [returns_get_bind] at hbody
  have hhole : s₀.holeFrom head chain = s.holeFrom head chain := by
    simp only [Mem.holeFrom, Mem.slotsFrom, hs₀]
  rw [hhole] at hbody
  split at hbody
  next slot hfind =>
    obtain ⟨_, s₁, hslot, hbody⟩ := returns_bind.mp hbody
    have hkept₁ : s₁.Kept s.page.table s.page.cursor :=
      takeSlot_kept _ _ _ _ s₀ ((Mem.Kept.refl s).congr (by rw [hs₀]) (by rw [hs₀])) _ _ hslot
    split_ifs at hbody with hbase
    · obtain ⟨_, s₂, hwrite, hrest⟩ := returns_bind.mp hbody
      obtain ⟨table, rfl, hin, hout⟩ := writeChain_eq hwrite (hquiet slot hfind).1
      obtain ⟨_, s₃, hunlock, hret⟩ := returns_bind.mp hrest
      obtain rfl := returns_modify.mp hunlock
      obtain ⟨hr, rfl⟩ := returns_pure.mp hret
      exact ⟨slot, hfind, (Option.some.inj hr).symm, hkept₁.le, hin, fun e hnot he =>
        (hout e hnot).trans (hkept₁.same e he)⟩
    · obtain ⟨_, s₂, hunlock, hret⟩ := returns_bind.mp hbody
      cases (returns_pure.mp hret).1
  next =>
    obtain ⟨_, s₂, hunlock, hret⟩ := returns_bind.mp hbody
    cases (returns_pure.mp hret).1

/-- A section of `kinstall_append` writes the entries of the run. -/
theorem appendSection_kept (h : (Page.kinstallAppend chain flags true).Returns s base s') :
    s.page.cursor ≤ s'.page.cursor ∧ ∀ e, e < s.page.cursor ∨ s'.page.cursor ≤ e →
      s'.page.table e = s.page.table e := by
  have hkept := kinstallAppend_kept chain flags true _ (.refl s) _ _ h
  exact ⟨hkept.le, hkept.same⟩

/-- A section of `kuninstall` clears the entries of the run, and writes behind the cursor. -/
theorem kuninstall_kept {u : Unit} (h : (Page.kuninstall depth base [page]).Returns s u s')
    (hfit : tableIndex base + page.consecutive ≤ s.page.cursor) :
    s.page.cursor ≤ s'.page.cursor ∧
      (∀ k < page.consecutive, s'.page.table (tableIndex base + k) = 0) ∧
        ∀ e, ¬ (tableIndex base ≤ e ∧ e < tableIndex base + page.consecutive) →
          e < s.page.cursor ∨ s'.page.cursor ≤ e → s'.page.table e = s.page.table e := by
  rw [Page.kuninstall] at h
  obtain ⟨_, s₀, hlock, hbody⟩ := returns_bind.mp h
  have hs₀ : s₀.page = s.page := @whenever_lock_page true _ _ _ hlock
  obtain ⟨newSlot, s₁, hrec, hbody⟩ := returns_bind.mp hbody
  have hkept₁ : s₁.Kept s.page.table s.page.cursor :=
    (recursion_kept depth).2.1 sizeofSlot kmallocNolock s₀
      ((Mem.Kept.refl s).congr (by rw [hs₀]) (by rw [hs₀])) _ _ hrec
  rw [returns_get_bind] at hbody
  simp only [returns_set_bind] at hbody
  obtain ⟨base', s₂, hclear, hbody⟩ := returns_bind.mp hbody
  obtain ⟨-, table, rfl, hin, hout⟩ := clearRun_eq hclear
  obtain ⟨_, s₃, hmerge, hbody⟩ := returns_bind.mp hbody
  obtain ⟨_, s₄, hmerge', hbody⟩ := returns_bind.mp hbody
  obtain ⟨_, s₅, hunlock, hrest⟩ := returns_bind.mp hbody
  obtain rfl := returns_modify.mp hunlock
  obtain ⟨-, rfl⟩ := returns_pure.mp hrest
  have hkept₃ := mergeFreeSlots_kept _ _ _ (.refl _) _ _ hmerge
  have hkept₄ : s₄.Kept table s₁.page.cursor := by
    refine Preserves.ite (.pure ()) (mergeFreeSlots_kept _ _) _ ?_ _ _ hmerge'
    exact hkept₃
  have hle := hkept₁.le
  refine ⟨hle.trans hkept₄.le, fun k hk => ?_, fun e hnot he => ?_⟩
  · rw [hkept₄.same _ (.inl (by omega))]
    exact hin _ (by omega)
  · have hle₄ := hkept₄.le
    dsimp only at he ⊢
    rw [hkept₄.same e (by omega), hout e hnot]
    exact hkept₁.same e (by omega)

end Sections

end Cantos
