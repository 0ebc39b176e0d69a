import Cantos.Mem.Space
import Cantos.Vm.Map

/-!
# Page faults

What `Map::insert` writes, and what of it a page fault depends on.  `resolve_fault` reports
that a fault is handled when the address is in a window.  It is handled when the object makes
a page and some window of the map has its place at the address: `generate` makes none past the
end of the object, and none where an entry begins.

## Main definitions

* `Map.Present`: a page is mapped.
* `ObjectInMap.Shows`: where a page of an object is entered.
* `Vm.Progresses`: a fault that is reported handled does not come again.
* `Vm.Resolves`: the faults the code can handle.
-/

namespace Cantos

namespace Map

section Entries
variable {m m' : Map} {v w e memBase flags min max : ℕ}

theorem entry_newTable : (m.newTable v).entry w = m.entry w := by
  rw [newTable]
  split_ifs with htable
  · rfl
  · rw [entry, entry]
    by_cases hw : w / pageTableLength = v / pageTableLength
    · simp [hw, htable]
    · simp [hw]

theorem table_newTable : (m.newTable v).tables (v / pageTableLength) = true := by
  rw [newTable]
  split_ifs with htable
  · exact htable
  · exact Function.update_self _ _ _

theorem entry_write : (m.write v e).entry w = if w = v then e else m.entry w := by
  by_cases hw : w = v
  · subst hw
    rw [if_pos rfl, write, entry, if_pos table_newTable]
    exact Function.update_self _ _ _
  · rw [if_neg hw, ← entry_newTable (m := m) (v := v) (w := w), write, entry, entry]
    simp only [Function.update_of_ne hw]

/-- The frames of a run are entered where they are in the window. -/
theorem insertRun_entry {k i a : ℕ} {r : Option ℕ} (ha : a < max)
    (h : insertRun memBase flags min max k i a m = (m', r)) :
    (∀ w, m'.entry w =
      if a / pageSize ≤ w ∧ w < a / pageSize + k ∧ min ≤ a + (w - a / pageSize) * pageSize ∧
        a + (w - a / pageSize) * pageSize < max
      then tableEntry memBase (i + (w - a / pageSize)) flags else m.entry w) ∧
    (∀ a', r = some a' → a' = a + k * pageSize) ∧ (r = none → max ≤ a + k * pageSize) := by
  induction k generalizing i a m with
  | zero =>
    obtain ⟨rfl, rfl⟩ := Prod.mk.inj h
    refine ⟨fun w => ?_, fun a' ha' => ?_, fun h => ?_⟩
    · rw [if_neg (by omega)]
    · rw [← Option.some.inj ha', Nat.zero_mul, Nat.add_zero]
    · cases h
  | succ k ih =>
    have hfirst : ∀ w, (if a ≥ min then m.write (a / pageSize) (tableEntry memBase i flags)
        else m).entry w =
          if w = a / pageSize ∧ min ≤ a then tableEntry memBase i flags else m.entry w := by
      intro w
      by_cases hmin : a ≥ min
      · rw [if_pos hmin, entry_write]
        simp [hmin]
      · rw [if_neg hmin, if_neg (by omega)]
    rw [insertRun] at h
    simp only [sizes] at *
    by_cases hmax : a + 4096 ≥ max
    · rw [if_pos hmax] at h
      obtain ⟨rfl, rfl⟩ := Prod.mk.inj h
      refine ⟨fun w => ?_, fun a' ha' => ?_, fun _ => by omega⟩
      · rw [hfirst]
        by_cases hw : w = a / 4096
        · subst hw
          simp [ha]
        · rw [if_neg (by omega), if_neg (by omega)]
      · cases ha'
    · rw [if_neg hmax] at h
      obtain ⟨hentry, hsome, hnone⟩ := ih (by omega) h
      refine ⟨fun w => ?_, fun a' ha' => ?_, fun hr => ?_⟩
      · rw [hentry, hfirst]
        have hdiv : (a + 4096) / 4096 = a / 4096 + 1 := by omega
        rw [hdiv]
        by_cases hw : w = a / 4096
        · subst hw
          rw [if_neg (by omega)]
          simp [ha]
        · by_cases hin : a / 4096 + 1 ≤ w ∧ w < a / 4096 + 1 + k ∧
            min ≤ a + 4096 + (w - (a / 4096 + 1)) * 4096 ∧
              a + 4096 + (w - (a / 4096 + 1)) * 4096 < max
          · rw [if_pos hin, if_pos (by omega)]
            congr 1
            omega
          · rw [if_neg hin, if_neg (by omega), if_neg (by omega)]
      · rw [hsome a' ha']
        omega
      · have := hnone hr
        omega

/-- The frames of a chain are entered where they are in the window. -/
theorem insert_entry {chain : List Page} {a : ℕ} :
    (insert flags min max chain a m).entry w =
      if a / pageSize ≤ w ∧ w < a / pageSize + Page.count chain ∧
        min ≤ a + (w - a / pageSize) * pageSize ∧ a + (w - a / pageSize) * pageSize < max
      then Page.entryAt flags chain (w - a / pageSize) else m.entry w := by
  induction chain generalizing a m with
  | nil => rw [insert, if_neg (by simp only [Page.count]; omega)]
  | cons page next ih =>
    rw [insert]
    by_cases hmax : a ≥ max
    · rw [if_pos (by omega), if_neg (by omega)]
    · rw [if_neg (by omega), Int.toNat_natCast]
      rcases hrun : insertRun page.memBase flags min max page.consecutive 0 a m with ⟨m₁, r⟩
      obtain ⟨hentry, hsome, hnone⟩ := insertRun_entry (by omega) hrun
      cases r with
      | none =>
        have hend := hnone rfl
        simp only [hentry, Page.count, Page.entryAt, sizes] at *
        by_cases hin : a / 4096 ≤ w ∧ w < a / 4096 + page.consecutive ∧
            min ≤ a + (w - a / 4096) * 4096 ∧ a + (w - a / 4096) * 4096 < max
        · rw [if_pos hin, if_pos (by omega), if_pos (by omega), Nat.zero_add]
        · rw [if_neg hin, if_neg (by omega)]
      | some a' =>
        obtain rfl := hsome a' rfl
        simp only [ih, hentry, Page.count, Page.entryAt, sizes] at *
        have hdiv : (a + page.consecutive * 4096) / 4096 = a / 4096 + page.consecutive := by omega
        rw [hdiv]
        by_cases hin : a / 4096 ≤ w ∧ w < a / 4096 + page.consecutive ∧
            min ≤ a + (w - a / 4096) * 4096 ∧ a + (w - a / 4096) * 4096 < max
        · rw [if_neg (by omega), if_pos hin, if_pos (by omega), if_pos (by omega), Nat.zero_add]
        · rw [if_neg hin]
          by_cases hrest : a / 4096 + page.consecutive ≤ w ∧
              w < a / 4096 + page.consecutive + Page.count next ∧
                min ≤ a + page.consecutive * 4096 + (w - (a / 4096 + page.consecutive)) * 4096 ∧
                  a + page.consecutive * 4096 + (w - (a / 4096 + page.consecutive)) * 4096 < max
          · rw [if_pos hrest, if_pos (by omega), if_neg (by omega), Nat.sub_sub]
          · rw [if_neg hrest, if_neg (by omega)]

theorem insert_of_neg {chain : List Page} {a : ℤ} (ha : a < 0) :
    insert flags min max chain a m = m := by
  cases chain with
  | nil => rfl
  | cons page next => rw [insert, if_pos (.inr ha)]

end Entries

/-- The entry of a page has the present bit. -/
def Present (m : Map) (v : ℕ) : Prop := (m.entry v).testBit 0 = true

instance (m : Map) : DecidablePred m.Present := fun _ => inferInstanceAs (Decidable (_ = true))

end Map

theorem entryAt_present {flags k : ℕ} {chain : List Page} (hk : k < Page.count chain) :
    (Page.entryAt flags chain k).testBit 0 = true := by
  induction chain generalizing k with
  | nil => exact absurd hk (Nat.not_lt_zero k)
  | cons page next ih =>
    rw [Page.entryAt]
    by_cases hlt : k < page.consecutive
    · rw [if_pos hlt, tableEntry, Nat.testBit_or]
      simp [pageTablePresent]
    · rw [if_neg hlt]
      apply ih
      simp only [Page.count] at hk
      omega

/-! ## A fault -/

/-- The page at `addr` in the object has its place in the window, at page `v`. -/
def ObjectInMap.Shows (oim : ObjectInMap) (addr v : ℕ) : Prop :=
  (oim.base : ℤ) ≤ oim.place addr ∧ oim.place addr < oim.finish ∧
    (oim.place addr).toNat / pageSize = v

instance (oim : ObjectInMap) (addr : ℕ) : DecidablePred (oim.Shows addr) := fun _ =>
  inferInstanceAs (Decidable (_ ∧ _))

section Fault
variable {vm : Vm} {maps : ℕ → Map} {m addr v flags : ℕ} {page : List Page} {oim : ObjectInMap}
  {windows : List ObjectInMap}

/-- One frame is entered at its place, when that is in the window. -/
theorem insert_present {t : Map} (hpage : Page.count page = 1) :
    (t.insert flags oim.base oim.finish page (oim.place addr)).Present v ↔
      oim.Shows addr v ∨ t.Present v := by
  rw [Map.Present, Map.Present, ObjectInMap.Shows]
  by_cases hneg : oim.place addr < 0
  · rw [Map.insert_of_neg hneg]
    constructor
    · exact .inr
    · rintro (⟨hbase, -⟩ | h)
      · omega
      · exact h
  · obtain ⟨a, ha⟩ := Int.eq_ofNat_of_zero_le (Int.not_lt.mp hneg)
    rw [ha, Map.insert_entry, hpage, Int.toNat_natCast]
    simp only [sizes]
    by_cases hin : a / 4096 ≤ v ∧ v < a / 4096 + 1 ∧ oim.base ≤ a + (v - a / 4096) * 4096 ∧
        a + (v - a / 4096) * 4096 < oim.finish
    · rw [if_pos hin]
      have hsame : v = a / 4096 := by omega
      subst hsame
      rw [Nat.sub_self, entryAt_present (by omega)]
      refine ⟨fun _ => .inl ⟨?_, ?_, rfl⟩, fun _ => rfl⟩
      · omega
      · omega
    · rw [if_neg hin]
      constructor
      · exact .inr
      · rintro (hshows | h)
        · exact absurd (by omega) hin
        · exact h

theorem enterAll_present (hpage : Page.count page = 1) :
    (Vm.enterAll page flags addr windows maps m).Present v ↔
      (∃ oim ∈ windows, oim.map = m ∧ oim.Shows addr v) ∨ (maps m).Present v := by
  induction windows generalizing maps with
  | nil => simp [Vm.enterAll]
  | cons oim rest ih =>
    rw [Vm.enterAll, ih]
    by_cases hm : oim.map = m
    · subst hm
      rw [Function.update_self, insert_present hpage]
      simp [or_left_comm, or_assoc]
    · rw [Function.update_of_ne (Ne.symm hm)]
      simp [hm]

theorem generate_present {o : ℕ} (hpage : Page.count page = 1) :
    ((vm.generate o addr 1 page).maps m).Present v ↔
      ((vm.objects o).object.room addr 1 ≠ 0 ∧
        ∃ oim ∈ (vm.objects o).windows, oim.map = m ∧ oim.Shows addr v) ∨
          (vm.maps m).Present v := by
  rw [Vm.generate]
  by_cases hroom : (vm.objects o).object.room addr 1 = 0
  · simp [hroom]
  · simp only [if_neg hroom]
    rw [enterAll_present hpage]
    simp [hroom]

/-- A fault that is reported handled does not come again. -/
def Vm.Progresses (vm : Vm) (m addr : ℕ) (page : List Page) : Prop :=
  (vm.resolveFault m addr page).2 = true →
    ((vm.resolveFault m addr page).1.maps m).Present (addr / pageSize)

/-- The object of the window that is found makes a page for the fault, and the page has its
place at the address in some window of the map. -/
def Vm.Resolves (vm : Vm) (m addr : ℕ) : Prop :=
  ∀ oim ∈ vm.window m addr,
    (vm.objects oim.object).object.room (oim.objectAddr addr) 1 ≠ 0 ∧
      ∃ w ∈ (vm.objects oim.object).windows,
        w.map = m ∧ w.Shows (oim.objectAddr addr) (addr / pageSize)

/-- When `do_generate` returns the page it is asked for, these are the faults that are
handled. -/
theorem progresses_iff (hfault : ¬ (vm.maps m).Present (addr / pageSize))
    (hpage : Page.count page = 1) : vm.Progresses m addr page ↔ vm.Resolves m addr := by
  rw [Vm.Progresses, Vm.Resolves, Vm.resolveFault]
  cases hwindow : vm.window m addr with
  | none => simp
  | some oim =>
    simp only [forall_const, Option.mem_def, Option.some.injEq, forall_eq']
    rw [generate_present hpage]
    simp [hfault]

end Fault

/-- A map without windows, and an object of one page. -/
def onePage : Vm where
  maps _ := ⟨fun _ => false, fun _ => 0, []⟩
  objects _ := ⟨⟨.empty, 1, []⟩, pageTableRw, []⟩

/-- The object is shown in a window of two pages. -/
def twoPageWindow : Vm := onePage.addObject ⟨0, 0, 0x1000, 0, 2⟩

theorem progresses_iff_first : twoPageWindow.Progresses 0 0x1004 [⟨0, 0, 0x200000, 0, 1⟩] ↔
    twoPageWindow.Resolves 0 0x1004 :=
  progresses_iff (by decide) (by decide)

/-- The second page of the window is past the end of the object. -/
theorem not_progresses_second : ¬ (twoPageWindow.maps 0).Present (0x2004 / pageSize) ∧
    ¬ twoPageWindow.Progresses 0 0x2004 [⟨0, 0, 0x200000, 0, 1⟩] := by
  refine ⟨by decide, fun h => ?_⟩
  have hpresent := h (by decide)
  revert hpresent
  decide

end Cantos
