import Cantos.Vm.Fault
import Mathlib.Data.List.Basic

/-!
# Windows on objects

What the loops of `Map::insert` and `Map::clear` over the pages of an object write: the window
shows the pages of the object that have their place in it, and these are what is entered when
the window or the pages are new.  Removal clears the places of all pages of the object.

## Main definitions

* `Vm.removeWindow`, `Vm.removeObject`, `Vm.removeObjectAt`
* `ObjectInMap.ShowsEntry`: what a window shows.
* `Map.Wrote`: what a loop wrote.
-/

namespace Cantos

/-! ## Removal -/

/-- The loop of `Map::clear` over `k` pages; a page without a table is a null pointer. -/
def Map.clear : (k addr : ℕ) → Map → Option Map
  | 0, _, m => some m
  | k + 1, addr, m =>
      if m.tables (addr / pageSize / pageTableLength) then
        clear k (addr + pageSize)
          { m with entries := Function.update m.entries (addr / pageSize) 0 }
      else none

namespace Vm

/-- The loop of `remove_object_in_map` over the pages of the object. -/
def clearPages (oim : ObjectInMap) : List PageEntry → Map → Option Map
  | [], m => some m
  | entry :: next, m =>
      if oim.place entry.offset < 0 then clearPages oim next m
      else
        (m.clear (Page.count entry.page) (oim.place entry.offset).toNat).bind
          (clearPages oim next)

/-- A window goes away. -/
def removeWindow (vm : Vm) (oim : ObjectInMap) : Option Vm :=
  let shared := vm.objects oim.object
  (clearPages oim shared.object.pages (vm.maps oim.map)).map fun m =>
    { maps := Function.update vm.maps oim.map { m with windows := m.windows.erase oim }
      objects := Function.update vm.objects oim.object
        { shared with windows := shared.windows.erase oim } }

def removeWindows : List ObjectInMap → Vm → Option Vm
  | [], vm => some vm
  | oim :: rest, vm => (vm.removeWindow oim).bind (removeWindows rest)

/-- The windows of a map on an object. -/
def windowsOn (vm : Vm) (m o : ℕ) : List ObjectInMap :=
  (vm.maps m).windows.filter fun oim => oim.object = o

/-- `Map::remove_object` -/
def removeObject (vm : Vm) (m o : ℕ) : Option Vm := removeWindows (vm.windowsOn m o) vm

/-- `Map::remove_object_at` -/
def removeObjectAt (vm : Vm) (m o base : ℕ) : Option Vm :=
  match (vm.windowsOn m o).find? fun oim => oim.base = base with
  | some oim => vm.removeWindow oim
  | none => some vm

end Vm

/-! ## Places -/

/-- The pages of two entries of an object are apart. -/
def PageEntry.Apart (e e' : PageEntry) : Prop :=
  e.offset + Page.count e.page * pageSize ≤ e'.offset ∨
    e'.offset + Page.count e'.page * pageSize ≤ e.offset

instance : DecidableRel PageEntry.Apart := fun _ _ => inferInstanceAs (Decidable (_ ∨ _))

instance : Std.Symm PageEntry.Apart := ⟨fun _ _ => Or.symm⟩

theorem link_perm (e : PageEntry) (pages : List PageEntry) :
    (Object.link e pages).Perm (e :: pages) := by
  rw [Object.link]
  refine List.perm_middle.trans ?_
  rw [List.takeWhile_append_dropWhile]

namespace ObjectInMap

/-- A page is in the window. -/
def Holds (oim : ObjectInMap) (v : ℕ) : Prop := oim.base ≤ v * pageSize ∧ v * pageSize < oim.finish

/-- Page `k` behind `addr` in the object belongs at page `v`. -/
def At (oim : ObjectInMap) (addr k v : ℕ) : Prop :=
  ((v * pageSize : ℕ) : ℤ) = oim.base + addr + (k * pageSize : ℕ) - oim.offset

instance (oim : ObjectInMap) : DecidablePred oim.Holds := fun _ =>
  inferInstanceAs (Decidable (_ ∧ _))

instance (oim : ObjectInMap) (addr k v : ℕ) : Decidable (oim.At addr k v) :=
  inferInstanceAs (Decidable (_ = _))

/-- Page `v` is in the window, and there the window shows a page of `e`, which is `x` in a
page table. -/
def ShowsEntry (oim : ObjectInMap) (flags : ℕ) (e : PageEntry) (v x : ℕ) : Prop :=
  oim.Holds v ∧ ∃ k < Page.count e.page, oim.At e.offset k v ∧ x = Page.entryAt flags e.page k

/-- A window is page aligned and in user memory. -/
def Good (oim : ObjectInMap) : Prop :=
  oim.base % pageSize = 0 ∧ oim.offset % pageSize = 0 ∧ 0 ≤ oim.offset ∧
    oim.base + oim.pages * pageSize ≤ kernelVmBase

instance : DecidablePred Good := fun _ => inferInstanceAs (Decidable (_ ∧ _))

/-- Two windows are apart. -/
def Apart (w w' : ObjectInMap) : Prop := w.finish ≤ w'.base ∨ w'.finish ≤ w.base

instance : DecidableRel Apart := fun _ _ => inferInstanceAs (Decidable (_ ∨ _))

instance : Std.Symm Apart := ⟨fun _ _ => Or.symm⟩

/-- The place of an entry is computed without a wrap, and is an address, unless the entry
ends in front of the window. -/
def Reaches (oim : ObjectInMap) (e : PageEntry) : Prop :=
  oim.base + e.offset < 2 ^ 32 ∧ (oim.offset ≤ oim.base + e.offset ∨
    (e.offset + Page.count e.page * pageSize : ℕ) ≤ oim.offset)

instance (oim : ObjectInMap) : DecidablePred oim.Reaches := fun _ =>
  inferInstanceAs (Decidable (_ ∧ _))

/-- The pages of an entry are inside the window. -/
def Contains (oim : ObjectInMap) (e : PageEntry) : Prop :=
  oim.place e.offset < 0 ∨ oim.base ≤ oim.place e.offset ∧
    oim.place e.offset + (Page.count e.page * pageSize : ℕ) ≤ oim.finish

instance (oim : ObjectInMap) : DecidablePred oim.Contains := fun _ =>
  inferInstanceAs (Decidable (_ ∨ _))

section Place
variable {oim w : ObjectInMap} {e e' : PageEntry} {flags v x y : ℕ}

/-- The place of an entry that reaches the window is a page. -/
theorem Reaches.place_eq (h : oim.Reaches e) (hg : oim.Good) (he : e.offset % pageSize = 0)
    (hpos : 0 ≤ oim.place e.offset) :
    ∃ a : ℕ, oim.place e.offset = (a * pageSize : ℕ) ∧ ∀ k v, oim.At e.offset k v ↔ v = a + k := by
  obtain ⟨hbase, hoff, hoffset, -⟩ := hg
  have hwrap := h.1
  refine ⟨(oim.place e.offset).toNat / 4096, ?_, fun k v => ?_⟩
  · simp only [place, add32, sizes] at *
    omega
  · simp only [place, add32, At, sizes] at *
    omega

/-- An entry with a negative place is not shown. -/
theorem Reaches.not_shows (h : oim.Reaches e) (hneg : oim.place e.offset < 0) :
    ¬ oim.ShowsEntry flags e v x := by
  rintro ⟨hholds, k, hk, hat, -⟩
  obtain ⟨hwrap, hfits⟩ := h
  simp only [place, add32, At, Holds, sizes] at *
  omega

/-- A window shows one page of an entry at a page. -/
theorem ShowsEntry.unique (h : oim.ShowsEntry flags e v x) (h' : oim.ShowsEntry flags e v y) :
    x = y := by
  obtain ⟨-, k, -, hat, rfl⟩ := h
  obtain ⟨-, k', -, hat', rfl⟩ := h'
  have hk : k = k' := by
    simp only [At, sizes] at *
    omega
  rw [hk]

/-- Entries that are apart are not shown at one page. -/
theorem ShowsEntry.not_apart (h : oim.ShowsEntry flags e v x) (h' : oim.ShowsEntry flags e' v y) :
    ¬ e.Apart e' := by
  obtain ⟨-, k, hk, hat, -⟩ := h
  obtain ⟨-, k', hk', hat', -⟩ := h'
  intro hapart
  simp only [PageEntry.Apart, At, sizes] at *
  omega

/-- Windows that are apart do not hold one page. -/
theorem Apart.not_holds (h : oim.Apart w) (hv : oim.Holds v) : ¬ w.Holds v := by
  simp only [Apart, Holds] at *
  omega

end Place
end ObjectInMap

/-! ## What is written -/

/-- The entries of `m'` are what `P` says, and those of `m` where it says nothing. -/
structure Map.Wrote (P : ℕ → ℕ → Prop) (m m' : Map) : Prop where
  new : ∀ v x, P v x → m'.entry v = x
  old : ∀ v, (∀ x, ¬ P v x) → m'.entry v = m.entry v

section Wrote
open Map
variable {P Q : ℕ → ℕ → Prop} {m m₁ m₂ : Map} {oim : ObjectInMap} {e : PageEntry}
  {pages : List PageEntry} {flags : ℕ}

theorem Map.Wrote.refl (hP : ∀ v x, ¬ P v x) (h : ∀ v, m₁.entry v = m.entry v) : Wrote P m m₁ :=
  ⟨fun v x hx => absurd hx (hP v x), fun v _ => h v⟩

/-- Two writers that agree where they meet. -/
theorem Map.Wrote.trans (h₁ : Wrote P m m₁) (h₂ : Wrote Q m₁ m₂)
    (hPQ : ∀ v x y, P v x → Q v y → x = y) : Wrote (fun v x => P v x ∨ Q v x) m m₂ := by
  refine ⟨fun v x hx => ?_, fun v hnone => ?_⟩
  · by_cases hQ : ∃ y, Q v y
    · obtain ⟨y, hy⟩ := hQ
      rw [h₂.new v y hy]
      rcases hx with hx | hx
      · exact (hPQ v x y hx hy).symm
      · rw [← h₂.new v y hy, h₂.new v x hx]
    · have hold := h₂.old v fun y hy => hQ ⟨y, hy⟩
      rcases hx with hx | hx
      · rw [hold, h₁.new v x hx]
      · exact absurd ⟨x, hx⟩ hQ
  · rw [h₂.old v fun x hx => hnone x (.inr hx), h₁.old v fun x hx => hnone x (.inl hx)]

theorem Map.Wrote.congr (h : Wrote P m m₁) (hPQ : ∀ v x, P v x ↔ Q v x) : Wrote Q m m₁ := by
  refine ⟨fun v x hx => h.new v x ((hPQ v x).mpr hx), fun v hnone => h.old v fun x hx => ?_⟩
  exact hnone x ((hPQ v x).mp hx)

/-- `Map::insert` writes what the window shows of the entry. -/
theorem insert_wrote (hg : oim.Good) (he : e.offset % pageSize = 0) (hreach : oim.Reaches e) :
    Wrote (oim.ShowsEntry flags e) m
      (m.insert flags oim.base oim.finish e.page (oim.place e.offset)) := by
  by_cases hneg : oim.place e.offset < 0
  · rw [insert_of_neg hneg]
    exact .refl (fun v x => hreach.not_shows hneg) fun _ => rfl
  · obtain ⟨a, hplace, hat⟩ := hreach.place_eq hg he (Int.not_lt.mp hneg)
    rw [hplace]
    refine ⟨fun v x hx => ?_, fun v hnone => ?_⟩
    · obtain ⟨⟨hmin, hmax⟩, k, hk, hv, rfl⟩ := hx
      rw [hat] at hv
      subst hv
      rw [insert_entry]
      simp only [sizes] at *
      rw [Nat.mul_div_cancel a (by decide), if_pos (by omega), Nat.add_sub_cancel_left]
    · rw [insert_entry]
      simp only [sizes] at *
      rw [Nat.mul_div_cancel a (by decide), if_neg]
      intro hin
      refine hnone _ ⟨⟨?_, ?_⟩, v - a, by omega, (hat _ _).mpr (by omega), rfl⟩
      · simp only [sizes]
        omega
      · simp only [sizes]
        omega

/-- What a window shows of the entries of an object is written when it is made. -/
theorem enterPages_wrote (hg : oim.Good) (he : ∀ e ∈ pages, e.offset % pageSize = 0)
    (hreach : ∀ e ∈ pages, oim.Reaches e) (hapart : pages.Pairwise PageEntry.Apart) :
    Wrote (fun v x => ∃ e ∈ pages, oim.ShowsEntry flags e v x) m
      (Vm.enterPages oim flags pages m) := by
  induction pages generalizing m with
  | nil => exact .refl (by simp) fun _ => rfl
  | cons e rest ih =>
    rw [List.pairwise_cons] at hapart
    rw [List.forall_mem_cons] at he hreach
    have hfirst : Wrote (oim.ShowsEntry flags e) m _ := insert_wrote hg he.1 hreach.1
    have hrest := ih (m := m.insert flags oim.base oim.finish e.page (oim.place e.offset))
      he.2 hreach.2 hapart.2
    rw [Vm.enterPages]
    refine (hfirst.trans hrest ?_).congr fun v x => by simp
    rintro v x y hx ⟨e', he', hy⟩
    exact absurd (hapart.1 e' he') (hx.not_apart hy)

/-- The pages that are generated are written in every window on the object. -/
theorem enterAll_wrote {windows : List ObjectInMap} {maps : ℕ → Map} {i : ℕ}
    (hg : ∀ w ∈ windows, w.Good) (he : e.offset % pageSize = 0)
    (hreach : ∀ w ∈ windows, w.Reaches e)
    (hmeet : ∀ w ∈ windows, ∀ w' ∈ windows, w.map = i → w'.map = i → w = w' ∨ w.Apart w') :
    Wrote (fun v x => ∃ w ∈ windows, w.map = i ∧ w.ShowsEntry flags e v x) (maps i)
      (Vm.enterAll e.page flags e.offset windows maps i) := by
  induction windows generalizing maps with
  | nil => exact .refl (by simp) fun _ => rfl
  | cons w rest ih =>
    rw [List.forall_mem_cons] at hg hreach
    rw [Vm.enterAll]
    have hrest : ∀ maps : ℕ → Map,
        Wrote (fun v x => ∃ w ∈ rest, w.map = i ∧ w.ShowsEntry flags e v x) (maps i)
          (Vm.enterAll e.page flags e.offset rest maps i) :=
      fun _ => ih hg.2 hreach.2 fun w' hw' w'' hw'' =>
        hmeet w' (List.mem_cons_of_mem _ hw') w'' (List.mem_cons_of_mem _ hw'')
    specialize hrest (Function.update maps w.map ((maps w.map).insert flags w.base w.finish
      e.page (w.place e.offset)))
    by_cases hi : w.map = i
    · have hfirst : Wrote (w.ShowsEntry flags e) (maps i) _ := insert_wrote hg.1 he hreach.1
      rw [hi, Function.update_self] at hrest
      rw [hi]
      refine (hfirst.trans hrest ?_).congr fun v x => by simp [hi]
      rintro v x y hx ⟨w', hw', hi', hy⟩
      rcases hmeet w (List.mem_cons_self ..) w' (List.mem_cons_of_mem _ hw') hi hi' with rfl | hapart
      · exact hx.unique hy
      · exact absurd hy.1 (hapart.not_holds hx.1)
    · rw [Function.update_of_ne (Ne.symm hi)] at hrest
      exact hrest.congr fun v x => by simp [hi]

theorem clear_entry {k a : ℕ} {m m' : Map} (h : m.clear k (a * pageSize) = some m') :
    m'.windows = m.windows ∧
      ∀ w, m'.entry w = if a ≤ w ∧ w < a + k then 0 else m.entry w := by
  induction k generalizing a m with
  | zero =>
    obtain rfl := Option.some.inj h
    exact ⟨rfl, fun w => by rw [if_neg (by omega)]⟩
  | succ k ih =>
    rw [Map.clear, Nat.mul_div_cancel a (by decide)] at h
    split_ifs at h with htable
    have hnext : a * pageSize + pageSize = (a + 1) * pageSize := (Nat.succ_mul a pageSize).symm
    rw [hnext] at h
    obtain ⟨hwindows, hentry⟩ := ih h
    refine ⟨hwindows, fun w => ?_⟩
    rw [hentry]
    by_cases hw : w = a
    · subst hw
      rw [if_neg (by omega), if_pos (by omega), Map.entry]
      simp
    · have hold : Map.entry { m with entries := Function.update m.entries a 0 } w = m.entry w := by
        simp only [Map.entry, Function.update_of_ne hw]
      rw [hold]
      by_cases hin : a + 1 ≤ w ∧ w < a + 1 + k
      · rw [if_pos hin, if_pos (by omega)]
      · rw [if_neg hin, if_neg (by omega)]


/-- The pages of the object are cleared at their places. -/
theorem clearPages_wrote (hg : oim.Good) (he : ∀ e ∈ pages, e.offset % pageSize = 0)
    (hreach : ∀ e ∈ pages, oim.Reaches e) (h : Vm.clearPages oim pages m = some m₁) :
    m₁.windows = m.windows ∧
      Wrote (fun v x => x = 0 ∧ ∃ e ∈ pages, 0 ≤ oim.place e.offset ∧
        ∃ k < Page.count e.page, oim.At e.offset k v) m m₁ := by
  induction pages generalizing m with
  | nil =>
    obtain rfl := Option.some.inj h
    exact ⟨rfl, .refl (by simp) fun _ => rfl⟩
  | cons e rest ih =>
    rw [List.forall_mem_cons] at he hreach
    rw [Vm.clearPages] at h
    by_cases hneg : oim.place e.offset < 0
    · rw [if_pos hneg] at h
      obtain ⟨hwindows, hwrote⟩ := ih he.2 hreach.2 h
      exact ⟨hwindows, hwrote.congr fun v x => by simp [hneg]⟩
    · rw [if_neg hneg, Option.bind_eq_some_iff] at h
      obtain ⟨t, ht, hrest⟩ := h
      have hpos := Int.not_lt.mp hneg
      obtain ⟨a, hplace, hat⟩ := hreach.1.place_eq hg he.1 hpos
      rw [hplace, Int.toNat_natCast] at ht
      obtain ⟨hwindows, hentry⟩ := clear_entry ht
      obtain ⟨hwindows', hwrote⟩ := ih he.2 hreach.2 hrest
      have hfirst : Wrote (fun v x => x = 0 ∧ ∃ k < Page.count e.page, oim.At e.offset k v) m t := by
        refine ⟨fun v x hx => ?_, fun v hnone => ?_⟩
        · obtain ⟨rfl, k, hk, hv⟩ := hx
          rw [hat] at hv
          rw [hentry, if_pos (by omega)]
        · rw [hentry, if_neg]
          intro hin
          exact hnone 0 ⟨rfl, v - a, by omega, (hat _ _).mpr (by omega)⟩
      refine ⟨hwindows'.trans hwindows, (hfirst.trans hwrote ?_).congr fun v x => ?_⟩
      · rintro v x y ⟨rfl, -⟩ ⟨rfl, -⟩
        rfl
      · simp [hpos, and_or_left]

end Wrote

end Cantos
