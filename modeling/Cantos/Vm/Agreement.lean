import Cantos.Lib.Steps
import Cantos.Vm.Windows

/-!
# Windows and objects agree

In every map, the entry of a page is the frame that the window at the page shows there, and
`0` where no window shows one.  The operations keep this while every entry of an object that
they meet is in place: `Map::insert` gives up on an entry that begins below address `0`, and
`remove_object_in_map` clears the places of all pages of the object, also those outside the
window.

## Main definitions

* `Vm.Shown`: what the windows say is at a page.
* `Vm.Agrees`: the page tables say the same.
* `Vm.InPlace`: the moves that only meet entries in place.
-/

namespace Cantos

/-! ## Maps and objects -/

/-- A part of the entries of an updated function. -/
theorem proj_update {α β : Type} {g : ℕ → α} {x : α} {a b : ℕ} (f : α → β) (h : β → β)
    (hx : f x = h (f (g a))) :
    f (Function.update g a x b) = if b = a then h (f (g b)) else f (g b) := by
  rw [Function.update_apply, apply_ite f, hx]
  split_ifs with hb
  · rw [hb]
  · rfl

theorem proj_update_same {α β : Type} {g : ℕ → α} {x : α} {a b : ℕ} (f : α → β)
    (hx : f x = f (g a)) : f (Function.update g a x b) = f (g b) := by
  rw [proj_update f id hx, id, ite_self]

theorem write_windows {v e : ℕ} {m : Map} : (m.write v e).windows = m.windows := by
  rw [Map.write, Map.newTable]
  split_ifs <;> rfl

theorem insertRun_windows {memBase flags min max k i a : ℕ} {m : Map} :
    (Map.insertRun memBase flags min max k i a m).1.windows = m.windows := by
  induction k generalizing i a m with
  | zero => rfl
  | succ k ih =>
    rw [Map.insertRun]
    by_cases hmin : a ≥ min
    · simp only [if_pos hmin]
      split_ifs
      · exact write_windows
      · exact ih.trans write_windows
    · simp only [if_neg hmin]
      split_ifs
      · rfl
      · exact ih

theorem insert_windows {flags min max : ℕ} {chain : List Page} {a : ℤ} {m : Map} :
    (m.insert flags min max chain a).windows = m.windows := by
  induction chain generalizing a m with
  | nil => rfl
  | cons page next ih =>
    rw [Map.insert]
    split_ifs
    · rfl
    · have hrun : (Map.insertRun page.memBase flags min max page.consecutive 0 a.toNat m).1.windows =
          m.windows := insertRun_windows
      split
      next m₁ h => rwa [h] at hrun
      next m₁ a' h =>
        rw [h] at hrun
        exact ih.trans hrun

theorem enterPages_windows {oim : ObjectInMap} {flags : ℕ} {pages : List PageEntry} {m : Map} :
    (Vm.enterPages oim flags pages m).windows = m.windows := by
  induction pages generalizing m with
  | nil => rfl
  | cons e rest ih => rw [Vm.enterPages, ih, insert_windows]

theorem enterAll_windows {page : List Page} {flags addr i : ℕ} {windows : List ObjectInMap}
    {maps : ℕ → Map} :
    (Vm.enterAll page flags addr windows maps i).windows = (maps i).windows := by
  induction windows generalizing maps with
  | nil => rfl
  | cons w rest ih =>
    rw [Vm.enterAll, ih]
    by_cases hi : i = w.map
    · rw [hi, Function.update_self, insert_windows]
    · rw [Function.update_of_ne hi]

namespace Vm

/-- What the windows say that the entry of a page is. -/
def Shown (vm : Vm) (i v x : ℕ) : Prop :=
  ∃ w ∈ (vm.maps i).windows, ∃ e ∈ (vm.objects w.object).object.pages,
    w.ShowsEntry (vm.objects w.object).pageFlags e v x

/-- The page tables of the maps say the same. -/
def Agrees (vm : Vm) : Prop :=
  ∀ i v, (∀ x, vm.Shown i v x → (vm.maps i).entry v = x) ∧
    ((∀ x, ¬ vm.Shown i v x) → (vm.maps i).entry v = 0)

/-- Maps and objects know the same windows; windows are apart in their maps, and entries in
their objects. -/
structure Shape (vm : Vm) : Prop where
  inMap : ∀ i, ∀ w ∈ (vm.maps i).windows, w.map = i
  onObject : ∀ o, ∀ w ∈ (vm.objects o).windows, w.object = o
  same : ∀ w, (vm.maps w.map).windows.count w = (vm.objects w.object).windows.count w
  good : ∀ i, ∀ w ∈ (vm.maps i).windows, w.Good
  apart : ∀ i, (vm.maps i).windows.Pairwise ObjectInMap.Apart
  aligned : ∀ o, ∀ e ∈ (vm.objects o).object.pages, e.offset % pageSize = 0
  disjoint : ∀ o, (vm.objects o).object.pages.Pairwise PageEntry.Apart
  reaches : ∀ i, ∀ w ∈ (vm.maps i).windows, ∀ e ∈ (vm.objects w.object).object.pages, w.Reaches e

section Shape
variable {vm vm' : Vm} {i v x y o : ℕ} {w w' oim : ObjectInMap} {e e' : PageEntry}

theorem Shape.mem_iff (h : vm.Shape) :
    w ∈ (vm.maps w.map).windows ↔ w ∈ (vm.objects w.object).windows := by
  rw [← List.count_pos_iff, ← List.count_pos_iff, h.same]

theorem Shape.eq_or_apart (h : vm.Shape) (hw : w ∈ (vm.maps i).windows)
    (hw' : w' ∈ (vm.maps i).windows) : w = w' ∨ w.Apart w' := by
  by_cases heq : w = w'
  · exact .inl heq
  · exact .inr ((h.apart i).forall hw hw' heq)

/-- The windows of a map show at most one page at a page. -/
theorem Shape.unique (h : vm.Shape) (hx : vm.Shown i v x) (hy : vm.Shown i v y) : x = y := by
  obtain ⟨w, hw, e, he, hx⟩ := hx
  obtain ⟨w', hw', e', he', hy⟩ := hy
  rcases h.eq_or_apart hw hw' with rfl | hapart
  · by_cases heq : e = e'
    · subst heq
      exact hx.unique hy
    · exact absurd ((h.disjoint _).forall he he' heq) (hx.not_apart hy)
  · exact absurd hy.1 (hapart.not_holds hx.1)

/-- What is written on top of what is shown is shown. -/
theorem Agrees.wrote {P : ℕ → ℕ → ℕ → Prop} (h : vm.Agrees) (hshape : vm'.Shape)
    (hwrote : ∀ i, (vm.maps i).Wrote (P i) (vm'.maps i))
    (hshown : ∀ i v x, vm'.Shown i v x ↔ vm.Shown i v x ∨ P i v x) : vm'.Agrees := by
  intro i v
  refine ⟨fun x hx => ?_, fun hnone => ?_⟩
  · by_cases hP : ∃ y, P i v y
    · obtain ⟨y, hy⟩ := hP
      rw [(hwrote i).new v y hy]
      exact hshape.unique ((hshown i v y).mpr (.inr hy)) hx
    · rw [(hwrote i).old v fun y hy => hP ⟨y, hy⟩]
      rcases (hshown i v x).mp hx with hx | hx
      · exact (h i v).1 x hx
      · exact absurd ⟨x, hx⟩ hP
  · rw [(hwrote i).old v fun y hy => hnone y ((hshown i v y).mpr (.inr hy))]
    exact (h i v).2 fun y hy => hnone y ((hshown i v y).mpr (.inl hy))

/-! ### The operations -/

theorem addObject_windows : ((vm.addObject oim).maps i).windows =
    if i = oim.map then oim :: (vm.maps i).windows else (vm.maps i).windows :=
  proj_update Map.windows (oim :: ·) (congrArg (oim :: ·) enterPages_windows)

theorem addObject_object : ((vm.addObject oim).objects o).object = (vm.objects o).object :=
  proj_update_same SharedObject.object rfl

theorem addObject_pageFlags :
    ((vm.addObject oim).objects o).pageFlags = (vm.objects o).pageFlags :=
  proj_update_same SharedObject.pageFlags rfl

theorem addObject_onObject : ((vm.addObject oim).objects o).windows =
    if o = oim.object then oim :: (vm.objects o).windows else (vm.objects o).windows :=
  proj_update SharedObject.windows (oim :: ·) rfl

theorem mem_addObject : w ∈ ((vm.addObject oim).maps i).windows ↔
    (i = oim.map ∧ w = oim) ∨ w ∈ (vm.maps i).windows := by
  rw [addObject_windows]
  by_cases hi : i = oim.map
  · simp [hi]
  · simp [hi]

theorem Shape.addObject (h : vm.Shape) (hg : oim.Good)
    (hapart : ∀ w ∈ (vm.maps oim.map).windows, oim.Apart w)
    (hreach : ∀ e ∈ (vm.objects oim.object).object.pages, oim.Reaches e) :
    (vm.addObject oim).Shape where
  inMap i w hw := by
    rcases mem_addObject.mp hw with ⟨rfl, rfl⟩ | hw
    · rfl
    · exact h.inMap i w hw
  onObject o w hw := by
    rw [addObject_onObject] at hw
    split_ifs at hw with ho
    · rcases List.mem_cons.mp hw with rfl | hw
      · exact ho.symm
      · exact h.onObject o w hw
    · exact h.onObject o w hw
  same w := by
    rw [addObject_windows, addObject_onObject]
    have hsame := h.same w
    by_cases hw : w = oim
    · subst hw
      simp [hsame]
    · split_ifs <;> simp [Ne.symm hw, hsame]
  good i w hw := by
    rcases mem_addObject.mp hw with ⟨-, rfl⟩ | hw
    · exact hg
    · exact h.good i w hw
  apart i := by
    rw [addObject_windows]
    split_ifs with hi
    · subst hi
      exact List.pairwise_cons.mpr ⟨hapart, h.apart _⟩
    · exact h.apart i
  aligned o := by
    rw [addObject_object]
    exact h.aligned o
  disjoint o := by
    rw [addObject_object]
    exact h.disjoint o
  reaches i w hw := by
    rw [addObject_object]
    rcases mem_addObject.mp hw with ⟨-, rfl⟩ | hw
    · exact hreach
    · exact h.reaches i w hw

theorem Agrees.addObject (h : vm.Agrees) (hs : vm.Shape) (hg : oim.Good)
    (hapart : ∀ w ∈ (vm.maps oim.map).windows, oim.Apart w)
    (hreach : ∀ e ∈ (vm.objects oim.object).object.pages, oim.Reaches e) :
    (vm.addObject oim).Agrees := by
  have hwrote : (vm.maps oim.map).Wrote (fun v x => ∃ e ∈ (vm.objects oim.object).object.pages,
      oim.ShowsEntry (vm.objects oim.object).pageFlags e v x) (enterPages oim
        (vm.objects oim.object).pageFlags (vm.objects oim.object).object.pages (vm.maps oim.map)) :=
    enterPages_wrote hg (hs.aligned oim.object) hreach (hs.disjoint oim.object)
  refine h.wrote (P := fun i v x => i = oim.map ∧ ∃ e ∈ (vm.objects oim.object).object.pages,
    oim.ShowsEntry (vm.objects oim.object).pageFlags e v x) (hs.addObject hg hapart hreach)
    (fun i => ?_) fun i v x => ?_
  · by_cases hi : i = oim.map
    · subst hi
      simp only [true_and]
      refine ⟨fun v x hx => ?_, fun v hnone => ?_⟩
      · rw [← hwrote.new v x hx]
        simp [Vm.addObject, Map.entry]
      · rw [← hwrote.old v hnone]
        simp [Vm.addObject, Map.entry]
    · refine .refl (fun v x hx => hi hx.1) fun v => ?_
      simp [Vm.addObject, hi]
  · simp only [Shown, mem_addObject, addObject_object, addObject_pageFlags]
    constructor
    · rintro ⟨w, ⟨rfl, rfl⟩ | hw, e, he, hx⟩
      · exact .inr ⟨rfl, e, he, hx⟩
      · exact .inl ⟨w, hw, e, he, hx⟩
    · rintro (⟨w, hw, e, he, hx⟩ | ⟨hi, e, he, hx⟩)
      · exact ⟨w, .inr hw, e, he, hx⟩
      · exact ⟨oim, .inl ⟨hi, rfl⟩, e, he, hx⟩

/-- `generate` makes pages where the object has none, and every window on the object enters
them at their places. -/
def Opens (vm : Vm) (o addr count : ℕ) (page : List Page) : Prop :=
  (vm.objects o).object.room addr count = 0 ∨
    (∀ e ∈ (vm.objects o).object.pages, PageEntry.Apart ⟨addr, page⟩ e) ∧
      ∀ w ∈ (vm.objects o).windows, w.Reaches ⟨addr, page⟩

instance (o addr count : ℕ) (page : List Page) : Decidable (vm.Opens o addr count page) :=
  inferInstanceAs (Decidable (_ ∨ _))

section Generate
variable {addr count : ℕ} {page : List Page}

theorem generate_windows : ((vm.generate o addr count page).maps i).windows =
    (vm.maps i).windows := by
  rw [generate]
  split_ifs
  · rfl
  · exact enterAll_windows

/-- The object has a new entry, and all else of the objects stays. -/
theorem generate_objects {o' : ℕ} (hroom : (vm.objects o).object.room addr count ≠ 0) :
    ((vm.generate o addr count page).objects o').windows = (vm.objects o').windows ∧
      ((vm.generate o addr count page).objects o').pageFlags = (vm.objects o').pageFlags ∧
      ((vm.generate o addr count page).objects o').object.pages =
        if o' = o then Object.link ⟨addr, page⟩ (vm.objects o').object.pages
        else (vm.objects o').object.pages := by
  rw [generate, if_neg hroom]
  by_cases ho : o' = o
  · subst ho
    simp
  · simp [ho]

theorem mem_generate {o' : ℕ} (hroom : (vm.objects o).object.room addr count ≠ 0) :
    e ∈ ((vm.generate o addr count page).objects o').object.pages ↔
      (o' = o ∧ e = ⟨addr, page⟩) ∨ e ∈ (vm.objects o').object.pages := by
  rw [(generate_objects hroom).2.2]
  split_ifs with ho
  · rw [(link_perm _ _).mem_iff]
    simp [ho]
  · simp [ho]

variable (ha : addr % pageSize = 0) (hroom : (vm.objects o).object.room addr count ≠ 0)
  (hopen : ∀ e ∈ (vm.objects o).object.pages, PageEntry.Apart ⟨addr, page⟩ e)
  (hreach : ∀ w ∈ (vm.objects o).windows, w.Reaches ⟨addr, page⟩)
include ha hroom hopen hreach

theorem Shape.generate (h : vm.Shape) : (vm.generate o addr count page).Shape where
  inMap i := by
    rw [generate_windows]
    exact h.inMap i
  onObject o' := by
    rw [(generate_objects hroom).1]
    exact h.onObject o'
  same w := by
    rw [generate_windows, (generate_objects hroom).1]
    exact h.same w
  good i := by
    rw [generate_windows]
    exact h.good i
  apart i := by
    rw [generate_windows]
    exact h.apart i
  aligned o' e he := by
    rcases (mem_generate hroom).mp he with ⟨-, rfl⟩ | he
    · exact ha
    · exact h.aligned o' e he
  disjoint o' := by
    rw [(generate_objects hroom).2.2]
    split_ifs with ho
    · subst ho
      rw [(link_perm _ _).pairwise_iff (Std.Symm.symm _ _)]
      exact List.pairwise_cons.mpr ⟨hopen, h.disjoint o'⟩
    · exact h.disjoint o'
  reaches i w hw e he := by
    rw [generate_windows] at hw
    rcases (mem_generate hroom).mp he with ⟨ho, rfl⟩ | he
    · have hmap := h.inMap i w hw
      rw [← hmap] at hw
      exact hreach w (ho ▸ h.mem_iff.mp hw)
    · exact h.reaches i w hw e he

theorem Agrees.generate (h : vm.Agrees) (hs : vm.Shape) :
    (vm.generate o addr count page).Agrees := by
  have hmem : ∀ w ∈ (vm.objects o).windows, w.object = o ∧ w ∈ (vm.maps w.map).windows := by
    intro w hw
    have ho := hs.onObject o w hw
    exact ⟨ho, hs.mem_iff.mpr (ho.symm ▸ hw)⟩
  refine h.wrote (P := fun i v x => ∃ w ∈ (vm.objects o).windows, w.map = i ∧
    w.ShowsEntry (vm.objects o).pageFlags ⟨addr, page⟩ v x)
    (hs.generate ha hroom hopen hreach) (fun i => ?_) fun i v x => ?_
  · rw [Vm.generate, if_neg hroom]
    refine enterAll_wrote (e := ⟨addr, page⟩) (fun w hw => hs.good w.map w (hmem w hw).2) ha hreach ?_
    intro w hw w' hw' hi hi'
    exact hs.eq_or_apart (hi ▸ (hmem w hw).2) (hi' ▸ (hmem w' hw').2)
  · simp only [Shown, generate_windows, mem_generate hroom, (generate_objects hroom).2.1]
    constructor
    · rintro ⟨w, hw, e, ⟨ho, rfl⟩ | he, hx⟩
      · have hmap := hs.inMap i w hw
        rw [← hmap] at hw
        exact .inr ⟨w, ho ▸ hs.mem_iff.mp hw, hmap, ho ▸ hx⟩
      · exact .inl ⟨w, hw, e, he, hx⟩
    · rintro (⟨w, hw, e, he, hx⟩ | ⟨w, hw, rfl, hx⟩)
      · exact ⟨w, hw, e, .inr he, hx⟩
      · obtain ⟨ho, hw⟩ := hmem w hw
        exact ⟨w, hw, _, .inl ⟨ho, rfl⟩, ho ▸ hx⟩

end Generate

/-! ### Removal -/

/-- Every entry of the object has its place inside the window. -/
def Covers (vm : Vm) (w : ObjectInMap) : Prop :=
  ∀ e ∈ (vm.objects w.object).object.pages, w.Contains e

instance (w : ObjectInMap) : Decidable (vm.Covers w) := List.decidableBAll ..

/-- What a window leaves behind when it goes. -/
structure Removed (vm : Vm) (oim : ObjectInMap) (vm' : Vm) : Prop where
  windows : ∀ i, (vm'.maps i).windows =
    if i = oim.map then (vm.maps i).windows.erase oim else (vm.maps i).windows
  onObject : ∀ o, (vm'.objects o).windows =
    if o = oim.object then (vm.objects o).windows.erase oim else (vm.objects o).windows
  object : ∀ o, (vm'.objects o).object = (vm.objects o).object
  pageFlags : ∀ o, (vm'.objects o).pageFlags = (vm.objects o).pageFlags
  wrote : ∀ i, Map.Wrote (fun v x => i = oim.map ∧ x = 0 ∧
    ∃ e ∈ (vm.objects oim.object).object.pages, 0 ≤ oim.place e.offset ∧
      ∃ k < Page.count e.page, oim.At e.offset k v) (vm.maps i) (vm'.maps i)

theorem removeWindow_removed (hs : vm.Shape) (hw : oim ∈ (vm.maps oim.map).windows)
    (h : vm.removeWindow oim = some vm') : vm.Removed oim vm' := by
  rw [removeWindow, Option.map_eq_some_iff] at h
  obtain ⟨m, hm, rfl⟩ := h
  obtain ⟨hwindows, hwrote⟩ := clearPages_wrote (hs.good _ oim hw) (hs.aligned oim.object)
    (hs.reaches _ oim hw) hm
  refine ⟨fun i => ?_, fun o => ?_, fun o => ?_, fun o => ?_, fun i => ?_⟩
  · exact proj_update Map.windows (List.erase · oim) (congrArg (List.erase · oim) hwindows)
  · exact proj_update SharedObject.windows (List.erase · oim) rfl
  · exact proj_update_same SharedObject.object rfl
  · exact proj_update_same SharedObject.pageFlags rfl
  · by_cases hi : i = oim.map
    · subst hi
      simp only [true_and]
      refine ⟨fun v x hx => ?_, fun v hnone => ?_⟩
      · rw [← hwrote.new v x hx]
        simp [Map.entry]
      · rw [← hwrote.old v hnone]
        simp [Map.entry]
    · refine .refl (fun v x hx => hi hx.1) fun v => ?_
      simp [hi]

theorem Removed.mem (h : vm.Removed oim vm') (hw : w ∈ (vm'.maps i).windows) :
    w ∈ (vm.maps i).windows := by
  rw [h.windows] at hw
  split_ifs at hw
  · exact List.mem_of_mem_erase hw
  · exact hw

theorem Shape.removed (hs : vm.Shape) (h : vm.Removed oim vm') : vm'.Shape where
  inMap i w hw := hs.inMap i w (h.mem hw)
  onObject o w hw := by
    rw [h.onObject] at hw
    split_ifs at hw
    · exact hs.onObject o w (List.mem_of_mem_erase hw)
    · exact hs.onObject o w hw
  same w := by
    rw [h.windows, h.onObject]
    have hsame := hs.same w
    by_cases hw : w = oim
    · subst hw
      simp [hsame]
    · split_ifs <;> simp [hw, hsame]
  good i w hw := hs.good i w (h.mem hw)
  apart i := by
    rw [h.windows]
    split_ifs
    · exact (hs.apart i).sublist List.erase_sublist
    · exact hs.apart i
  aligned o := by
    rw [h.object]
    exact hs.aligned o
  disjoint o := by
    rw [h.object]
    exact hs.disjoint o
  reaches i w hw := by
    rw [h.object]
    exact hs.reaches i w (h.mem hw)

/-- The other windows of the map are apart from the one that goes. -/
theorem Shape.apart_erase (hs : vm.Shape) (hoim : oim ∈ (vm.maps i).windows)
    (hw : w ∈ (vm.maps i).windows.erase oim) : oim.Apart w := by
  have hperm := List.perm_cons_erase hoim
  exact (List.pairwise_cons.mp ((hperm.pairwise_iff (Std.Symm.symm _ _)).mp (hs.apart i))).1 w hw

theorem Agrees.removed (ha : vm.Agrees) (hs : vm.Shape) (hoim : oim ∈ (vm.maps oim.map).windows)
    (hcovers : vm.Covers oim) (h : vm.Removed oim vm') : vm'.Agrees := by
  have hshown : ∀ {i v x}, vm'.Shown i v x → vm.Shown i v x := by
    rintro i v x ⟨w, hw, e, he, hx⟩
    rw [h.object, h.pageFlags] at *
    exact ⟨w, h.mem hw, e, he, hx⟩
  intro i v
  by_cases hclear : i = oim.map ∧ ∃ e ∈ (vm.objects oim.object).object.pages,
      0 ≤ oim.place e.offset ∧ ∃ k < Page.count e.page, oim.At e.offset k v
  · obtain ⟨rfl, e, he, hpos, k, hk, hat⟩ := hclear
    have hzero := (h.wrote oim.map).new v 0 ⟨rfl, rfl, e, he, hpos, k, hk, hat⟩
    refine ⟨fun x hx => ?_, fun _ => hzero⟩
    -- The page is in the window that goes, so no other window shows it.
    have hholds : oim.Holds v := by
      obtain ⟨hwrap, -⟩ := hs.reaches _ oim hoim e he
      have hin := hcovers e he
      simp only [ObjectInMap.Contains, ObjectInMap.place, ObjectInMap.Holds, ObjectInMap.At,
        add32, sizes] at *
      omega
    obtain ⟨w, hw, e', he', hx⟩ := hx
    rw [h.windows, if_pos rfl] at hw
    exact absurd hx.1 ((hs.apart_erase hoim hw).not_holds hholds)
  · have hold := (h.wrote i).old v fun x hx => hclear ⟨hx.1, hx.2.2⟩
    rw [hold]
    refine ⟨fun x hx => (ha i v).1 x (hshown hx), fun hnone => (ha i v).2 fun x hx => ?_⟩
    obtain ⟨w, hw, e, he, hx⟩ := hx
    by_cases hgone : i = oim.map ∧ w = oim
    · obtain ⟨rfl, rfl⟩ := hgone
      refine hclear ⟨rfl, e, he, ?_, hx.2.imp fun k hk => ⟨hk.1, hk.2.1⟩⟩
      exact Int.not_lt.mp fun hneg => (hs.reaches _ w hw e he).not_shows hneg hx
    · refine hnone x ⟨w, ?_, e, ?_, ?_⟩
      · rw [h.windows]
        split_ifs with hi
        · exact (List.mem_erase_of_ne fun heq => hgone ⟨hi, heq⟩).mpr hw
        · exact hw
      · rwa [h.object]
      · rwa [h.pageFlags]

end Shape

/-! ## Runs -/

/-- The operations; a page is what `do_generate` returns. -/
inductive Move
  | addObject (oim : ObjectInMap)
  | removeObject (m o : ℕ)
  | removeObjectAt (m o base : ℕ)
  | generate (o addr count : ℕ) (page : List Page)
  | resolveFault (m addr : ℕ) (page : List Page)

/-- Windows are page aligned, in user memory, and apart from those of their map. -/
def step (vm : Vm) : Move → Option Vm
  | .addObject oim =>
      if oim.Good ∧ ∀ w ∈ (vm.maps oim.map).windows, oim.Apart w then some (vm.addObject oim)
      else none
  | .removeObject m o => vm.removeObject m o
  | .removeObjectAt m o base => vm.removeObjectAt m o base
  | .generate o addr count page =>
      if addr % pageSize = 0 then some (vm.generate o addr count page) else none
  | .resolveFault m addr page => some (vm.resolveFault m addr page).1

/-- The moves that only meet entries in place. -/
def InPlace (vm : Vm) : Move → Prop
  | .addObject oim => ∀ e ∈ (vm.objects oim.object).object.pages, oim.Reaches e
  | .removeObject m o => ∀ w ∈ vm.windowsOn m o, vm.Covers w
  | .removeObjectAt m o base =>
      ∀ w ∈ (vm.windowsOn m o).find? fun oim => oim.base = base, vm.Covers w
  | .generate o addr count page => vm.Opens o addr count page
  | .resolveFault m addr page =>
      ∀ w ∈ vm.window m addr, vm.Opens w.object (w.objectAddr addr) 1 page

instance (vm : Vm) : DecidablePred vm.InPlace
  | .addObject _ => inferInstanceAs (Decidable (∀ e ∈ _, _))
  | .removeObject _ _ => inferInstanceAs (Decidable (∀ w ∈ _, _))
  | .removeObjectAt m o base =>
      match h : (vm.windowsOn m o).find? fun oim => oim.base = base with
      | none => isTrue (by simp [InPlace, h])
      | some w => decidable_of_iff (vm.Covers w) (by simp [InPlace, h])
  | .generate .. => inferInstanceAs (Decidable (_ ∨ _))
  | .resolveFault m addr page =>
      match h : vm.window m addr with
      | none => isTrue (by simp [InPlace, h])
      | some w => decidable_of_iff (vm.Opens w.object (w.objectAddr addr) 1 page)
          (by simp [InPlace, h])

/-- What every move in place keeps. -/
structure Inv (vm : Vm) : Prop where
  shape : vm.Shape
  agrees : vm.Agrees

section Inv
variable {vm vm' : Vm} {oim : ObjectInMap} {m o addr count : ℕ} {page : List Page}

theorem Inv.generate (h : vm.Inv) (ha : addr % pageSize = 0)
    (hopens : vm.Opens o addr count page) : (vm.generate o addr count page).Inv := by
  by_cases hroom : (vm.objects o).object.room addr count = 0
  · rw [Vm.generate, if_pos hroom]
    exact h
  · obtain ⟨hopen, hreach⟩ := hopens.resolve_left hroom
    exact ⟨h.shape.generate ha hroom hopen hreach, h.agrees.generate ha hroom hopen hreach h.shape⟩

theorem Inv.removeWindow (h : vm.Inv) (hw : oim ∈ (vm.maps oim.map).windows)
    (hcovers : vm.Covers oim) (hvm' : vm.removeWindow oim = some vm') : vm'.Inv := by
  have hremoved := removeWindow_removed h.shape hw hvm'
  exact ⟨h.shape.removed hremoved, h.agrees.removed h.shape hw hcovers hremoved⟩

/-- Windows of a map are removed one after the other. -/
theorem Inv.removeWindows {ws : List ObjectInMap} (h : vm.Inv)
    (hws : ws.Subperm (vm.maps m).windows) (hcovers : ∀ w ∈ ws, vm.Covers w)
    (hvm' : removeWindows ws vm = some vm') : vm'.Inv := by
  induction ws generalizing vm with
  | nil => exact Option.some.inj hvm' ▸ h
  | cons w rest ih =>
    rw [Vm.removeWindows, Option.bind_eq_some_iff] at hvm'
    obtain ⟨t, ht, hrest⟩ := hvm'
    rw [List.forall_mem_cons] at hcovers
    have hw := hws.subset (List.mem_cons_self ..)
    have hmap := h.shape.inMap m w hw
    subst hmap
    have hremoved := removeWindow_removed h.shape hw ht
    refine ih (h.removeWindow hw hcovers.1 ht) ?_ (fun w' hw' => ?_) hrest
    · rw [hremoved.windows, if_pos rfl]
      simpa using hws.erase w
    · rw [Covers, hremoved.object]
      exact hcovers.2 w' hw'

theorem windowsOn_subperm : (vm.windowsOn m o).Subperm (vm.maps m).windows :=
  List.filter_sublist.subperm

/-- The page a fault asks for is page aligned. -/
theorem objectAddr_aligned (hg : oim.Good) : oim.objectAddr addr % pageSize = 0 := by
  obtain ⟨hbase, hoff, -, -⟩ := hg
  simp only [ObjectInMap.objectAddr, sizes] at *
  omega

theorem Inv.step {move : Move} (h : vm.Inv) (hmove : vm.InPlace move)
    (hvm' : vm.step move = some vm') : vm'.Inv := by
  cases move with
  | addObject oim =>
    rw [Vm.step] at hvm'
    split_ifs at hvm' with hguard
    obtain rfl := Option.some.inj hvm'
    exact ⟨h.shape.addObject hguard.1 hguard.2 hmove,
      h.agrees.addObject h.shape hguard.1 hguard.2 hmove⟩
  | removeObject m o => exact h.removeWindows windowsOn_subperm hmove hvm'
  | removeObjectAt m o base =>
    rw [Vm.step, removeObjectAt] at hvm'
    rw [InPlace] at hmove
    cases hfind : (vm.windowsOn m o).find? fun oim => oim.base = base with
    | none =>
      simp only [hfind] at hvm'
      exact Option.some.inj hvm' ▸ h
    | some w =>
      simp only [hfind] at hvm'
      have hw := windowsOn_subperm.subset (List.mem_of_find?_eq_some hfind)
      have hmap := h.shape.inMap m w hw
      exact h.removeWindow (hmap.symm ▸ hw) (hmove w hfind) hvm'
  | generate o addr count page =>
    rw [Vm.step] at hvm'
    split_ifs at hvm' with ha
    obtain rfl := Option.some.inj hvm'
    exact h.generate ha hmove
  | resolveFault m addr page =>
    obtain rfl := Option.some.inj hvm'
    rw [resolveFault]
    cases hwindow : vm.window m addr with
    | none => exact h
    | some w =>
      have hw : w ∈ (vm.maps m).windows := List.mem_of_find?_eq_some hwindow
      exact h.generate (objectAddr_aligned (h.shape.good m w hw)) (hmove w hwindow)

end Inv

/-- Maps without windows, and objects without pages. -/
def start (objects : ℕ → Object) (pageFlags : ℕ → ℕ) : Vm where
  maps _ := ⟨fun _ => false, fun _ => 0, []⟩
  objects o := ⟨{ objects o with pages := [] }, pageFlags o, []⟩

theorem start_inv (objects : ℕ → Object) (pageFlags : ℕ → ℕ) : (start objects pageFlags).Inv := by
  refine ⟨⟨?_, ?_, ?_, ?_, ?_, ?_, ?_, ?_⟩, fun i v => ⟨?_, fun _ => rfl⟩⟩
  all_goals simp [start, Shown]

/-- In every run whose moves only meet entries in place, the page tables say what the windows
show. -/
theorem agrees_run {vm : Vm} {objects : ℕ → Object} {pageFlags : ℕ → ℕ} {ms : List Move}
    (hms : Steps.Along step InPlace (start objects pageFlags) ms)
    (hrun : Steps.run step (start objects pageFlags) ms = some vm) : vm.Agrees :=
  (Steps.invariant (fun _ _ _ h => h.step) (start_inv objects pageFlags) hms hrun).agrees

/-- Two windows on objects of up to five pages, which are generated. -/
def twoWindows (pages : ℕ) : List Move :=
  [.addObject ⟨0, 0, 0x1000, 0, 1⟩, .addObject ⟨1, 0, 0x2000, 0, 1⟩,
    .generate 0 0 pages [⟨0, 0, 0x200000, 0, pages⟩], .generate 1 0 1 [⟨0, 0, 0x300000, 0, 1⟩],
    .removeObject 0 0]

/-- `start` for objects of five pages. -/
def fivePages : Vm := start (fun _ => ⟨.empty, 5, []⟩) fun _ => pageTableRw

theorem agrees_twoWindows : ∃ vm, Steps.run step fivePages (twoWindows 1) = some vm ∧
    vm.Agrees := by
  have hrun : (Steps.run step fivePages (twoWindows 1)).isSome := by decide
  obtain ⟨vm, hvm⟩ := Option.isSome_iff_exists.mp hrun
  exact ⟨vm, hvm, agrees_run (by decide) hvm⟩

/-- The second page of the object has its place in the window on the other object. -/
theorem not_agrees_twoWindows : ¬ ∀ ms vm, Steps.run step fivePages ms = some vm →
    vm.Agrees := by
  intro h
  have hrun : ∃ vm ∈ Steps.run step fivePages (twoWindows 2),
      (vm.maps 0).windows = [⟨1, 0, 0x2000, 0, 1⟩] ∧ (vm.maps 0).entry 2 = 0 ∧
      (vm.objects 1).object.pages = [⟨0, [⟨0, 0, 0x300000, 0, 1⟩]⟩] := by
    decide
  obtain ⟨vm, hvm, hwindows, hentry, hpages⟩ := hrun
  have hshown : vm.Shown 0 2 (Page.entryAt (vm.objects 1).pageFlags [⟨0, 0, 0x300000, 0, 1⟩] 0) := by
    refine ⟨⟨1, 0, 0x2000, 0, 1⟩, by simp [hwindows], ⟨0, [⟨0, 0, 0x300000, 0, 1⟩]⟩, ?_, ?_⟩
    · simp [hpages]
    · exact ⟨by decide, 0, by decide, by decide, rfl⟩
  have hpresent : (Page.entryAt (vm.objects 1).pageFlags [⟨0, 0, 0x300000, 0, 1⟩] 0).testBit 0 =
    true := entryAt_present (by decide)
  rw [← (h _ vm hvm 0 2).1 _ hshown, hentry] at hpresent
  exact absurd hpresent (by decide)

end Vm

end Cantos
