import Cantos.Vm.Agreement

/-!
# The tables that are there

`logical_tables` has a pointer for each page table of user memory.  `Map::insert` makes the
table of a page before it writes the entry; `Map::clear` writes without looking.  Here every
operation of `Vm/Map.lean` and `Vm/Windows.lean` is written once more so that it stops at an
access to a table that is not there, or to a slot that user memory does not have.

The accesses of `insert` are to tables of the window.  Removing a window clears the places of
all pages of the object, and those outside the window may have no table.

## Main definitions

* `Map.HasTable`: an access goes to a table that is there.
* `Tables.insert`, `Tables.clear`, `Tables.generate`, ...: the operations that stop.
* `Tables.step`: the machine.
* `Tables.Covered`: the moves that only clear what has a table.
-/

namespace Cantos

/-- `PAGE_TABLE_LENGTH - KERNEL_VM_PAGE_TABLES` -/
def userTables : ℕ := 768

namespace Map

/-- `addr >> PAGE_DIR_SHIFT`, as a `uint32_t`. -/
def slot (addr : ℤ) : ℕ := (addr / 2 ^ 22 % 2 ^ 32).toNat

/-- `(addr >> PAGE_TABLE_SHIFT) & PAGE_TABLE_MASK` -/
def pageSlot (addr : ℤ) : ℕ := (addr / 2 ^ 12 % 2 ^ 10).toNat

/-- `tables[slot]` is a pointer of the array, and no null pointer. -/
def HasTable (m : Map) (addr : ℤ) : Prop :=
  slot addr < userTables ∧ m.tables (slot addr) = true

instance (m : Map) : DecidablePred m.HasTable := fun _ => inferInstanceAs (Decidable (_ ∧ _))

end Map

/-! ## The operations -/

namespace Tables

open Map (slot pageSlot)

/-- `tables[dir_slot]->entries[page_slot] = e` -/
def store (addr : ℤ) (e : ℕ) (m : Map) : Option Map :=
  if m.HasTable addr then
    some { m with
      entries := Function.update m.entries (slot addr * pageTableLength + pageSlot addr) e }
  else none

/-- One turn of the loop of `Map::insert`; `pages[dir_slot]` must be a pointer of the array. -/
def enter (addr e : ℕ) (m : Map) : Option Map :=
  if slot addr < userTables then store addr e (m.newTable (addr / pageSize)) else none

/-- The loop of `Map::insert` over the frames of a run. -/
def insertRun (memBase flags min max : ℕ) : (k i addr : ℕ) → Map → Option (Map × Option ℕ)
  | 0, _, addr, m => some (m, some addr)
  | k + 1, i, addr, m =>
      (if addr ≥ min then enter addr (tableEntry memBase i flags) m else some m).bind fun m =>
        if addr + pageSize ≥ max then some (m, none)
        else insertRun memBase flags min max k (i + 1) (addr + pageSize) m

/-- `Map::insert` -/
def insert (flags min max : ℕ) : (page : List Page) → (addr : ℤ) → Map → Option Map
  | [], _, m => some m
  | page :: next, addr, m =>
      if addr ≥ max ∨ addr < 0 then some m
      else
        match insertRun page.memBase flags min max page.consecutive 0 addr.toNat m with
        | none => none
        | some (m, none) => some m
        | some (m, some addr) => insert flags min max next addr m

/-- The loop of `Map::clear`. -/
def clear : (k : ℕ) → (addr : ℤ) → Map → Option Map
  | 0, _, m => some m
  | k + 1, addr, m => (store addr 0 m).bind (clear k (addr + pageSize))

/-- `Map::clear` returns at once: the place is negative, or too large for an `int64_t`. -/
def Skips (oim : ObjectInMap) (addr : ℕ) : Prop := oim.place addr < 0 ∨ 2 ^ 63 ≤ oim.place addr

instance (oim : ObjectInMap) : DecidablePred (Skips oim) := fun _ =>
  inferInstanceAs (Decidable (_ ∨ _))

/-- The loop of `remove_object_in_map` over the pages of the object. -/
def clearPages (oim : ObjectInMap) : List PageEntry → Map → Option Map
  | [], m => some m
  | entry :: next, m =>
      if Skips oim entry.offset then clearPages oim next m
      else (clear (Page.count entry.page) (oim.place entry.offset) m).bind (clearPages oim next)

/-- The loop of `generate` over the windows on the object. -/
def enterAll (page : List Page) (flags addr : ℕ) :
    List ObjectInMap → (ℕ → Map) → Option (ℕ → Map)
  | [], maps => some maps
  | oim :: rest, maps =>
      (insert flags oim.base oim.finish page (oim.place addr) (maps oim.map)).bind fun m =>
        enterAll page flags addr rest (Function.update maps oim.map m)

/-- `Object::generate` -/
def generate (vm : Vm) (o addr count : ℕ) (page : List Page) : Option Vm :=
  let shared := vm.objects o
  if shared.object.room addr count = 0 then some vm
  else
    (enterAll page shared.pageFlags addr shared.windows vm.maps).map fun maps =>
      { maps
        objects := Function.update vm.objects o { shared with
          object := { shared.object with pages := Object.link ⟨addr, page⟩ shared.object.pages } } }

/-- `Map::resolve_fault` -/
def resolveFault (vm : Vm) (m addr : ℕ) (page : List Page) : Option Vm :=
  match vm.window m addr with
  | some oim => generate vm oim.object (oim.objectAddr addr) 1 page
  | none => some vm

/-- The loop of `add_object_in_map` over the pages of the object. -/
def enterPages (oim : ObjectInMap) (flags : ℕ) : List PageEntry → Map → Option Map
  | [], m => some m
  | entry :: next, m =>
      (insert flags oim.base oim.finish entry.page (oim.place entry.offset) m).bind
        (enterPages oim flags next)

/-- `Map::add_object` -/
def addObject (vm : Vm) (oim : ObjectInMap) : Option Vm :=
  let shared := vm.objects oim.object
  (enterPages oim shared.pageFlags shared.object.pages (vm.maps oim.map)).map fun m =>
    { maps := Function.update vm.maps oim.map { m with windows := oim :: m.windows }
      objects := Function.update vm.objects oim.object
        { shared with windows := oim :: shared.windows } }

/-- `~ObjectInMap` -/
def removeWindow (vm : Vm) (oim : ObjectInMap) : Option Vm :=
  let shared := vm.objects oim.object
  (clearPages oim shared.object.pages (vm.maps oim.map)).map fun m =>
    { maps := Function.update vm.maps oim.map { m with windows := m.windows.erase oim }
      objects := Function.update vm.objects oim.object
        { shared with windows := shared.windows.erase oim } }

def removeWindows : List ObjectInMap → Vm → Option Vm
  | [], vm => some vm
  | oim :: rest, vm => (removeWindow vm oim).bind (removeWindows rest)

/-- `Map::remove_object` -/
def removeObject (vm : Vm) (m o : ℕ) : Option Vm := removeWindows (vm.windowsOn m o) vm

/-- `Map::remove_object_at` -/
def removeObjectAt (vm : Vm) (m o base : ℕ) : Option Vm :=
  match (vm.windowsOn m o).find? fun oim => oim.base = base with
  | some oim => removeWindow vm oim
  | none => some vm

/-- A map without tables and windows. -/
def construct : Map := ⟨fun _ => false, fun _ => 0, []⟩

/-- `~Map`; the next map that is constructed may have the same number. -/
def destroy (vm : Vm) (m : ℕ) : Option Vm :=
  (removeWindows (vm.maps m).windows vm).map fun vm =>
    { vm with maps := Function.update vm.maps m construct }

end Tables

/-! ## Entering -/

section Entering
open Map (slot pageSlot)
variable {m : Map} {a e memBase flags min max k i : ℕ} {chain : List Page}

/-- The slots of user memory. -/
theorem slot_of_lt (ha : a < kernelVmBase) :
    slot a = a / pageSize / pageTableLength ∧ slot a < userTables ∧
      slot a * pageTableLength + pageSlot a = a / pageSize := by
  simp only [slot, pageSlot, kernelVmBase, pageTableLength, userTables, sizes] at *
  omega

theorem enter_eq (ha : a < kernelVmBase) :
    Tables.enter a e m = some (m.write (a / pageSize) e) := by
  obtain ⟨hslot, huser, hpage⟩ := slot_of_lt ha
  have htable : (m.newTable (a / pageSize)).HasTable a :=
    ⟨huser, by rw [hslot]; exact Map.table_newTable⟩
  rw [Tables.enter, if_pos huser, Tables.store, if_pos htable, hpage]
  rfl

theorem insertRun_eq (hmax : max ≤ kernelVmBase) (ha : a < max) :
    Tables.insertRun memBase flags min max k i a m =
      some (Map.insertRun memBase flags min max k i a m) := by
  induction k generalizing i a m with
  | zero => rfl
  | succ k ih =>
    rw [Tables.insertRun, Map.insertRun]
    by_cases hmin : a ≥ min
    · simp only [if_pos hmin, enter_eq (ha.trans_le hmax), Option.bind_some]
      split_ifs with hend
      · rfl
      · exact ih (not_le.mp hend)
    · simp only [if_neg hmin, Option.bind_some]
      split_ifs with hend
      · rfl
      · exact ih (not_le.mp hend)

/-- In a window of user memory `insert` makes the tables that it writes to. -/
theorem insert_eq {addr : ℤ} (hmax : max ≤ kernelVmBase) :
    Tables.insert flags min max chain addr m = some (Map.insert flags min max chain addr m) := by
  induction chain generalizing addr m with
  | nil => rfl
  | cons page next ih =>
    rw [Tables.insert, Map.insert]
    split_ifs with hout
    · rfl
    · have ha : addr.toNat < max := by omega
      rw [insertRun_eq hmax ha]
      rcases Map.insertRun page.memBase flags min max page.consecutive 0 addr.toNat m with
        ⟨m', _ | a'⟩
      · rfl
      · exact ih

theorem write_tables {v s : ℕ} (h : m.tables s = true) : (m.write v e).tables s = true := by
  rw [Map.write, Map.newTable]
  split_ifs
  · exact h
  · by_cases hs : s = v / pageTableLength
    · simp [hs]
    · simpa [hs] using h

theorem table_write {v : ℕ} : (m.write v e).tables (v / pageTableLength) = true :=
  Map.table_newTable

/-- The loop makes a table for every page of the run that is in the window, and goes on behind
the run unless it has left the window. -/
theorem insertRun_tables (memBase flags min max : ℕ) (m : Map) (k i a : ℕ) :
    (∀ s, m.tables s = true →
      (Map.insertRun memBase flags min max k i a m).1.tables s = true) ∧
    (∀ j < k, min ≤ a + j * pageSize → a + j * pageSize < max →
      (Map.insertRun memBase flags min max k i a m).1.tables
        ((a + j * pageSize) / pageSize / pageTableLength) = true) ∧
    match (Map.insertRun memBase flags min max k i a m).2 with
    | some a' => a' = a + k * pageSize
    | none => max ≤ a + k * pageSize := by
  induction k generalizing i a m with
  | zero => exact ⟨fun _ h => h, fun j hj => absurd hj (Nat.not_lt_zero j), by simp [Map.insertRun]⟩
  | succ k ih =>
    rw [Map.insertRun]
    obtain ⟨m₁, hm₁, hmono, hfirst⟩ : ∃ m₁,
        (if a ≥ min then m.write (a / pageSize) (tableEntry memBase i flags) else m) = m₁ ∧
        (∀ s, m.tables s = true → m₁.tables s = true) ∧
        (min ≤ a → m₁.tables (a / pageSize / pageTableLength) = true) := by
      refine ⟨_, rfl, ?_⟩
      split_ifs with hmin
      · exact ⟨fun s h => write_tables h, fun _ => table_write⟩
      · exact ⟨fun s h => h, fun h => absurd h hmin⟩
    simp only [hm₁]
    have hsum : ∀ j, a + pageSize + j * pageSize = a + (j + 1) * pageSize := fun j => by
      simp only [sizes]
      omega
    split_ifs with hend
    · refine ⟨hmono, fun j hj hjmin hjmax => ?_, ?_⟩
      · cases j with
        | zero => simpa using hfirst (by simpa using hjmin)
        | succ j =>
          simp only [sizes] at *
          omega
      · simp only [sizes] at *
        omega
    · obtain ⟨hmono', hreach, hnext⟩ := ih m₁ (i + 1) (a + pageSize)
      refine ⟨fun s h => hmono' s (hmono s h), fun j hj hjmin hjmax => ?_, ?_⟩
      · cases j with
        | zero => exact hmono' _ (by simpa using hfirst (by simpa using hjmin))
        | succ j =>
          have := hreach j (by omega) (by rwa [hsum]) (by rwa [hsum])
          rw [hsum] at this
          exact this
      · rw [hsum] at hnext
        exact hnext

/-- `insert` makes the tables of all pages of the chain that are in the window. -/
theorem insert_tables (flags min max : ℕ) (m : Map) (chain : List Page) (addr : ℤ) :
    (∀ s, m.tables s = true → (Map.insert flags min max chain addr m).tables s = true) ∧
    ∀ a : ℕ, addr = a → ∀ j < Page.count chain, min ≤ a + j * pageSize → a + j * pageSize < max →
      (Map.insert flags min max chain addr m).tables
        ((a + j * pageSize) / pageSize / pageTableLength) = true := by
  induction chain generalizing m addr with
  | nil => exact ⟨fun _ h => h, fun a _ j hj => absurd hj (Nat.not_lt_zero j)⟩
  | cons page next ih =>
    rw [Map.insert]
    split_ifs with hout
    · refine ⟨fun _ h => h, fun a ha j hj hjmin hjmax => ?_⟩
      subst ha
      simp only [sizes] at *
      omega
    · obtain ⟨hmono, hreach, hnext⟩ :=
        insertRun_tables page.memBase flags min max m page.consecutive 0 addr.toNat
      rcases hrun : Map.insertRun page.memBase flags min max page.consecutive 0 addr.toNat m with
        ⟨m', _ | a'⟩
      · rw [hrun] at hmono hreach hnext
        refine ⟨hmono, fun a ha j hj hjmin hjmax => ?_⟩
        subst ha
        rw [Int.toNat_natCast] at hreach hnext
        have hlt : j < page.consecutive := by
          by_contra hge
          have := Nat.mul_le_mul_right pageSize (not_lt.mp hge)
          simp only at hnext
          omega
        exact hreach j hlt hjmin hjmax
      · rw [hrun] at hmono hreach hnext
        obtain ⟨hmono', hreach'⟩ := ih m' a'
        refine ⟨fun s h => hmono' s (hmono s h), fun a ha j hj hjmin hjmax => ?_⟩
        subst ha
        rw [Int.toNat_natCast] at hreach hnext
        simp only at hnext
        by_cases hlt : j < page.consecutive
        · exact hmono' _ (hreach j hlt hjmin hjmax)
        · have hsum : a + j * pageSize = a' + (j - page.consecutive) * pageSize := by
            rw [hnext]
            simp only [sizes]
            omega
          rw [hsum] at hjmin hjmax ⊢
          refine hreach' a' rfl _ ?_ hjmin hjmax
          rw [Page.count] at hj
          omega

end Entering

/-! ## Clearing -/

section Clearing
variable {m m' : Map} {addr : ℤ} {k : ℕ} {oim : ObjectInMap} {pages : List PageEntry}

theorem clear_spec (k : ℕ) (addr : ℤ) (m : Map) : ((Tables.clear k addr m).isSome ↔
      ∀ j < k, m.HasTable (addr + (j * pageSize : ℕ))) ∧
    ∀ m', Tables.clear k addr m = some m' → m'.tables = m.tables ∧ m'.windows = m.windows := by
  induction k generalizing addr m with
  | zero =>
    refine ⟨by simp [Tables.clear], fun m' h => ?_⟩
    obtain rfl := Option.some.inj h
    exact ⟨rfl, rfl⟩
  | succ k ih =>
    rw [Tables.clear, Tables.store]
    have hnext : ∀ j : ℕ,
        addr + pageSize + (j * pageSize : ℕ) = addr + ((j + 1) * pageSize : ℕ) := by
      intro j
      simp only [sizes]
      omega
    by_cases htable : m.HasTable addr
    · rw [if_pos htable, Option.bind_some]
      obtain ⟨hsome, hkeeps⟩ := ih (addr + pageSize) { m with
        entries := Function.update m.entries
          (Map.slot addr * pageTableLength + Map.pageSlot addr) 0 }
      refine ⟨?_, hkeeps⟩
      rw [hsome]
      constructor
      · intro h j hj
        cases j with
        | zero => simpa using htable
        | succ j => exact hnext j ▸ h j (by omega)
      · intro h j hj
        have := h (j + 1) (by omega)
        rw [← hnext] at this
        exact this
    · rw [if_neg htable, Option.bind_none]
      refine ⟨?_, fun _ h => by cases h⟩
      simp only [Option.isSome_none, Bool.false_eq_true, false_iff]
      intro h
      exact htable (by simpa using h 0 (Nat.succ_pos k))

/-- Removal is possible when everything that it clears has a table, and changes none. -/
theorem clearPages_spec : ((Tables.clearPages oim pages m).isSome ↔
      ∀ e ∈ pages, ¬ Tables.Skips oim e.offset → ∀ j < Page.count e.page,
        m.HasTable (oim.place e.offset + (j * pageSize : ℕ))) ∧
    ∀ m', Tables.clearPages oim pages m = some m' →
      m'.tables = m.tables ∧ m'.windows = m.windows := by
  induction pages generalizing m with
  | nil =>
    refine ⟨by simp [Tables.clearPages], fun m' h => ?_⟩
    obtain rfl := Option.some.inj h
    exact ⟨rfl, rfl⟩
  | cons e next ih =>
    rw [Tables.clearPages, List.forall_mem_cons]
    by_cases hskip : Tables.Skips oim e.offset
    · rw [if_pos hskip]
      simpa [hskip] using ih
    · rw [if_neg hskip]
      obtain ⟨hsome, hkeeps⟩ := clear_spec (Page.count e.page) (oim.place e.offset) m
      rcases hclear : Tables.clear (Page.count e.page) (oim.place e.offset) m with _ | m₁
      · rw [hclear] at hsome
        refine ⟨?_, fun _ h => by cases h⟩
        simp only [Option.bind_none, Option.isSome_none, Bool.false_eq_true, false_iff] at hsome ⊢
        exact fun h => hsome (h.1 hskip)
      · obtain ⟨htables, hwindows⟩ := hkeeps m₁ hclear
        have hall := hsome.mp (by rw [hclear]; rfl)
        obtain ⟨hsome', hkeeps'⟩ := ih (m := m₁)
        rw [Option.bind_some]
        refine ⟨?_, fun m' h => ?_⟩
        · rw [hsome']
          simp only [Map.HasTable, htables] at hall ⊢
          exact ⟨fun h => ⟨fun _ => hall, h⟩, fun h => h.2⟩
        · obtain ⟨ht, hw⟩ := hkeeps' m' h
          exact ⟨ht.trans htables, hw.trans hwindows⟩

end Clearing

/-! ## Windows of user memory -/

/-- A window below `KERNEL_VM_BASE`, with any offset. -/
def ObjectInMap.User (oim : ObjectInMap) : Prop :=
  oim.base + oim.pages * pageSize ≤ kernelVmBase ∧ -2 ^ 63 ≤ oim.offset ∧ oim.offset < 2 ^ 63

instance : DecidablePred ObjectInMap.User := fun _ => inferInstanceAs (Decidable (_ ∧ _))

theorem ObjectInMap.User.finish_le {oim : ObjectInMap} (h : oim.User) :
    oim.finish ≤ kernelVmBase := by
  obtain ⟨h, -⟩ := h
  simp only [finish, add32, mul32, kernelVmBase, sizes] at *
  omega

namespace Tables

section Windows
variable {vm vm' : Vm} {oim w : ObjectInMap} {page : List Page} {pages : List PageEntry}
  {flags addr count o i m : ℕ} {windows : List ObjectInMap} {maps : ℕ → Map} {t : Map}

theorem enterPages_eq (h : oim.User) :
    enterPages oim flags pages t = some (Vm.enterPages oim flags pages t) := by
  induction pages generalizing t with
  | nil => rfl
  | cons e next ih => rw [enterPages, insert_eq h.finish_le, Option.bind_some, ih, Vm.enterPages]

theorem enterAll_eq (h : ∀ w ∈ windows, w.User) :
    enterAll page flags addr windows maps = some (Vm.enterAll page flags addr windows maps) := by
  induction windows generalizing maps with
  | nil => rfl
  | cons w rest ih =>
    rw [List.forall_mem_cons] at h
    rw [enterAll, insert_eq h.1.finish_le, Option.bind_some, ih h.2, Vm.enterAll]

theorem addObject_eq (h : oim.User) : addObject vm oim = some (vm.addObject oim) := by
  rw [addObject]
  simp only [enterPages_eq h, Option.map_some]
  rfl

theorem generate_eq (h : ∀ w ∈ (vm.objects o).windows, w.User) :
    generate vm o addr count page = some (vm.generate o addr count page) := by
  rw [generate, Vm.generate]
  simp only [enterAll_eq h, Option.map_some]
  split_ifs <;> rfl

/-- A place in the window is an address of user memory. -/
theorem place_eq {addr j : ℕ} (hskip : ¬ Skips oim addr) :
    ∃ a : ℕ, oim.place addr = a ∧ ((oim.base ≤ oim.place addr + (j * pageSize : ℕ) ∧
      oim.place addr + (j * pageSize : ℕ) < oim.finish) ↔
        oim.base ≤ a + j * pageSize ∧ a + j * pageSize < oim.finish) := by
  have hpos : 0 ≤ oim.place addr := Int.not_lt.mp fun hlt => hskip (.inl hlt)
  obtain ⟨a, ha⟩ := Int.eq_ofNat_of_zero_le hpos
  refine ⟨a, ha, ?_⟩
  rw [ha]
  norm_cast

end Windows

/-! ## What the tables cover -/

/-- The page of an object with its place at `a` is in the window. -/
def Inside (w : ObjectInMap) (a : ℤ) : Prop := w.base ≤ a ∧ a < w.finish

instance (w : ObjectInMap) : DecidablePred (Inside w) := fun _ =>
  inferInstanceAs (Decidable (_ ∧ _))

/-- Every page of the object that `P` says and that the removal of the window clears has a table. -/
def Backed (vm : Vm) (P : ObjectInMap → ℤ → Prop) (w : ObjectInMap) : Prop :=
  ∀ e ∈ (vm.objects w.object).object.pages, ¬ Skips w e.offset → ∀ j < Page.count e.page,
    P w (w.place e.offset + (j * pageSize : ℕ)) →
      (vm.maps w.map).HasTable (w.place e.offset + (j * pageSize : ℕ))

instance (vm : Vm) (P : ObjectInMap → ℤ → Prop) [∀ w, DecidablePred (P w)] :
    DecidablePred (Backed vm P) := fun _ => List.decidableBAll ..

/-- Every page of the object outside the window that its removal clears has a table. -/
def CoversOutside (vm : Vm) (w : ObjectInMap) : Prop := Backed vm (fun w a => ¬ Inside w a) w

instance (vm : Vm) : DecidablePred (CoversOutside vm) := fun w =>
  inferInstanceAs (Decidable (Backed vm (fun w a => ¬ Inside w a) w))

/-- Maps and objects know the same windows, and the pages in the windows have tables. -/
structure Inv (vm : Vm) : Prop where
  inMap : ∀ i, ∀ w ∈ (vm.maps i).windows, w.map = i
  onObject : ∀ o, ∀ w ∈ (vm.objects o).windows, w.object = o
  same : ∀ w, (vm.maps w.map).windows.count w = (vm.objects w.object).windows.count w
  user : ∀ i, ∀ w ∈ (vm.maps i).windows, w.User
  inside : ∀ i, ∀ w ∈ (vm.maps i).windows, Backed vm Inside w

section Covering
variable {vm vm' : Vm} {oim w : ObjectInMap} {page : List Page} {pages : List PageEntry}
  {flags addr count o i m : ℕ} {windows ws : List ObjectInMap} {maps : ℕ → Map} {t t' : Map}
  {P : ObjectInMap → ℤ → Prop}

theorem Inv.mem_iff (h : Inv vm) :
    w ∈ (vm.maps w.map).windows ↔ w ∈ (vm.objects w.object).windows := by
  rw [← List.count_pos_iff, ← List.count_pos_iff, h.same]

/-- The windows on an object are in user memory. -/
theorem Inv.user_onObject (h : Inv vm) (hw : w ∈ (vm.objects o).windows) : w.User := by
  rw [← h.onObject o w hw, ← h.mem_iff] at hw
  exact h.user _ w hw

/-- More tables, and fewer pages. -/
theorem Backed.mono (h : Backed vm P w)
    (hpages : ∀ e ∈ (vm'.objects w.object).object.pages, e ∈ (vm.objects w.object).object.pages)
    (htables : ∀ s, (vm.maps w.map).tables s = true → (vm'.maps w.map).tables s = true) :
    Backed vm' P w := fun e he hskip j hj hP =>
  ⟨(h e (hpages e he) hskip j hj hP).1, htables _ (h e (hpages e he) hskip j hj hP).2⟩

theorem hasTable_of_lt {a : ℕ} (ha : a < kernelVmBase)
    (h : t.tables (a / pageSize / pageTableLength) = true) : t.HasTable a := by
  obtain ⟨hslot, huser, -⟩ := slot_of_lt ha
  exact ⟨huser, by rw [hslot]; exact h⟩

/-- The pages of an entry that is entered in a window have tables, and keep them. -/
theorem hasTable_insert (h : w.User) {e : PageEntry} (hskip : ¬ Skips w e.offset)
    (hmono : ∀ s, (t.insert flags w.base w.finish e.page (w.place e.offset)).tables s = true →
      t'.tables s = true) {j : ℕ} (hj : j < Page.count e.page)
    (hin : Inside w (w.place e.offset + (j * pageSize : ℕ))) :
    t'.HasTable (w.place e.offset + (j * pageSize : ℕ)) := by
  obtain ⟨a, ha, hiff⟩ := place_eq (j := j) hskip
  obtain ⟨hmin, hmax⟩ := hiff.mp hin
  have hreach :=
    (insert_tables flags w.base w.finish t e.page (w.place e.offset)).2 a ha j hj hmin hmax
  have hcast : w.place e.offset + (j * pageSize : ℕ) = ((a + j * pageSize : ℕ) : ℤ) := by
    rw [ha]
    norm_cast
  rw [hcast]
  exact hasTable_of_lt (hmax.trans_le h.finish_le) (hmono _ hreach)

theorem enterPages_tables (oim : ObjectInMap) (flags : ℕ) (pages : List PageEntry) (t : Map) :
    (∀ s, t.tables s = true → (Vm.enterPages oim flags pages t).tables s = true) ∧
    ∀ e ∈ pages, ∃ t' : Map, ∀ s,
      (t'.insert flags oim.base oim.finish e.page (oim.place e.offset)).tables s = true →
        (Vm.enterPages oim flags pages t).tables s = true := by
  induction pages generalizing t with
  | nil => exact ⟨fun _ h => h, by simp⟩
  | cons e next ih =>
    rw [Vm.enterPages]
    obtain ⟨hmono, hrest⟩ := ih (t.insert flags oim.base oim.finish e.page (oim.place e.offset))
    refine ⟨fun s h => hmono s ((insert_tables ..).1 s h), fun d hd => ?_⟩
    rcases List.mem_cons.mp hd with rfl | hd
    · exact ⟨t, hmono⟩
    · exact hrest d hd

theorem enterAll_tables (page : List Page) (flags addr : ℕ) (windows : List ObjectInMap)
    (maps : ℕ → Map) :
    (∀ i s, (maps i).tables s = true →
      (Vm.enterAll page flags addr windows maps i).tables s = true) ∧
    ∀ w ∈ windows, ∃ t' : Map, ∀ s,
      (t'.insert flags w.base w.finish page (w.place addr)).tables s = true →
        (Vm.enterAll page flags addr windows maps w.map).tables s = true := by
  induction windows generalizing maps with
  | nil => exact ⟨fun _ _ h => h, by simp⟩
  | cons w rest ih =>
    rw [Vm.enterAll]
    obtain ⟨hmono, hrest⟩ := ih (Function.update maps w.map
      ((maps w.map).insert flags w.base w.finish page (w.place addr)))
    refine ⟨fun i s h => hmono i s ?_, fun d hd => ?_⟩
    · by_cases hi : i = w.map
      · subst hi
        rw [Function.update_self]
        exact (insert_tables ..).1 s h
      · rwa [Function.update_of_ne hi]
    · rcases List.mem_cons.mp hd with rfl | hd
      · refine ⟨maps d.map, fun s h => hmono _ s ?_⟩
        rwa [Function.update_self]
      · exact hrest d hd

/-! ### The operations keep it -/

theorem Inv.addObject (h : Inv vm) (hoim : oim.User) : Inv (vm.addObject oim) where
  inMap i w hw := by
    rcases Vm.mem_addObject.mp hw with ⟨rfl, rfl⟩ | hw
    · rfl
    · exact h.inMap i w hw
  onObject o w hw := by
    rw [Vm.addObject_onObject] at hw
    split_ifs at hw with ho
    · rcases List.mem_cons.mp hw with rfl | hw
      · exact ho.symm
      · exact h.onObject o w hw
    · exact h.onObject o w hw
  same w := by
    rw [Vm.addObject_windows, Vm.addObject_onObject]
    have hsame := h.same w
    by_cases hw : w = oim
    · subst hw
      simp [hsame]
    · split_ifs <;> simp [List.count_cons_of_ne (Ne.symm hw), hsame]
  user i w hw := by
    rcases Vm.mem_addObject.mp hw with ⟨-, rfl⟩ | hw
    · exact hoim
    · exact h.user i w hw
  inside i w hw := by
    rcases Vm.mem_addObject.mp hw with ⟨rfl, rfl⟩ | hw
    · intro e he hskip j hj hin
      rw [Vm.addObject_object] at he
      obtain ⟨t', ht'⟩ := (enterPages_tables w (vm.objects w.object).pageFlags
        (vm.objects w.object).object.pages (vm.maps w.map)).2 e he
      have hmono : ∀ s, (t'.insert (vm.objects w.object).pageFlags w.base w.finish e.page
          (w.place e.offset)).tables s = true → ((vm.addObject w).maps w.map).tables s = true :=
        fun s hs => by simpa [Vm.addObject] using ht' s hs
      exact hasTable_insert hoim hskip hmono hj hin
    · refine (h.inside i w hw).mono (fun e he => by rwa [Vm.addObject_object] at he) fun s hs => ?_
      by_cases hi : w.map = oim.map
      · rw [hi] at hs
        have hmono := (enterPages_tables oim (vm.objects oim.object).pageFlags
          (vm.objects oim.object).object.pages (vm.maps oim.map)).1 s hs
        simpa [Vm.addObject, hi] using hmono
      · simpa [Vm.addObject, hi] using hs

theorem Inv.generate (h : Inv vm) : Inv (vm.generate o addr count page) := by
  by_cases hroom : (vm.objects o).object.room addr count = 0
  · rw [Vm.generate, if_pos hroom]
    exact h
  have htables : (vm.generate o addr count page).maps = Vm.enterAll page
      (vm.objects o).pageFlags addr (vm.objects o).windows vm.maps := by
    rw [Vm.generate, if_neg hroom]
  obtain ⟨hmono, hnew⟩ := enterAll_tables page (vm.objects o).pageFlags addr
    (vm.objects o).windows vm.maps
  rw [← htables] at hmono hnew
  refine ⟨fun i w hw => ?_, fun o' w hw => ?_, fun w => ?_, fun i w hw => ?_, fun i w hw => ?_⟩
  · exact h.inMap i w (Vm.generate_windows ▸ hw)
  · exact h.onObject o' w ((Vm.generate_objects hroom).1 ▸ hw)
  · rw [Vm.generate_windows, (Vm.generate_objects hroom).1]
    exact h.same w
  · exact h.user i w (Vm.generate_windows ▸ hw)
  · rw [Vm.generate_windows] at hw
    intro e he hskip j hj hin
    rcases (Vm.mem_generate hroom).mp he with ⟨ho, rfl⟩ | he
    · have hon : w ∈ (vm.objects o).windows := by
        rw [← ho, ← h.mem_iff, h.inMap i w hw]
        exact hw
      obtain ⟨t', ht'⟩ := hnew w hon
      exact hasTable_insert (h.user i w hw) hskip ht' hj hin
    · obtain ⟨hslot, htable⟩ := h.inside i w hw e he hskip j hj hin
      exact ⟨hslot, hmono w.map _ htable⟩

theorem Inv.resolveFault (h : Inv vm) : Inv (vm.resolveFault m addr page).1 := by
  rw [Vm.resolveFault]
  split
  · exact h.generate
  · exact h

/-- What a window leaves behind when it goes. -/
structure Gone (vm : Vm) (oim : ObjectInMap) (vm' : Vm) : Prop where
  windows : ∀ i, (vm'.maps i).windows =
    if i = oim.map then (vm.maps i).windows.erase oim else (vm.maps i).windows
  onObject : ∀ o, (vm'.objects o).windows =
    if o = oim.object then (vm.objects o).windows.erase oim else (vm.objects o).windows
  object : ∀ o, (vm'.objects o).object = (vm.objects o).object
  tables : ∀ i, (vm'.maps i).tables = (vm.maps i).tables

theorem removeWindow_gone (hvm' : removeWindow vm oim = some vm') : Gone vm oim vm' := by
  rw [removeWindow, Option.map_eq_some_iff] at hvm'
  obtain ⟨m, hm, rfl⟩ := hvm'
  obtain ⟨htables, hwindows⟩ := clearPages_spec.2 m hm
  refine ⟨fun i => ?_, fun o => ?_, fun o => ?_, fun i => ?_⟩
  · exact proj_update Map.windows (List.erase · oim) (congrArg (List.erase · oim) hwindows)
  · exact proj_update SharedObject.windows (List.erase · oim) rfl
  · exact proj_update_same SharedObject.object rfl
  · exact proj_update_same Map.tables htables

/-- What removal meets does not change when another window goes. -/
theorem Gone.backed (h : Gone vm oim vm') : Backed vm' P w ↔ Backed vm P w := by
  simp only [Backed, Map.HasTable, h.object, h.tables]

theorem Gone.mem (h : Gone vm oim vm') (hw : w ∈ (vm'.maps i).windows) :
    w ∈ (vm.maps i).windows := by
  rw [h.windows] at hw
  split_ifs at hw
  · exact List.mem_of_mem_erase hw
  · exact hw

theorem Inv.gone (h : Inv vm) (hgone : Gone vm oim vm') : Inv vm' where
  inMap i w hw := h.inMap i w (hgone.mem hw)
  onObject o w hw := by
    rw [hgone.onObject] at hw
    split_ifs at hw
    · exact h.onObject o w (List.mem_of_mem_erase hw)
    · exact h.onObject o w hw
  same w := by
    rw [hgone.windows, hgone.onObject]
    have hsame := h.same w
    by_cases hw : w = oim
    · subst hw
      simp [hsame]
    · split_ifs <;> simp [hw, hsame]
  user i w hw := h.user i w (hgone.mem hw)
  inside i w hw := hgone.backed.mpr (h.inside i w (hgone.mem hw))

/-- A window can go when the pages outside it have tables too. -/
theorem removeWindow_isSome (h : Inv vm) (hw : oim ∈ (vm.maps i).windows) :
    (removeWindow vm oim).isSome ↔ CoversOutside vm oim := by
  rw [removeWindow, Option.isSome_map, clearPages_spec.1]
  constructor
  · intro hall e he hskip j hj _
    exact hall e he hskip j hj
  · intro hout e he hskip j hj
    by_cases hin : Inside oim (oim.place e.offset + (j * pageSize : ℕ))
    · exact h.inside i oim hw e he hskip j hj hin
    · exact hout e he hskip j hj hin

theorem diff_self (ws : List ObjectInMap) : ws.diff ws = [] := by
  induction ws with
  | nil => rfl
  | cons w rest ih => rw [List.diff_cons, List.erase_cons_head, ih]

/-- Windows of a map go when each of them can. -/
theorem removeWindows_spec (h : Inv vm) (hws : ws.Subperm (vm.maps m).windows) :
    ((removeWindows ws vm).isSome ↔ ∀ w ∈ ws, CoversOutside vm w) ∧
      ∀ vm', removeWindows ws vm = some vm' → Inv vm' ∧
        (vm'.maps m).windows = (vm.maps m).windows.diff ws := by
  induction ws generalizing vm with
  | nil =>
    refine ⟨by simp [removeWindows], fun vm' hvm' => ?_⟩
    obtain rfl := Option.some.inj hvm'
    exact ⟨h, rfl⟩
  | cons oim rest ih =>
    have hmem : oim ∈ (vm.maps m).windows := hws.subset (List.mem_cons_self ..)
    have hmap := h.inMap m oim hmem
    rw [removeWindows, List.forall_mem_cons, ← removeWindow_isSome h hmem]
    rcases hgo : removeWindow vm oim with _ | t
    · simp
    · have hgone := removeWindow_gone hgo
      have hrest : rest.Subperm (t.maps m).windows := by
        rw [hgone.windows, if_pos hmap.symm]
        have := hws.erase oim
        rwa [List.erase_cons_head] at this
      obtain ⟨hsome, hend⟩ := ih (h.gone hgone) hrest
      rw [Option.bind_some]
      refine ⟨?_, fun vm' hvm' => ?_⟩
      · rw [hsome]
        simp [CoversOutside, hgone.backed]
      · obtain ⟨hinv, hwindows⟩ := hend vm' hvm'
        refine ⟨hinv, ?_⟩
        rw [hwindows, hgone.windows, if_pos hmap.symm, List.diff_cons]

/-- A map without windows can be constructed anew. -/
theorem Inv.construct (h : Inv vm) (hnone : (vm.maps i).windows = []) :
    Inv { vm with maps := Function.update vm.maps i Tables.construct } where
  inMap j w hw := by
    by_cases hj : j = i
    · subst hj
      simp [Tables.construct] at hw
    · exact h.inMap j w (by simpa [hj] using hw)
  onObject o w hw := h.onObject o w hw
  same w := by
    by_cases hj : w.map = i
    · rw [← h.same, hj, hnone]
      simp [Tables.construct]
    · simpa [hj] using h.same w
  user j w hw := by
    by_cases hj : j = i
    · subst hj
      simp [Tables.construct] at hw
    · exact h.user j w (by simpa [hj] using hw)
  inside j w hw := by
    by_cases hj : j = i
    · subst hj
      simp [Tables.construct] at hw
    · have hw : w ∈ (vm.maps j).windows := by simpa [hj] using hw
      have hmap := h.inMap j w hw
      refine (h.inside j w hw).mono (fun e he => he) fun s hs => ?_
      simpa [hmap.trans_ne hj] using hs

end Covering

/-! ## Runs -/

/-- What may be mapped: a window of user memory. -/
abbrev UserWindow := { oim : ObjectInMap // oim.User }

inductive Move
  | addObject (oim : UserWindow)
  | removeObject (m o : ℕ)
  | removeObjectAt (m o base : ℕ)
  | generate (o addr count : ℕ) (page : List Page)
  | resolveFault (m addr : ℕ) (page : List Page)
  | destroy (m : ℕ)

/-- There is no next state when a table that is not there would be accessed. -/
def step (vm : Vm) : Move → Option Vm
  | .addObject oim => addObject vm oim
  | .removeObject m o => removeObject vm m o
  | .removeObjectAt m o base => removeObjectAt vm m o base
  | .generate o addr count page => generate vm o addr count page
  | .resolveFault m addr page => resolveFault vm m addr page
  | .destroy m => destroy vm m

/-- The windows that a move removes. -/
def goes (vm : Vm) : Move → List ObjectInMap
  | .removeObject m o => vm.windowsOn m o
  | .removeObjectAt m o base => ((vm.windowsOn m o).find? fun oim => oim.base = base).toList
  | .destroy m => (vm.maps m).windows
  | _ => []

/-- What the windows that go have outside has tables. -/
def Covered (vm : Vm) (move : Move) : Prop := ∀ w ∈ goes vm move, CoversOutside vm w

instance (vm : Vm) : DecidablePred (Covered vm) := fun _ => List.decidableBAll ..

/-- A move is possible when what goes is covered. -/
theorem step_spec {vm : Vm} (h : Inv vm) (move : Move) :
    ((step vm move).isSome ↔ Covered vm move) ∧ ∀ vm', step vm move = some vm' → Inv vm' := by
  cases move with
  | addObject oim =>
    rw [step, addObject_eq oim.2]
    refine ⟨by simp [Covered, goes], fun vm' hvm' => ?_⟩
    obtain rfl := Option.some.inj hvm'
    exact h.addObject oim.2
  | removeObject m o =>
    obtain ⟨hsome, hinv⟩ := removeWindows_spec h Vm.windowsOn_subperm
    exact ⟨hsome, fun vm' hvm' => (hinv vm' hvm').1⟩
  | removeObjectAt m o base =>
    rw [step, removeObjectAt, Covered, goes]
    rcases hfind : (vm.windowsOn m o).find? fun oim => oim.base = base with _ | oim
    · simp only [hfind]
      refine ⟨by simp, fun vm' hvm' => ?_⟩
      obtain rfl := Option.some.inj hvm'
      exact h
    · have hmem : oim ∈ (vm.maps m).windows :=
        Vm.windowsOn_subperm.subset (List.mem_of_find?_eq_some hfind)
      simp only [hfind]
      refine ⟨?_, fun vm' hvm' => h.gone (removeWindow_gone hvm')⟩
      simpa using removeWindow_isSome h hmem
  | generate o addr count page =>
    rw [step, generate_eq fun w hw => h.user_onObject hw]
    refine ⟨by simp [Covered, goes], fun vm' hvm' => ?_⟩
    obtain rfl := Option.some.inj hvm'
    exact h.generate
  | resolveFault m addr page =>
    rw [step, resolveFault]
    rcases vm.window m addr with _ | oim
    · refine ⟨by simp [Covered, goes], fun vm' hvm' => ?_⟩
      obtain rfl := Option.some.inj hvm'
      exact h
    · simp only
      rw [generate_eq fun w hw => h.user_onObject hw]
      refine ⟨by simp [Covered, goes], fun vm' hvm' => ?_⟩
      obtain rfl := Option.some.inj hvm'
      exact h.generate
  | destroy m =>
    obtain ⟨hsome, hinv⟩ := removeWindows_spec h (List.Subperm.refl (vm.maps m).windows)
    rw [step, destroy, Option.isSome_map]
    refine ⟨hsome, fun vm' hvm' => ?_⟩
    obtain ⟨t, ht, rfl⟩ := Option.map_eq_some_iff.mp hvm'
    obtain ⟨hinv, hwindows⟩ := hinv t ht
    exact hinv.construct (hwindows.trans (diff_self _))

theorem start_inv (objects : ℕ → Object) (pageFlags : ℕ → ℕ) :
    Inv (Vm.start objects pageFlags) := by
  refine ⟨?_, ?_, ?_, ?_, ?_⟩
  all_goals simp [Vm.start]

/-- Only tables that are there are accessed, in the runs in which every window that goes is
covered and in no others. -/
theorem run_isSome_iff {objects : ℕ → Object} {pageFlags : ℕ → ℕ} {ms : List Move} :
    (Steps.run step (Vm.start objects pageFlags) ms).isSome ↔
      Steps.Along step Covered (Vm.start objects pageFlags) ms :=
  Steps.isSome_run_iff (fun _ move h => step_spec h move) (start_inv objects pageFlags)

/-- A page of the object in the next table, and a window that ends in front of it. -/
def pageBehind : List Move :=
  [.generate 0 0x400000 1 [⟨0, 0, 0x200000, 0, 1⟩],
    .addObject ⟨⟨0, 0, 0x1000, 0, 1⟩, by decide⟩, .removeObject 0 0]

theorem not_isSome_pageBehind : ¬ ∀ (objects : ℕ → Object) (pageFlags : ℕ → ℕ) (ms : List Move),
    (Steps.run step (Vm.start objects pageFlags) ms).isSome := by
  intro h
  have hrun := h (fun _ => ⟨.empty, 2000, []⟩) (fun _ => pageTableRw) pageBehind
  revert hrun
  decide

end Tables

end Cantos
