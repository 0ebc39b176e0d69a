import Cantos.Vm.Tables
import Mathlib.Algebra.BigOperators.Group.List.Basic
import Mathlib.Algebra.Order.Group.Multiset
import Mathlib.Data.Multiset.Lattice
import Mathlib.Order.Lattice.Nat
import Mathlib.Order.Nat

/-!
# What a map owns

A map has a directory, and three arrays say which tables it has made: the directory itself,
`tables` with the addresses of the tables and `pages` with their frames.  They are written
together when a table is made, and read together when the map is destroyed.

The objects are shared, so what an object holds at a call is an input of the call here.

## Main definitions

* `Pager`: what `page::alloc` and `page::kinstall` promise for a single page.
* `LogicalMap`: a map with its directory, and what is in use in the whole system.
* `LogicalMap.Owns`: the arrays and the directory say the same.
* `LogicalMap.destroy`: what is in use when the map is gone.
* `LogicalMap.Covered`: windows are in user memory, and only what has a table is cleared.

## Main results

* `LogicalMap.clearPages_toMap`: the directory is cleared as in `Tables.clearPages`.
-/

namespace Cantos

/-! ## Single pages -/

/-- The frames in use, and the pages of kernel memory with the frames installed there. -/
structure InUse where
  frames : Multiset ℕ
  installed : Multiset (ℕ × ℕ)
  deriving DecidableEq

namespace InUse

def alloc (frame : ℕ) (u : InUse) : InUse := { u with frames := frame ::ₘ u.frames }

def kinstall (k : ℕ × ℕ) (u : InUse) : InUse := { u with installed := k ::ₘ u.installed }

/-- `page::free` of a frame that is in use. -/
def free (frame : ℕ) (u : InUse) : Option InUse :=
  if frame ∈ u.frames then some { u with frames := u.frames.erase frame } else none

/-- `page::kuninstall` of a frame from the address it is installed at. -/
def kuninstall (k : ℕ × ℕ) (u : InUse) : Option InUse :=
  if k ∈ u.installed then some { u with installed := u.installed.erase k } else none

end InUse

/-- `page::alloc` and `page::kinstall`.  What they return may depend on what is in use and on
the number of the call. -/
structure Pager where
  alloc : ℕ → InUse → ℕ
  kinstall : ℕ → InUse → ℕ
  alloc_fresh : ∀ n u, alloc n u ∉ u.frames
  alloc_aligned : ∀ n u, alloc n u % pageSize = 0
  kinstall_fresh : ∀ n u, ∀ k ∈ u.installed, k.1 ≠ kinstall n u
  kinstall_ne : ∀ n u, kinstall n u ≠ 0

/-- Take what is behind everything in use. -/
def Pager.behind : Pager where
  alloc _ u := (u.frames.sup / pageSize + 1) * pageSize
  kinstall _ u := ((u.installed.map Prod.fst).sup / pageSize + 1) * pageSize
  alloc_fresh _ u h := by
    have := Multiset.le_sup h
    simp only [sizes] at this
    omega
  alloc_aligned _ u := by simp [sizes]
  kinstall_fresh _ u k hk h := by
    have := Multiset.le_sup (Multiset.mem_map_of_mem Prod.fst hk)
    simp only [sizes] at this h
    omega
  kinstall_ne _ u := by simp [sizes]

/-! ## The map -/

/-- `vm::Map`, and what is in use in the whole system. -/
structure LogicalMap where
  physicalDir : ℕ
  logicalDir : ℕ
  /-- `logical_dir->entries` -/
  dir : ℕ → ℕ
  tables : ℕ → Option ℕ
  pages : ℕ → Option ℕ
  entries : ℕ → ℕ
  /-- `objects_in_maps` -/
  windows : List ObjectInMap
  inUse : InUse
  /-- How many pages have been asked for. -/
  calls : ℕ

namespace LogicalMap

open Map (slot pageSlot)

/-- `Map::Map`; `kernelDir` is `page_dir`. -/
def construct (A : Pager) (kernelDir : ℕ → ℕ) (u : InUse) : LogicalMap :=
  let physicalDir := A.alloc 0 u
  let u := u.alloc physicalDir
  let logicalDir := A.kinstall 1 u
  { physicalDir
    logicalDir
    dir i := if i < userTables then 0 else kernelDir i
    tables _ := none
    pages _ := none
    entries _ := 0
    windows := []
    inUse := u.kinstall (logicalDir, physicalDir)
    calls := 2 }

/-- `_new_table` -/
def newTable (A : Pager) (addr flags : ℕ) (m : LogicalMap) : LogicalMap :=
  if (m.tables (slot addr)).isSome then m
  else
    let page := A.alloc m.calls m.inUse
    let u := m.inUse.alloc page
    let table := A.kinstall (m.calls + 1) u
    { m with
      inUse := u.kinstall (table, page)
      calls := m.calls + 2
      entries := fun v => if v / pageTableLength = slot addr then 0 else m.entries v
      pages := Function.update m.pages (slot addr) (some page)
      tables := Function.update m.tables (slot addr) (some table)
      dir := Function.update m.dir (slot addr) (page ||| pageTablePresent ||| flags) }

/-- `tables[slot]` is a pointer of the array, and no null pointer. -/
def HasTable (m : LogicalMap) (addr : ℤ) : Prop :=
  slot addr < userTables ∧ (m.tables (slot addr)).isSome

instance (m : LogicalMap) : DecidablePred m.HasTable := fun _ =>
  inferInstanceAs (Decidable (_ ∧ _))

/-- `tables[dir_slot]->entries[page_slot] = e` -/
def store (addr : ℤ) (e : ℕ) (m : LogicalMap) : Option LogicalMap :=
  if m.HasTable addr then
    some { m with
      entries := Function.update m.entries (slot addr * pageTableLength + pageSlot addr) e }
  else none

/-- One turn of the loop of `Map::insert`. -/
def enter (A : Pager) (addr e flags : ℕ) (m : LogicalMap) : Option LogicalMap :=
  if slot addr < userTables then
    store addr e (if (m.pages (slot addr)).isSome then m else m.newTable A addr flags)
  else none

/-- The loop of `Map::insert` over the frames of a run. -/
def insertRun (A : Pager) (memBase flags min max : ℕ) :
    (k i addr : ℕ) → LogicalMap → Option (LogicalMap × Option ℕ)
  | 0, _, addr, m => some (m, some addr)
  | k + 1, i, addr, m =>
      (if addr ≥ min then enter A addr (tableEntry memBase i flags) flags m else some m).bind
        fun m =>
          if addr + pageSize ≥ max then some (m, none)
          else insertRun A memBase flags min max k (i + 1) (addr + pageSize) m

/-- `Map::insert` -/
def insert (A : Pager) (flags min max : ℕ) :
    (page : List Page) → (addr : ℤ) → LogicalMap → Option LogicalMap
  | [], _, m => some m
  | page :: next, addr, m =>
      if addr ≥ max ∨ addr < 0 then some m
      else
        match insertRun A page.memBase flags min max page.consecutive 0 addr.toNat m with
        | none => none
        | some (m, none) => some m
        | some (m, some addr) => insert A flags min max next addr m

/-- The loop of `Map::clear`. -/
def clearRun : (k : ℕ) → (addr : ℤ) → LogicalMap → Option LogicalMap
  | 0, _, m => some m
  | k + 1, addr, m => (store addr 0 m).bind (clearRun k (addr + pageSize))

/-- `Map::clear` -/
def clear (pages : ℕ) (addr : ℤ) (m : LogicalMap) : Option LogicalMap :=
  if addr < 0 then some m else clearRun pages addr m

/-- The loop of `add_object_in_map`; `entries` is what the object holds. -/
def enterPages (A : Pager) (oim : ObjectInMap) (flags : ℕ) :
    List PageEntry → LogicalMap → Option LogicalMap
  | [], m => some m
  | entry :: next, m =>
      (insert A flags oim.base oim.finish entry.page (oim.place entry.offset) m).bind
        (enterPages A oim flags next)

/-- `Map::add_object` -/
def addObject (A : Pager) (oim : ObjectInMap) (flags : ℕ) (entries : List PageEntry)
    (m : LogicalMap) : Option LogicalMap :=
  (enterPages A oim flags entries m).map fun m => { m with windows := oim :: m.windows }

/-- The loop of `remove_object_in_map`. -/
def clearPages (oim : ObjectInMap) : List PageEntry → LogicalMap → Option LogicalMap
  | [], m => some m
  | entry :: next, m =>
      if Tables.Skips oim entry.offset then clearPages oim next m
      else
        (clearRun (Page.count entry.page) (oim.place entry.offset) m).bind (clearPages oim next)

/-- `~ObjectInMap` of one window after the other; `entries o` is what object `o` holds. -/
def removeWindows (entries : ℕ → List PageEntry) :
    List ObjectInMap → LogicalMap → Option LogicalMap
  | [], m => some m
  | oim :: rest, m =>
      (clearPages oim (entries oim.object) m).bind fun m =>
        removeWindows entries rest { m with windows := m.windows.erase oim }

/-- The windows on an object. -/
def windowsOn (m : LogicalMap) (o : ℕ) : List ObjectInMap :=
  m.windows.filter fun oim => oim.object = o

/-- `Map::remove_object` -/
def removeObject (o : ℕ) (entries : List PageEntry) (m : LogicalMap) : Option LogicalMap :=
  removeWindows (fun _ => entries) (m.windowsOn o) m

/-- The window that `Map::remove_object_at` removes. -/
def windowAt (m : LogicalMap) (o base : ℕ) : List ObjectInMap :=
  ((m.windowsOn o).find? fun oim => oim.base = base).toList

/-- `Map::remove_object_at` -/
def removeObjectAt (o base : ℕ) (entries : List PageEntry) (m : LogicalMap) :
    Option LogicalMap :=
  removeWindows (fun _ => entries) (m.windowAt o base) m

/-- The loop of `Object::generate`, over the windows of this map. -/
def enterAll (A : Pager) (page : List Page) (flags addr : ℕ) :
    List ObjectInMap → LogicalMap → Option LogicalMap
  | [], m => some m
  | oim :: rest, m =>
      (insert A flags oim.base oim.finish page (oim.place addr) m).bind
        (enterAll A page flags addr rest)

/-- What `Object::generate` does to this map; no `page` is there when it returns early. -/
def generate (A : Pager) (o addr flags : ℕ) (page : Option (List Page)) (m : LogicalMap) :
    Option LogicalMap :=
  match page with
  | some page => enterAll A page flags addr (m.windowsOn o) m
  | none => some m

/-- `Map::resolve_fault` -/
def resolveFault (A : Pager) (addr flags : ℕ) (page : Option (List Page)) (m : LogicalMap) :
    Option LogicalMap :=
  match m.windows.find? fun oim => oim.base ≤ addr ∧ addr < oim.finish with
  | some oim => generate A oim.object (oim.objectAddr addr) flags page m
  | none => some m

/-- The slots of user memory. -/
def userSlots : List ℕ := List.range userTables

/-- The loop of `~Map` over the slots. -/
def freeTables (m : LogicalMap) : List ℕ → InUse → Option InUse
  | [], u => some u
  | slot :: rest, u =>
      match m.pages slot, m.tables slot with
      | none, _ => freeTables m rest u
      | some _, none => none
      | some page, some table =>
          (u.kuninstall (table, page)).bind fun u => (u.free page).bind (freeTables m rest)

/-- `~Map` -/
def destroy (entries : ℕ → List PageEntry) (m : LogicalMap) : Option InUse :=
  (removeWindows entries m.windows m).bind fun m =>
    (freeTables m userSlots m.inUse).bind fun u =>
      (u.kuninstall (m.logicalDir, m.physicalDir)).bind (InUse.free m.physicalDir)

/-! ## What it owns -/

/-- `entry & PAGE_TABLE_PRESENT` -/
def Present (entry : ℕ) : Prop := entry % 2 = 1

instance : DecidablePred Present := fun _ => inferInstanceAs (Decidable (_ = _))

/-- The frame of an entry. -/
def frameOf (entry : ℕ) : ℕ := entry / pageSize * pageSize

/-- The arrays and the directory say the same, and no two tables are in one frame. -/
structure Owns (m : LogicalMap) : Prop where
  tables : ∀ slot < userTables, (m.tables slot).isSome ↔ (m.pages slot).isSome
  dir : ∀ slot < userTables, Present (m.dir slot) ↔ (m.pages slot).isSome
  frame : ∀ slot < userTables, ∀ page ∈ m.pages slot, frameOf (m.dir slot) = page
  distinct : ∀ slot < userTables, ∀ slot' < userTables, ∀ page ∈ m.pages slot,
    page ∈ m.pages slot' → slot = slot'

/-- The frame of the table of a slot. -/
def tableFrame (m : LogicalMap) (slot : ℕ) : Multiset ℕ := (m.pages slot).elim 0 ({·})

/-- Where the table of a slot is installed. -/
def tableInstall (m : LogicalMap) (slot : ℕ) : Multiset (ℕ × ℕ) :=
  match m.pages slot, m.tables slot with
  | some page, some table => {(table, page)}
  | _, _ => 0

/-- All slots together. -/
def overSlots {α : Type} (f : ℕ → Multiset α) : Multiset α := (userSlots.map f).sum

theorem overSlots_eq {α : Type} (f : ℕ → Multiset α) : overSlots f = (userSlots.map f).sum := rfl

-- The sum is over 768 slots, and is not to be computed.
attribute [irreducible] overSlots

/-- The map owns its directory and its tables, and nothing else is in use but `elsewhere`. -/
structure Inv (elsewhere : InUse) (m : LogicalMap) : Prop extends m.Owns where
  frames : m.inUse.frames = m.physicalDir ::ₘ (overSlots m.tableFrame + elsewhere.frames)
  installed : m.inUse.installed =
    (m.logicalDir, m.physicalDir) ::ₘ (overSlots m.tableInstall + elsewhere.installed)
  user : ∀ w ∈ m.windows, w.User

theorem mem_userSlots {slot : ℕ} : slot ∈ userSlots ↔ slot < userTables := by
  simp only [userSlots, List.mem_range]

theorem nodup_userSlots : userSlots.Nodup := by
  simp only [userSlots, List.nodup_range]

section Sums
variable {α : Type} {f g : ℕ → Multiset α} {b : Multiset α} {slots : List ℕ} {slot : ℕ} {a : α}

/-- One slot more. -/
theorem sum_map_update (hslots : slots.Nodup) (hmem : slot ∈ slots) (hnone : f slot = 0) :
    (slots.map (Function.update f slot b)).sum = b + (slots.map f).sum := by
  induction slots with
  | nil => simp at hmem
  | cons s rest ih =>
    obtain ⟨hnotin, hrest⟩ := List.nodup_cons.mp hslots
    rw [List.map_cons, List.map_cons, List.sum_cons, List.sum_cons]
    by_cases hs : s = slot
    · subst hs
      have hsame : rest.map (Function.update f s b) = rest.map f :=
        List.map_congr_left fun t ht => Function.update_of_ne (ne_of_mem_of_not_mem ht hnotin) ..
      rw [Function.update_self, hnone, hsame, zero_add]
    · have hin : slot ∈ rest := (List.mem_cons.mp hmem).resolve_left (Ne.symm hs)
      rw [Function.update_of_ne hs, ih hrest hin, add_left_comm]

theorem overSlots_update (hslot : slot < userTables) (hnone : f slot = 0) :
    overSlots (Function.update f slot b) = b + overSlots f := by
  rw [overSlots_eq, overSlots_eq]
  exact sum_map_update nodup_userSlots (mem_userSlots.mpr hslot) hnone

theorem mem_sum_map : a ∈ (slots.map f).sum ↔ ∃ slot ∈ slots, a ∈ f slot := by
  induction slots with
  | nil => simp
  | cons s rest ih => simp [ih]

theorem mem_overSlots (hslot : slot < userTables) (ha : a ∈ f slot) : a ∈ overSlots f := by
  rw [overSlots_eq, mem_sum_map]
  exact ⟨slot, mem_userSlots.mpr hslot, ha⟩

end Sums

/-! ### Entries of the directory -/

theorem present_newTable {page flags : ℕ} : Present (page ||| pageTablePresent ||| flags) := by
  rw [Present, Nat.or_mod_two_eq_one, Nat.or_mod_two_eq_one]
  exact .inl (.inr rfl)

theorem frameOf_newTable {page flags : ℕ} (hpage : page % pageSize = 0) (hflags : flags < 2 ^ 8) :
    frameOf (page ||| pageTablePresent ||| flags) = page := by
  have hlow : pageTablePresent ||| flags < 2 ^ 12 := by
    refine Nat.or_lt_two_pow (by decide) (hflags.trans (by decide))
  obtain ⟨n, rfl⟩ := Nat.dvd_of_mod_eq_zero hpage
  have hsize : pageSize = 2 ^ 12 := rfl
  rw [frameOf, Nat.or_assoc, hsize, ← Nat.two_pow_add_eq_or_of_lt hlow, Nat.mul_add_div (by decide),
    Nat.div_eq_of_lt hlow, add_zero, Nat.mul_comm]

section Tables
variable {A : Pager} {m m' : LogicalMap} {elsewhere : InUse} {addr : ℤ} {a e flags min max : ℕ}

theorem Inv.not_mem (h : Inv elsewhere m) {page slot : ℕ} (hslot : slot < userTables)
    (hpage : page ∉ m.inUse.frames) : page ∉ m.pages slot := by
  intro hmem
  have hown : page ∈ m.tableFrame slot := by
    rw [tableFrame, hmem]
    exact Multiset.mem_singleton_self page
  have hin := mem_overSlots hslot hown
  refine hpage ?_
  rw [h.frames, Multiset.mem_cons, Multiset.mem_add]
  exact .inr (.inl hin)

theorem tableFrame_update {m' : LogicalMap} {s page : ℕ}
    (h : m'.pages = Function.update m.pages s (some page)) :
    m'.tableFrame = Function.update m.tableFrame s {page} := by
  funext t
  by_cases ht : t = s
  · subst ht
    simp [tableFrame, h]
  · simp [tableFrame, h, ht]

theorem tableInstall_update {m' : LogicalMap} {s page table : ℕ}
    (h : m'.pages = Function.update m.pages s (some page))
    (h' : m'.tables = Function.update m.tables s (some table)) :
    m'.tableInstall = Function.update m.tableInstall s {(table, page)} := by
  funext t
  by_cases ht : t = s
  · subst ht
    simp [tableInstall, h, h']
  · simp [tableInstall, h, h', ht]

/-- A table that is made is in a frame of its own. -/
theorem Inv.newTable (h : Inv elsewhere m) (hslot : slot a < userTables)
    (hflags : flags < 2 ^ 8) : Inv elsewhere (m.newTable A a flags) := by
  rw [LogicalMap.newTable]
  split_ifs with htable
  · exact h
  have hnone : m.tables (slot a) = none := by simpa using htable
  have hpages : m.pages (slot a) = none := by
    have := h.tables _ hslot
    simpa [hnone] using this
  obtain ⟨page, hpage⟩ : ∃ page, A.alloc m.calls m.inUse = page := ⟨_, rfl⟩
  obtain ⟨table, htable⟩ : ∃ table, A.kinstall (m.calls + 1) (m.inUse.alloc page) = table :=
    ⟨_, rfl⟩
  have hfresh : page ∉ m.inUse.frames := hpage ▸ A.alloc_fresh _ _
  have haligned : page % pageSize = 0 := hpage ▸ A.alloc_aligned _ _
  simp only [hpage, htable]
  refine ⟨⟨fun s hs => ?_, fun s hs => ?_, fun s hs => ?_, fun s hs s' hs' => ?_⟩, ?_, ?_, h.user⟩
  · by_cases hs' : s = slot a
    · simp [hs']
    · simpa [hs'] using h.tables s hs
  · by_cases hs' : s = slot a
    · simpa [hs'] using present_newTable
    · simpa [hs'] using h.dir s hs
  · by_cases hs' : s = slot a
    · subst hs'
      simpa using frameOf_newTable haligned hflags
    · simpa [hs'] using h.frame s hs
  · have hother : ∀ t < userTables, t ≠ slot a → m.pages t ≠ some page := fun t ht _ =>
      h.not_mem ht hfresh
    by_cases hsa : s = slot a
    · by_cases hsa' : s' = slot a
      · exact fun _ _ _ => hsa.trans hsa'.symm
      · subst hsa
        simp only [Function.update_self, Function.update_of_ne hsa']
        rintro q hq hq'
        obtain rfl := Option.some.inj hq
        exact absurd hq' (hother s' hs' hsa')
    · by_cases hsa' : s' = slot a
      · subst hsa'
        simp only [Function.update_self, Function.update_of_ne hsa]
        rintro q hq hq'
        obtain rfl := Option.some.inj hq'
        exact absurd hq (hother s hs hsa)
      · simpa [hsa, hsa'] using h.distinct s hs s' hs'
  · have hframe : m.tableFrame (slot a) = 0 := by rw [tableFrame, hpages, Option.elim_none]
    rw [tableFrame_update (m := m) (s := slot a) rfl, overSlots_update hslot hframe,
      Multiset.singleton_add]
    rw [InUse.kinstall, InUse.alloc, h.frames, Multiset.cons_swap, Multiset.cons_add]
  · have hinstall : m.tableInstall (slot a) = 0 := by rw [tableInstall, hpages]
    rw [tableInstall_update (m := m) (s := slot a) rfl rfl, overSlots_update hslot hinstall,
      Multiset.singleton_add]
    rw [InUse.kinstall, InUse.alloc, h.installed, Multiset.cons_swap, Multiset.cons_add]

theorem table_newTable : ((m.newTable A a flags).tables (slot a)).isSome := by
  rw [LogicalMap.newTable]
  split_ifs with h
  · exact h
  · simp

/-- Entries are no part of what is owned. -/
theorem Inv.entries (h : Inv elsewhere m) (entries : ℕ → ℕ) :
    Inv elsewhere { m with entries } :=
  ⟨⟨h.tables, h.dir, h.frame, h.distinct⟩, h.frames, h.installed, h.user⟩

theorem Inv.windows (h : Inv elsewhere m) {windows : List ObjectInMap}
    (hwindows : ∀ w ∈ windows, w.User) : Inv elsewhere { m with windows } :=
  ⟨⟨h.tables, h.dir, h.frame, h.distinct⟩, h.frames, h.installed, hwindows⟩

/-! ### Entering -/

theorem Inv.enter (h : Inv elsewhere m) (hflags : flags < 2 ^ 8) (ha : a < kernelVmBase) :
    ∃ m', enter A a e flags m = some m' ∧ Inv elsewhere m' := by
  obtain ⟨-, huser, -⟩ := slot_of_lt ha
  obtain ⟨t, ht, hinv, htable⟩ : ∃ t,
      (if (m.pages (slot a)).isSome then m else m.newTable A a flags) = t ∧
        Inv elsewhere t ∧ (t.tables (slot a)).isSome := by
    refine ⟨_, rfl, ?_⟩
    split_ifs with hpages
    · exact ⟨h, (h.tables _ huser).mpr hpages⟩
    · exact ⟨h.newTable huser hflags, table_newTable⟩
  rw [LogicalMap.enter, if_pos huser, ht, store, if_pos ⟨huser, htable⟩]
  exact ⟨_, rfl, hinv.entries _⟩

theorem Inv.insertRun (A : Pager) (memBase min k i : ℕ) (h : Inv elsewhere m)
    (hflags : flags < 2 ^ 8)
    (hmax : max ≤ kernelVmBase) (ha : a < max) :
    ∃ r, insertRun A memBase flags min max k i a m = some r ∧ Inv elsewhere r.1 := by
  induction k generalizing i a m with
  | zero => exact ⟨(m, some a), rfl, h⟩
  | succ k ih =>
    rw [LogicalMap.insertRun]
    obtain ⟨t, ht, hinv⟩ : ∃ t, (if a ≥ min then LogicalMap.enter A a (tableEntry memBase i flags)
        flags m else some m) = some t ∧ Inv elsewhere t := by
      split_ifs
      · exact h.enter hflags (ha.trans_le hmax)
      · exact ⟨m, rfl, h⟩
    rw [ht, Option.bind_some]
    split_ifs with hend
    · exact ⟨(t, none), rfl, hinv⟩
    · exact ih _ hinv (not_le.mp hend)

theorem Inv.insert (A : Pager) (min : ℕ) (page : List Page) (addr : ℤ) (h : Inv elsewhere m)
    (hflags : flags < 2 ^ 8) (hmax : max ≤ kernelVmBase) :
    ∃ m', insert A flags min max page addr m = some m' ∧ Inv elsewhere m' := by
  induction page generalizing addr m with
  | nil => exact ⟨m, rfl, h⟩
  | cons page next ih =>
    rw [LogicalMap.insert]
    split_ifs with hout
    · exact ⟨m, rfl, h⟩
    · have ha : addr.toNat < max := by omega
      obtain ⟨⟨t, next'⟩, hrun, hinv⟩ := h.insertRun A page.memBase min page.consecutive 0
        hflags hmax ha
      rw [hrun]
      cases next' with
      | none => exact ⟨t, rfl, hinv⟩
      | some a' => exact ih _ hinv

theorem Inv.enterPages (A : Pager) {oim : ObjectInMap} (entries : List PageEntry)
    (h : Inv elsewhere m) (hflags : flags < 2 ^ 8) (hoim : oim.User) :
    ∃ m', enterPages A oim flags entries m = some m' ∧ Inv elsewhere m' := by
  induction entries generalizing m with
  | nil => exact ⟨m, rfl, h⟩
  | cons entry next ih =>
    obtain ⟨t, ht, hinv⟩ := h.insert A oim.base entry.page (oim.place entry.offset) hflags
      hoim.finish_le
    rw [LogicalMap.enterPages, ht]
    exact ih hinv

theorem Inv.enterAll {windows : List ObjectInMap} {page : List Page} (h : Inv elsewhere m)
    (hflags : flags < 2 ^ 8) (hwindows : ∀ w ∈ windows, w.User) :
    ∃ m', enterAll A page flags a windows m = some m' ∧ Inv elsewhere m' := by
  induction windows generalizing m with
  | nil => exact ⟨m, rfl, h⟩
  | cons oim rest ih =>
    rw [List.forall_mem_cons] at hwindows
    obtain ⟨t, ht, hinv⟩ := h.insert A oim.base page (oim.place a) hflags hwindows.1.finish_le
    rw [LogicalMap.enterAll, ht]
    exact ih hinv hwindows.2

theorem Inv.generate {page : Option (List Page)} {o : ℕ} (h : Inv elsewhere m)
    (hflags : flags < 2 ^ 8) :
    ∃ m', generate A o a flags page m = some m' ∧ Inv elsewhere m' := by
  cases page with
  | none => exact ⟨m, rfl, h⟩
  | some page => exact h.enterAll hflags fun w hw => h.user w (List.mem_of_mem_filter hw)

/-! ### The tables that are there

`Vm/Tables.lean` has the same operations on a map of which only the tables are known. -/

/-- The map without its directory, and with no more of its tables than which there are. -/
def toMap (m : LogicalMap) : Map := ⟨fun s => (m.tables s).isSome, m.entries, m.windows⟩

theorem store_toMap : (store addr e m).map toMap = Tables.store addr e m.toMap := by
  rw [store, Tables.store]
  by_cases htable : m.HasTable addr
  · have htable' : m.toMap.HasTable addr := htable
    rw [if_pos htable, if_pos htable']
    rfl
  · have htable' : ¬ m.toMap.HasTable addr := htable
    rw [if_neg htable, if_neg htable']
    rfl

theorem newTable_toMap (ha : a < kernelVmBase) :
    (m.newTable A a flags).toMap = m.toMap.newTable (a / pageSize) := by
  obtain ⟨hslot, -, -⟩ := slot_of_lt ha
  rw [LogicalMap.newTable, Map.newTable, ← hslot]
  by_cases htable : (m.tables (slot a)).isSome
  · have htable' : m.toMap.tables (slot a) = true := htable
    rw [if_pos htable, if_pos htable']
  · have htable' : ¬ m.toMap.tables (slot a) = true := htable
    rw [if_neg htable, if_neg htable', toMap]
    congr 1
    funext s
    by_cases hs : s = slot a <;> simp [hs, toMap]

theorem enter_toMap (A : Pager) (flags : ℕ) (h : m.Owns) (ha : a < kernelVmBase) :
    (enter A a e flags m).map toMap = Tables.enter a e m.toMap := by
  obtain ⟨hslot, huser, -⟩ := slot_of_lt ha
  rw [enter, Tables.enter, if_pos huser, if_pos huser, store_toMap, ← newTable_toMap (A := A) ha]
  congr 1
  split_ifs with hpages
  · have htable := (h.tables _ huser).mpr hpages
    rw [LogicalMap.newTable, if_pos htable]
  · rfl

theorem insertRun_toMap {memBase k i : ℕ} (h : Inv elsewhere m) (hflags : flags < 2 ^ 8)
    (hmax : max ≤ kernelVmBase) (ha : a < max) :
    (insertRun A memBase flags min max k i a m).map (Prod.map toMap id) =
      Tables.insertRun memBase flags min max k i a m.toMap := by
  induction k generalizing i a m with
  | zero => rfl
  | succ k ih =>
    rw [insertRun, Tables.insertRun]
    by_cases hmin : a ≥ min
    · simp only [if_pos hmin]
      obtain ⟨t, ht, hinv⟩ := h.enter (A := A) (e := tableEntry memBase i flags) hflags
        (ha.trans_le hmax)
      rw [← enter_toMap A flags h.toOwns (ha.trans_le hmax), ht,
        Option.bind_some, Option.map_some, Option.bind_some]
      split_ifs with hend
      · rfl
      · exact ih hinv (not_le.mp hend)
    · simp only [if_neg hmin, Option.bind_some]
      split_ifs with hend
      · rfl
      · exact ih h (not_le.mp hend)

theorem insert_toMap (A : Pager) (min : ℕ) (page : List Page) (addr : ℤ) (h : Inv elsewhere m)
    (hflags : flags < 2 ^ 8) (hmax : max ≤ kernelVmBase) :
    (insert A flags min max page addr m).map toMap =
      Tables.insert flags min max page addr m.toMap := by
  induction page generalizing addr m with
  | nil => rfl
  | cons page next ih =>
    rw [insert, Tables.insert]
    split_ifs with hout
    · rfl
    · have ha : addr.toNat < max := by omega
      obtain ⟨⟨t, next'⟩, hrun, hinv⟩ := h.insertRun A page.memBase min page.consecutive 0
        hflags hmax ha
      rw [← insertRun_toMap (A := A) h hflags hmax ha, hrun, Option.map_some]
      cases next' with
      | none => rfl
      | some a' => exact ih _ hinv

/-- `Map::insert` does to the page tables what the map without a directory does. -/
theorem Inv.insert_eq (A : Pager) (min : ℕ) (page : List Page) (addr : ℤ)
    (h : Inv elsewhere m) (hflags : flags < 2 ^ 8) (hmax : max ≤ kernelVmBase) :
    ∃ m', LogicalMap.insert A flags min max page addr m = some m' ∧
      Inv elsewhere m' ∧ m'.toMap = m.toMap.insert flags min max page addr := by
  obtain ⟨m', hrun, hinv⟩ := h.insert A min page addr hflags hmax
  refine ⟨m', hrun, hinv, ?_⟩
  have hsame := insert_toMap A min page addr h hflags hmax
  rw [hrun, Cantos.insert_eq hmax] at hsame
  exact Option.some.inj hsame

/-! ### Clearing -/

theorem clearRun_toMap {k : ℕ} :
    (clearRun k addr m).map toMap = Tables.clear k addr m.toMap := by
  induction k generalizing addr m with
  | zero => rfl
  | succ k ih =>
    rw [clearRun, Tables.clear, ← store_toMap]
    rcases store addr 0 m with _ | t
    · rfl
    · exact ih

theorem clearPages_toMap {oim : ObjectInMap} {pages : List PageEntry} :
    (clearPages oim pages m).map toMap = Tables.clearPages oim pages m.toMap := by
  induction pages generalizing m with
  | nil => rfl
  | cons entry next ih =>
    rw [clearPages, Tables.clearPages]
    split_ifs with hskip
    · exact ih
    · rw [← clearRun_toMap]
      rcases clearRun (Page.count entry.page) (oim.place entry.offset) m with _ | t
      · rfl
      · exact ih

/-- All that the removal of a window clears has a table; `entries` is what the object holds. -/
def Cleared (m : LogicalMap) (oim : ObjectInMap) (entries : List PageEntry) : Prop :=
  ∀ e ∈ entries, ¬ Tables.Skips oim e.offset → ∀ j < Page.count e.page,
    m.HasTable (oim.place e.offset + (j * pageSize : ℕ))

instance (m : LogicalMap) (oim : ObjectInMap) : DecidablePred (m.Cleared oim) := fun _ =>
  List.decidableBAll ..

theorem clearRun_spec (k : ℕ) (addr : ℤ) (m : LogicalMap)
    (h : ∀ j < k, m.HasTable (addr + (j * pageSize : ℕ))) :
    ∃ entries, clearRun k addr m = some { m with entries } := by
  induction k generalizing addr m with
  | zero => exact ⟨m.entries, rfl⟩
  | succ k ih =>
    have htable : m.HasTable addr := by simpa using h 0 (Nat.succ_pos k)
    rw [clearRun, store, if_pos htable, Option.bind_some]
    refine ih _ _ fun j hj => ?_
    have hnext := h (j + 1) (by omega)
    have haddr : addr + ((j + 1) * pageSize : ℕ) = addr + pageSize + (j * pageSize : ℕ) := by
      simp only [sizes]
      omega
    rwa [haddr] at hnext

theorem clearPages_spec {oim : ObjectInMap} {pages : List PageEntry} (h : m.Cleared oim pages) :
    ∃ entries, clearPages oim pages m = some { m with entries } := by
  induction pages generalizing m with
  | nil => exact ⟨m.entries, rfl⟩
  | cons e next ih =>
    obtain ⟨hfirst, hnext⟩ := List.forall_mem_cons.mp h
    rw [clearPages]
    split_ifs with hskip
    · exact ih hnext
    · obtain ⟨entries, hrun⟩ := clearRun_spec _ _ m (hfirst hskip)
      rw [hrun, Option.bind_some]
      exact ih hnext

theorem removeWindows_spec {pages : ℕ → List PageEntry} {ws : List ObjectInMap}
    (h : ∀ w ∈ ws, m.Cleared w (pages w.object)) :
    ∃ entries, removeWindows pages ws m =
      some { m with entries, windows := m.windows.diff ws } := by
  induction ws generalizing m with
  | nil => exact ⟨m.entries, rfl⟩
  | cons w rest ih =>
    obtain ⟨hfirst, hrest⟩ := List.forall_mem_cons.mp h
    obtain ⟨entries, hrun⟩ := clearPages_spec hfirst
    rw [removeWindows, hrun, Option.bind_some, List.diff_cons]
    exact ih hrest

theorem Inv.removeWindows {pages : ℕ → List PageEntry} {ws : List ObjectInMap}
    (h : Inv elsewhere m) (hws : ∀ w ∈ ws, m.Cleared w (pages w.object)) :
    ∃ m', removeWindows pages ws m = some m' ∧ Inv elsewhere m' := by
  obtain ⟨entries, hrun⟩ := removeWindows_spec hws
  exact ⟨_, hrun, (h.entries entries).windows fun w hw => h.user w (List.diff_subset _ _ hw)⟩

/-! ### Destruction -/

theorem InUse.free_cons {u : InUse} {frame : ℕ} {rest : Multiset ℕ}
    (h : u.frames = frame ::ₘ rest) : u.free frame = some { u with frames := rest } := by
  rw [InUse.free, h, if_pos (Multiset.mem_cons_self _ _), Multiset.erase_cons_head]

theorem InUse.kuninstall_cons {u : InUse} {k : ℕ × ℕ} {rest : Multiset (ℕ × ℕ)}
    (h : u.installed = k ::ₘ rest) : u.kuninstall k = some { u with installed := rest } := by
  rw [InUse.kuninstall, h, if_pos (Multiset.mem_cons_self _ _), Multiset.erase_cons_head]

/-- The slots that the loop goes over give back what they own. -/
theorem freeTables_spec {slots : List ℕ} {u : InUse} {frames : Multiset ℕ}
    {installed : Multiset (ℕ × ℕ)}
    (htables : ∀ s ∈ slots, (m.tables s).isSome ↔ (m.pages s).isSome)
    (hframes : u.frames = (slots.map m.tableFrame).sum + frames)
    (hinstalled : u.installed = (slots.map m.tableInstall).sum + installed) :
    freeTables m slots u = some ⟨frames, installed⟩ := by
  induction slots generalizing u with
  | nil =>
    rw [freeTables]
    cases u
    simp_all
  | cons s rest ih =>
    obtain ⟨hfirst, hrest⟩ := List.forall_mem_cons.mp htables
    rw [List.map_cons, List.sum_cons, add_assoc] at hframes hinstalled
    rw [freeTables]
    rcases hpages : m.pages s with _ | page
    · rw [tableFrame, hpages, Option.elim_none, zero_add] at hframes
      rw [tableInstall, hpages, zero_add] at hinstalled
      exact ih hrest hframes hinstalled
    · obtain ⟨table, htable⟩ : ∃ table, m.tables s = some table :=
        Option.isSome_iff_exists.mp (hfirst.mpr (by rw [hpages]; rfl))
      rw [tableFrame, hpages, Option.elim_some, Multiset.singleton_add] at hframes
      rw [tableInstall, hpages, htable, Multiset.singleton_add] at hinstalled
      simp only [htable]
      have hfree : ∀ i, InUse.free page { u with installed := i } = some ⟨_, i⟩ := fun i =>
        InUse.free_cons hframes
      rw [InUse.kuninstall_cons hinstalled, Option.bind_some, hfree]
      exact ih hrest rfl rfl

/-- What is left is what was not the map's. -/
theorem Inv.destroy {pages : ℕ → List PageEntry} (h : Inv elsewhere m)
    (hpages : ∀ w ∈ m.windows, m.Cleared w (pages w.object)) :
    destroy pages m = some elsewhere := by
  obtain ⟨m', hrun, hinv⟩ := h.removeWindows hpages
  have hframes := hinv.frames
  have hinstalled := hinv.installed
  rw [overSlots_eq, ← Multiset.add_cons] at hframes hinstalled
  rw [LogicalMap.destroy, hrun, Option.bind_some,
    freeTables_spec (fun s hs => hinv.tables s (mem_userSlots.mp hs)) hframes hinstalled,
    Option.bind_some, InUse.kuninstall_cons rfl, Option.bind_some, InUse.free_cons rfl]

end Tables

/-! ## Runs -/

/-- A call, or something in the rest of the system that takes a page or gives one back. -/
inductive Move
  | insert (addr : ℤ) (page : List Page) (flags : Fin (2 ^ 8)) (min max : ℕ)
  | clear (addr : ℤ) (pages : ℕ)
  | addObject (oim : ObjectInMap) (flags : Fin (2 ^ 8)) (entries : List PageEntry)
  | removeObject (o : ℕ) (entries : List PageEntry)
  | removeObjectAt (o base : ℕ) (entries : List PageEntry)
  | generate (o addr : ℕ) (flags : Fin (2 ^ 8)) (page : Option (List Page))
  | resolveFault (addr : ℕ) (flags : Fin (2 ^ 8)) (page : Option (List Page))
  | alloc (frame : ℕ)
  | free (frame : ℕ)
  | kinstall (k : ℕ × ℕ)
  | kuninstall (k : ℕ × ℕ)

/-- There is no next state when a table that is not there would be accessed. -/
def step (A : Pager) (m : LogicalMap) : Move → Option LogicalMap
  | .insert addr page flags min max => insert A flags min max page addr m
  | .clear addr pages => clear pages addr m
  | .addObject oim flags entries => addObject A oim flags entries m
  | .removeObject o entries => removeObject o entries m
  | .removeObjectAt o base entries => removeObjectAt o base entries m
  | .generate o addr flags page => generate A o addr flags page m
  | .resolveFault addr flags page => resolveFault A addr flags page m
  | .alloc frame => some { m with inUse := m.inUse.alloc frame }
  | .free frame => (m.inUse.free frame).map fun inUse => { m with inUse }
  | .kinstall k => some { m with inUse := m.inUse.kinstall k }
  | .kuninstall k => (m.inUse.kuninstall k).map fun inUse => { m with inUse }

/-- What is in use elsewhere. -/
def elsewhere : InUse → List Move → InUse
  | u, [] => u
  | u, .alloc frame :: ms => elsewhere (u.alloc frame) ms
  | u, .free frame :: ms => elsewhere { u with frames := u.frames.erase frame } ms
  | u, .kinstall k :: ms => elsewhere (u.kinstall k) ms
  | u, .kuninstall k :: ms => elsewhere { u with installed := u.installed.erase k } ms
  | u, _ :: ms => elsewhere u ms

/-- The frames of the map. -/
def frames (m : LogicalMap) : Multiset ℕ := m.physicalDir ::ₘ overSlots m.tableFrame

/-- Where the map has them installed. -/
def installed (m : LogicalMap) : Multiset (ℕ × ℕ) :=
  (m.logicalDir, m.physicalDir) ::ₘ overSlots m.tableInstall

/-- Windows are in user memory, what is cleared has tables, and the rest of the system gives
back only what is its own. -/
def Covered (m : LogicalMap) : Move → Prop
  | .insert _ _ _ _ max => max ≤ kernelVmBase
  | .clear addr pages => addr < 0 ∨ ∀ j < pages, m.HasTable (addr + (j * pageSize : ℕ))
  | .addObject oim _ _ => oim.User
  | .removeObject o entries => ∀ w ∈ m.windowsOn o, m.Cleared w entries
  | .removeObjectAt o base entries => ∀ w ∈ m.windowAt o base, m.Cleared w entries
  | .free frame => frame ∈ m.inUse.frames ∧ frame ∉ m.frames
  | .kuninstall k => k ∈ m.inUse.installed ∧ k ∉ m.installed
  | _ => True

instance (m : LogicalMap) : DecidablePred m.Covered
  | .insert .. => inferInstanceAs (Decidable (_ ≤ _))
  | .clear .. => inferInstanceAs (Decidable (_ ∨ _))
  | .addObject oim _ _ => inferInstanceAs (Decidable oim.User)
  | .removeObject .. => List.decidableBAll ..
  | .removeObjectAt .. => List.decidableBAll ..
  | .free _ => inferInstanceAs (Decidable (_ ∧ _))
  | .kuninstall _ => inferInstanceAs (Decidable (_ ∧ _))
  | .generate .. => isTrue trivial
  | .resolveFault .. => isTrue trivial
  | .alloc _ => isTrue trivial
  | .kinstall _ => isTrue trivial

section Runs
variable {A : Pager} {kernelDir : ℕ → ℕ} {m : LogicalMap} {move : Move} {ms : List Move}
  {u : InUse}

theorem overSlots_zero {α : Type} {f : ℕ → Multiset α} (h : ∀ slot, f slot = 0) :
    overSlots f = 0 := by
  obtain rfl : f = fun _ => 0 := funext h
  rw [overSlots_eq]
  simp

theorem construct_inv : Inv u (construct A kernelDir u) := by
  refine ⟨⟨?_, ?_, ?_, ?_⟩, ?_, ?_, ?_⟩
  · exact fun _ _ => Iff.rfl
  · intro slot hslot
    simp [construct, hslot, Present]
  · simp [construct]
  · simp [construct]
  · have hnone : overSlots (construct A kernelDir u).tableFrame = 0 := overSlots_zero fun _ => rfl
    rw [hnone, zero_add]
    rfl
  · have hnone : overSlots (construct A kernelDir u).tableInstall = 0 :=
      overSlots_zero fun _ => rfl
    rw [hnone, zero_add]
    rfl
  · simp [construct]

/-- A covered move is possible, and what is in use elsewhere is what the move says. -/
theorem Inv.step (h : Inv u m) (hmove : m.Covered move) :
    ∃ m', step A m move = some m' ∧ Inv (elsewhere u [move]) m' := by
  cases move with
  | insert addr page flags min max => exact h.insert A min page addr flags.isLt hmove
  | clear addr pages =>
    rw [LogicalMap.step, clear]
    split_ifs with hneg
    · exact ⟨m, rfl, h⟩
    · obtain ⟨entries, hrun⟩ := clearRun_spec pages addr m (hmove.resolve_left hneg)
      exact ⟨_, hrun, h.entries entries⟩
  | addObject oim flags entries =>
    obtain ⟨t, ht, hinv⟩ := h.enterPages A entries flags.isLt hmove
    rw [LogicalMap.step, addObject, ht]
    exact ⟨_, rfl, hinv.windows (List.forall_mem_cons.mpr ⟨hmove, hinv.user⟩)⟩
  | removeObject o entries => exact h.removeWindows hmove
  | removeObjectAt o base entries => exact h.removeWindows hmove
  | generate o addr flags page => exact h.generate flags.isLt
  | resolveFault addr flags page =>
    rw [LogicalMap.step, resolveFault]
    split
    · exact h.generate flags.isLt
    · exact ⟨m, rfl, h⟩
  | alloc frame =>
    refine ⟨_, rfl, ⟨⟨h.tables, h.dir, h.frame, h.distinct⟩, ?_, h.installed, h.user⟩⟩
    rw [elsewhere, elsewhere, InUse.alloc, InUse.alloc, h.frames, Multiset.cons_swap,
      Multiset.add_cons]
    rfl
  | kinstall k =>
    refine ⟨_, rfl, ⟨⟨h.tables, h.dir, h.frame, h.distinct⟩, h.frames, ?_, h.user⟩⟩
    rw [elsewhere, elsewhere, InUse.kinstall, InUse.kinstall, h.installed, Multiset.cons_swap,
      Multiset.add_cons]
    rfl
  | free frame =>
    obtain ⟨hin, hout⟩ := hmove
    rw [LogicalMap.step, InUse.free, if_pos hin]
    refine ⟨_, rfl, ⟨⟨h.tables, h.dir, h.frame, h.distinct⟩, ?_, h.installed, h.user⟩⟩
    have hframes : m.inUse.frames = m.frames + u.frames := by
      rw [h.frames, LogicalMap.frames, Multiset.cons_add]
    rw [elsewhere, elsewhere]
    simp only [hframes]
    rw [Multiset.erase_add_right_neg _ hout, LogicalMap.frames, Multiset.cons_add]
    rfl
  | kuninstall k =>
    obtain ⟨hin, hout⟩ := hmove
    rw [LogicalMap.step, InUse.kuninstall, if_pos hin]
    refine ⟨_, rfl, ⟨⟨h.tables, h.dir, h.frame, h.distinct⟩, h.frames, ?_, h.user⟩⟩
    have hinstalled : m.inUse.installed = m.installed + u.installed := by
      rw [h.installed, LogicalMap.installed, Multiset.cons_add]
    rw [elsewhere, elsewhere]
    simp only [hinstalled]
    rw [Multiset.erase_add_right_neg _ hout, LogicalMap.installed, Multiset.cons_add]
    rfl

theorem elsewhere_cons : elsewhere u (move :: ms) = elsewhere (elsewhere u [move]) ms := by
  cases move <;> rfl

theorem Inv.run (h : Inv u m) (hms : Steps.Along (LogicalMap.step A) Covered m ms) :
    ∃ m', Steps.run (LogicalMap.step A) m ms = some m' ∧ Inv (elsewhere u ms) m' := by
  induction ms generalizing u m with
  | nil => exact ⟨m, rfl, h⟩
  | cons move ms ih =>
    obtain ⟨t, ht, hinv⟩ := h.step (A := A) hms.1
    obtain ⟨m', hrun, hinv'⟩ := ih hinv (hms.2 t ht)
    rw [← elsewhere_cons] at hinv'
    exact ⟨m', Steps.run_cons.mpr ⟨t, ht, hrun⟩, hinv'⟩

/-- After a covered run the map owns its tables, and when it is destroyed and its windows are
covered, what is in use is what was in use before it was constructed, but for what has been
taken and given back elsewhere. -/
theorem owns_run (hms : Steps.Along (step A) Covered (construct A kernelDir u) ms) :
    ∃ m, Steps.run (step A) (construct A kernelDir u) ms = some m ∧ m.Owns ∧
      ∀ pages, (∀ w ∈ m.windows, m.Cleared w (pages w.object)) →
        destroy pages m = some (elsewhere u ms) := by
  obtain ⟨m, hrun, hinv⟩ := construct_inv.run hms
  exact ⟨m, hrun, hinv.toOwns, fun pages hpages => hinv.destroy hpages⟩

/-- A window that is mapped and removed, and a page taken elsewhere. -/
def mapped : List Move :=
  [.addObject ⟨0, 0, 0x1000, 0, 1⟩ 2 [⟨0, [⟨0, 0, 0x200000, 0, 1⟩]⟩], .alloc 0x3000,
    .removeObject 0 [⟨0, [⟨0, 0, 0x200000, 0, 1⟩]⟩]]

theorem owns_mapped :
    ∃ m, Steps.run (step .behind) (construct .behind (fun _ => 0) ⟨0, 0⟩) mapped = some m ∧
      m.Owns ∧ ∀ pages, (∀ w ∈ m.windows, m.Cleared w (pages w.object)) →
        destroy pages m = some ⟨{0x3000}, 0⟩ :=
  owns_run (by decide)

/-- The object has a page in the next table, behind the window. -/
theorem not_owns_pageBehind : ¬ ∀ (A : Pager) (kernelDir : ℕ → ℕ) (u : InUse) (ms : List Move)
    (m : LogicalMap) (pages : ℕ → List PageEntry),
    Steps.run (step A) (construct A kernelDir u) ms = some m →
      m.Owns ∧ destroy pages m = some (elsewhere u ms) := by
  intro h
  let entries : List PageEntry := [⟨0x400000, [⟨0, 0, 0x200000, 0, 1⟩]⟩]
  have hrun : (Steps.run (step .behind) (construct .behind (fun _ => 0) ⟨0, 0⟩)
      [.addObject ⟨0, 0, 0x1000, 0, 1⟩ 2 entries]).isSome := by decide
  obtain ⟨m, hm⟩ := Option.isSome_iff_exists.mp hrun
  have hdestroy := (h .behind (fun _ => 0) ⟨0, 0⟩ _ m (fun _ => entries) hm).2
  have hstops : ∀ m ∈ Steps.run (step .behind) (construct .behind (fun _ => 0) ⟨0, 0⟩)
      [.addObject ⟨0, 0, 0x1000, 0, 1⟩ 2 entries], destroy (fun _ => entries) m = none := by
    decide
  rw [hstops m hm] at hdestroy
  cases hdestroy

end Runs

end LogicalMap

end Cantos
