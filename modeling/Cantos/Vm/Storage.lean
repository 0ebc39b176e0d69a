import Cantos.Vm.Agreement
import Cantos.Vm.Ownership

/-!
# Files in memory

An object of a file asks its storage for pages.  A `PhysicalMemStorage` answers with the frames at
the address that is asked for, so a program that reads a window on such an object reads physical
memory: the address it reads is translated to the place in the storage, by the page tables as they
are or after a page fault.

## Main definitions

* `IsRead`: what `PhysicalMemStorage::read` returns.
* `Vm.translate`: an address, through the page tables.
* `Vm.Reads`: the moves whose pages come from the storages of the objects.

## Main results

* `isRead_doGenerate`: what `do_generate` gets from a `PhysicalMemStorage`.
* `Vm.window_shows_storage`
-/

namespace Cantos

open LogicalMap (frameOf frameOf_newTable)

/-! ## The storage -/

/-- A page that `PhysicalMemStorage::read(addr, count)` returns, for a storage at `base`. -/
def IsRead (base addr count : ℕ) (page : List Page) : Prop :=
  ∃ p, page = [p] ∧ p.memBase = add32 base addr ∧ p.consecutive = count

theorem isRead_doGenerate {depth base addr count : ℕ} {flags : Flags} {page : List Page}
    {s s' : Mem}
    (h : ((Source.physical base flags).doGenerate depth addr count).Returns s page s') :
    IsRead base addr count page := by
  rw [Source.doGenerate, Page.create] at h
  obtain ⟨_, _, -, h⟩ := Exec.returns_bind.mp h
  obtain ⟨_, _, -, h⟩ := Exec.returns_bind.mp h
  obtain ⟨_, _, -, h⟩ := Exec.returns_bind.mp h
  obtain ⟨_, _, -, h⟩ := Exec.returns_bind.mp h
  obtain ⟨_, _, -, h⟩ := Exec.returns_bind.mp h
  obtain ⟨rfl, -⟩ := Exec.returns_pure.mp h
  exact ⟨_, rfl, rfl, rfl⟩

/-- The frame of an entry of such a page. -/
theorem IsRead.frameOf_entryAt {base addr count k flags : ℕ} {page : List Page}
    (h : IsRead base addr count page) (hbase : base % pageSize = 0) (haddr : addr % pageSize = 0)
    (hk : k < count) (hflags : flags < 2 ^ 8) :
    frameOf (Page.entryAt flags page k) = add32 base (addr + k * pageSize) := by
  obtain ⟨p, rfl, hmem, rfl⟩ := h
  have hframe : add32 p.memBase (mul32 pageSize k) = add32 base (addr + k * pageSize) := by
    rw [hmem]
    simp only [add32, mul32, sizes]
    omega
  have haligned : add32 base (addr + k * pageSize) % pageSize = 0 := by
    simp only [add32, sizes] at *
    omega
  rw [Page.entryAt, if_pos hk, tableEntry, hframe, Nat.or_assoc, Nat.or_comm flags, ← Nat.or_assoc]
  exact frameOf_newTable haligned hflags

/-- The place in the object that a window shows at an address. -/
def ObjectInMap.inObject (oim : ObjectInMap) (a : ℕ) : ℕ := ((a : ℤ) - oim.base + oim.offset).toNat

namespace Vm

/-- The physical address of an address, if its page is present. -/
def translate (vm : Vm) (m a : ℕ) : Option ℕ :=
  if (vm.maps m).Present (a / pageSize) then
    some (frameOf ((vm.maps m).entry (a / pageSize)) + a % pageSize)
  else none

/-- Pages that are made for an object over a physical storage are what the storage returns. -/
def Reads (vm : Vm) : Move → Prop
  | .generate o addr count page => ∀ base flags,
      (vm.objects o).object.source = .physical base flags →
        IsRead base addr ((vm.objects o).object.room addr count) page
  | .resolveFault m addr page => ∀ w ∈ vm.window m addr, ∀ base flags,
      (vm.objects w.object).object.source = .physical base flags →
        IsRead base (w.objectAddr addr)
          ((vm.objects w.object).object.room (w.objectAddr addr) 1) page
  | _ => True

/-- The entries of the objects are what their storages returned. -/
def FromStorage (vm : Vm) : Prop :=
  ∀ o base flags, (vm.objects o).object.source = .physical base flags →
    ∀ e ∈ (vm.objects o).object.pages, ∃ count ≠ 0, IsRead base e.offset count e.page

/-- An object keeps its storage, its size and its flags. -/
def SameSources (vm vm' : Vm) : Prop :=
  ∀ o, (vm'.objects o).object.source = (vm.objects o).object.source ∧
    (vm'.objects o).object.maxPages = (vm.objects o).object.maxPages ∧
    (vm'.objects o).pageFlags = (vm.objects o).pageFlags

section Storage
variable {vm vm' : Vm} {objects : ℕ → Object} {pageFlags : ℕ → ℕ} {move : Move} {ms : List Move}
  {m o a base addr count : ℕ} {flags : Flags} {page : List Page} {w oim : ObjectInMap}

theorem generate_source : vm.SameSources (vm.generate o addr count page) := by
  intro o'
  rw [Vm.generate]
  split_ifs
  · exact ⟨rfl, rfl, rfl⟩
  · by_cases ho : o' = o
    · subst ho
      simp
    · simp [ho]

theorem FromStorage.generate (h : vm.FromStorage)
    (hread : ∀ base flags, (vm.objects o).object.source = .physical base flags →
      IsRead base addr ((vm.objects o).object.room addr count) page) :
    (vm.generate o addr count page).FromStorage := by
  intro o' base flags hsource e he
  by_cases hroom : (vm.objects o).object.room addr count = 0
  · rw [Vm.generate, if_pos hroom] at hsource he
    exact h o' base flags hsource e he
  · rw [(generate_source o').1] at hsource
    rcases (mem_generate hroom).mp he with ⟨rfl, rfl⟩ | he
    · exact ⟨_, hroom, hread base flags hsource⟩
    · exact h o' base flags hsource e he

/-- A window that goes away leaves the objects as they are. -/
theorem removeWindow_objects (h : vm.removeWindow oim = some vm') :
    ∀ o, (vm'.objects o).object = (vm.objects o).object ∧
      (vm'.objects o).pageFlags = (vm.objects o).pageFlags := by
  intro o
  rw [removeWindow, Option.map_eq_some_iff] at h
  obtain ⟨m, -, rfl⟩ := h
  exact ⟨proj_update_same SharedObject.object rfl, proj_update_same SharedObject.pageFlags rfl⟩

theorem removeWindows_objects {ws : List ObjectInMap} (h : removeWindows ws vm = some vm') :
    ∀ o, (vm'.objects o).object = (vm.objects o).object ∧
      (vm'.objects o).pageFlags = (vm.objects o).pageFlags := by
  induction ws generalizing vm with
  | nil =>
    intro o
    rw [← Option.some.inj h]
    exact ⟨rfl, rfl⟩
  | cons w rest ih =>
    intro o
    rw [Vm.removeWindows, Option.bind_eq_some_iff] at h
    obtain ⟨t, ht, hrest⟩ := h
    exact ⟨(ih hrest o).1.trans (removeWindow_objects ht o).1,
      (ih hrest o).2.trans (removeWindow_objects ht o).2⟩

/-- Where the objects are as before, so are their sources. -/
theorem FromStorage.congr (h : vm.FromStorage)
    (hobjects : ∀ o, (vm'.objects o).object = (vm.objects o).object ∧
      (vm'.objects o).pageFlags = (vm.objects o).pageFlags) :
    vm'.FromStorage ∧ vm.SameSources vm' := by
  constructor
  · intro o base flags hsource e he
    rw [(hobjects o).1] at hsource he
    exact h o base flags hsource e he
  · intro o
    rw [(hobjects o).1]
    exact ⟨rfl, rfl, (hobjects o).2⟩

theorem FromStorage.step (h : vm.FromStorage) (hread : vm.Reads move)
    (hvm' : vm.step move = some vm') : vm'.FromStorage ∧ vm.SameSources vm' := by
  cases move with
  | addObject oim =>
    rw [Vm.step] at hvm'
    split_ifs at hvm'
    obtain rfl := Option.some.inj hvm'
    exact h.congr fun o => ⟨addObject_object, addObject_pageFlags⟩
  | removeObject m o => exact h.congr (removeWindows_objects hvm')
  | removeObjectAt m o base =>
    rw [Vm.step, removeObjectAt] at hvm'
    cases hfind : (vm.windowsOn m o).find? fun oim => oim.base = base with
    | none =>
      simp only [hfind] at hvm'
      rw [← Option.some.inj hvm']
      exact h.congr fun _ => ⟨rfl, rfl⟩
    | some w =>
      simp only [hfind] at hvm'
      exact h.congr (removeWindow_objects hvm')
  | generate o addr count page =>
    rw [Vm.step] at hvm'
    split_ifs at hvm'
    obtain rfl := Option.some.inj hvm'
    exact ⟨h.generate hread, generate_source⟩
  | resolveFault m addr page =>
    obtain rfl := Option.some.inj hvm'
    rw [resolveFault]
    cases hwindow : vm.window m addr with
    | none => exact h.congr fun _ => ⟨rfl, rfl⟩
    | some w => exact ⟨h.generate (hread w hwindow), generate_source⟩

end Storage

/-! ## What a program reads -/

section Shown
variable {vm : Vm} {m a base p v x : ℕ} {flags : Flags} {page : List Page} {w w' : ObjectInMap}
  {e : PageEntry}

theorem holds_of_mem (hg : w.Good) (hlo : w.base ≤ a) (hhi : a < w.finish) :
    w.Holds (a / pageSize) := by
  obtain ⟨hbase, -, -, -⟩ := hg
  simp only [ObjectInMap.Holds, sizes] at *
  omega

/-- What is shown in a window on an object with a physical storage. -/
theorem frameOf_shown (hst : vm.FromStorage)
    (hsource : (vm.objects w.object).object.source = .physical base flags)
    (hbase : base % pageSize = 0) (hflags : (vm.objects w.object).pageFlags < 2 ^ 8)
    (he : e ∈ (vm.objects w.object).object.pages) (haligned : e.offset % pageSize = 0)
    (hx : w.ShowsEntry (vm.objects w.object).pageFlags e (a / pageSize) x) :
    frameOf x + a % pageSize = add32 base (w.inObject a) := by
  obtain ⟨hholds, k, hk, hat, rfl⟩ := hx
  obtain ⟨count, -, hread⟩ := hst _ _ _ hsource e he
  have hcount : Page.count e.page = count := by
    obtain ⟨p, hpage, -, hp⟩ := hread
    simp [hpage, Page.count, hp]
  rw [hread.frameOf_entryAt hbase haligned (hcount ▸ hk) hflags]
  have hplace : w.inObject a = e.offset + k * pageSize + a % pageSize := by
    simp only [ObjectInMap.inObject, ObjectInMap.At, sizes] at *
    omega
  rw [hplace]
  simp only [add32, sizes] at *
  omega

/-- **An address of a window that is mapped is translated to its place in the storage.** -/
theorem Inv.translate_eq (hinv : vm.Inv) (hst : vm.FromStorage) (hw : w ∈ (vm.maps m).windows)
    (hlo : w.base ≤ a) (hhi : a < w.finish)
    (hsource : (vm.objects w.object).object.source = .physical base flags)
    (hbase : base % pageSize = 0) (hflags : (vm.objects w.object).pageFlags < 2 ^ 8)
    (hp : vm.translate m a = some p) : p = add32 base (w.inObject a) := by
  have hg := hinv.shape.good m w hw
  rw [translate] at hp
  split_ifs at hp with hpresent
  obtain rfl := Option.some.inj hp
  have hshown : ∃ x, vm.Shown m (a / pageSize) x := by
    by_contra hnone
    rw [Map.Present, (hinv.agrees m _).2 (not_exists.mp hnone)] at hpresent
    simp at hpresent
  obtain ⟨x, hshown⟩ := hshown
  rw [(hinv.agrees m _).1 x hshown]
  obtain ⟨w', hw', e, he, hx⟩ := hshown
  obtain rfl : w = w' := by
    refine (hinv.shape.eq_or_apart hw hw').resolve_right fun hapart => ?_
    exact hapart.not_holds (holds_of_mem hg hlo hhi) hx.1
  exact frameOf_shown hst hsource hbase hflags he (hinv.shape.aligned _ e he) hx

/-- The window that is found at an address is the only one there. -/
theorem Inv.window_eq (hinv : vm.Inv) (hw : w ∈ (vm.maps m).windows) (hlo : w.base ≤ a)
    (hhi : a < w.finish) : vm.window m a = some w := by
  rcases hfind : vm.window m a with _ | w'
  · have hnone := List.find?_eq_none.mp hfind w hw
    simp [hlo, hhi] at hnone
  · have hw' := List.mem_of_find?_eq_some hfind
    have hin := List.find?_some hfind
    simp only [decide_eq_true_eq] at hin
    rcases hinv.shape.eq_or_apart hw hw' with rfl | hapart
    · rfl
    · exact absurd (holds_of_mem (hinv.shape.good m w' hw') hin.1 hin.2)
        (hapart.not_holds (holds_of_mem (hinv.shape.good m w hw) hlo hhi))

/-- Where the object has no page for a fault, it has an entry there. -/
theorem exists_entry_of_room {o : Object} {addr : ℕ} (haddr : addr % pageSize = 0)
    (hlt : addr < 2 ^ 32) (haligned : ∀ e ∈ o.pages, e.offset % pageSize = 0)
    (hmax : addr / pageSize < o.maxPages) (hroom : o.room addr 1 = 0) :
    ∃ e ∈ o.pages, e.offset = addr := by
  have hle : ¬ add32 (addr / pageSize) 1 > o.maxPages := by
    simp only [add32, sizes] at *
    omega
  rw [Object.room] at hroom
  simp only [hle, false_and, if_false] at hroom
  rcases hfind : o.pages.find? (fun next => ¬ next.offset < addr) with _ | next
  · rw [hfind] at hroom
    cases hroom
  · have hmem := List.mem_of_find?_eq_some hfind
    have hge := List.find?_some hfind
    simp only [decide_eq_true_eq, not_lt] at hge
    have hnext := haligned next hmem
    refine ⟨next, hmem, ?_⟩
    rw [hfind] at hroom
    simp only at hroom
    split_ifs at hroom
    simp only [sizes] at *
    omega

/-- After a fault, the object has an entry for it. -/
theorem exists_entry_generate {o addr : ℕ} (haddr : addr % pageSize = 0) (hlt : addr < 2 ^ 32)
    (haligned : ∀ e ∈ (vm.objects o).object.pages, e.offset % pageSize = 0)
    (hmax : addr / pageSize < (vm.objects o).object.maxPages) :
    ∃ e ∈ ((vm.generate o addr 1 page).objects o).object.pages, e.offset = addr := by
  by_cases hroom : (vm.objects o).object.room addr 1 = 0
  · rw [Vm.generate, if_pos hroom]
    exact exists_entry_of_room haddr hlt haligned hmax hroom
  · exact ⟨⟨addr, page⟩, (mem_generate hroom).mpr (.inl ⟨rfl, rfl⟩), rfl⟩

/-- **After a page fault an address of a window is translated to its place in the storage.** -/
theorem Inv.fault_translate (hinv : vm.Inv) (hst : vm.FromStorage) (hw : w ∈ (vm.maps m).windows)
    (hlo : w.base ≤ a) (hhi : a < w.finish)
    (hsource : (vm.objects w.object).object.source = .physical base flags)
    (hbase : base % pageSize = 0) (hflags : (vm.objects w.object).pageFlags < 2 ^ 8)
    (hlt : w.inObject a < 2 ^ 32)
    (hmax : w.inObject a / pageSize < (vm.objects w.object).object.maxPages)
    (hmove : vm.InPlace (.resolveFault m a page)) (hread : vm.Reads (.resolveFault m a page)) :
    (vm.resolveFault m a page).1.translate m a = some (add32 base (w.inObject a)) := by
  have hg := hinv.shape.good m w hw
  have hinv' := hinv.step hmove rfl
  obtain ⟨hst', hsame⟩ := hst.step hread rfl
  have haddr : w.objectAddr a = w.inObject a - a % pageSize ∧
      w.objectAddr a / pageSize = w.inObject a / pageSize := by
    obtain ⟨hwbase, hoff, hpos, -⟩ := hg
    simp only [ObjectInMap.objectAddr, ObjectInMap.inObject, sizes] at *
    omega
  have hfault : (vm.resolveFault m a page).1 = vm.generate w.object (w.objectAddr a) 1 page := by
    rw [resolveFault, hinv.window_eq hw hlo hhi]
  have hentry : ∃ e ∈
      ((vm.generate w.object (w.objectAddr a) 1 page).objects w.object).object.pages,
      e.offset = w.objectAddr a :=
    exists_entry_generate (objectAddr_aligned hg) (by omega) (hinv.shape.aligned w.object)
      (haddr.2 ▸ hmax)
  obtain ⟨e, he, hoffset⟩ := hentry
  rw [← hfault] at he
  have hw' : w ∈ ((vm.resolveFault m a page).1.maps m).windows := by
    rwa [hfault, generate_windows]
  have hsource' := (hsame w.object).1.trans hsource
  obtain ⟨count, hcount, hpage⟩ := hst' _ _ _ hsource' e he
  have hshows : w.ShowsEntry ((vm.resolveFault m a page).1.objects w.object).pageFlags e
      (a / pageSize)
      (Page.entryAt ((vm.resolveFault m a page).1.objects w.object).pageFlags e.page 0) := by
    refine ⟨holds_of_mem hg hlo hhi, 0, ?_, ?_, rfl⟩
    · obtain ⟨p, hp, -, rfl⟩ := hpage
      rw [hp]
      exact Nat.pos_of_ne_zero hcount
    · obtain ⟨hwbase, hoff, hpos, -⟩ := hg
      simp only [ObjectInMap.At, ObjectInMap.inObject, sizes] at *
      omega
  have hpresent : ((vm.resolveFault m a page).1.maps m).Present (a / pageSize) := by
    rw [Map.Present, (hinv'.agrees m _).1 _ ⟨w, hw', e, he, hshows⟩]
    obtain ⟨-, k, hk, -, hx⟩ := hshows
    rw [hx]
    exact entryAt_present hk
  have htranslate : (vm.resolveFault m a page).1.translate m a = some (frameOf
      (((vm.resolveFault m a page).1.maps m).entry (a / pageSize)) + a % pageSize) := by
    rw [translate, if_pos hpresent]
  rw [htranslate, hinv'.translate_eq hst' hw' hlo hhi hsource' hbase ((hsame w.object).2.2 ▸ hflags)
    htranslate]

end Shown

/-- What is kept from the start: each object has its storage, its size and its flags. -/
structure Backed (objects : ℕ → Object) (pageFlags : ℕ → ℕ) (vm : Vm) : Prop where
  inv : vm.Inv
  fromStorage : vm.FromStorage
  sources : ∀ o, (vm.objects o).object.source = (objects o).source ∧
    (vm.objects o).object.maxPages = (objects o).maxPages ∧
    (vm.objects o).pageFlags = pageFlags o

section Backed
variable {vm : Vm} {objects : ℕ → Object} {pageFlags : ℕ → ℕ} {ms : List Move} {m a base : ℕ}
  {flags : Flags} {page : List Page} {w : ObjectInMap}

theorem backed_run
    (hms : Steps.Along step (fun vm move => vm.InPlace move ∧ vm.Reads move)
      (start objects pageFlags) ms)
    (hrun : Steps.run step (start objects pageFlags) ms = some vm) :
    Backed objects pageFlags vm := by
  refine Steps.invariant (I := Backed objects pageFlags) ?_ ?_ hms hrun
  · intro vm move vm' h hmove hstep
    obtain ⟨hst, hsame⟩ := h.fromStorage.step hmove.2 hstep
    refine ⟨h.inv.step hmove.1 hstep, hst, fun o => ?_⟩
    exact ⟨(hsame o).1.trans (h.sources o).1, (hsame o).2.1.trans (h.sources o).2.1,
      (hsame o).2.2.trans (h.sources o).2.2⟩
  · refine ⟨start_inv objects pageFlags, ?_, fun o => ⟨rfl, rfl, rfl⟩⟩
    intro o base flags _ e he
    cases he

/-- In every run whose moves only meet entries in place and whose pages come from the storages: an
address in a window on an object with a physical storage that is mapped is translated to its place
in the storage, and one that is not is after its page fault, if it is in front of the end of the
object. -/
theorem window_shows_storage
    (hms : Steps.Along step (fun vm move => vm.InPlace move ∧ vm.Reads move)
      (start objects pageFlags) ms)
    (hrun : Steps.run step (start objects pageFlags) ms = some vm) (hw : w ∈ (vm.maps m).windows)
    (hlo : w.base ≤ a) (hhi : a < w.finish)
    (hsource : (objects w.object).source = .physical base flags) (hbase : base % pageSize = 0)
    (hflags : pageFlags w.object < 2 ^ 8) :
    (∀ p, vm.translate m a = some p → p = add32 base (w.inObject a)) ∧
    (w.inObject a < 2 ^ 32 → w.inObject a / pageSize < (objects w.object).maxPages →
      ∀ page, vm.InPlace (.resolveFault m a page) → vm.Reads (.resolveFault m a page) →
        (vm.resolveFault m a page).1.translate m a = some (add32 base (w.inObject a))) := by
  have h := backed_run hms hrun
  have hsource' := (h.sources w.object).1.trans hsource
  have hflags' := (h.sources w.object).2.2 ▸ hflags
  constructor
  · intro p hp
    exact h.inv.translate_eq h.fromStorage hw hlo hhi hsource' hbase hflags' hp
  · intro hlt hmax page hmove hread
    exact h.inv.fault_translate h.fromStorage hw hlo hhi hsource' hbase hflags' hlt
      ((h.sources w.object).2.1 ▸ hmax) hmove hread

end Backed

/-- The file `contents`, as `main_thread` maps it. -/
def contents : Vm := start (fun _ => ⟨.physical 0 0, 1, []⟩) fun _ => 0

def contentsWindow : ObjectInMap := ⟨0, 0, 0x8000, 0, 0x10⟩

theorem window_shows_contents : ((contents.addObject contentsWindow).resolveFault 0 0x8010
    [⟨0xc0500000, 7, 0, flagAllocated, 1⟩]).1.translate 0 0x8010 = some 0x10 := by
  have hms : Steps.Along step (fun vm move => vm.InPlace move ∧ vm.Reads move) contents
      [.addObject contentsWindow] := ⟨⟨by decide, trivial⟩, fun _ _ => trivial⟩
  have hrun : Steps.run step contents [.addObject contentsWindow] =
      some (contents.addObject contentsWindow) := by
    rw [Steps.run, step, if_pos (by decide)]
    rfl
  have hwindow : (contents.addObject contentsWindow).window 0 0x8010 = some contentsWindow := by
    decide
  have hread : (contents.addObject contentsWindow).Reads
      (.resolveFault 0 0x8010 [⟨0xc0500000, 7, 0, flagAllocated, 1⟩]) := by
    intro w hw base flags hsource
    obtain rfl := Option.some.inj (hwindow.symm.trans hw)
    obtain ⟨rfl, rfl⟩ := Source.physical.inj hsource
    exact ⟨_, rfl, by decide, by decide⟩
  have hmem : contentsWindow ∈ ((contents.addObject contentsWindow).maps 0).windows := by decide
  exact (window_shows_storage hms hrun hmem (by decide) (by decide) rfl rfl (by decide)).2
    (by decide) (by decide) _ (by decide) hread

end Vm

end Cantos
