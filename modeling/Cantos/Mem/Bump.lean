import Cantos.Mem.Frames
import Cantos.Mem.Regions

/-!
# Where bump allocation hands out frames

On every memory map of disjoint regions, and for every sequence of `alloc_nokmalloc` calls
behind `page::init`, every call panics or hands out frames of usable memory that no earlier
call has handed out, as long as `page::init` starts in the region the kernel ends in and
every call meets the condition `MapWalk.Clear`.

Three kinds of input are left out by it: requests that end at or behind 4 GiB, where
`allocation_pointer + size` wraps; regions whose base is on no page boundary, or whose end
wraps; and requests that use up the last region of type 1.

## Main definitions

* `MapWalk.Usable`: what is asked of the runs handed out.
* `StartsRight`, `MapWalk.Clear`: the conditions.
* `MapWalk.Walking`: the invariant.
-/

namespace Cantos

open Exec

/-- The address `a` lies in the region. -/
def Entry.Covers (e : Entry) (a : ℕ) : Prop := e.base ≤ a ∧ a < e.base + e.length

/-- The regions share no address. -/
def Entry.Apart (e e' : Entry) : Prop := ∀ a, e.Covers a → ¬ e'.Covers a

/-- Regions are apart when one is empty or ends before the other. -/
theorem Entry.apart_of_le {e e' : Entry} (h : e.length = 0 ∨ e'.length = 0 ∨
    e.base + e.length ≤ e'.base ∨ e'.base + e'.length ≤ e.base) : e.Apart e' := by
  intro a ha ha'
  have h₁ := ha.2
  have h₂ := ha.1
  have h₃ := ha'.2
  have h₄ := ha'.1
  omega

/-- The address `a` lies in a frame of the run. -/
def Page.Covers (page : Page) (a : ℕ) : Prop := page.memBase ≤ a ∧ a < page.runEnd

/-- The run lies in the region of type 1, behind the kernel if the kernel ends in it. -/
structure Page.InRegion (page : Page) (kernel : ℕ) (e : Entry) : Prop where
  type : e.type = 1
  base : e.base ≤ page.memBase
  finish : page.runEnd ≤ e.base + e.length
  behind : e.Covers kernel → kernel ≤ page.memBase

theorem Page.InRegion.covers {page : Page} {kernel a : ℕ} {e : Entry}
    (h : page.InRegion kernel e) (ha : page.Covers a) : e.Covers a :=
  ⟨h.base.trans ha.1, ha.2.trans_le h.finish⟩

/-- What is asked of the runs handed out, for a kernel that ends at `kernel`. -/
structure MapWalk.Usable (memTable : List Entry) (kernel : ℕ) (w : MapWalk) : Prop where
  aligned : ∀ page ∈ w.runs, page.memBase % pageSize = 0
  below : ∀ page ∈ w.runs, page.runEnd ≤ 2 ^ 32
  region : ∀ page ∈ w.runs, ∃ e ∈ memTable, page.InRegion kernel e
  apart : w.runs.Pairwise fun page page' => ∀ a, page.Covers a → ¬ page'.Covers a

/-- The region that `page::init` starts in is the usable one that the kernel ends in, on a
page boundary. -/
def StartsRight (memTable : List Entry) (kernel : ℕ) : Prop :=
  kernel % pageSize = 0 ∧ ∃ e ∈ memTable.find? fun e => kernel ≤ e.finish,
    e.type = 1 ∧ e.base ≤ kernel ∧ 0 < e.length ∧ e.base + e.length < 2 ^ 64

instance (memTable : List Entry) (kernel : ℕ) : Decidable (StartsRight memTable kernel) :=
  inferInstanceAs (Decidable (_ ∧ ∃ _ ∈ _, _))

/-- The region behind the current one, where there is one below 4 GiB, is on page boundaries
and does not wrap. -/
def PageState.NextClear (p : PageState) : Prop :=
  ∃ e ∈ (p.memTable.drop (p.currentMap + 1)).find? fun e => e.type = 1,
    e.base < 2 ^ 32 → e.base % pageSize = 0 ∧ e.base + e.length < 2 ^ 64

instance (p : PageState) : Decidable p.NextClear := inferInstanceAs (Decidable (∃ _ ∈ _, _))

/-- A call of `alloc_nokmalloc`, with its flags and count. -/
def MapWalk.alloc (w : MapWalk) (c : Flags × ℕ) : Option MapWalk := w.step (.allocNokmalloc c.1 c.2)

/-- The request ends below 4 GiB, and where it uses up the current region the next one is
clear. -/
def MapWalk.Clear (w : MapWalk) (c : Flags × ℕ) : Prop :=
  w.mem.page.allocationPointer + mul32 c.2 pageSize < 2 ^ 32 ∧
    ((MapCall.allocNokmalloc c.1 c.2).UsesUp w.mem → w.mem.page.NextClear)

instance (w : MapWalk) (c : Flags × ℕ) : Decidable (w.Clear c) := inferInstanceAs (Decidable (_ ∧ _))

/-! ## One run -/

section Run
variable {e : Entry} {pointer count : ℕ}

/-- A run stays in its region. -/
theorem add_bumpSize_le (hle : pointer ≤ e.finish)
    (hwrap : pointer + mul32 count pageSize < 2 ^ 32) :
    pointer + bumpSize e pointer count ≤ e.finish := by
  have hadd : add32 pointer (mul32 count pageSize) = pointer + mul32 count pageSize :=
    Nat.mod_eq_of_lt hwrap
  rw [bumpSize, hadd]
  split_ifs with hused <;> omega

/-- A run that leaves something of its region is the whole request, and ends before it. -/
theorem add_lt_of_not_usedUp (hunused : ¬ e.UsedUp pointer count)
    (hwrap : pointer + mul32 count pageSize < 2 ^ 32) :
    bumpSize e pointer count = mul32 count pageSize ∧
      add32 pointer (mul32 count pageSize) = pointer + mul32 count pageSize ∧
      pointer + mul32 count pageSize < e.finish := by
  have hadd : add32 pointer (mul32 count pageSize) = pointer + mul32 count pageSize :=
    Nat.mod_eq_of_lt hwrap
  rw [Entry.UsedUp, hadd] at hunused
  exact ⟨if_neg (by rwa [hadd]), hadd, not_le.mp hunused⟩

theorem runEnd_bumpRun_le (flags : Flags) (count : ℕ) (e : Entry) (s : Mem) :
    (s.bumpRun flags count e).runEnd ≤
      s.page.allocationPointer + bumpSize e s.page.allocationPointer count :=
  Nat.add_le_add_left (Nat.div_mul_le_self _ _) _

theorem mul32_pageSize_mod (count : ℕ) : mul32 count pageSize % pageSize = 0 := by
  simp only [mul32, sizes]
  omega

end Run

/-! ## The walk -/

/-- The walk is in the region `e` at `current_map`, and every run comes from it, below the
allocation pointer, or from an earlier region. -/
structure MapWalk.Walking (memTable : List Entry) (kernel : ℕ) (w : MapWalk) (e : Entry) : Prop where
  ready : w.mem.Ready
  table : w.mem.page.memTable = memTable
  current : memTable[w.mem.page.currentMap]? = some e
  type : e.type = 1
  base : e.base ≤ w.mem.page.allocationPointer
  finish : w.mem.page.allocationPointer ≤ e.base + e.length
  noWrap : e.base + e.length < 2 ^ 64
  aligned : w.mem.page.allocationPointer % pageSize = 0
  behind : e.Covers kernel → kernel ≤ w.mem.page.allocationPointer
  /-- The kernel ends in this region or in an earlier one. -/
  start : ∃ i e₀, memTable[i]? = some e₀ ∧ i ≤ w.mem.page.currentMap ∧ e₀.base ≤ kernel ∧
    kernel ≤ e₀.base + e₀.length ∧ 0 < e₀.length
  runs : ∀ page ∈ w.runs, page.memBase % pageSize = 0 ∧ page.runEnd ≤ 2 ^ 32 ∧
    ∃ i e', memTable[i]? = some e' ∧ i ≤ w.mem.page.currentMap ∧ page.InRegion kernel e' ∧
      (i = w.mem.page.currentMap → page.runEnd ≤ w.mem.page.allocationPointer)
  apart : w.runs.Pairwise fun page page' => ∀ a, page.Covers a → ¬ page'.Covers a

namespace MapWalk
variable {memTable : List Entry} {kernel : ℕ} {w w' : MapWalk} {e : Entry}

theorem Walking.usable (h : w.Walking memTable kernel e) : w.Usable memTable kernel where
  aligned page hpage := (h.runs page hpage).1
  below page hpage := (h.runs page hpage).2.1
  region page hpage := by
    obtain ⟨-, -, i, e', he', -, hin, -⟩ := h.runs page hpage
    exact ⟨e', List.mem_of_getElem? he', hin⟩
  apart := h.apart

theorem apart_of_lt (hapart : memTable.Pairwise Entry.Apart) {i j : ℕ} {e e' : Entry} (hij : i < j)
    (he : memTable[i]? = some e) (he' : memTable[j]? = some e') : e.Apart e' := by
  obtain ⟨hi, rfl⟩ := List.getElem?_eq_some_iff.mp he
  obtain ⟨hj, rfl⟩ := List.getElem?_eq_some_iff.mp he'
  exact List.pairwise_iff_getElem.mp hapart i j hi hj hij

/-- The kernel cannot end in a later region than the one the walk has started in. -/
theorem Walking.kernel_le (h : w.Walking memTable kernel e)
    (hapart : memTable.Pairwise Entry.Apart) {j : ℕ} {e' : Entry} (hj : w.mem.page.currentMap < j)
    (he' : memTable[j]? = some e') (hcovers : e'.Covers kernel) : kernel ≤ e'.base := by
  obtain ⟨i, e₀, he₀, hi, hbase, hfinish, hpos⟩ := h.start
  have hlt := apart_of_lt hapart (hi.trans_lt hj) he₀ he'
  by_contra hgt
  rcases hfinish.eq_or_lt with heq | hin
  · -- The last byte of the kernel's region lies in the other one.
    have hcovers₀ : e₀.Covers (kernel - 1) := ⟨by omega, by omega⟩
    exact hlt _ hcovers₀ ⟨by omega, by have := hcovers.2; omega⟩
  · exact hlt _ ⟨hbase, hin⟩ hcovers

/-- The run that a call hands out. -/
theorem Walking.bumpRun (h : w.Walking memTable kernel e) {count : ℕ} (flags : Flags)
    (hwrap : w.mem.page.allocationPointer + mul32 count pageSize < 2 ^ 32) :
    (w.mem.bumpRun flags count e).memBase % pageSize = 0 ∧
      (w.mem.bumpRun flags count e).runEnd ≤ 2 ^ 32 ∧
      (w.mem.bumpRun flags count e).InRegion kernel e := by
  have hfin : e.finish = e.base + e.length := Nat.mod_eq_of_lt h.noWrap
  have hle := runEnd_bumpRun_le flags count e w.mem
  have hin := add_bumpSize_le (h.finish.trans_eq hfin.symm) hwrap
  have hsize : bumpSize e w.mem.page.allocationPointer count ≤ mul32 count pageSize :=
    bumpSize_le (h.finish.trans_eq hfin.symm)
  exact ⟨h.aligned, by omega, h.type, h.base, by omega, h.behind⟩

/-- No earlier run shares a frame with it. -/
theorem Walking.apart_bumpRun (h : w.Walking memTable kernel e)
    (hapart : memTable.Pairwise Entry.Apart) {page page' : Page}
    (hbase : page.memBase = w.mem.page.allocationPointer) (hin : page.InRegion kernel e)
    (hpage' : page' ∈ w.runs) {a : ℕ} (ha : page.Covers a) : ¬ page'.Covers a := by
  intro ha'
  obtain ⟨-, -, i, e', he', hi, hin', hbelow⟩ := h.runs page' hpage'
  rcases hi.eq_or_lt with heq | hlt
  · have hle := hbelow heq
    have h₁ := ha.1
    have h₂ := ha'.2
    omega
  · exact apart_of_lt hapart hlt he' h.current a (hin'.covers ha') (hin.covers ha)

theorem find?_of_next {p : PageState} {j : ℕ} (h : p.Next j e) :
    (p.memTable.drop (p.currentMap + 1)).find? (fun e => e.type = 1) = some e := by
  obtain ⟨hj, rfl⟩ := List.getElem?_eq_some_iff.mp h.entry
  have hlater := h.later
  have hdrop : p.currentMap + 1 + (j - (p.currentMap + 1)) = j := by omega
  refine List.find?_eq_some_iff_getElem.mpr ⟨by simpa using h.type, j - (p.currentMap + 1), ?_, ?_, ?_⟩
  · rw [List.length_drop]
    omega
  · simp only [List.getElem_drop, hdrop]
  · intro i hi
    have hlt : p.currentMap + 1 + i < p.memTable.length := by omega
    rw [List.getElem_drop]
    have htype := h.first (p.currentMap + 1 + i) _ (by omega) (by omega)
      (List.getElem?_eq_getElem hlt)
    simpa using htype

/-- The walk after a run has been handed out, with the pointer in the region `e'`. -/
theorem Walking.handed (h : w.Walking memTable kernel e) (hapart : memTable.Pairwise Entry.Apart)
    {flags : Flags} {count j pointer : ℕ} {e' : Entry} {trace : List Event}
    (hwrap : w.mem.page.allocationPointer + mul32 count pageSize < 2 ^ 32)
    (he' : memTable[j]? = some e') (hj : w.mem.page.currentMap ≤ j) (htype : e'.type = 1)
    (hbase : e'.base ≤ pointer) (hfinish : pointer ≤ e'.base + e'.length)
    (hnoWrap : e'.base + e'.length < 2 ^ 64) (haligned : pointer % pageSize = 0)
    (hlt : pointer < 2 ^ 32) (hbehind : e'.Covers kernel → kernel ≤ pointer)
    (hsame : j = w.mem.page.currentMap → w.mem.page.allocationPointer ≤ pointer ∧
      (w.mem.bumpRun flags count e).runEnd ≤ pointer) :
    Walking memTable kernel
      ⟨w.mem.handed j pointer trace, w.mem.bumpRun flags count e :: w.runs⟩ e' := by
  obtain ⟨haligned', hbelow, hin⟩ := h.bumpRun flags hwrap
  have hj' : j < w.mem.page.memTable.length :=
    h.table ▸ (List.getElem?_eq_some_iff.mp he').1
  refine ⟨⟨rfl, h.ready.table, hj'.trans_eq h.ready.table, hlt⟩, h.table, he', htype, hbase,
    hfinish, hnoWrap, haligned, hbehind, ?_, ?_, ?_⟩
  · obtain ⟨i, e₀, he₀, hi, hstart⟩ := h.start
    exact ⟨i, e₀, he₀, hi.trans hj, hstart⟩
  · intro page hpage
    rcases List.mem_cons.mp hpage with rfl | hold
    · exact ⟨haligned', hbelow, _, e, h.current, hj, hin, fun heq => (hsame heq.symm).2⟩
    · obtain ⟨hmod, hle, i, e₁, he₁, hi, hin₁, hend⟩ := h.runs page hold
      refine ⟨hmod, hle, i, e₁, he₁, hi.trans hj, hin₁, fun heq => ?_⟩
      -- The region is the same only if the walk has not moved.
      obtain rfl : i = j := heq
      have hcur : w.mem.page.currentMap = i := le_antisymm hj hi
      exact (hend hcur.symm).trans (hsame hcur.symm).1
  · refine List.pairwise_cons.mpr ⟨fun page hpage a ha => ?_, h.apart⟩
    exact h.apart_bumpRun hapart rfl hin hpage ha

/-- The step: a call that meets the condition panics, or keeps the invariant. -/
theorem Walking.alloc (h : w.Walking memTable kernel e) (hapart : memTable.Pairwise Entry.Apart)
    {c : Flags × ℕ} (hclear : w.Clear c) :
    (∃ msg t, (MapCall.allocNokmalloc c.1 c.2).exec.Stops w.mem (.panic msg) t) ∨
      ∃ w' e', w.alloc c = some w' ∧ w'.Walking memTable kernel e' := by
  obtain ⟨flags, count⟩ := c
  have hwrap : w.mem.page.allocationPointer + mul32 count pageSize < 2 ^ 32 := hclear.1
  have he : w.mem.page.memTable[w.mem.page.currentMap]? = some e := by rw [h.table, h.current]
  have hfin : e.finish = e.base + e.length := Nat.mod_eq_of_lt h.noWrap
  cases h.ready.outcome flags count he with
  | far _ _ _ stops => exact .inl ⟨_, _, stops⟩
  | ends used last _ =>
    obtain ⟨e', he', -⟩ := hclear.2 ⟨e, he, used⟩
    exact absurd ⟨e', List.mem_of_find?_eq_some he', by simpa using List.find?_some he'⟩ last
  | stays unused returns =>
    obtain ⟨hsize, hadd, hlt⟩ := add_lt_of_not_usedUp unused hwrap
    have hend := runEnd_bumpRun_le flags count e w.mem
    have hmod := mul32_pageSize_mod count
    have haligned := h.aligned
    have hbase := h.base
    simp only [sizes] at hmod haligned hwrap hlt hend hsize hadd
    refine .inr ⟨_, e, MapWalk.step_of_returns returns, h.handed hapart hclear.1 h.current le_rfl
      h.type ?_ ?_ h.noWrap ?_ (add32_lt _ _) ?_ ?_⟩
    · simp only [sizes]
      omega
    · simp only [sizes]
      omega
    · simp only [sizes]
      omega
    · intro hcovers
      have hle := h.behind hcovers
      simp only [sizes]
      omega
    · intro _
      simp only [sizes]
      omega
  | moves used next base returns =>
    rename_i j e' trace
    obtain ⟨e'', he'', hclear'⟩ := hclear.2 ⟨e, he, used⟩
    obtain rfl := Option.some.inj ((find?_of_next next).symm.trans he'')
    obtain ⟨haligned, hnoWrap⟩ := hclear' base
    have he' : memTable[j]? = some e' := h.table ▸ next.entry
    refine .inr ⟨_, e', MapWalk.step_of_returns returns, h.handed hapart hwrap he' next.later.le
      next.type le_rfl (Nat.le_add_right _ _) hnoWrap haligned base ?_ ?_⟩
    · exact h.kernel_le hapart next.later he'
    · intro heq
      exact absurd heq next.later.ne'

/-- The walk that starts at the end of the kernel. -/
theorem walking_started {i : ℕ} (hready : (boot memTable).mem.Ready)
    (h : StartsAt memTable kernel i e) (hlt : kernel < 2 ^ 32) (haligned : kernel % pageSize = 0)
    (htype : e.type = 1) (hbase : e.base ≤ kernel) (hpos : 0 < e.length)
    (hnoWrap : e.base + e.length < 2 ^ 64) (cursor vmEnd : ℕ) :
    Walking memTable kernel ⟨(bootMem memTable).started kernel i cursor vmEnd, []⟩ e := by
  have hi : i < memTable.length := (List.getElem?_eq_some_iff.mp h.entry).1
  have hreaches : kernel ≤ e.base + e.length := h.reaches.trans_eq (Nat.mod_eq_of_lt hnoWrap)
  obtain ⟨hstarted, -⟩ := hready.started (hi.trans_eq hready.table) hlt cursor vmEnd
  refine ⟨hstarted, rfl, h.entry, htype, hbase, hreaches, hnoWrap, haligned, fun _ => le_rfl,
    ⟨i, e, h.entry, le_rfl, hbase, hreaches, hpos⟩, ?_, List.Pairwise.nil⟩
  intro page hpage
  cases hpage

/-- What `page::init` leaves behind. -/
theorem walking_init (vmEnd : BitVec 32) (htable : memTable.length = localMmCount)
    (hstart : StartsRight memTable (kernelEnd vmEnd))
    (hstep : (boot memTable).step (.init vmEnd) = some w) :
    ∃ e, w.Walking memTable (kernelEnd vmEnd) e := by
  obtain ⟨haligned, e, he, htype, hbase, hpos, hnoWrap⟩ := hstart
  obtain ⟨hreach, i, hi, rfl, hfirst⟩ := List.find?_eq_some_iff_getElem.mp he
  have hstarts : StartsAt memTable (kernelEnd vmEnd) i memTable[i] := by
    refine ⟨List.getElem?_eq_getElem hi, by simpa using hreach, fun j e' hj he' => ?_⟩
    obtain ⟨hj', rfl⟩ := List.getElem?_eq_some_iff.mp he'
    simpa using hfirst j hj
  rw [step_of_returns (init_of_start hstarts)] at hstep
  obtain rfl := Option.some.inj hstep
  exact ⟨_, walking_started (boot_ready htable) hstarts (kernelEnd_lt vmEnd) haligned htype hbase
    hpos hnoWrap _ _⟩

theorem walking_run {calls : List (Flags × ℕ)} (h : w.Walking memTable kernel e)
    (hapart : memTable.Pairwise Entry.Apart) (hclear : Steps.Along alloc Clear w calls)
    (hrun : Steps.run alloc w calls = some w') : ∃ e', w'.Walking memTable kernel e' := by
  refine Steps.invariant (I := fun w => ∃ e, w.Walking memTable kernel e) ?_ ⟨e, h⟩ hclear hrun
  rintro w c w' ⟨e, h⟩ hc hstep
  rcases h.alloc hapart hc with ⟨msg, t, ht⟩ | ⟨w'', e', hstep', h'⟩
  · obtain ⟨page, hret, -⟩ := step_returns hstep
    exact absurd ht hret.not_stops
  · obtain rfl := Option.some.inj (hstep.symm.trans hstep')
    exact ⟨e', h'⟩

/-- On every memory map of disjoint regions and for every sequence of calls behind
`page::init` that meet the conditions: the runs handed out are usable, and the next call
panics or hands out another one. -/
theorem usable_run {w₀ : MapWalk} {vmEnd : BitVec 32} {calls : List (Flags × ℕ)} {c : Flags × ℕ}
    (htable : memTable.length = localMmCount) (hapart : memTable.Pairwise Entry.Apart)
    (hstart : StartsRight memTable (kernelEnd vmEnd))
    (hinit : (boot memTable).step (.init vmEnd) = some w₀)
    (hclear : Steps.Along alloc Clear w₀ (calls ++ [c]))
    (hrun : Steps.run alloc w₀ calls = some w) :
    w.Usable memTable (kernelEnd vmEnd) ∧
      ((∃ msg t, (MapCall.allocNokmalloc c.1 c.2).exec.Stops w.mem (.panic msg) t) ∨
        ∃ w', w.alloc c = some w' ∧ w'.Usable memTable (kernelEnd vmEnd)) := by
  obtain ⟨e₀, h₀⟩ := walking_init vmEnd htable hstart hinit
  obtain ⟨e, h⟩ := walking_run h₀ hapart hclear.left hrun
  refine ⟨h.usable, ?_⟩
  rcases h.alloc hapart (hclear.last hrun) with hpanic | ⟨w', e', hstep, h'⟩
  · exact .inl hpanic
  · exact .inr ⟨w', hstep, h'.usable⟩

/-- Two usable regions in the order of their addresses, the rest of the table zero. -/
def twoRegions : List Entry :=
  ⟨0x100000, 0x4000, 1⟩ :: ⟨0x400000, 0x1000000, 1⟩ :: List.replicate 8 ⟨0, 0, 0⟩

/-- The walk over them once `page::init` has returned, and with three frames handed out. -/
def bootedWalk : MapWalk := ((boot twoRegions).step (.init 0xc0100000)).get (by decide)

def threeWalk : MapWalk := (bootedWalk.alloc (0, 3)).get (by decide)

/-- The next call uses up the first region, and moves to the second one. -/
theorem usable_run_three : threeWalk.Usable twoRegions (kernelEnd 0xc0100000) ∧
    ((∃ msg t, (MapCall.allocNokmalloc 0 2).exec.Stops threeWalk.mem (.panic msg) t) ∨
      ∃ w', threeWalk.alloc (0, 2) = some w' ∧
        w'.Usable twoRegions (kernelEnd 0xc0100000)) := by
  have hapart : twoRegions.Pairwise Entry.Apart :=
    List.Pairwise.imp Entry.apart_of_le (by decide)
  have hinit : (boot twoRegions).step (.init 0xc0100000) = some bootedWalk :=
    (Option.some_get _).symm
  have hthree : bootedWalk.alloc (0, 3) = some threeWalk := (Option.some_get _).symm
  have hclear : Steps.Along alloc Clear bootedWalk ([(0, 3)] ++ [(0, 2)]) := by decide
  have hstart : StartsRight twoRegions (kernelEnd 0xc0100000) := by decide
  have hrun : Steps.run alloc bootedWalk [(0, 3)] = some threeWalk := by
    rw [Steps.run_cons]
    exact ⟨threeWalk, hthree, rfl⟩
  exact usable_run (c := (0, 2)) rfl hapart hstart hinit hclear hrun

/-- The same regions, with the higher one first. -/
def highFirst : List Entry :=
  ⟨0x400000, 0x1000000, 1⟩ :: ⟨0x100000, 0x4000, 1⟩ :: List.replicate 8 ⟨0, 0, 0⟩

/-- `page::init` takes the first region that does not end below the kernel for the region of
the kernel, and five frames are handed out where the kernel's region has four. -/
theorem not_usable_highFirst :
    highFirst.Pairwise Entry.Apart ∧ ∃ w,
      Steps.run step (boot highFirst) [.init 0xc0100000, .allocNokmalloc 0 5] = some w ∧
        ¬ w.Usable highFirst (kernelEnd 0xc0100000) := by
  refine ⟨List.Pairwise.imp Entry.apart_of_le (by decide), ?_⟩
  have hruns : (Steps.run step (boot highFirst) [.init 0xc0100000, .allocNokmalloc 0 5]).map runs =
      some [⟨0, 0, 0x100000, 1, 5⟩] := by decide
  obtain ⟨w, hw, hruns⟩ := Option.map_eq_some_iff.mp hruns
  refine ⟨w, hw, fun h => ?_⟩
  obtain ⟨e, he, hin⟩ := h.region ⟨0, 0, 0x100000, 1, 5⟩ (by simp [hruns])
  have hnone : ∀ e ∈ highFirst, e.base ≤ 0x100000 → ¬ 0x105000 ≤ e.base + e.length := by decide
  exact hnone e he hin.base hin.finish

end MapWalk

end Cantos
