import Cantos.Lib.Steps
import Cantos.Vm.Windows
import Mathlib.Data.List.TakeWhile

/-!
# The entries of an object

The entries of an object stay in the order of their offsets, apart from each other and below
the end of the object, as long as no pages are asked for inside of an entry: `generate`
shortens the request for the entry that follows it, and not for the one it begins in.

## Main definitions

* `Object.enter`: what `generate` does to the entries.
* `Object.WellFormed`: the entries are in order.
* `Object.Clear`: the requests that begin outside of the entries.

## Main results

* `Object.generate_enter`: `generate` enters what `do_generate` returns.
-/

namespace Cantos

/-- Where the pages of an entry end. -/
def PageEntry.finish (e : PageEntry) : ℕ := e.offset + Page.count e.page * pageSize

namespace Object

/-- `generate`, where `do_generate` returns `page`. -/
def enter (o : Object) (addr count : ℕ) (page : List Page) : Object :=
  if o.room addr count = 0 then o else { o with pages := link ⟨addr, page⟩ o.pages }

theorem generate_enter {depth addr count : ℕ} {o o' : Object} {s s' : Mem}
    (h : (generate depth o addr count).Returns s o' s') :
    ∃ page, o' = o.enter addr count page := by
  rw [generate] at h
  simp only [enter]
  by_cases hroom : o.room addr count = 0
  · rw [if_pos hroom] at h
    exact ⟨[], by rw [if_pos hroom]; exact (Exec.returns_pure.mp h).1⟩
  · rw [if_neg hroom] at h
    obtain ⟨page, s₁, -, hret⟩ := Exec.returns_bind.mp h
    exact ⟨page, by rw [if_neg hroom]; exact (Exec.returns_pure.mp hret).1⟩

/-- The pages of the entries are in order, apart, and below the end of the object. -/
structure WellFormed (o : Object) : Prop where
  increasing : o.pages.Pairwise fun e e' => e.offset < e'.offset
  disjoint : o.pages.Pairwise PageEntry.Apart
  below : ∀ e ∈ o.pages, e.finish ≤ o.maxPages * pageSize

/-- Frame `k` of entry `e` is at address `a` of the object. -/
def FrameAt (o : Object) (a : ℕ) (e : PageEntry) (k : ℕ) : Prop :=
  e ∈ o.pages ∧ k < Page.count e.page ∧ a = e.offset + k * pageSize

/-- Nothing is lost from `o` to the later `o'`, which is well formed and has one frame for a
page of the object at most: that of `o`, when it has one. -/
structure Keeps (o o' : Object) : Prop where
  wellFormed : o'.WellFormed
  kept : ∀ e ∈ o.pages, e ∈ o'.pages
  once : ∀ a e k e' k', o.FrameAt a e k → o'.FrameAt a e' k' → e = e' ∧ k = k'

/-- `generate(addr, count)`, where `do_generate` returns `page`. -/
structure Request where
  addr : ℕ
  count : ℕ
  page : List Page
  deriving DecidableEq

/-- A request at a page address, for which `do_generate` returns as many pages as it is asked
for. -/
def step (o : Object) (r : Request) : Option Object :=
  if r.addr % pageSize = 0 ∧ Page.count r.page = o.room r.addr r.count then
    some (o.enter r.addr r.count r.page)
  else none

/-- The request makes no pages, or it begins behind the entry in front of it, and does not
reach the end of a `uint32_t`. -/
def Clear (o : Object) (r : Request) : Prop :=
  o.room r.addr r.count = 0 ∨ (∀ e ∈ o.pages, e.offset < r.addr → e.finish ≤ r.addr) ∧
    r.addr / pageSize + r.count < 2 ^ 32 ∧
      r.addr + min r.count (o.maxPages - r.addr / pageSize) * pageSize < 2 ^ 32

instance (o : Object) : DecidablePred o.Clear := fun _ => inferInstanceAs (Decidable (_ ∨ _))

section Generate
variable {o o' : Object} {r : Request} {addr count : ℕ} {page : List Page}

/-- What is made lies below the end of the object, and in front of every entry that does not
begin before it. -/
theorem room_spec (h : o.WellFormed) (ha : addr % pageSize = 0)
    (hwrap : addr / pageSize + count < 2 ^ 32)
    (hwrap' : addr + min count (o.maxPages - addr / pageSize) * pageSize < 2 ^ 32)
    (hroom : o.room addr count ≠ 0) :
    addr + o.room addr count * pageSize ≤ o.maxPages * pageSize ∧
      ∀ e ∈ o.pages, ¬ e.offset < addr → addr + o.room addr count * pageSize ≤ e.offset := by
  have hindex : add32 (addr / pageSize) count = addr / pageSize + count := Nat.mod_eq_of_lt hwrap
  have hcap : addr / pageSize ≤ o.maxPages := by
    by_contra hover
    exact hroom (by rw [room, hindex]; exact if_pos (by omega))
  -- The number of pages after the cut at the end of the object.
  have hcount : (if add32 (addr / pageSize) count > o.maxPages then o.maxPages - addr / pageSize
      else count) = min count (o.maxPages - addr / pageSize) := by
    rw [hindex]
    split_ifs <;> omega
  have hmax : addr + min count (o.maxPages - addr / pageSize) * pageSize ≤
      o.maxPages * pageSize := by
    simp only [sizes] at *
    omega
  have hend : add32 addr (mul32 (min count (o.maxPages - addr / pageSize)) pageSize) =
      addr + min count (o.maxPages - addr / pageSize) * pageSize := by
    rw [mul32, Nat.mod_eq_of_lt (by omega), add32, Nat.mod_eq_of_lt hwrap']
  have hinside : ¬ (add32 (addr / pageSize) count > o.maxPages ∧ addr / pageSize > o.maxPages) := by
    omega
  have heq : o.room addr count = _ := if_neg hinside
  simp only [hcount, hend] at heq
  generalize min count (o.maxPages - addr / pageSize) = c at hmax heq
  cases hfind : o.pages.find? (fun next => ¬ next.offset < addr) with
  | none =>
    simp only [hfind] at heq
    rw [heq]
    refine ⟨hmax, fun e he hge => ?_⟩
    have hnone := List.find?_eq_none.mp hfind e he
    simp [hge] at hnone
  | some next =>
    simp only [hfind] at heq
    -- The first entry that does not begin before the request.
    have hfirst : ∀ e ∈ o.pages, ¬ e.offset < addr → next.offset ≤ e.offset := by
      intro e he hge
      obtain ⟨-, pre, post, hsplit, hpre⟩ := List.find?_eq_some_iff_append.mp hfind
      have hsorted := h.increasing
      rw [hsplit, List.pairwise_append, List.pairwise_cons] at hsorted
      rw [hsplit] at he
      rcases List.mem_append.mp he with he | he
      · have hlt := hpre e he
        simp [hge] at hlt
      · rcases List.mem_cons.mp he with rfl | he
        · exact Nat.le_refl _
        · exact Nat.le_of_lt (hsorted.2.1.1 e he)
    have hge : ¬ next.offset < addr := by simpa using List.find?_some hfind
    have hle : addr + o.room addr count * pageSize ≤ next.offset ∧ o.room addr count ≤ c := by
      by_cases hover : addr + c * pageSize ≥ next.offset
      · rw [if_pos hover] at heq
        rw [heq]
        simp only [sizes] at hover ⊢
        omega
      · rw [if_neg hover] at heq
        rw [heq]
        omega
    refine ⟨?_, fun e he hge' => hle.1.trans (hfirst e he hge')⟩
    exact (Nat.add_le_add_left (Nat.mul_le_mul_right pageSize hle.2) addr).trans hmax

theorem mem_enter {e : PageEntry} (hroom : o.room addr count ≠ 0) :
    e ∈ (o.enter addr count page).pages ↔ e = ⟨addr, page⟩ ∨ e ∈ o.pages := by
  rw [enter, if_neg hroom, (link_perm _ _).mem_iff, List.mem_cons]

/-- In the order of offsets, no entry behind the first that does not begin before `addr`
does. -/
theorem not_lt_of_mem_dropWhile {pages : List PageEntry} {e : PageEntry}
    (h : pages.Pairwise fun e e' => e.offset < e'.offset)
    (he : e ∈ pages.dropWhile fun next => next.offset < addr) : ¬ e.offset < addr := by
  induction pages with
  | nil => cases he
  | cons next rest ih =>
    rw [List.pairwise_cons] at h
    by_cases hlt : next.offset < addr
    · rw [List.dropWhile_cons_of_pos (by simpa using hlt)] at he
      exact ih h.2 he
    · rw [List.dropWhile_cons_of_neg (by simpa using hlt)] at he
      rcases List.mem_cons.mp he with rfl | he
      · exact hlt
      · have := h.1 e he
        omega

theorem enter_wellFormed (h : o.WellFormed) (ha : r.addr % pageSize = 0)
    (hpage : Page.count r.page = o.room r.addr r.count) (hclear : o.Clear r) :
    (o.enter r.addr r.count r.page).WellFormed := by
  by_cases hroom : o.room r.addr r.count = 0
  · rw [enter, if_pos hroom]
    exact h
  · obtain ⟨hfront, hwrap, hwrap'⟩ := hclear.resolve_left hroom
    obtain ⟨hbelow, hbehind⟩ := room_spec h ha hwrap hwrap' hroom
    have hpos : 0 < o.room r.addr r.count * pageSize := Nat.mul_pos (by omega) (by decide)
    have hl := List.takeWhile_append_dropWhile
      (p := fun next : PageEntry => decide (next.offset < r.addr)) (l := o.pages)
    refine ⟨?_, ?_, fun e he => ?_⟩
    · rw [enter, if_neg hroom]
      have hsorted := h.increasing
      rw [← hl, List.pairwise_append] at hsorted
      rw [link, List.pairwise_append, List.pairwise_cons]
      refine ⟨hsorted.1, ⟨fun e he => ?_, hsorted.2.1⟩, fun e he e' he' => ?_⟩
      · have hge := not_lt_of_mem_dropWhile h.increasing he
        have hle := hbehind e (List.dropWhile_subset _ he) hge
        change r.addr < e.offset
        omega
      · have hlt : e.offset < r.addr := by simpa using List.mem_takeWhile_imp he
        rcases List.mem_cons.mp he' with rfl | he'
        · exact hlt
        · exact hsorted.2.2 e he e' he'
    · rw [enter, if_neg hroom, (link_perm _ _).pairwise_iff (Std.Symm.symm _ _), List.pairwise_cons]
      refine ⟨fun e he => ?_, h.disjoint⟩
      rw [PageEntry.Apart, hpage]
      by_cases hlt : e.offset < r.addr
      · exact .inr (hfront e he hlt)
      · exact .inl (hbehind e he hlt)
    · have hmax : (o.enter r.addr r.count r.page).maxPages = o.maxPages := by
        rw [enter, if_neg hroom]
      rw [hmax]
      rcases (mem_enter hroom).mp he with rfl | he
      · rw [PageEntry.finish, hpage]
        exact hbelow
      · exact h.below e he

theorem mem_enter_of_mem {e : PageEntry} (he : e ∈ o.pages) :
    e ∈ (o.enter addr count page).pages := by
  by_cases hroom : o.room addr count = 0
  · rwa [enter, if_pos hroom]
  · exact (mem_enter hroom).mpr (.inr he)

/-- An address has one frame in a well formed object. -/
theorem WellFormed.frame_unique (h : o.WellFormed) {a k k' : ℕ} {e e' : PageEntry}
    (hk : o.FrameAt a e k) (hk' : o.FrameAt a e' k') : e = e' ∧ k = k' := by
  obtain ⟨he, hlt, ha⟩ := hk
  obtain ⟨he', hlt', ha'⟩ := hk'
  by_cases heq : e = e'
  · subst heq
    refine ⟨rfl, ?_⟩
    simp only [sizes] at ha ha'
    omega
  · have hapart := h.disjoint.forall he he' heq
    simp only [PageEntry.Apart, sizes] at *
    omega

theorem step_eq (h : o.step r = some o') : r.addr % pageSize = 0 ∧
    Page.count r.page = o.room r.addr r.count ∧ o' = o.enter r.addr r.count r.page := by
  rw [step] at h
  split_ifs at h with hguard
  exact ⟨hguard.1, hguard.2, (Option.some.inj h).symm⟩

theorem step_wellFormed (h : o.WellFormed) (hclear : o.Clear r) (hstep : o.step r = some o') :
    o'.WellFormed := by
  obtain ⟨ha, hpage, rfl⟩ := step_eq hstep
  exact enter_wellFormed h ha hpage hclear

theorem step_kept (hstep : o.step r = some o') : ∀ e ∈ o.pages, e ∈ o'.pages := by
  obtain ⟨-, -, rfl⟩ := step_eq hstep
  exact fun e he => mem_enter_of_mem he

/-- No request of a run loses an entry. -/
theorem run_kept {rs : List Request} (hrun : Steps.run step o rs = some o') :
    ∀ e ∈ o.pages, e ∈ o'.pages := by
  induction rs generalizing o with
  | nil =>
    rw [Steps.run] at hrun
    exact Option.some.inj hrun ▸ fun e he => he
  | cons r rs ih =>
    obtain ⟨t, ht, hrest⟩ := Steps.run_cons.mp hrun
    exact fun e he => ih hrest e (step_kept ht e he)

end Generate

/-- An object that has no pages yet. -/
def blank (source : Source) (maxPages : ℕ) : Object := ⟨source, maxPages, []⟩

theorem blank_wellFormed (source : Source) (maxPages : ℕ) : (blank source maxPages).WellFormed :=
  ⟨List.Pairwise.nil, List.Pairwise.nil, by simp [blank]⟩

/-- In a run of clear requests, every later object keeps what an earlier one has. -/
theorem keeps_run {source : Source} {maxPages : ℕ} {o o' : Object} {rs rs' : List Request}
    (hclear : Steps.Along step Clear (blank source maxPages) (rs ++ rs'))
    (hrun : Steps.run step (blank source maxPages) rs = some o)
    (hrun' : Steps.run step o rs' = some o') : Keeps o o' := by
  have hstep : ∀ (o : Object) (r : Request) (o' : Object), o.WellFormed → o.Clear r →
      o.step r = some o' → o'.WellFormed := fun _ _ _ => step_wellFormed
  have ho : o.WellFormed :=
    Steps.invariant hstep (blank_wellFormed source maxPages) hclear.left hrun
  have ho' : o'.WellFormed := Steps.invariant hstep ho (hclear.right hrun) hrun'
  refine ⟨ho', run_kept hrun', fun a e k e' k' hk hk' => ?_⟩
  exact ho'.frame_unique ⟨run_kept hrun' e hk.1, hk.2⟩ hk'

/-- The second request is cut short by the page of the first. -/
def cutShort : List Request :=
  [⟨0x2000, 1, [⟨0, 0, 0x200000, 0, 1⟩]⟩, ⟨0, 3, [⟨0, 0, 0x300000, 0, 2⟩]⟩]

theorem keeps_cutShort : ∃ o, Steps.run step (blank .empty 5) cutShort = some o ∧
    Keeps (blank .empty 5) o := by
  have hrun : (Steps.run step (blank .empty 5) cutShort).isSome := by decide
  obtain ⟨o, ho⟩ := Option.isSome_iff_exists.mp hrun
  exact ⟨o, ho, @keeps_run .empty 5 _ o [] cutShort (by decide) rfl ho⟩

/-- A page is asked for in the middle of an entry of two pages. -/
def inside : List Request :=
  [⟨0, 2, [⟨0, 0, 0x200000, 0, 2⟩]⟩, ⟨0x1000, 1, [⟨0, 0, 0x300000, 0, 1⟩]⟩]

theorem not_keeps_inside : ∃ o, Steps.run step (blank .empty 5) inside = some o ∧
    ¬ Keeps (blank .empty 5) o := by
  have hrun : ∃ o ∈ Steps.run step (blank .empty 5) inside,
      o.pages = [⟨0, [⟨0, 0, 0x200000, 0, 2⟩]⟩, ⟨0x1000, [⟨0, 0, 0x300000, 0, 1⟩]⟩] := by
    decide
  obtain ⟨o, ho, hpages⟩ := hrun
  refine ⟨o, ho, fun h => ?_⟩
  have hdisjoint := h.wellFormed.disjoint
  rw [hpages] at hdisjoint
  revert hdisjoint
  decide

end Object

end Cantos
