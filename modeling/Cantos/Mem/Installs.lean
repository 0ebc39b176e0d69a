import Cantos.Mem.Bookkeeping

/-!
# Concurrent installs

Calls of `kinstall`, `kinstall_append` and `kuninstall` on several CPUs, as the critical
sections of `kmem::mutex` in any order.  `kinstall` has one, and goes on with
`kinstall_append` when no hole is large enough; `kinstall_append` and `kuninstall` have one for
every run of the chain, and between two of them another CPU can map pages at
`virtual_pointer`.

`kinstall` reads `empty_slot` before it takes the lock, and by then the holes can be others.

## Main definitions

* `Page.kinstallSection`: the critical section of `kinstall`.
* `Installs`, `Installs.step`: the calls in progress, and the next section of one of them.
* `Installs.Undisturbed`: no other call comes between two runs of a chain.

## Main results

* `kinstall_eq`, `kinstallAppend_cons`, `kuninstall_cons`: the calls are their sections.
-/

namespace Cantos

open Exec Linked Runs

/-- `empty_slot`, the address of the first record. -/
def Mem.firstSlot (s : Mem) : ℕ := s.page.emptySlot.head?.elim 0 EmptySlot.ptr

/-- The holes that `kinstall` looks at from the record at `head` on. -/
def Mem.slotsFrom (s : Mem) (head : ℕ) : List EmptySlot :=
  if head = 0 then [] else s.page.emptySlot.dropWhile (·.ptr ≠ head)

/-- The hole that `kinstall` finds. -/
def Mem.holeFrom (s : Mem) (head : ℕ) (page : List Page) : Option EmptySlot :=
  (s.slotsFrom head).find? fun slot => ¬ slot.pages < Page.count page

/-- `empty_slot` without a hole.  Where `kinstall` has passed no hole, it makes the one behind
the first one. -/
def Mem.withoutSlot (s : Mem) (head : ℕ) (slot : EmptySlot) : List EmptySlot :=
  if slot.ptr = head then (s.slotsFrom head).tail
  else unlink EmptySlot.ptr slot.ptr s.page.emptySlot

/-- The hole that `kinstall` finds is filled with runs of the same length, and when it is taken
as a whole and no hole was passed, there is none in front of it. -/
def Mem.TakesRight (s : Mem) (head : ℕ) (chain : List Page) : Prop :=
  ∀ slot ∈ s.holeFrom head chain,
    (∀ page ∈ chain, page.consecutive = Page.firstRun chain) ∧
      (slot.pages = Page.count chain → slot.ptr = head → head = s.firstSlot)

instance (s : Mem) (head : ℕ) : DecidablePred (s.TakesRight head) := fun _ =>
  inferInstanceAs (Decidable (∀ slot ∈ _, _ ∧ (_ → _ → _)))

/-- The part of `kinstall` up to `kmem::mutex.unlock()`, for the record at `head` that it has
read: the base of the hole that is filled, if one is. -/
def Page.kinstallSection (depth head : ℕ) (page : List Page) (pageFlags : ℕ) : M (Option ℕ) := do
  let totalPages := Page.count page
  mutexLock
  let s ← Exec.get
  match s.holeFrom head page with
  | some slot => do
      Page.takeSlot depth totalPages slot (s.withoutSlot head slot)
      if slot.base ≠ 0 then do
        Page.writeChain (Page.firstRun page) pageFlags page (tableIndex slot.base)
        mutexUnlock
        pure (some slot.base)
      else do
        mutexUnlock
        pure none
  | none => do
      mutexUnlock
      pure none

/-- The part of `kinstall` behind it. -/
def Page.kinstallRest (page : List Page) (pageFlags : ℕ) : Option ℕ → M ℕ
  | some base => pure base
  | none => Page.kinstallAppend page pageFlags true

section Sections
variable {depth head flags r base : ℕ} {page : Page} {chain next : List Page} {s s' : Mem}
  {slot : EmptySlot} {pre post : List EmptySlot}

theorem slotsFrom_subset : s.slotsFrom head ⊆ s.page.emptySlot := by
  rw [Mem.slotsFrom]
  split_ifs
  · exact List.nil_subset _
  · exact List.dropWhile_subset _

theorem holeFrom_mem (h : s.holeFrom head chain = some slot) :
    slot ∈ s.page.emptySlot ∧ Page.count chain ≤ slot.pages :=
  ⟨slotsFrom_subset (List.mem_of_find?_eq_some h), by simpa using List.find?_some h⟩

/-- A hole that is not taken as a whole stays in the list. -/
theorem takeSlot_rest {totalPages : ℕ} (h : slot.pages ≠ totalPages) (rest rest' : List EmptySlot) :
    Page.takeSlot depth totalPages slot rest = Page.takeSlot depth totalPages slot rest' := by
  rw [Page.takeSlot, Page.takeSlot]
  simp only [if_neg h]

/-- The first record is still the one that was read. -/
theorem slotsFrom_firstSlot (h : ∀ slot ∈ s.page.emptySlot, slot.ptr ≠ 0) :
    s.slotsFrom s.firstSlot = s.page.emptySlot := by
  rw [Mem.slotsFrom, Mem.firstSlot]
  rcases hl : s.page.emptySlot with _ | ⟨slot, post⟩
  · simp
  · have hslot : slot.ptr ≠ 0 := h slot (by simp [hl])
    simp [hslot]

/-- The hole that was found is taken off the list, unless holes in front of it are. -/
theorem withoutSlot_eq (hl : s.page.emptySlot = pre ++ slot :: post)
    (hn : (s.page.emptySlot.map EmptySlot.ptr).Nodup) (hzero : slot.ptr = head → head ≠ 0)
    (hfirst : slot.ptr = head → head = s.firstSlot) : s.withoutSlot head slot = pre ++ post := by
  rw [hl] at hn
  rw [Mem.withoutSlot]
  split_ifs with hhead
  · have hpre : pre = [] := by
      rcases pre with _ | ⟨x, pre⟩
      · rfl
      · have hx : x.ptr = slot.ptr := by
          rw [hhead, hfirst hhead, Mem.firstSlot, hl]
          rfl
        exact absurd hx ((notMem_of_nodup EmptySlot.ptr hn).1 x List.mem_cons_self)
    subst hpre
    rw [Mem.slotsFrom, if_neg (hzero hhead), hl]
    simp [hhead]
  · rw [hl, unlink_eq hn]

/-- Where the first record is the one that was read, `kinstall` is its section and the rest. -/
theorem kinstall_eq (hn : (s.page.emptySlot.map EmptySlot.ptr).Nodup)
    (hzero : ∀ slot ∈ s.page.emptySlot, slot.ptr ≠ 0) :
    Page.kinstall depth chain flags s =
      (Page.kinstallSection depth s.firstSlot chain flags >>= Page.kinstallRest chain flags) s := by
  rw [Page.kinstall, Page.kinstallSection]
  simp only [bind_bind]
  by_cases hs : s.mutex = true
  · simp only [mutexLock, Exec.bind_def, Exec.get, hs, if_true]
    rfl
  let t : Mem := { s with mutex := true }
  have hlock : mutexLock s = (.ok (), t) := by
    simp [mutexLock, Exec.bind_def, Exec.get, Exec.set, hs, t]
  have hfrom : t.slotsFrom s.firstSlot = t.page.emptySlot := slotsFrom_firstSlot (s := t) hzero
  rw [Exec.bind_def, Exec.bind_def, hlock]
  show (Exec.get >>= _) t = (Exec.get >>= _) t
  rw [Exec.bind_def, Exec.bind_def]
  simp only [Exec.get, Mem.holeFrom, hfrom]
  rcases hfind : t.page.emptySlot.find? fun slot => ¬ slot.pages < Page.count chain with _ | slot
  · simp only [hfind]
    rfl
  · have hmem : slot ∈ t.page.emptySlot := List.mem_of_find?_eq_some hfind
    obtain ⟨pre, post, hl⟩ := List.append_of_mem hmem
    have hwithout : t.withoutSlot s.firstSlot slot = pre ++ post :=
      withoutSlot_eq hl hn (fun hhead => hhead ▸ hzero slot hmem) fun _ => rfl
    have hunlink : unlink EmptySlot.ptr slot.ptr t.page.emptySlot = pre ++ post := by
      rw [hl]
      exact unlink_eq (hl ▸ hn : ((pre ++ slot :: post).map EmptySlot.ptr).Nodup)
    simp only [hfind, hunlink, hwithout]
    by_cases hbase : slot.base ≠ 0
    · simp only [if_pos hbase, bind_bind]
      rfl
    · simp only [if_neg hbase, bind_bind]
      rfl

/-- Every run of a chain has a section of its own. -/
theorem kinstallAppend_cons (hnext : next ≠ []) :
    (Page.kinstallAppend (page :: next) flags true).Returns s r s' ↔
      ∃ s₁ base, (Page.kinstallAppend [page] flags true).Returns s r s₁ ∧
        (Page.kinstallAppend next flags true).Returns
          { s₁ with trace := .appendRest true :: s₁.trace } base s' := by
  rw [Page.kinstallAppend, Page.kinstallAppend]
  constructor
  · intro h
    obtain ⟨_, s₀, hlock, h⟩ := returns_bind.mp h
    obtain ⟨first, s₁, hrun, h⟩ := returns_bind.mp h
    rw [returns_modify_bind] at h
    obtain ⟨_, s₂, hunlock, h⟩ := returns_bind.mp h
    rw [if_neg (by simpa using hnext), returns_note_bind] at h
    obtain ⟨base, s₃, hrest, hret⟩ := returns_bind.mp h
    obtain ⟨rfl, rfl⟩ := returns_pure.mp hret
    refine ⟨s₂, base, ?_, hrest⟩
    refine returns_bind.mpr ⟨_, s₀, hlock, returns_bind.mpr ⟨r, s₁, hrun, ?_⟩⟩
    rw [returns_modify_bind]
    exact returns_bind.mpr ⟨_, s₂, hunlock, returns_pure.mpr ⟨rfl, rfl⟩⟩
  · rintro ⟨s₁, base, h, hrest⟩
    obtain ⟨_, s₀, hlock, h⟩ := returns_bind.mp h
    obtain ⟨first, s₂, hrun, h⟩ := returns_bind.mp h
    rw [returns_modify_bind] at h
    obtain ⟨_, s₃, hunlock, hret⟩ := returns_bind.mp h
    obtain ⟨rfl, rfl⟩ := returns_pure.mp hret
    refine returns_bind.mpr ⟨_, s₀, hlock, returns_bind.mpr ⟨r, s₂, hrun, ?_⟩⟩
    rw [returns_modify_bind]
    refine returns_bind.mpr ⟨_, s₁, hunlock, ?_⟩
    rw [if_neg (by simpa using hnext), returns_note_bind]
    exact returns_bind.mpr ⟨base, s', hrest, returns_pure.mpr ⟨rfl, rfl⟩⟩

/-- Every run of a chain that is unmapped has a section of its own. -/
theorem kuninstall_cons (hnext : next ≠ []) {u : Unit} :
    (Page.kuninstall depth base (page :: next)).Returns s u s' ↔
      ∃ s₁, (Page.kuninstall depth base [page]).Returns s () s₁ ∧
        (Page.kuninstall depth (base + page.consecutive * pageSize) next).Returns s₁ u s' := by
  rw [Page.kuninstall, Page.kuninstall]
  constructor
  · intro h
    obtain ⟨_, s₀, hlock, h⟩ := returns_bind.mp h
    obtain ⟨newSlot, s₁, hrec, h⟩ := returns_bind.mp h
    rw [returns_get_bind] at h
    simp only [returns_set_bind] at h
    obtain ⟨base', s₂, hclear, h⟩ := returns_bind.mp h
    obtain ⟨_, s₃, hmerge, h⟩ := returns_bind.mp h
    obtain ⟨_, s₄, hmerge', h⟩ := returns_bind.mp h
    obtain ⟨_, s₅, hunlock, h⟩ := returns_bind.mp h
    rw [if_neg (by simpa using hnext), (clearRun_eq hclear).1] at h
    refine ⟨s₅, ?_, h⟩
    refine returns_bind.mpr ⟨_, s₀, hlock, returns_bind.mpr ⟨newSlot, s₁, hrec, ?_⟩⟩
    rw [returns_get_bind]
    simp only [returns_set_bind]
    refine returns_bind.mpr ⟨base', s₂, hclear, returns_bind.mpr ⟨_, s₃, hmerge, ?_⟩⟩
    refine returns_bind.mpr ⟨_, s₄, hmerge', returns_bind.mpr ⟨_, s₅, hunlock, ?_⟩⟩
    exact returns_pure.mpr ⟨rfl, rfl⟩
  · rintro ⟨s₅, h, hrest⟩
    obtain ⟨_, s₀, hlock, h⟩ := returns_bind.mp h
    obtain ⟨newSlot, s₁, hrec, h⟩ := returns_bind.mp h
    rw [returns_get_bind] at h
    simp only [returns_set_bind] at h
    obtain ⟨base', s₂, hclear, h⟩ := returns_bind.mp h
    obtain ⟨_, s₃, hmerge, h⟩ := returns_bind.mp h
    obtain ⟨_, s₄, hmerge', h⟩ := returns_bind.mp h
    obtain ⟨_, s₆, hunlock, h⟩ := returns_bind.mp h
    obtain ⟨-, rfl⟩ := returns_pure.mp h
    refine returns_bind.mpr ⟨_, s₀, hlock, returns_bind.mpr ⟨newSlot, s₁, hrec, ?_⟩⟩
    rw [returns_get_bind]
    simp only [returns_set_bind]
    refine returns_bind.mpr ⟨base', s₂, hclear, returns_bind.mpr ⟨_, s₃, hmerge, ?_⟩⟩
    refine returns_bind.mpr ⟨_, s₄, hmerge', returns_bind.mpr ⟨_, s₅, hunlock, ?_⟩⟩
    rw [if_neg (by simpa using hnext), (clearRun_eq hclear).1]
    exact hrest

end Sections

/-! ## Installations side by side -/

section Join
variable {start base flags : ℕ} {page : Page} {front back next : List Page}
  {installed : List Installation} {slots : List EmptySlot} {p : PageState}

theorem count_append : Page.count (front ++ back) = Page.count front + Page.count back := by
  induction front with
  | nil => simp [Page.count]
  | cons page front ih =>
    rw [List.cons_append, Page.count, Page.count, ih, Nat.add_assoc]

theorem entryAt_append {k : ℕ} : Page.entryAt flags (front ++ back) k =
    if k < Page.count front then Page.entryAt flags front k
    else Page.entryAt flags back (k - Page.count front) := by
  induction front generalizing k with
  | nil => simp [Page.count]
  | cons page front ih =>
    rw [List.cons_append, Page.entryAt, Page.entryAt, Page.count]
    by_cases hk : k < page.consecutive
    · rw [if_pos hk, if_pos (Nat.lt_add_right _ hk), if_pos hk]
    · rw [if_neg hk, ih, if_neg hk]
      by_cases hlt : k - page.consecutive < Page.count front
      · rw [if_pos hlt, if_pos (by omega)]
      · rw [if_neg hlt, if_neg (by omega), Nat.sub_sub]

/-- A chain that is mapped right behind another is mapped as one chain with it. -/
theorem Covers.join (h : Covers start (⟨base + Page.count front * pageSize, back, flags⟩ ::
    ⟨base, front, flags⟩ :: installed) slots p) :
    Covers start (⟨base, front ++ back, flags⟩ :: installed) slots p := by
  have ha : Aligned base := h.aligned ⟨base, front, flags⟩ (by simp)
  have hlo : Installation.lo ⟨base + Page.count front * pageSize, back, flags⟩ =
      Installation.hi ⟨base, front, flags⟩ := tableIndex_add ha
  have hhi : Installation.hi ⟨base, front ++ back, flags⟩ =
      Installation.hi ⟨base + Page.count front * pageSize, back, flags⟩ := by
    rw [Installation.hi, Installation.hi, hlo, Installation.hi]
    simp only [count_append, Installation.lo, Nat.add_assoc]
  have hlo' : Installation.lo ⟨base, front ++ back, flags⟩ =
      Installation.lo ⟨base, front, flags⟩ := rfl
  refine ⟨h.tracked, h.start_le, ?_, h.slotAligned, fun e => ?_, ?_, h.cleared⟩
  · intro i hi
    rcases List.mem_cons.mp hi with rfl | hi
    · exact ha
    · exact h.aligned i (by simp [hi])
  · have honce := h.once e
    have hle : Installation.lo ⟨base, front, flags⟩ ≤ Installation.hi ⟨base, front, flags⟩ :=
      Nat.le_add_right _ _
    have hle' : Installation.hi ⟨base, front, flags⟩ ≤
        Installation.hi ⟨base, front ++ back, flags⟩ := by
      rw [hhi, ← hlo]
      exact Nat.le_add_right _ _
    have hadd := (Weight.point e).add hle hle'
    rw [weigh_cons, weigh_cons, hlo, ← hhi] at honce
    rw [weigh_cons, hlo']
    omega
  · intro i hi
    rcases List.mem_cons.mp hi with rfl | hi
    · intro k hk
      rw [entryAt_append]
      by_cases hlt : k < Page.count front
      · rw [if_pos hlt]
        exact h.mapped ⟨base, front, flags⟩ (by simp) k hlt
      · have hk' : k - Page.count front < Page.count back := by
          simp only [count_append] at hk
          omega
        rw [if_neg hlt, ← h.mapped _ List.mem_cons_self _ hk', hlo, hlo', Installation.hi,
          Nat.add_assoc, Nat.add_sub_cancel' (not_lt.mp hlt)]
    · exact h.mapped i (by simp [hi])

/-- The first run of a chain is mapped as an installation of its own. -/
theorem Covers.unjoin (h : Covers start (⟨base, page :: next, flags⟩ :: installed) slots p) :
    Covers start (⟨base, [page], flags⟩ ::
      ⟨base + page.consecutive * pageSize, next, flags⟩ :: installed) slots p := by
  have ha : Aligned base := h.aligned ⟨base, page :: next, flags⟩ List.mem_cons_self
  have hlo : Installation.lo ⟨base + page.consecutive * pageSize, next, flags⟩ =
      Installation.lo ⟨base, page :: next, flags⟩ + page.consecutive := tableIndex_add ha
  refine ⟨h.tracked, h.start_le, ?_, h.slotAligned, fun e => ?_, ?_, h.cleared⟩
  · intro i hi
    rcases List.mem_cons.mp hi with rfl | hi
    · exact ha
    · rcases List.mem_cons.mp hi with rfl | hi
      · exact ha.add _
      · exact h.aligned i (List.mem_cons_of_mem _ hi)
  · have honce := h.once e
    have hadd := (Weight.point e).add
      (Nat.le_add_right (Installation.lo ⟨base, page :: next, flags⟩) page.consecutive)
      (Nat.le_add_right _ (Page.count next))
    have hlo' : Installation.lo ⟨base, [page], flags⟩ =
      Installation.lo ⟨base, page :: next, flags⟩ := rfl
    have hhi' : Installation.hi ⟨base, [page], flags⟩ =
      Installation.lo ⟨base, page :: next, flags⟩ + page.consecutive := rfl
    have hhi : Installation.hi ⟨base + page.consecutive * pageSize, next, flags⟩ =
        Installation.lo ⟨base, page :: next, flags⟩ + page.consecutive + Page.count next := by
      rw [Installation.hi, hlo]
    have hwhole : Installation.hi ⟨base, page :: next, flags⟩ =
        Installation.lo ⟨base, page :: next, flags⟩ + page.consecutive + Page.count next := by
      rw [Installation.hi, Page.count, ← Nat.add_assoc]
    rw [weigh_cons, hwhole] at honce
    rw [weigh_cons, weigh_cons, hlo', hhi', hhi, hlo]
    omega
  · intro i hi
    rcases List.mem_cons.mp hi with rfl | hi
    · intro k hk
      have hk' : k < page.consecutive := hk
      have hmapped := h.mapped _ List.mem_cons_self k (Nat.lt_add_right _ hk')
      rw [Page.entryAt, if_pos hk'] at hmapped ⊢
      exact hmapped
    · rcases List.mem_cons.mp hi with rfl | hi
      · intro k hk
        have hmapped := h.mapped _ List.mem_cons_self (page.consecutive + k)
          (Nat.add_lt_add_left hk _)
        rw [Page.entryAt, if_neg (by omega), Nat.add_sub_cancel_left] at hmapped
        rw [hlo, Nat.add_assoc]
        exact hmapped
      · exact h.mapped i (List.mem_cons_of_mem _ hi)

end Join

/-! ## The machine -/

/-- A call in progress, between two of its sections. -/
inductive Install
  /-- `kinstall` has read `empty_slot`: the record at `head` is the first it will look at. -/
  | search (head : ℕ) (chain : List Page) (flags : ℕ)
  /-- `kinstall_append` has mapped the runs `mapped`, from `base` on, and not yet `rest`. -/
  | append (base : ℕ) (mapped rest : List Page) (flags : ℕ)
  /-- `kuninstall` has not yet unmapped `rest`, from `base` on. -/
  | remove (base : ℕ) (rest : List Page) (flags : ℕ)
  deriving DecidableEq

/-- What a call has mapped, or not yet unmapped. -/
def Install.installed : Install → List Installation
  | .search _ _ _ => []
  | .append _ [] _ _ => []
  | .append base (page :: mapped) _ flags => [⟨base, page :: mapped, flags⟩]
  | .remove base rest flags => [⟨base, rest, flags⟩]

/-- The runs that a call is still to map or to unmap. -/
def Install.rest : Install → List Page
  | .search _ chain _ => chain
  | .append _ _ rest _ => rest
  | .remove _ rest _ => rest

/-- The memory subsystem, the calls in progress on all CPUs, and what the calls that have
returned have mapped and no call has been asked to unmap. -/
structure Installs where
  mem : Mem
  calls : List Install
  done : List Installation

namespace Installs

open Steps

inductive Move
  | kinstall (chain : List Page) (flags : ℕ)
  | kinstallAppend (chain : List Page) (flags : ℕ)
  /-- The base is passed back with the chain it was returned for. -/
  | kuninstall (i : Installation)
  /-- The next critical section of a call. -/
  | enter (depth : ℕ) (call : Install)
  deriving DecidableEq

/-- The next section of a call in progress.

`kinstall` reads `empty_slot` before it takes the lock.  When the record that was read has been
freed since, the call goes on with what the heap keeps in its place, and has no step here. -/
def enter (x : Installs) (depth : ℕ) (call : Install) : Option Installs :=
  match call with
  | .search head chain flags =>
      if head = 0 ∨ head ∈ x.mem.page.emptySlot.map EmptySlot.ptr then
        match Page.kinstallSection depth head chain flags x.mem with
        | (.ok (some base), mem) =>
            some ⟨mem, x.calls.erase call, ⟨base, chain, flags⟩ :: x.done⟩
        | (.ok none, mem) => some ⟨mem, .append 0 [] chain flags :: x.calls.erase call, x.done⟩
        | (.error _, _) => none
      else none
  | .append _ _ [] _ => none
  | .append base mapped (page :: next) flags =>
      match Page.kinstallAppend [page] flags true x.mem with
      | (.ok first, mem) =>
          let base := if mapped = [] then first else base
          if next = [] then
            some ⟨mem, x.calls.erase call, ⟨base, mapped ++ [page], flags⟩ :: x.done⟩
          else some ⟨mem, .append base (mapped ++ [page]) next flags :: x.calls.erase call, x.done⟩
      | (.error _, _) => none
  | .remove _ [] _ => none
  | .remove base (page :: next) flags =>
      match Page.kuninstall depth base [page] x.mem with
      | (.ok _, mem) =>
          if next = [] then some ⟨mem, x.calls.erase call, x.done⟩
          else some ⟨mem, .remove (base + page.consecutive * pageSize) next flags ::
            x.calls.erase call, x.done⟩
      | (.error _, _) => none

def step (x : Installs) : Move → Option Installs
  | .kinstall chain flags =>
      if Page.Positive chain then
        some { x with calls := .search x.mem.firstSlot chain flags :: x.calls }
      else none
  | .kinstallAppend chain flags =>
      if Page.Positive chain then
        some { x with calls := .append 0 [] chain flags :: x.calls }
      else none
  | .kuninstall i =>
      if i ∈ x.done ∧ Page.Positive i.chain then
        some ⟨x.mem, .remove i.base i.chain i.flags :: x.calls, x.done.erase i⟩
      else none
  | .enter depth call => if call ∈ x.calls then x.enter depth call else none

/-- A section that maps a run does so behind the runs before it, and one that fills a hole does
so with runs of the same length, and loses no hole. -/
def Undisturbed (x : Installs) : Move → Prop
  | .enter _ (.search head chain _) => x.mem.TakesRight head chain
  | .enter _ (.append base mapped _ _) =>
      mapped ≠ [] → x.mem.page.virtualPointer = base + Page.count mapped * pageSize
  | _ => True

instance : ∀ (x : Installs) (m : Move), Decidable (x.Undisturbed m)
  | _, .enter _ (.search _ _ _) => inferInstanceAs (Decidable (Mem.TakesRight _ _ _))
  | _, .enter _ (.append _ _ _ _) => inferInstanceAs (Decidable (_ → _))
  | _, .enter _ (.remove _ _ _) => inferInstanceAs (Decidable True)
  | _, .kinstall _ _ => inferInstanceAs (Decidable True)
  | _, .kinstallAppend _ _ => inferInstanceAs (Decidable True)
  | _, .kuninstall _ => inferInstanceAs (Decidable True)

/-- Everything that is mapped by calls that have returned or are in progress. -/
def installed (x : Installs) : List Installation := x.done ++ x.calls.flatMap Install.installed

/-- Every page from `start` on is in one installation, of a call or of the heap, or in one
hole, and the pages of an installation are those of its chain in order. -/
def Sound (start : ℕ) (x : Installs) : Prop := x.mem.Keeps start x.installed

structure Inv (start : ℕ) (x : Installs) : Prop where
  mem : MemInv [] [] x.mem
  mutex : x.mem.mutex = false
  positive : ∀ call ∈ x.calls, Page.Positive call.rest
  sound : x.Sound start

section Steps
variable {start depth head base first flags : ℕ} {x x' : Installs} {call : Install} {page : Page}
  {chain mapped next : List Page} {others : List Installation} {s s' : Mem}

theorem installed_append_singleton (rest : List Page) :
    (Install.append base (mapped ++ [page]) rest flags).installed =
      [⟨base, mapped ++ [page], flags⟩] := by
  cases mapped <;> rfl

theorem installed_perm (h : call ∈ x.calls) : x.installed.Perm
    (call.installed ++ (x.done ++ (x.calls.erase call).flatMap Install.installed)) := by
  have hperm := ((List.perm_cons_erase h).flatMap_right Install.installed).append_left x.done
  exact hperm.trans (List.perm_append_comm_assoc _ _ _)

/-- What the section of `kinstall` does: it fills a hole, or nothing. -/
theorem section_cases {found : Option ℕ}
    (hr : (Page.kinstallSection depth head chain flags).Returns s found s') (hs : s.mutex = false)
    (hm : MemInv [] [] s) (hbook : s.Keeps start others) (hquiet : s.TakesRight head chain) :
    (found = none ∧ s' = s) ∨ ∃ base, found = some base ∧ MemInv [] [] s' ∧ s'.mutex = false ∧
      s'.Keeps start (⟨base, chain, flags⟩ :: others) := by
  obtain ⟨heap, hpool, hbook⟩ := hbook
  rw [Page.kinstallSection] at hr
  obtain ⟨_, s₀, hlock, hbody⟩ := returns_bind.mp hr
  obtain rfl := mutexLock_returns hs hlock
  rw [returns_get_bind] at hbody
  have hback : ({ s with mutex := false } : Mem) = s := by rw [← hs]
  split at hbody
  next slot hfind =>
    obtain ⟨hmem, hle⟩ := @holeFrom_mem head chain s slot hfind
    obtain ⟨hall, hwhole⟩ := hquiet slot hfind
    have hbase : slot.base ≠ 0 := (hbook.covers.slotAligned slot hmem).pos.ne'
    obtain ⟨_, s₁, htake, hbody⟩ := returns_bind.mp hbody
    rw [if_pos hbase] at hbody
    obtain ⟨_, s₂, hwrite, hrest⟩ := returns_bind.mp hbody
    obtain ⟨_, s₃, hunlock, hret⟩ := returns_bind.mp hrest
    obtain rfl := returns_modify.mp hunlock
    obtain ⟨rfl, rfl⟩ := returns_pure.mp hret
    obtain ⟨pre, post, hl⟩ := List.append_of_mem hmem
    have hzero : head ≠ 0 := by
      rintro rfl
      cases hfind
    have htake' : (Page.takeSlot depth (Page.count chain) slot (pre ++ post)).Returns
        { s with mutex := true } () s₁ := by
      by_cases hpages : slot.pages = Page.count chain
      · have hwithout := withoutSlot_eq hl hm.slots_nodup (fun _ => hzero) (hwhole hpages)
        exact hwithout ▸ htake
      · rwa [takeSlot_rest hpages _ (pre ++ post)] at htake
    have hmem₁ := takeSlot_memInv htake' rfl hl (hm.same rfl rfl rfl)
    have hheld : Bookkept start (others ++ heap) ({ s with mutex := true } : Mem).page :=
      hbook.congr rfl rfl rfl rfl
    obtain ⟨more, hbook', hpool'⟩ := hheld.fill htake' hwrite rfl hl hm.slots_nodup hle hall
    obtain ⟨table, rfl⟩ := writeChain_returns hwrite
    refine .inr ⟨slot.base, rfl, hmem₁.same rfl rfl rfl, rfl, ?_⟩
    refine Mem.Keeps.of_more ⟨heap, hpool, hbook'.perm ?_⟩ hpool'
    exact .cons _ (List.perm_append_comm_assoc others more heap)
  next =>
    obtain ⟨_, s₂, hunlock, hret⟩ := returns_bind.mp hbody
    obtain rfl := returns_modify.mp hunlock
    obtain ⟨rfl, rfl⟩ := returns_pure.mp hret
    exact .inl ⟨rfl, hback⟩

/-- The section of a run adds the run to what the call has mapped. -/
theorem append_keeps
    (h : s.Keeps start ((Install.append base mapped (page :: next) flags).installed ++ others))
    (hr : (Page.kinstallAppend [page] flags true).Returns s first s')
    (hpos : 0 < page.consecutive)
    (hbehind : mapped ≠ [] → s.page.virtualPointer = base + Page.count mapped * pageSize) :
    s'.Keeps start (⟨if mapped = [] then first else base, mapped ++ [page], flags⟩ :: others) := by
  have hrun : Page.Positive [page] := ⟨by simp, by simpa using hpos⟩
  have htracked : s.page.Tracked := by
    obtain ⟨heap, -, hbook⟩ := h
    exact hbook.covers.tracked
  obtain ⟨heap, hpool, hbook⟩ := h.kinstallAppend hr hrun
  refine ⟨heap, hpool, ?_⟩
  cases mapped with
  | nil => exact hbook
  | cons p mapped =>
    have hfirst := (kinstallAppend_appended hr).2 hpos htracked.aligned.pos
    rw [hfirst, hbehind (by simp)] at hbook
    exact ⟨hbook.covers.join, hbook.slots⟩

/-- The section of a run takes the run from what the call is still to unmap. -/
theorem remove_keeps {u : Unit} (h : s.Keeps start (⟨base, page :: next, flags⟩ :: others))
    (hr : (Page.kuninstall depth base [page]).Returns s u s') (hs : s.mutex = false)
    (hm : MemInv [] [] s) (hpos : 0 < page.consecutive) :
    s'.Keeps start (⟨base + page.consecutive * pageSize, next, flags⟩ :: others) := by
  obtain ⟨heap, hpool, hbook⟩ := h
  have hsplit : s.Keeps start (⟨base, [page], flags⟩ ::
      ⟨base + page.consecutive * pageSize, next, flags⟩ :: others) :=
    ⟨heap, hpool, hbook.covers.unjoin, hbook.slots⟩
  exact hsplit.kuninstall hr hs hm (by simpa using hpos)

theorem Inv.enter_inv (h : x.Inv start) (hcall : call ∈ x.calls)
    (hquiet : x.Undisturbed (.enter depth call)) (hstep : x.enter depth call = some x') :
    x'.Inv start := by
  have hpos := h.positive call hcall
  have hrest : ∀ c ∈ x.calls.erase call, Page.Positive c.rest :=
    fun c hc => h.positive c (List.mem_of_mem_erase hc)
  have hfront := Mem.Keeps.perm h.sound (installed_perm hcall).symm
  cases call with
  | search head chain flags =>
    rw [enter] at hstep
    split_ifs at hstep with hhead
    split at hstep
    next base mem hr =>
      obtain rfl := Option.some.inj hstep
      obtain ⟨hnone, -⟩ | ⟨_, hbase, hmem, hmutex, hkeeps⟩ :=
        section_cases hr h.mutex h.mem hfront hquiet
      · cases hnone
      · obtain rfl := Option.some.inj hbase
        exact ⟨hmem, hmutex, hrest, hkeeps⟩
    next mem hr =>
      obtain rfl := Option.some.inj hstep
      obtain ⟨-, rfl⟩ | ⟨_, hbase, -⟩ := section_cases hr h.mutex h.mem hfront hquiet
      · refine ⟨h.mem, h.mutex, fun c hc => ?_, hfront⟩
        rcases List.mem_cons.mp hc with rfl | hc
        · exact hpos
        · exact hrest c hc
      · cases hbase
    next => cases hstep
  | append base mapped rest flags =>
    cases rest with
    | nil => cases hstep
    | cons page next =>
      rw [enter] at hstep
      split at hstep
      next first mem hr =>
        have hpage : 0 < page.consecutive := hpos.2 page List.mem_cons_self
        have hkeeps := append_keeps hfront hr hpage hquiet
        have hmem := kinstallAppend_memInv hr h.mutex h.mem
        have hmutex := (locks_kinstallAppend [page] flags true).returns hr h.mutex
        by_cases hnext : next = []
        · simp only [if_pos hnext] at hstep
          obtain rfl := Option.some.inj hstep
          exact ⟨hmem, hmutex, hrest, hkeeps⟩
        · simp only [if_neg hnext] at hstep
          obtain rfl := Option.some.inj hstep
          refine ⟨hmem, hmutex, fun c hc => ?_, hkeeps.perm ?_⟩
          · rcases List.mem_cons.mp hc with rfl | hc
            · exact ⟨hnext, fun q hq => hpos.2 q (List.mem_cons_of_mem _ hq)⟩
            · exact hrest c hc
          · rw [installed, List.flatMap_cons, installed_append_singleton]
            exact List.perm_middle
      next => cases hstep
  | remove base rest flags =>
    cases rest with
    | nil => cases hstep
    | cons page next =>
      rw [enter] at hstep
      split at hstep
      next u mem hr =>
        have hpage : 0 < page.consecutive := hpos.2 page List.mem_cons_self
        have hkeeps := remove_keeps hfront hr h.mutex h.mem hpage
        have hmem := kuninstall_memInv hr h.mutex h.mem
        have hmutex := (locks_kuninstall depth base [page]).returns hr h.mutex
        by_cases hnext : next = []
        · simp only [if_pos hnext] at hstep
          obtain rfl := Option.some.inj hstep
          exact ⟨hmem, hmutex, hrest, hkeeps.drop (by rw [hnext]; rfl)⟩
        · simp only [if_neg hnext] at hstep
          obtain rfl := Option.some.inj hstep
          refine ⟨hmem, hmutex, fun c hc => ?_, hkeeps.perm ?_⟩
          · rcases List.mem_cons.mp hc with rfl | hc
            · exact ⟨hnext, fun q hq => hpos.2 q (List.mem_cons_of_mem _ hq)⟩
            · exact hrest c hc
          · rw [installed, List.flatMap_cons]
            exact List.perm_middle
      next => cases hstep

theorem Inv.step_inv {m : Move} (h : x.Inv start) (hquiet : x.Undisturbed m)
    (hstep : x.step m = some x') : x'.Inv start := by
  cases m with
  | enter depth call =>
    rw [step] at hstep
    split_ifs at hstep with hcall
    exact h.enter_inv hcall hquiet hstep
  | kinstall chain flags | kinstallAppend chain flags =>
    rw [step] at hstep
    split_ifs at hstep with hpos
    obtain rfl := Option.some.inj hstep
    refine ⟨h.mem, h.mutex, fun c hc => ?_, h.sound⟩
    rcases List.mem_cons.mp hc with rfl | hc
    · exact hpos
    · exact h.positive c hc
  | kuninstall i =>
    rw [step] at hstep
    split_ifs at hstep with hlive
    obtain ⟨hi, hpos⟩ := hlive
    obtain rfl := Option.some.inj hstep
    refine ⟨h.mem, h.mutex, fun c hc => ?_, Mem.Keeps.perm h.sound ?_⟩
    · rcases List.mem_cons.mp hc with rfl | hc
      · exact hpos
      · exact h.positive c hc
    · have hperm := (List.perm_cons_erase hi).append_right (x.calls.flatMap Install.installed)
      exact List.perm_middle.trans hperm.symm

end Steps

variable {memTable : List Entry} {vmEnd : ℕ} {s : Mem} {x : Installs} {ms : List Move}

open Space (runOf)

/-- A machine with plenty of memory, after `kmem::init`. -/
def roomy : Installs := ⟨Space.roomy.mem, [], []⟩

/-- `kinstall` finds no hole and maps its two runs one after the other, and `kinstall_append` on
another CPU comes between the two. -/
def between : List Move :=
  let chain := [runOf 0x200000 1, runOf 0x300000 1]
  let other := [runOf 0x400000 1]
  [.kinstall chain pageTableRw, .kinstallAppend other pageTableRw,
    .enter 12 (.search 0 chain pageTableRw), .enter 12 (.append 0 [] chain pageTableRw),
    .enter 12 (.append 0 [] other pageTableRw),
    .enter 12 (.append 0xc0101000 [runOf 0x200000 1] [runOf 0x300000 1] pageTableRw)]

end Installs

end Cantos
