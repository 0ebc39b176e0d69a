import Cantos.Structures.List

/-!
# `list<T>` is a sequence

The elements of a list are its objects in order, each with the address of its entry.  The
entries of a chain are determined by the elements and by where the chain goes on, so a list
holds a sequence when memory is, up to order, the entries of that sequence and the entries
of other lists.

## Main definitions

* `linkTo q xs`: the entries of the elements `xs`, the last one going on at `q`.
* `Cells`: what is alive.
* `ListState.Holds`: the list holds a sequence, and nothing else in memory has changed.
* `ListOp.spec`: the operations on sequences.
-/

namespace Cantos

open Linked Exec

/-! ## Chains -/

section Chains
variable {T : Type} {q : ℕ} {x : ℕ × T} {xs pre post : List (ℕ × T)}

/-- The address of the first element, `q` when there is none. -/
def headOr (q : ℕ) : List (ℕ × T) → ℕ
  | [] => q
  | x :: _ => x.1

/-- The entries of a chain of the elements `xs` that goes on at `q`. -/
def linkTo (q : ℕ) : List (ℕ × T) → List (ListEntry T)
  | [] => []
  | x :: xs => ⟨x.1, headOr q xs, x.2⟩ :: linkTo q xs

@[simp] theorem headOr_nil : headOr q ([] : List (ℕ × T)) = q := rfl
@[simp] theorem headOr_cons : headOr q (x :: xs) = x.1 := rfl
@[simp] theorem linkTo_nil : linkTo q ([] : List (ℕ × T)) = [] := rfl

@[simp] theorem linkTo_cons :
    linkTo q (x :: xs) = ⟨x.1, headOr q xs, x.2⟩ :: linkTo q xs := rfl

@[simp] theorem headOr_append : headOr q (pre ++ post) = headOr (headOr q post) pre := by
  cases pre <;> rfl

@[simp] theorem linkTo_append :
    linkTo q (pre ++ post) = linkTo (headOr q post) pre ++ linkTo q post := by
  induction pre with
  | nil => rfl
  | cons x pre ih => simp [ih]

@[simp] theorem map_ptr_linkTo : (linkTo q xs).map ListEntry.ptr = xs.map Prod.fst := by
  induction xs with
  | nil => rfl
  | cons x xs ih => simp [ih]

@[simp] theorem length_linkTo : (linkTo q xs).length = xs.length := by
  rw [← List.length_map (f := ListEntry.ptr), map_ptr_linkTo, List.length_map]

end Chains

/-! ## What is alive -/

/-- The entries alive are those of `l`, in some order. -/
structure Cells {T : Type} (heap l : List (ListEntry T)) : Prop where
  perm : heap.Perm l
  nodup : (l.map ListEntry.ptr).Nodup
  null : 0 ∉ l.map ListEntry.ptr

section Alive
variable {T : Type} {heap l l' : List (ListEntry T)} {e : ListEntry T} {p : ℕ}

theorem Cells.of_perm (h : Cells heap l) (hp : l.Perm l') : Cells heap l' where
  perm := h.perm.trans hp
  nodup := (hp.map _).nodup_iff.mp h.nodup
  null hnull := h.null ((hp.map _).mem_iff.mpr hnull)

/-- The order of the entries does not matter, only how often each of them is there. -/
theorem Cells.of_count (h : Cells heap l)
    (hc : ∀ [DecidableEq (ListEntry T)] (a : ListEntry T), l.count a = l'.count a) :
    Cells heap l' := by
  classical
  exact h.of_perm (List.perm_iff_count.mpr fun a => hc a)

theorem Cells.heap_nodup (h : Cells heap l) : (heap.map ListEntry.ptr).Nodup :=
  (h.perm.map _).nodup_iff.mpr h.nodup

theorem Cells.find (h : Cells heap l) (he : e ∈ l) :
    heap.find? (fun z => z.ptr = e.ptr) = some e :=
  find?_ptr_of_mem h.heap_nodup (h.perm.mem_iff.mpr he)

theorem Cells.find_none (h : Cells heap l) (hp : p ∉ l.map ListEntry.ptr) :
    heap.find? (fun z => z.ptr = p) = none := by
  rw [List.find?_eq_none]
  intro z hz hzp
  apply hp
  rw [← of_decide_eq_true hzp]
  exact List.mem_map_of_mem (h.perm.mem_iff.mp hz)

theorem Cells.update (h : Cells heap (e :: l)) (f : ListEntry T → ListEntry T)
    (hf : (f e).ptr = e.ptr) : Cells (updateAt ListEntry.ptr e.ptr f heap) (f e :: l) where
  perm := by
    have hupdate : updateAt ListEntry.ptr e.ptr f (e :: l) = f e :: l :=
      updateAt_eq f (show (([] ++ e :: l).map ListEntry.ptr).Nodup from h.nodup)
    rw [← hupdate]
    exact h.perm.map _
  nodup := by simpa [hf] using h.nodup
  null := by simpa [hf] using h.null

theorem Cells.unlink (h : Cells heap (e :: l)) : Cells (unlink ListEntry.ptr e.ptr heap) l where
  perm := by
    have hunlink : Linked.unlink ListEntry.ptr e.ptr (e :: l) = l :=
      unlink_eq (show (([] ++ e :: l).map ListEntry.ptr).Nodup from h.nodup)
    rw [← hunlink]
    exact h.perm.filter _
  nodup := (List.nodup_cons.mp h.nodup).2
  null := fun hnull => h.null (List.mem_cons_of_mem _ hnull)

theorem Cells.alloc (h : Cells heap l) (alloc : Allocator T) (value : T) :
    Cells (⟨alloc.new heap, 0, value⟩ :: heap) (⟨alloc.new heap, 0, value⟩ :: l) where
  perm := h.perm.cons _
  nodup := by
    rw [List.map_cons, List.nodup_cons]
    exact ⟨fun hmem => alloc.fresh heap ((h.perm.map _).mem_iff.mpr hmem), h.nodup⟩
  null := by
    rw [List.map_cons, List.mem_cons, not_or]
    exact ⟨(alloc.pos heap).symm, h.null⟩

theorem Cells.ptr_ne_zero (h : Cells heap l) (he : e ∈ l) : e.ptr ≠ 0 := by
  intro hzero
  exact h.null (hzero ▸ List.mem_map_of_mem he)

theorem Cells.headOr_eq_zero {xs : List (ℕ × T)} (h : Cells heap (linkTo 0 xs ++ l)) :
    headOr 0 xs = 0 ↔ xs = [] := by
  cases xs with
  | nil => simp
  | cons x xs =>
    have hx := h.ptr_ne_zero (e := ⟨x.1, headOr 0 xs, x.2⟩) (by simp)
    simpa using hx

end Alive

/-! ## Owners -/

namespace ListState
section Owners
variable {T : Type} {l : List (ListEntry T)} {e : ListEntry T} {s : ListState T}
  {xs : List (ℕ × T)} {r k : ℕ}

theorem entry_returns (h : Cells s.heap l) (he : e ∈ l) : (entry e.ptr).Returns s e s := by
  rw [entry, returns_get_bind]
  simp [h.find he]

theorem entry_stops (h : Cells s.heap l) {p : ℕ} (hp : p ∉ l.map ListEntry.ptr) :
    (entry p : M T (ListEntry T)).Stops s .badDeref s := by
  rw [entry, stops_get_bind]
  simp [h.find_none hp]

theorem gives_entry_bind {α : Type} {f : ListEntry T → M T α} {R : α → ListState T → Prop}
    (h : Cells s.heap l) (he : e ∈ l) (hf : (f e).Gives s R) : (entry e.ptr >>= f).Gives s R :=
  gives_bind.mpr ⟨e, s, entry_returns h he, hf⟩

/-- Deleting the first entry of a chain deletes the chain. -/
theorem deleteFrom_gives (hx : xs ≠ []) (hk : xs.length ≤ k)
    (h : Cells s.heap (linkTo 0 xs ++ l)) : (deleteFrom k (headOr 0 xs)).Gives s fun _ s' =>
      ∃ heap, s' = { s with heap } ∧ Cells heap l := by
  induction k generalizing xs l with
  | zero => simp at hk; exact absurd hk hx
  | succ k ih =>
    obtain ⟨x, xs, rfl⟩ := List.exists_cons_of_ne_nil hx
    rw [deleteFrom, headOr_cons]
    refine gives_entry_bind (e := ⟨x.1, headOr 0 xs, x.2⟩) h (by simp) ?_
    have hrest : Cells s.heap (linkTo 0 xs ++ ⟨x.1, headOr 0 xs, x.2⟩ :: l) :=
      h.of_perm List.perm_middle.symm
    by_cases hnil : xs = []
    · subst hnil
      simp only [headOr_nil, if_true, gives_modify]
      exact ⟨_, rfl, hrest.unlink⟩
    · rw [if_neg (mt hrest.headOr_eq_zero.mp hnil)]
      refine (ih hnil (by simpa using hk) hrest).bind ?_
      rintro _ _ ⟨heap, rfl, hcells⟩
      rw [gives_modify]
      exact ⟨_, rfl, hcells.unlink⟩

theorem deleteOld_gives (xs : List (ℕ × T)) (h : Cells s.heap (linkTo 0 xs ++ l)) :
    (deleteOld (headOr 0 xs)).Gives s fun _ s' => ∃ heap, s' = { s with heap } ∧ Cells heap l := by
  rw [deleteOld, gives_get_bind]
  by_cases hnil : xs = []
  · subst hnil
    rw [if_pos (by rfl), gives_pure]
    exact ⟨_, rfl, h⟩
  · rw [if_neg (mt h.headOr_eq_zero.mp hnil)]
    apply deleteFrom_gives hnil _ h
    rw [h.perm.length_eq]
    simp

theorem setHead_gives (xs : List (ℕ × T)) (hhead : s.head = headOr 0 xs) (h : Cells s.heap (linkTo 0 xs ++ l)) (r : ℕ) :
    (setHead r).Gives s fun _ s' => ∃ heap, s' = { s with heap, head := r } ∧ Cells heap l := by
  rw [setHead, gives_get_bind, gives_set_bind, hhead]
  exact deleteOld_gives xs (s := { s with head := r }) h

theorem setNext_gives (xs : List (ℕ × T)) (hnext : e.next = headOr 0 xs)
    (h : Cells s.heap (e :: (linkTo 0 xs ++ l))) (r : ℕ) : (setNext e.ptr r).Gives s fun _ s' =>
      ∃ heap, s' = { s with heap } ∧ Cells heap ({ e with next := r } :: l) := by
  rw [setNext]
  refine gives_entry_bind h List.mem_cons_self ?_
  rw [gives_modify_bind, hnext]
  have hset := h.update (fun e => { e with next := r }) rfl
  exact deleteOld_gives xs (s := { s with heap := _ }) (hset.of_perm List.perm_middle.symm)

theorem moveNext_gives (h : Cells s.heap (e :: l)) : (moveNext e.ptr).Gives s fun next s' =>
    next = e.next ∧ ∃ heap, s' = { s with heap } ∧ Cells heap ({ e with next := 0 } :: l) := by
  rw [moveNext]
  refine gives_entry_bind h List.mem_cons_self ?_
  rw [gives_modify_bind, gives_pure]
  exact ⟨rfl, _, rfl, h.update (fun e => { e with next := 0 }) rfl⟩

end Owners

/-! ## Operations -/

/-- The entries and the count of a list that holds `xs`; the rest of memory is `others`. -/
structure Chain (others : List (ListEntry T)) (xs : List (ℕ × T)) (s : ListState T) : Prop where
  cells : Cells s.heap (linkTo 0 xs ++ others)
  head : s.head = headOr 0 xs
  count : s.count = xs.length

/-- The list holds `xs`: the chain from `head` has these elements and ends, `tail` is its
last entry, and `count` its length. -/
structure Holds (others : List (ListEntry T)) (xs : List (ℕ × T)) (s : ListState T) : Prop extends
    Chain others xs s where
  tail : s.tail = lastPtr Prod.fst xs

section Operations
variable {T : Type} {others : List (ListEntry T)} {s : ListState T} {x : ℕ × T}
  {xs pre post : List (ℕ × T)} {k : ℕ}

theorem Chain.head_eq_zero (h : s.Chain others xs) : s.head = 0 ↔ xs = [] := by
  rw [h.head]
  exact h.cells.headOr_eq_zero

theorem Chain.nodup (h : s.Chain others xs) : (xs.map Prod.fst).Nodup := by
  have hn := h.cells.nodup
  rw [List.map_append, map_ptr_linkTo] at hn
  exact hn.of_append_left

theorem Chain.pos (h : s.Chain others xs) (hx : x ∈ xs) : x.1 ≠ 0 := by
  intro hzero
  apply h.cells.null
  rw [List.map_append, map_ptr_linkTo]
  exact List.mem_append_left _ (hzero ▸ List.mem_map_of_mem hx)

/-- Allocation puts an entry beside the others. -/
theorem gives_makeUnique_bind {α : Type} {alloc : Allocator T} {value : T} {f : ℕ → M T α}
    {R : α → ListState T → Prop} : (makeUnique alloc value >>= f).Gives s R ↔
      (f (alloc.new s.heap)).Gives
        { s with heap := ⟨alloc.new s.heap, 0, value⟩ :: s.heap } R := Iff.rfl

theorem gives_moveHead_bind {α : Type} {f : ℕ → M T α} {R : α → ListState T → Prop} :
    (moveHead >>= f).Gives s R ↔ (f s.head).Gives { s with head := 0 } R := Iff.rfl

theorem gives_setTail_bind {α : Type} {p : ℕ} {f : Unit → M T α} {R : α → ListState T → Prop} :
    (setTail p >>= f).Gives s R ↔ (f ()).Gives { s with tail := p } R := Iff.rfl

theorem gives_countUp {R : Unit → ListState T → Prop} :
    countUp.Gives s R ↔ R () { s with count := s.count + 1 } := gives_modify

theorem gives_countDown_bind {α : Type} {f : Unit → M T α} {R : α → ListState T → Prop} :
    (countDown >>= f).Gives s R ↔ (f ()).Gives { s with count := s.count - 1 } R := Iff.rfl

/-- The first entry of a list. -/
theorem linkOnly_gives {heap : List (ListEntry T)} {p : ℕ} {value : T} (h : s.Holds others [])
    (hcells : Cells heap (⟨p, 0, value⟩ :: others)) :
    (do setHead p; setTail p; countUp : M T Unit).Gives { s with heap } fun _ s' =>
      ∃ p, s'.Holds others [(p, value)] := by
  refine (setHead_gives [] (s := { s with heap }) h.head
    (l := ⟨p, 0, value⟩ :: others) hcells p).bind ?_
  rintro _ _ ⟨heap, rfl, hcells⟩
  rw [gives_setTail_bind, gives_countUp]
  exact ⟨p, ⟨hcells, rfl, by simp [h.count]⟩, rfl⟩

theorem linkFront_gives (alloc : Allocator T) (value : T) (h : s.Holds others xs) :
    (linkFront alloc value).Gives s fun _ s' => ∃ p, s'.Holds others ((p, value) :: xs) := by
  rw [linkFront, gives_makeUnique_bind, gives_get_bind]
  have hcells := h.cells.alloc alloc value
  generalize alloc.new s.heap = p at hcells ⊢
  by_cases hnil : xs = []
  · subst hnil
    rw [if_neg (not_not.mpr (h.head_eq_zero.mpr rfl))]
    exact linkOnly_gives h hcells
  · rw [if_pos (mt h.head_eq_zero.mp hnil), gives_moveHead_bind]
    refine (setNext_gives [] (e := ⟨p, 0, value⟩) rfl hcells s.head).bind ?_
    rintro _ _ ⟨heap, rfl, hcells⟩
    refine (setHead_gives [] rfl hcells p).bind ?_
    rintro _ _ ⟨heap, rfl, hcells⟩
    rw [gives_countUp]
    refine ⟨p, ⟨?_, rfl, by simp [h.count]⟩, ?_⟩
    · rw [h.head] at hcells
      exact hcells
    · obtain ⟨y, xs, rfl⟩ := List.exists_cons_of_ne_nil hnil
      rw [lastPtr_cons_cons]
      exact h.tail

theorem linkBack_gives (alloc : Allocator T) (value : T) (h : s.Holds others xs) :
    (linkBack alloc value).Gives s fun _ s' => ∃ p, s'.Holds others (xs ++ [(p, value)]) := by
  rw [linkBack, gives_makeUnique_bind, gives_get_bind]
  have hcells := h.cells.alloc alloc value
  generalize alloc.new s.heap = p at hcells ⊢
  rcases xs.eq_nil_or_concat with rfl | ⟨init, t, rfl⟩
  · rw [if_neg (not_not.mpr (h.head_eq_zero.mpr rfl))]
    exact linkOnly_gives h hcells
  · rw [List.concat_eq_append] at h hcells ⊢
    rw [if_pos (mt h.head_eq_zero.mp (by simp))]
    have htail : s.tail = t.1 := by simpa using h.tail
    have hlast : Cells (⟨p, 0, value⟩ :: s.heap)
        (⟨t.1, 0, t.2⟩ :: (⟨p, 0, value⟩ :: linkTo t.1 init ++ others)) := by
      refine hcells.of_count fun a => ?_
      simp only [linkTo_append, linkTo_cons, headOr_cons, headOr_nil, linkTo_nil,
        List.count_append, List.count_cons, List.count_nil]
      omega
    simp only [htail]
    refine (setNext_gives [] (e := ⟨t.1, 0, t.2⟩) (l := ⟨p, 0, value⟩ :: linkTo t.1 init ++ others)
      rfl hlast p).bind ?_
    rintro _ _ ⟨heap, rfl, hcells⟩
    refine gives_entry_bind (e := ⟨t.1, p, t.2⟩) hcells List.mem_cons_self ?_
    rw [gives_setTail_bind, gives_countUp]
    refine ⟨p, ⟨?_, ?_, by simp [h.count]⟩, ?_⟩
    · refine hcells.of_count fun a => ?_
      simp only [linkTo_append, linkTo_cons, headOr_cons, headOr_nil, linkTo_nil,
        List.count_append, List.count_cons, List.count_nil]
      omega
    · have hhead := h.head
      simp only [headOr_append, headOr_cons] at hhead ⊢
      exact hhead
    · rw [lastPtr_append_singleton]

theorem popFront_gives (h : s.Holds others (x :: xs)) :
    popFront.Gives s fun _ s' => s'.Holds others xs := by
  rw [popFront, gives_get_bind, if_neg (mt h.head_eq_zero.mp (by simp)), gives_moveHead_bind]
  have hhead : s.head = x.1 := h.head
  rw [hhead]
  refine (moveNext_gives (e := ⟨x.1, headOr 0 xs, x.2⟩) (s := { s with head := 0 })
    h.cells).bind ?_
  rintro _ _ ⟨rfl, heap, rfl, hcells⟩
  refine (setHead_gives [] rfl hcells (headOr 0 xs)).bind ?_
  rintro _ _ ⟨heap, rfl, hcells⟩
  have hrest := hcells.of_perm (show List.Perm _ (linkTo 0 xs ++ ⟨x.1, 0, x.2⟩ :: others) from
    List.perm_middle.symm)
  have hcount : s.count - 1 = xs.length := by simp [h.count]
  have htail := h.tail
  by_cases hnil : xs = []
  · subst hnil
    rw [headOr_nil, if_pos rfl, gives_setTail_bind, gives_countDown_bind]
    refine (deleteOld_gives [x] hcells).mono ?_
    rintro _ _ ⟨heap, rfl, hcells⟩
    exact ⟨⟨hcells, rfl, hcount⟩, rfl⟩
  · rw [if_neg (mt hrest.headOr_eq_zero.mp hnil), gives_countDown_bind]
    refine (deleteOld_gives [x] hcells).mono ?_
    rintro _ _ ⟨heap, rfl, hcells⟩
    refine ⟨⟨hcells, rfl, hcount⟩, ?_⟩
    obtain ⟨y, xs, rfl⟩ := List.exists_cons_of_ne_nil hnil
    rw [lastPtr_cons_cons] at htail
    exact htail

/-- The entry of an element, and the chain in front of it and behind it. -/
theorem Chain.split (h : s.Chain others (pre ++ x :: post)) : Cells s.heap
    (⟨x.1, headOr 0 post, x.2⟩ :: (linkTo x.1 pre ++ linkTo 0 post ++ others)) := by
  refine h.cells.of_count fun a => ?_
  simp only [linkTo_append, linkTo_cons, headOr_cons, List.count_append, List.count_cons]
  omega

theorem Chain.entry_mem (h : s.Chain others (pre ++ x :: post)) {α : Type}
    {f : ListEntry T → M T α} {R : α → ListState T → Prop}
    (hf : (f ⟨x.1, headOr 0 post, x.2⟩).Gives s R) : (entry x.1 >>= f).Gives s R :=
  gives_entry_bind (e := ⟨x.1, headOr 0 post, x.2⟩) h.split List.mem_cons_self hf

theorem Chain.next_eq_zero (h : s.Chain others (pre ++ x :: post)) :
    headOr 0 post = 0 ↔ post = [] := by
  cases post with
  | nil => simp
  | cons y post => simpa using h.pos (x := y) (by simp)

/-- Cutting an element out of the chain. -/
theorem cut_gives (h : s.Chain others (pre ++ x :: post)) :
    (cut (lastPtr Prod.fst pre) x.1).Gives s fun next s' =>
      next = headOr 0 post ∧ s'.tail = s.tail ∧ s'.Chain others (pre ++ post) := by
  rw [cut]
  refine (moveNext_gives (e := ⟨x.1, headOr 0 post, x.2⟩) h.split).bind ?_
  rintro _ _ ⟨rfl, heap, rfl, hcells⟩
  have hhead := h.head
  have hcount : s.count - 1 = (pre ++ post).length := by
    rw [h.count]
    simp
  rcases pre.eq_nil_or_concat with rfl | ⟨init, b, rfl⟩
  · rw [lastPtr_nil, if_neg (not_not.mpr rfl)]
    refine (setHead_gives [x] (s := { s with heap }) hhead hcells (headOr 0 post)).bind ?_
    rintro _ _ ⟨heap, rfl, hcells⟩
    rw [gives_countDown_bind, gives_pure]
    exact ⟨rfl, rfl, hcells, rfl, hcount⟩
  · rw [List.concat_eq_append] at *
    have hb : b.1 ≠ 0 := h.pos (by simp)
    rw [lastPtr_append_singleton, if_pos hb]
    have hcells : Cells heap (⟨b.1, x.1, b.2⟩ ::
        (linkTo 0 [x] ++ (linkTo b.1 init ++ linkTo 0 post ++ others))) := by
      refine hcells.of_count fun a => ?_
      simp only [linkTo_append, linkTo_cons, headOr_cons, headOr_nil, linkTo_nil,
        List.count_append, List.count_cons, List.count_nil]
      omega
    refine (setNext_gives [x] (s := { s with heap }) (e := ⟨b.1, x.1, b.2⟩) rfl hcells
      (headOr 0 post)).bind ?_
    rintro _ _ ⟨heap, rfl, hcells⟩
    rw [gives_countDown_bind, gives_pure]
    refine ⟨rfl, rfl, ?_, ?_, hcount⟩
    · refine hcells.of_count fun a => ?_
      simp only [linkTo_append, linkTo_cons, headOr_cons, headOr_nil, linkTo_nil,
        List.count_append, List.count_cons, List.count_nil]
      omega
    · simp only [List.append_assoc, headOr_append, headOr_cons, List.cons_append] at hhead ⊢
      exact hhead

/-- A chain in memory is shorter than the list of all entries. -/
theorem Chain.length_le (h : s.Chain others xs) : xs.length ≤ s.heap.length := by
  rw [h.cells.perm.length_eq]
  simp

/-- The loop of `remove`: what it has passed stays, and of the rest what differs from the
value. -/
theorem removeFrom_gives [BEq T] (value : T) (hk : post.length < k)
    (h : s.Chain others (pre ++ post)) :
    (removeFrom value k (lastPtr Prod.fst pre) (headOr 0 post)).Gives s fun prev s' =>
      prev = lastPtr Prod.fst (pre ++ post.filter fun x => !(x.2 == value)) ∧
      s'.Chain others (pre ++ post.filter fun x => !(x.2 == value)) := by
  induction k generalizing pre post s with
  | zero => exact absurd hk (Nat.not_lt_zero _)
  | succ k ih =>
    rw [removeFrom]
    cases post with
    | nil =>
      rw [headOr_nil, if_pos rfl, gives_pure]
      simpa using h
    | cons x post =>
      have hk : post.length < k := by simpa using hk
      rw [headOr_cons, if_neg (h.pos (x := x) (by simp))]
      refine h.entry_mem ?_
      by_cases hx : x.2 == value
      · rw [if_pos hx]
        refine (cut_gives h).bind ?_
        rintro _ s₁ ⟨rfl, -, h₁⟩
        simpa [hx] using ih hk h₁
      · rw [if_neg hx]
        have hrest := ih hk (show s.Chain others ((pre ++ [x]) ++ post) by simpa using h)
        simpa [hx] using hrest

theorem remove_gives [BEq T] (value : T) (h : s.Holds others xs) : (remove value).Gives s
    fun _ s' => s'.Holds others (xs.filter fun x => !(x.2 == value)) := by
  rw [remove, gives_get_bind]
  by_cases hnil : xs = []
  · subst hnil
    rw [if_pos (h.head_eq_zero.mpr rfl), gives_pure]
    exact h
  · rw [if_neg (mt h.head_eq_zero.mp hnil), h.head]
    have hchain : s.Chain others ([] ++ xs) := h.toChain
    refine (removeFrom_gives value (Nat.lt_succ_of_le h.length_le) hchain).bind ?_
    rintro _ s₁ ⟨rfl, h₁⟩
    exact gives_modify.mpr ⟨⟨h₁.cells, h₁.head, h₁.count⟩, rfl⟩

/-- The loop of `erase`, up to an element of the list. -/
theorem eraseFrom_gives {rest : List (ℕ × T)} (hk : rest.length < k)
    (h : s.Holds others (pre ++ (rest ++ x :: post))) (hx : ∀ y ∈ rest, y.1 ≠ x.1) :
    (eraseFrom x.1 k (lastPtr Prod.fst pre) (headOr 0 (rest ++ x :: post))).Gives s fun _ s' =>
      s'.Holds others (pre ++ (rest ++ post)) := by
  induction k generalizing pre rest with
  | zero => exact absurd hk (Nat.not_lt_zero _)
  | succ k ih =>
    rw [eraseFrom]
    cases rest with
    | nil =>
      have hchain : s.Chain others (pre ++ x :: post) := h.toChain
      rw [List.nil_append, headOr_cons, if_neg (hchain.pos (by simp))]
      refine hchain.entry_mem ?_
      rw [if_pos rfl]
      have hpost : headOr 0 post = 0 ↔ post = [] := hchain.next_eq_zero
      by_cases hlast : post = []
      · rw [if_pos (hpost.mpr hlast), gives_setTail_bind]
        have hchain : Chain others (pre ++ x :: post) { s with tail := lastPtr Prod.fst pre } :=
          ⟨hchain.cells, hchain.head, hchain.count⟩
        refine (cut_gives hchain).bind ?_
        rintro _ s₁ ⟨-, htail, h₁⟩
        rw [gives_pure]
        refine ⟨h₁, htail.trans ?_⟩
        simp [hlast]
      · rw [if_neg (mt hpost.mp hlast)]
        refine (cut_gives hchain).bind ?_
        rintro _ s₁ ⟨-, htail, h₁⟩
        rw [gives_pure]
        refine ⟨h₁, htail.trans (h.tail.trans ?_)⟩
        obtain ⟨y, post, rfl⟩ := List.exists_cons_of_ne_nil hlast
        simp only [List.nil_append, lastPtr_append_cons, lastPtr_cons_cons]
    | cons y rest =>
      have hy : y.1 ≠ x.1 := hx y List.mem_cons_self
      have hk : rest.length < k := by simpa using hk
      have hchain : s.Chain others (pre ++ y :: (rest ++ x :: post)) := h.toChain
      rw [List.cons_append, headOr_cons, if_neg (hchain.pos (by simp))]
      refine hchain.entry_mem ?_
      rw [if_neg hy]
      have hrest := ih hk (show s.Holds others ((pre ++ [y]) ++ (rest ++ x :: post)) by simpa using h)
        fun z hz => hx z (List.mem_cons_of_mem y hz)
      simpa using hrest

/-- The loop of `erase`, when the iterator is not of this list. -/
theorem eraseFrom_stops {it : ℕ} {rest : List (ℕ × T)} (hk : rest.length < k)
    (h : s.Chain others (pre ++ rest)) (hit : ∀ y ∈ rest, y.1 ≠ it) (p : ℕ) :
    (eraseFrom it k p (headOr 0 rest)).Stops s
      (.panic "Tried to erase an iterator that isn't in the list") s := by
  induction k generalizing pre rest p with
  | zero => exact absurd hk (Nat.not_lt_zero _)
  | succ k ih =>
    rw [eraseFrom]
    cases rest with
    | nil => exact stops_stop.mpr ⟨rfl, rfl⟩
    | cons y rest =>
      have hk : rest.length < k := by simpa using hk
      rw [headOr_cons, if_neg (h.pos (by simp))]
      refine stops_bind.mpr (.inr ⟨_, _, entry_returns (e := ⟨y.1, headOr 0 rest, y.2⟩) h.split
        List.mem_cons_self, ?_⟩)
      rw [if_neg (hit y List.mem_cons_self)]
      exact ih hk (show s.Chain others ((pre ++ [y]) ++ rest) by simpa using h)
        (fun z hz => hit z (List.mem_cons_of_mem y hz)) y.1

theorem erase_gives (h : s.Holds others (pre ++ x :: post)) : (erase x.1).Gives s fun it s' =>
    it = headOr 0 post ∧ s'.Holds others (pre ++ post) := by
  have hn := notMem_of_nodup Prod.fst h.nodup
  rw [erase]
  refine h.entry_mem ?_
  rw [gives_get_bind, h.head]
  have hholds : s.Holds others ([] ++ (pre ++ x :: post)) := h
  refine (eraseFrom_gives (Nat.lt_succ_of_le (Nat.le_trans ?_ h.length_le)) hholds hn.1).bind ?_
  · simp
  · rintro _ s₁ h₁
    rw [gives_pure]
    exact ⟨rfl, h₁⟩

theorem erase_stops (h : s.Holds others xs) {it : ℕ} (hit : it ∉ xs.map Prod.fst) :
    ∃ s', (erase it).Stops s (if it ∈ others.map ListEntry.ptr then
      .panic "Tried to erase an iterator that isn't in the list" else .badDeref) s' := by
  rw [erase]
  by_cases hmem : it ∈ others.map ListEntry.ptr
  · obtain ⟨e, he, rfl⟩ := List.mem_map.mp hmem
    refine ⟨s, stops_bind.mpr (.inr ⟨e, s, entry_returns h.cells (by simp [he]), ?_⟩)⟩
    rw [if_pos hmem, stops_get_bind, h.head]
    have hchain : s.Chain others ([] ++ xs) := h.toChain
    refine Stops.bind (eraseFrom_stops (Nat.lt_succ_of_le h.length_le) hchain ?_ 0)
    intro y hy hye
    apply hit
    rw [← hye]
    exact List.mem_map_of_mem hy
  · rw [if_neg hmem]
    refine ⟨s, Stops.bind (entry_stops h.cells ?_)⟩
    rw [List.map_append, map_ptr_linkTo, List.mem_append]
    exact fun hor => hor.elim hit hmem

/-- The loop of `pop_back`: it finds the element in front of the last one. -/
theorem beforeTail_gives {b t : ℕ × T} {rest : List (ℕ × T)} (hk : rest.length < k)
    (h : s.Chain others (pre ++ (rest ++ [b, t]))) :
    (beforeTail t.1 k (headOr 0 (rest ++ [b, t]))).Gives s fun e s' => e = b.1 ∧ s' = s := by
  induction k generalizing pre rest with
  | zero => exact absurd hk (Nat.not_lt_zero _)
  | succ k ih =>
    rw [beforeTail]
    cases rest with
    | nil =>
      refine h.entry_mem ?_
      rw [headOr_cons, if_pos rfl, gives_pure]
      exact ⟨rfl, rfl⟩
    | cons y rest =>
      have hk : rest.length < k := by simpa using hk
      have hchain : s.Chain others (pre ++ y :: (rest ++ [b, t])) := h
      rw [List.cons_append, headOr_cons]
      refine hchain.entry_mem ?_
      have hne : headOr 0 (rest ++ [b, t]) ≠ t.1 := by
        have hn : ((pre ++ y :: (rest ++ [b])) ++ t :: []).map Prod.fst |>.Nodup := by
          simpa using h.nodup
        have hne := (notMem_of_nodup Prod.fst hn).1
        cases rest with
        | nil => exact hne b (by simp)
        | cons z rest => exact hne z (by simp)
      rw [if_neg hne]
      exact ih hk (show s.Chain others ((pre ++ [y]) ++ (rest ++ [b, t])) by simpa using h)

theorem popBack_gives (h : s.Holds others xs) (hne : xs ≠ []) :
    popBack.Gives s fun _ s' => s'.Holds others xs.dropLast := by
  obtain ⟨init, t, rfl⟩ := xs.eq_nil_or_concat.resolve_left hne
  rw [List.concat_eq_append] at h ⊢
  rw [popBack, gives_get_bind, if_neg (mt h.head_eq_zero.mp (by simp))]
  have htail : s.tail = t.1 := by simpa using h.tail
  rcases init.eq_nil_or_concat with rfl | ⟨init, b, rfl⟩
  · rw [if_pos (h.head.trans htail.symm)]
    refine (setHead_gives [t] h.head h.cells 0).bind ?_
    rintro _ _ ⟨heap, rfl, hcells⟩
    rw [gives_setTail_bind]
    refine gives_modify.mpr ⟨⟨hcells, rfl, ?_⟩, rfl⟩
    simp [h.count]
  · rw [List.concat_eq_append, List.append_assoc] at *
    have hchain : s.Chain others ([] ++ (init ++ [b, t])) := h.toChain
    have hlen : init.length < s.heap.length := by
      have := h.length_le
      simp at this
      omega
    have hsplit : headOr 0 (init ++ [b, t]) ≠ t.1 := by
      have hn : ((init ++ [b]) ++ t :: []).map Prod.fst |>.Nodup := by
        simpa using h.nodup
      have hne := (notMem_of_nodup Prod.fst hn).1
      cases init with
      | nil => exact hne b (by simp)
      | cons z init => exact hne z (by simp)
    rw [if_neg (by rw [h.head, htail]; exact hsplit), htail, h.head]
    refine (beforeTail_gives hlen hchain).bind ?_
    rintro _ s ⟨rfl, rfl⟩
    rw [gives_setTail_bind]
    have hcells : Cells s.heap (⟨b.1, t.1, b.2⟩ :: (linkTo 0 [t] ++ (linkTo b.1 init ++ others))) := by
      refine h.cells.of_count fun a => ?_
      simp only [linkTo_append, linkTo_cons, headOr_append, headOr_cons, headOr_nil, linkTo_nil,
        List.count_append, List.count_cons, List.count_nil]
      omega
    refine (setNext_gives [t] (s := { s with tail := b.1 }) (e := ⟨b.1, t.1, b.2⟩) rfl hcells
      0).bind ?_
    rintro _ _ ⟨heap, rfl, hcells⟩
    refine gives_modify.mpr ⟨⟨?_, ?_, ?_⟩, ?_⟩
    · rw [show (init ++ ([b] ++ [t])).dropLast = init ++ [b] by simp]
      refine hcells.of_count fun a => ?_
      simp only [linkTo_append, linkTo_cons, headOr_cons, headOr_nil, linkTo_nil,
        List.count_append, List.count_cons, List.count_nil]
      omega
    · have hhead := h.head
      simp [headOr_append] at hhead ⊢
      exact hhead
    · simp [h.count]
    · simp

theorem clear_gives (h : s.Holds others xs) : clear.Gives s fun _ s' => s'.Holds others [] := by
  rw [clear]
  refine (setHead_gives xs h.head h.cells 0).bind ?_
  rintro _ _ ⟨heap, rfl, hcells⟩
  exact gives_modify.mpr ⟨⟨hcells, rfl, rfl⟩, rfl⟩

theorem iterateFrom_gives {rest : List (ℕ × T)} (hk : rest.length < k)
    (h : s.Chain others (pre ++ rest)) : (iterateFrom k (headOr 0 rest)).Gives s fun objects s' =>
      objects = rest.map Prod.snd ∧ s' = s := by
  induction k generalizing pre rest with
  | zero => exact absurd hk (Nat.not_lt_zero _)
  | succ k ih =>
    rw [iterateFrom]
    cases rest with
    | nil =>
      rw [headOr_nil, if_pos rfl, gives_pure]
      exact ⟨rfl, rfl⟩
    | cons y rest =>
      have hk : rest.length < k := by simpa using hk
      rw [headOr_cons, if_neg (h.pos (by simp))]
      refine h.entry_mem ?_
      refine (ih hk (show s.Chain others ((pre ++ [y]) ++ rest) by simpa using h)).bind ?_
      rintro _ _ ⟨rfl, rfl⟩
      rw [gives_pure]
      exact ⟨rfl, rfl⟩

theorem construct_gives [Inhabited T] (alloc : Allocator T) (count : ℕ) (h : s.Holds others xs) :
    (construct alloc count).Gives s fun _ s' => ∃ ys, s'.Holds others (ys ++ xs) ∧
      ys.map Prod.snd = List.replicate count default := by
  induction count generalizing s xs with
  | zero =>
    rw [construct, gives_pure]
    exact ⟨[], h, rfl⟩
  | succ count ih =>
    rw [construct]
    refine (linkFront_gives alloc default h).bind ?_
    rintro _ s₁ ⟨p, h₁⟩
    refine (ih h₁).mono ?_
    rintro _ s₂ ⟨ys, h₂, hys⟩
    refine ⟨ys ++ [(p, default)], by simpa using h₂, ?_⟩
    rw [List.map_append, hys, List.replicate_succ']
    rfl

end Operations
end ListState

/-! ## Sequences -/

namespace ListOp
variable {T : Type}

/-- An operation on the sequence `xs`: what it returns and leaves, or why it does not
return.  A new element gets the address `p`; `others` are the elements of other lists. -/
def spec [BEq T] (others : List (ListEntry T)) (p : ℕ) (xs : List (ℕ × T)) :
    ListOp T → Except ListStuck (ListReply T × List (ℕ × T))
  | .pushFront value | .emplaceFront value => .ok (.void, (p, value) :: xs)
  | .pushBack value | .emplaceBack value => .ok (.void, xs ++ [(p, value)])
  | .popFront =>
      if xs = [] then .error (.panic "Tried to pop_front an empty list")
      else .ok (.void, xs.tail)
  | .popBack =>
      if xs = [] then .error (.panic "Tried to pop_back an empty list")
      else .ok (.void, xs.dropLast)
  | .remove value => .ok (.void, xs.filter fun x => !(x.2 == value))
  | .erase it =>
      if it ∈ xs.map Prod.fst then
        .ok (.iterator (headOr 0 (xs.dropWhile fun x => x.1 ≠ it).tail), unlink Prod.fst it xs)
      else if it ∈ others.map ListEntry.ptr then
        .error (.panic "Tried to erase an iterator that isn't in the list")
      else .error .badDeref
  | .clear => .ok (.void, [])
  | .front =>
      xs.head?.elim (.error (.panic "Tried to dereference a null unique_ptr"))
        fun x => .ok (.object x.2, xs)
  | .back => xs.getLast?.elim (.error .badDeref) fun x => .ok (.object x.2, xs)
  | .empty => .ok (.flag xs.isEmpty, xs)
  | .size => .ok (.number xs.length, xs)
  | .iterate => .ok (.objects (xs.map Prod.snd), xs)

/-- The runs of the operations on sequences that return, with their replies. -/
inductive Runs [BEq T] (others : List (ListEntry T)) :
    List (ℕ × T) → List (ListOp T) → List (ListReply T) → List (ℕ × T) → Prop
  | nil {xs : List (ℕ × T)} : Runs others xs [] [] xs
  | cons {xs ys zs : List (ℕ × T)} {op : ListOp T} {ops : List (ListOp T)} {reply : ListReply T}
      {replies : List (ListReply T)} {p : ℕ} (step : op.spec others p xs = .ok (reply, ys))
      (rest : Runs others ys ops replies zs) :
      Runs others xs (op :: ops) (reply :: replies) zs

/-- What became of running `ops` is what becomes of them on the sequence `xs`: all return,
with the same replies and the list holding the same sequence, or the first one that does
not return is the same, and stops for the same reason. -/
def Refines [BEq T] (others : List (ListEntry T)) (xs : List (ℕ × T)) (ops : List (ListOp T)) :
    Except ListStuck (List (ListReply T)) × ListState T → Prop
  | (.ok replies, s) => ∃ ys, Runs others xs ops replies ys ∧ s.Holds others ys
  | (.error e, _) => ∃ done op rest replies ys p, ops = done ++ op :: rest ∧
      Runs others xs done replies ys ∧ op.spec others p ys = .error e

section Refinement
open ListState
variable [BEq T] {others : List (ListEntry T)} {xs : List (ℕ × T)} {s : ListState T}
  {alloc : Allocator T}

/-- An operation that works on the list as `x` works on the sequence. -/
theorem returns_of_gives {op : ListOp T} {α : Type} {x : ListState.M T α} (reply : α → ListReply T)
    {ys : List (ℕ × T)} {r : ListReply T} (hop : op.exec alloc = do let a ← x; pure (reply a))
    (hx : x.Gives s fun a s' => reply a = r ∧ s'.Holds others ys) :
    ∃ s', (op.exec alloc).Returns s r s' ∧ s'.Holds others ys := by
  obtain ⟨a, s', hret, rfl, hs'⟩ := hx
  rw [hop]
  exact ⟨s', returns_bind.mpr ⟨a, s', hret, rfl⟩, hs'⟩

/-- Every operation on a list does what it does on the sequence that the list holds. -/
theorem exec_spec (alloc : Allocator T) (op : ListOp T) (h : s.Holds others xs) :
    ∃ p, match op.spec others p xs with
      | .ok (reply, ys) => ∃ s', (op.exec alloc).Returns s reply s' ∧ s'.Holds others ys
      | .error e => ∃ s', (op.exec alloc).Stops s e s' := by
  cases op with
  | pushFront value | emplaceFront value =>
    obtain ⟨_, s', hret, p, hs'⟩ := linkFront_gives alloc value h
    exact ⟨p, s', returns_bind.mpr ⟨_, _, hret, rfl⟩, hs'⟩
  | pushBack value | emplaceBack value =>
    obtain ⟨_, s', hret, p, hs'⟩ := linkBack_gives alloc value h
    exact ⟨p, s', returns_bind.mpr ⟨_, _, hret, rfl⟩, hs'⟩
  | popFront =>
    refine ⟨0, ?_⟩
    cases xs with
    | nil =>
      have hhead : s.head = 0 := h.head
      refine ⟨s, Stops.bind ?_⟩
      rw [ListState.popFront, stops_get_bind, if_pos hhead]
      exact stops_stop.mpr ⟨rfl, rfl⟩
    | cons x xs =>
      exact returns_of_gives (fun _ => .void) rfl
        ((popFront_gives h).mono fun _ _ hs' => ⟨rfl, hs'⟩)
  | popBack =>
    refine ⟨0, ?_⟩
    by_cases hnil : xs = []
    · simp only [spec, hnil, if_true]
      have hhead : s.head = 0 := h.head_eq_zero.mpr hnil
      refine ⟨s, Stops.bind ?_⟩
      rw [ListState.popBack, stops_get_bind, if_pos hhead]
      exact stops_stop.mpr ⟨rfl, rfl⟩
    · simp only [spec, hnil, if_false]
      exact returns_of_gives (fun _ => .void) rfl
        ((popBack_gives h hnil).mono fun _ _ hs' => ⟨rfl, hs'⟩)
  | remove value =>
    exact ⟨0, returns_of_gives (fun _ => .void) rfl
      ((remove_gives value h).mono fun _ _ hs' => ⟨rfl, hs'⟩)⟩
  | erase it =>
    refine ⟨0, ?_⟩
    by_cases hit : it ∈ xs.map Prod.fst
    · obtain ⟨x, hx, rfl⟩ := List.mem_map.mp hit
      obtain ⟨pre, post, rfl⟩ := List.append_of_mem hx
      have hpre := (notMem_of_nodup Prod.fst h.nodup).1
      have hdrop : (pre ++ x :: post).dropWhile (fun y => decide (y.1 ≠ x.1)) = x :: post := by
        rw [List.dropWhile_append_of_pos fun y hy => decide_eq_true (hpre y hy)]
        simp
      simp only [spec, hit, if_true, hdrop, List.tail_cons, unlink_eq h.nodup]
      refine returns_of_gives _ rfl ((erase_gives h).mono ?_)
      rintro _ s' ⟨rfl, hs'⟩
      exact ⟨rfl, hs'⟩
    · obtain ⟨s', hs'⟩ := erase_stops h hit
      simp only [spec, hit, if_false]
      by_cases hmem : it ∈ others.map ListEntry.ptr
      · simp only [hmem, if_true] at hs' ⊢
        exact ⟨s', Stops.bind hs'⟩
      · simp only [hmem, if_false] at hs' ⊢
        exact ⟨s', Stops.bind hs'⟩
  | clear =>
    exact ⟨0, returns_of_gives (fun _ => .void) rfl
      ((clear_gives h).mono fun _ _ hs' => ⟨rfl, hs'⟩)⟩
  | front =>
    refine ⟨0, ?_⟩
    cases xs with
    | nil =>
      have hhead : s.head = 0 := h.head
      refine ⟨s, Stops.bind ?_⟩
      rw [ListState.front, stops_get_bind, if_pos hhead, stops_stop]
      exact ⟨rfl, rfl⟩
    | cons x xs =>
      have hhead : s.head ≠ 0 := mt h.head_eq_zero.mp (by simp)
      refine returns_of_gives (x := ListState.front) _ rfl ?_
      rw [ListState.front, gives_get_bind, if_neg hhead, h.head]
      have hchain : s.Chain others ([] ++ x :: xs) := h.toChain
      refine hchain.entry_mem ?_
      rw [gives_pure]
      exact ⟨rfl, h⟩
  | back =>
    refine ⟨0, ?_⟩
    rcases xs.eq_nil_or_concat with rfl | ⟨init, t, rfl⟩
    · refine ⟨s, Stops.bind ?_⟩
      rw [ListState.back, stops_get_bind, h.tail]
      exact Stops.bind (entry_stops h.cells h.cells.null)
    · rw [List.concat_eq_append] at h ⊢
      simp only [spec, List.getLast?_append, List.getLast?_singleton, Option.some_or, Option.elim]
      refine returns_of_gives (x := ListState.back) _ rfl ?_
      rw [ListState.back, gives_get_bind, h.tail, lastPtr_append_singleton]
      refine h.entry_mem ?_
      rw [gives_pure]
      exact ⟨rfl, h⟩
  | empty =>
    refine ⟨0, returns_of_gives (x := ListState.empty) _ rfl ?_⟩
    rw [ListState.empty, gives_get_bind]
    cases xs with
    | nil =>
      have hhead : s.head = 0 := h.head
      have htail : s.tail = 0 := h.tail
      rw [if_neg (by simp [htail]), gives_pure]
      exact ⟨by simp [hhead], h⟩
    | cons x xs =>
      have hhead : s.head ≠ 0 := mt h.head_eq_zero.mp (by simp)
      rw [if_neg (by simp [hhead]), gives_pure]
      exact ⟨by simp [hhead], h⟩
  | size =>
    refine ⟨0, returns_of_gives (x := ListState.size) _ rfl ?_⟩
    rw [ListState.size, gives_get_bind, gives_pure, h.count]
    exact ⟨rfl, h⟩
  | iterate =>
    refine ⟨0, returns_of_gives (x := ListState.iterate) _ rfl ?_⟩
    rw [ListState.iterate, gives_get_bind, h.head]
    have hchain : s.Chain others ([] ++ xs) := h.toChain
    refine (iterateFrom_gives (Nat.lt_succ_of_le h.length_le) hchain).mono ?_
    rintro _ _ ⟨rfl, rfl⟩
    exact ⟨rfl, h⟩

/-- Every sequence of operations on a list does what it does on a sequence. -/
theorem execAll_refines (ops : List (ListOp T)) (h : s.Holds others xs) :
    Refines others xs ops (execAll alloc ops s) := by
  induction ops generalizing s xs with
  | nil => exact ⟨xs, .nil, h⟩
  | cons op ops ih =>
    obtain ⟨p, hop⟩ := exec_spec alloc op h
    rcases hspec : op.spec others p xs with e | ⟨reply, ys⟩
    · simp only [hspec] at hop
      obtain ⟨s', hs'⟩ := hop
      rw [execAll, hs'.bind_eq]
      exact ⟨[], op, ops, [], xs, p, rfl, .nil, hspec⟩
    · simp only [hspec] at hop
      obtain ⟨s', hret, hs'⟩ := hop
      rw [execAll, hret.bind_eq]
      have hrest := ih hs'
      rw [bind_def]
      rcases hrun : execAll alloc ops s' with ⟨e | replies, s''⟩
      · rw [hrun] at hrest
        obtain ⟨done, op', rest, replies, zs, q, rfl, hruns, he⟩ := hrest
        exact ⟨op :: done, op', rest, reply :: replies, zs, q, rfl, .cons hspec hruns, he⟩
      · rw [hrun] at hrest
        obtain ⟨zs, hruns, hzs⟩ := hrest
        exact ⟨zs, .cons hspec hruns, hzs⟩

/-- **A list is a sequence**: beside any other lists in memory, `list(count)` builds a list
that holds `count` default elements, and from there on every sequence of operations does
what it does on a sequence. -/
theorem list_refines [Inhabited T] (alloc : Allocator T) (others : List (ListEntry T))
    (hothers : Cells others others) (count : ℕ) (ops : List (ListOp T)) :
    ∃ s xs, (construct alloc count).Returns ⟨others, 0, 0, 0⟩ () s ∧
      xs.map Prod.snd = List.replicate count default ∧ s.Holds others xs ∧
      Refines others xs ops (execAll alloc ops s) := by
  have hnil : Holds others [] ⟨others, 0, 0, 0⟩ := ⟨⟨hothers, rfl, rfl⟩, rfl⟩
  obtain ⟨_, s, hret, xs, hs, hxs⟩ := construct_gives alloc count hnil
  rw [List.append_nil] at hs
  exact ⟨s, xs, hret, hxs, hs, execAll_refines ops hs⟩

/-- Beside an entry of another list, that entry is erased. -/
theorem list_refines_foreign : ∃ s xs,
    (construct Allocator.bump 2).Returns ⟨[⟨1, 0, 5⟩], 0, 0, 0⟩ () s ∧
      xs.map Prod.snd = List.replicate 2 0 ∧ s.Holds [⟨1, 0, 5⟩] xs ∧
      Refines [⟨1, 0, 5⟩] xs [.pushBack 7, .remove 0, .popBack, .erase 1]
        (execAll Allocator.bump [.pushBack 7, .remove 0, .popBack, .erase 1] s) :=
  list_refines Allocator.bump [⟨1, 0, 5⟩] ⟨.refl _, by simp, by simp⟩ 2 _

end Refinement
end ListOp

end Cantos
