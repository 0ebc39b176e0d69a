import Mathlib.Data.List.Basic
import Mathlib.Data.List.Nodup
import Mathlib.Tactic.Common

/-!
# Linked lists of records with addresses

A linked list in memory is the list of its records in `next` order.  Every record
has an address, `ptr`, and the updates below act on the record at a given address,
as code does through a pointer: nothing happens when the record is not linked here.
The lemmas say what an update makes of a list in which no address is linked twice.

## Main definitions

* `Linked.lastPtr`: the address of the last record, `0` for the empty list.
* `Linked.unlink`, `Linked.updateAt`, `Linked.linkEnd`: take out, change, and link a
  record behind, the record at an address.
* `Linked.joinNext`: join the record at an address with the next one.
-/

namespace Cantos.Linked

variable {α : Type} (ptr : α → ℕ)

/-- The address of the last record; `0`, the null pointer, for the empty list. -/
def lastPtr (l : List α) : ℕ := l.getLast?.elim 0 ptr

/-- Take the record at `p` out of the list. -/
def unlink (p : ℕ) (l : List α) : List α := l.filter fun x => ptr x ≠ p

/-- Change the record at `p`. -/
def updateAt (p : ℕ) (f : α → α) (l : List α) : List α :=
  l.map fun x => if ptr x = p then f x else x

/-- Make `y` the next record, and the last one, after the record at `p`. -/
def linkEnd (p : ℕ) (y : α) : List α → List α
  | [] => []
  | x :: next => if ptr x = p then [x, y] else x :: linkEnd p y next

/-- Join the record at `p` with the next one, when the two touch: the new list, and
the record that is no longer in it. -/
def joinNext (touch : α → α → Bool) (join : α → α → α) (p : ℕ) : List α → Option (List α × α)
  | x :: y :: next =>
      if ptr x = p then if touch x y then some (join x y :: next, y) else none
      else (joinNext touch join p (y :: next)).map fun r => (x :: r.1, r.2)
  | _ => none

variable {ptr} {l pre post : List α} {x y : α} {p : ℕ}

@[simp] theorem lastPtr_nil : lastPtr ptr [] = 0 := rfl

@[simp] theorem lastPtr_append_singleton : lastPtr ptr (l ++ [x]) = ptr x := by
  simp [lastPtr]

theorem lastPtr_append_cons : lastPtr ptr (pre ++ x :: post) = lastPtr ptr (x :: post) := by
  cases h : (x :: post).getLast? with
  | none => simp at h
  | some z => simp [lastPtr, List.getLast?_append, h]

theorem lastPtr_cons_cons : lastPtr ptr (x :: y :: post) = lastPtr ptr (y :: post) :=
  (lastPtr_append_cons : lastPtr ptr ([x] ++ y :: post) = _)

theorem lastPtr_cons_congr (h : ptr x = ptr y) :
    lastPtr ptr (x :: post) = lastPtr ptr (y :: post) := by
  cases post with
  | nil => simpa [lastPtr] using h
  | cons z post => simp [lastPtr]

theorem lastPtr_mem (h : l ≠ []) : lastPtr ptr l ∈ l.map ptr := by
  obtain ⟨init, z, rfl⟩ := List.eq_nil_or_concat l |>.resolve_left h
  simp

theorem notMem_of_nodup (ptr : α → ℕ) (h : ((pre ++ x :: post).map ptr).Nodup) :
    (∀ z ∈ pre, ptr z ≠ ptr x) ∧ ∀ z ∈ post, ptr z ≠ ptr x := by
  rw [List.map_append, List.map_cons, List.nodup_append] at h
  obtain ⟨-, hx, hd⟩ := h
  constructor
  · intro z hz
    exact hd _ (List.mem_map_of_mem hz) _ List.mem_cons_self
  · intro z hz he
    exact (List.nodup_cons.mp hx).1 (he ▸ List.mem_map_of_mem hz)

/-- The last record once the record at `ptr x` is taken out. -/
theorem lastPtr_unlink (h : ((pre ++ x :: post).map ptr).Nodup) :
    (if ptr x = lastPtr ptr (pre ++ x :: post) then lastPtr ptr pre
      else lastPtr ptr (pre ++ x :: post)) = lastPtr ptr (pre ++ post) := by
  cases post with
  | nil => simp
  | cons y post =>
    have hmem : lastPtr ptr (y :: post) ∈ (y :: post).map ptr := lastPtr_mem (by simp)
    obtain ⟨z, hz, he⟩ := List.mem_map.mp hmem
    rw [lastPtr_append_cons, lastPtr_append_cons, lastPtr_cons_cons, ← he, if_neg]
    exact fun hx => (notMem_of_nodup ptr h).2 z hz hx.symm

theorem unlink_eq (h : ((pre ++ x :: post).map ptr).Nodup) :
    unlink ptr (ptr x) (pre ++ x :: post) = pre ++ post := by
  obtain ⟨hpre, hpost⟩ := notMem_of_nodup ptr h
  have e : ∀ l : List α, (∀ z ∈ l, ptr z ≠ ptr x) → l.filter (fun z => ptr z ≠ ptr x) = l := by
    intro l hl
    exact List.filter_eq_self.mpr fun z hz => by simpa using hl z hz
  simp only [unlink, List.filter_append]
  rw [e pre hpre, List.filter_cons_of_neg (by simp), e post hpost]

theorem updateAt_of_notMem (f : α → α) (h : ∀ z ∈ l, ptr z ≠ p) : updateAt ptr p f l = l := by
  induction l with
  | nil => rfl
  | cons z l ih =>
    have hz := h z List.mem_cons_self
    have hl := ih fun w hw => h w (List.mem_cons_of_mem _ hw)
    unfold updateAt at hl ⊢
    rw [List.map_cons, if_neg hz, hl]

theorem updateAt_eq (f : α → α) (h : ((pre ++ x :: post).map ptr).Nodup) :
    updateAt ptr (ptr x) f (pre ++ x :: post) = pre ++ f x :: post := by
  obtain ⟨hpre, hpost⟩ := notMem_of_nodup ptr h
  have e₁ := updateAt_of_notMem f hpre
  have e₂ := updateAt_of_notMem f hpost
  unfold updateAt at e₁ e₂ ⊢
  rw [List.map_append, List.map_cons, if_pos rfl, e₁, e₂]

theorem map_ptr_updateAt {f : α → α} (hf : ∀ z, ptr (f z) = ptr z) :
    (updateAt ptr p f l).map ptr = l.map ptr := by
  rw [updateAt, List.map_map]
  refine List.map_congr_left fun z _ => ?_
  by_cases hz : ptr z = p <;> simp [hz, hf]

theorem linkEnd_eq (h : ((pre ++ [x]).map ptr).Nodup) :
    linkEnd ptr (ptr x) y (pre ++ [x]) = pre ++ [x, y] := by
  obtain ⟨hpre, -⟩ := notMem_of_nodup ptr h
  clear h
  induction pre with
  | nil => simp [linkEnd]
  | cons z pre ih =>
    rw [List.cons_append, linkEnd, if_neg (hpre z List.mem_cons_self),
      ih fun w hw => hpre w (List.mem_cons_of_mem _ hw), List.cons_append]

/-- Linking behind the last record appends. -/
theorem linkEnd_lastPtr (hl : l ≠ []) (h : (l.map ptr).Nodup) :
    linkEnd ptr (lastPtr ptr l) y l = l ++ [y] := by
  obtain ⟨init, z, rfl⟩ := List.eq_nil_or_concat l |>.resolve_left hl
  rw [List.concat_eq_append] at h ⊢
  rw [lastPtr_append_singleton, linkEnd_eq h]
  simp

theorem joinNext_eq_some {touch : α → α → Bool} {join : α → α → α} {l' : List α}
    (h : joinNext ptr touch join p l = some (l', y)) :
    ∃ pre x post, l = pre ++ x :: y :: post ∧ ptr x = p ∧ touch x y ∧
      l' = pre ++ join x y :: post := by
  induction l generalizing l' with
  | nil => cases h
  | cons x l ih =>
    cases l with
    | nil => cases h
    | cons z next =>
      rw [joinNext] at h
      by_cases hx : ptr x = p
      · rw [if_pos hx] at h
        by_cases ht : touch x z
        · rw [if_pos ht] at h
          cases h
          exact ⟨[], x, next, rfl, hx, ht, rfl⟩
        · rw [if_neg ht] at h
          cases h
      · rw [if_neg hx] at h
        obtain ⟨⟨r, w⟩, hr, he⟩ := Option.map_eq_some_iff.mp h
        cases he
        obtain ⟨pre, u, post, e, hu, ht, e'⟩ := ih hr
        exact ⟨x :: pre, u, post, by rw [e]; rfl, hu, ht, by rw [e']; rfl⟩

/-- What `joinNext` does at a record that is linked. -/
theorem joinNext_eq {touch : α → α → Bool} {join : α → α → α}
    (hn : ((pre ++ x :: post).map ptr).Nodup) :
    joinNext ptr touch join (ptr x) (pre ++ x :: post) = match post with
      | [] => none
      | y :: rest => if touch x y then some (pre ++ join x y :: rest, y) else none := by
  induction pre with
  | nil =>
    cases post with
    | nil => rfl
    | cons y rest => simp [joinNext]
  | cons z pre ih =>
    have hz : ptr z ≠ ptr x := (notMem_of_nodup ptr hn).1 z List.mem_cons_self
    have hn' : ((pre ++ x :: post).map ptr).Nodup := (List.nodup_cons.mp hn).2
    obtain ⟨w, rest, e⟩ : ∃ w rest, pre ++ x :: post = w :: rest := by
      cases pre with
      | nil => exact ⟨_, _, rfl⟩
      | cons w pre => exact ⟨_, _, rfl⟩
    rw [List.cons_append, e, joinNext, if_neg hz, ← e, ih hn']
    cases post with
    | nil => rfl
    | cons y rest => by_cases ht : touch x y <;> simp [ht]

theorem find?_ptr (h : ((pre ++ x :: post).map ptr).Nodup) :
    (pre ++ x :: post).find? (fun z => ptr z = ptr x) = some x := by
  obtain ⟨hpre, -⟩ := notMem_of_nodup ptr h
  rw [List.find?_append, List.find?_eq_none.mpr fun z hz => by simpa using hpre z hz]
  simp

theorem find?_ptr_of_mem (h : (l.map ptr).Nodup) (hx : x ∈ l) :
    l.find? (fun z => ptr z = ptr x) = some x := by
  obtain ⟨pre, post, rfl⟩ := List.append_of_mem hx
  exact find?_ptr h

/-- A record is determined by its address. -/
theorem eq_of_ptr_eq (h : (l.map ptr).Nodup) (hx : x ∈ l) (hy : y ∈ l) (he : ptr x = ptr y) :
    x = y := List.inj_on_of_nodup_map h hx hy he

end Cantos.Linked
