import Mathlib.Data.List.Basic
import Mathlib.Logic.Function.Basic

/-!
# `StaticList<T, C>`

A cyclic buffer of `C` objects with the index of its first element and the index behind its
last one.  A list that is full looks like one that is empty, so what is stored agrees with a
deque as long as one place stays free.

## Main definitions

* `StaticList`, `DequeOp.exec`: the buffer, and its operations.
* `DequeOp.spec`: the operations on a deque.
* `StaticList.Refines`: after every operation, the buffer answers as the deque does.
* `StaticList.StaysBelow`: no push takes the last place.
-/

namespace Cantos

/-- `StaticList<T, C>`, with its indices in the array. -/
structure StaticList (T : Type) (C : ℕ) where
  objects : ℕ → T
  head : ℕ
  tail : ℕ
  head_lt : head < C
  tail_lt : tail < C

namespace StaticList

variable {T : Type} {C : ℕ}

/-- `head ? head - 1 : C - 1` -/
def before (C i : ℕ) : ℕ := if i ≠ 0 then i - 1 else C - 1

/-- `(head + 1) % C` -/
def after (C i : ℕ) : ℕ := (i + 1) % C

theorem before_lt {i : ℕ} (hi : i < C) : before C i < C := by
  rw [before]
  split_ifs <;> omega

theorem after_lt {i : ℕ} (hi : i < C) : after C i < C := Nat.mod_lt _ (by omega)

theorem after_eq {i : ℕ} (hi : i < C) : after C i = if i + 1 < C then i + 1 else 0 := by
  rw [after]
  split_ifs with hlt
  · exact Nat.mod_eq_of_lt hlt
  · have hend : i + 1 = C := by omega
    rw [hend, Nat.mod_self]

/-- A new list; the objects are default constructed. -/
def new (objects : ℕ → T) (hC : 0 < C) : StaticList T C := ⟨objects, 0, 0, hC, hC⟩

def front (s : StaticList T C) : T := s.objects s.head

def back (s : StaticList T C) : T := s.objects (if s.tail ≠ 0 then s.tail - 1 else C - 1)

def empty (s : StaticList T C) : Bool := s.head = s.tail

def size (s : StaticList T C) : ℕ :=
  if s.head ≤ s.tail then s.tail - s.head else C + s.tail - s.head

def clear (s : StaticList T C) : StaticList T C := { s with head := s.tail, head_lt := s.tail_lt }

/-- `push_front`, of a reference and of a temporary alike. -/
def pushFront (value : T) (s : StaticList T C) : StaticList T C := { s with
  objects := Function.update s.objects (before C s.head) value
  head := before C s.head
  head_lt := before_lt s.head_lt }

/-- `emplace_front`, with the object built from its arguments. -/
def emplaceFront (object : T) (s : StaticList T C) : StaticList T C := pushFront object s

/-- `push_back`, of a reference and of a temporary alike. -/
def pushBack (value : T) (s : StaticList T C) : StaticList T C := { s with
  objects := Function.update s.objects s.tail value
  tail := after C s.tail
  tail_lt := after_lt s.tail_lt }

/-- `emplace_back`, with the object built from its arguments. -/
def emplaceBack (object : T) (s : StaticList T C) : StaticList T C := pushBack object s

/-- `pop_front`; the error is the text of the panic. -/
def popFront (s : StaticList T C) : Except String (T × StaticList T C) :=
  if s.head = s.tail then .error "Tried to pop_front an empty list"
  else .ok (s.objects s.head,
    { s with head := after C s.head, head_lt := after_lt s.head_lt })

/-- `pop_back` -/
def popBack (s : StaticList T C) : Except String (T × StaticList T C) :=
  if s.head = s.tail then .error "Tried to pop_back an empty list"
  else .ok (s.objects (before C s.tail),
    { s with tail := before C s.tail, tail_lt := before_lt s.tail_lt })

end StaticList

/-! ## Operations -/

/-- The operations that change a list. -/
inductive DequeOp (T : Type)
  | pushFront (value : T)
  | pushBack (value : T)
  | emplaceFront (object : T)
  | emplaceBack (object : T)
  | popFront
  | popBack
  | clear

namespace DequeOp

variable {T : Type} {C : ℕ}

/-- Run an operation; a pop returns what it takes. -/
def exec (s : StaticList T C) : DequeOp T → Except String (Option T × StaticList T C)
  | .pushFront value => .ok (none, s.pushFront value)
  | .pushBack value => .ok (none, s.pushBack value)
  | .emplaceFront object => .ok (none, s.emplaceFront object)
  | .emplaceBack object => .ok (none, s.emplaceBack object)
  | .popFront => s.popFront.map fun (x, s) => (some x, s)
  | .popBack => s.popBack.map fun (x, s) => (some x, s)
  | .clear => .ok (none, s.clear)

/-- The operation on a deque. -/
def spec (xs : List T) : DequeOp T → Option T × List T
  | .pushFront value => (none, value :: xs)
  | .pushBack value => (none, xs ++ [value])
  | .emplaceFront object => (none, object :: xs)
  | .emplaceBack object => (none, xs ++ [object])
  | .popFront => (xs.head?, xs.tail)
  | .popBack => (xs.getLast?, xs.dropLast)
  | .clear => (none, [])

/-- Whether an operation takes an element. -/
def pops : DequeOp T → Bool
  | .popFront | .popBack => true
  | _ => false

/-- Elements are popped from lists that have one, and no more than `C` are stored. -/
def Legal (C : ℕ) : List T → List (DequeOp T) → Prop
  | _, [] => True
  | xs, op :: ops =>
      (op.pops → xs ≠ []) ∧ (op.spec xs).2.length ≤ C ∧ Legal C (op.spec xs).2 ops

/-- Fewer than `C` elements are stored. -/
def StaysBelow (C : ℕ) : List T → List (DequeOp T) → Prop
  | _, [] => True
  | xs, op :: ops => (op.spec xs).2.length < C ∧ StaysBelow C (op.spec xs).2 ops

end DequeOp

/-! ## Agreement -/

namespace StaticList

variable {T : Type} {C : ℕ} {s s' : StaticList T C} {xs : List T} {op : DequeOp T}

/-- The list answers what the deque `xs` answers. -/
structure Agrees (s : StaticList T C) (xs : List T) : Prop where
  size : s.size = xs.length
  empty : s.empty = xs.isEmpty
  front : ∀ x ∈ xs.head?, s.front = x
  back : ∀ x ∈ xs.getLast?, s.back = x

/-- The list answers what the deque answers, and so on after every operation. -/
def Refines : StaticList T C → List T → List (DequeOp T) → Prop
  | s, xs, [] => s.Agrees xs
  | s, xs, op :: ops => s.Agrees xs ∧
      ∃ s', op.exec s = .ok ((op.spec xs).1, s') ∧ Refines s' (op.spec xs).2 ops

/-- The place of element `i`. -/
def place (s : StaticList T C) (i : ℕ) : ℕ :=
  if s.head + i < C then s.head + i else s.head + i - C

/-- The elements are `xs`, and a place is free. -/
structure Holds (s : StaticList T C) (xs : List T) : Prop where
  length_lt : xs.length < C
  tail : s.tail = s.place xs.length
  objects : ∀ (i : ℕ) (hi : i < xs.length), s.objects (s.place i) = xs[i]

theorem Holds.agrees (h : s.Holds xs) : s.Agrees xs := by
  have hlen := h.length_lt
  have htail := h.tail
  have hhead := s.head_lt
  rw [place] at htail
  refine ⟨?_, ?_, ?_, ?_⟩
  · rw [StaticList.size]
    split_ifs at htail ⊢ <;> omega
  · have hiff : s.head = s.tail ↔ xs = [] := by
      rw [← List.length_eq_zero_iff]
      split_ifs at htail <;> omega
    rw [Bool.eq_iff_iff, List.isEmpty_iff, StaticList.empty, decide_eq_true_iff, hiff]
  · intro x hx
    cases xs with
    | nil => cases hx
    | cons y ys =>
      have hfirst := h.objects 0 (Nat.succ_pos _)
      rw [place, Nat.add_zero, if_pos hhead] at hfirst
      rw [StaticList.front, hfirst]
      exact Option.some.inj hx
  · intro x hx
    rw [Option.mem_def, List.getLast?_eq_getElem?, List.getElem?_eq_some_iff] at hx
    obtain ⟨hi, hx⟩ := hx
    rw [StaticList.back, ← hx, ← h.objects _ hi, place]
    congr 1
    split_ifs at htail ⊢ <;> omega

/-- A list that holds `C` elements looks empty. -/
theorem not_agrees_of_full (htail : s.tail = s.head) (hfull : xs.length = C) : ¬ s.Agrees xs := by
  intro h
  have hsize := h.size
  have hlt := s.head_lt
  rw [StaticList.size, htail, if_pos (Nat.le_refl _)] at hsize
  omega

theorem new_holds (objects : ℕ → T) (hC : 0 < C) : (new objects hC).Holds [] where
  length_lt := hC
  tail := by simp [new, place, hC]
  objects i hi := absurd hi (Nat.not_lt_zero i)

/-! ### The operations -/

theorem clear_holds : s.clear.Holds [] where
  length_lt := Nat.zero_lt_of_lt s.head_lt
  tail := by simp [StaticList.clear, place, s.tail_lt]
  objects i hi := absurd hi (Nat.not_lt_zero i)

section Places
variable {i j : ℕ}

/-- Places of different elements are different. -/
theorem place_ne (hi : i < C) (hj : j < C) (hne : i ≠ j) : s.place i ≠ s.place j := by
  have hhead := s.head_lt
  rw [place, place]
  split_ifs <;> omega

/-- The place in front of the first element. -/
theorem before_ne_place (hi : i + 1 < C) : s.place i ≠ before C s.head := by
  have hhead := s.head_lt
  rw [place, before]
  split_ifs <;> omega

/-- What was element `i` is element `i + 1` behind a new first one. -/
theorem pushFront_place {value : T} (hi : i + 1 < C) :
    (s.pushFront value).place (i + 1) = s.place i := by
  have hhead := s.head_lt
  simp only [place, pushFront, before]
  split_ifs <;> omega

theorem pushFront_place_zero {value : T} : (s.pushFront value).place 0 = before C s.head := by
  rw [place, Nat.add_zero, if_pos (s.pushFront value).head_lt]
  rfl

/-- A list with one element more ends one place further. -/
theorem after_place (hi : i < C) : after C (s.place i) = s.place (i + 1) ∨ i + 1 = C := by
  have hhead := s.head_lt
  have hlt : s.place i < C := by
    rw [place]
    split_ifs <;> omega
  rw [after_eq hlt]
  simp only [place] at *
  split_ifs at * <;> omega

end Places

theorem Holds.pushFront (h : s.Holds xs) (value : T) :
    (xs.length + 1 < C → (s.pushFront value).Holds (value :: xs)) ∧
      (xs.length + 1 = C → (s.pushFront value).tail = (s.pushFront value).head) := by
  have htail := h.tail
  have hhead := s.head_lt
  refine ⟨fun hlt => ⟨hlt, ?_, ?_⟩, fun hfull => ?_⟩
  · rw [List.length_cons, pushFront_place hlt]
    exact htail
  · intro i hi
    cases i with
    | zero =>
      rw [pushFront_place_zero]
      exact Function.update_self _ _ _
    | succ i =>
      rw [List.length_cons] at hi
      rw [pushFront_place (by omega), List.getElem_cons_succ, ← h.objects i (by omega)]
      exact Function.update_of_ne (before_ne_place (by omega)) _ _
  · simp only [StaticList.pushFront, before, place] at *
    split_ifs at * <;> omega

theorem Holds.pushBack (h : s.Holds xs) (value : T) :
    (xs.length + 1 < C → (s.pushBack value).Holds (xs ++ [value])) ∧
      (xs.length + 1 = C → (s.pushBack value).tail = (s.pushBack value).head) := by
  have htail := h.tail
  have hlen := h.length_lt
  have hhead := s.head_lt
  have hplace : ∀ i, (s.pushBack value).place i = s.place i := fun _ => rfl
  refine ⟨fun hlt => ⟨?_, ?_, ?_⟩, fun hfull => ?_⟩
  · rw [List.length_append, List.length_singleton]
    exact hlt
  · rw [List.length_append, List.length_singleton, hplace]
    have hnext := (after_place (s := s) hlen).resolve_right (by omega)
    rw [← hnext, ← htail]
    rfl
  · intro i hi
    rw [List.length_append, List.length_singleton] at hi
    rw [hplace]
    by_cases hlast : i = xs.length
    · subst hlast
      rw [List.getElem_concat_length rfl, ← htail]
      exact Function.update_self _ _ _
    · rw [List.getElem_append_left (by omega), ← h.objects i (by omega)]
      refine Function.update_of_ne ?_ _ _
      rw [htail]
      exact place_ne (by omega) hlen hlast
  · have hnext := after_eq s.tail_lt
    change after C s.tail = s.head
    rw [hnext]
    simp only [place] at htail
    split_ifs at * <;> omega

theorem Holds.head_eq_tail (h : s.Holds xs) : s.head = s.tail ↔ xs = [] := by
  have htail := h.tail
  have hlen := h.length_lt
  have hhead := s.head_lt
  rw [place] at htail
  rw [← List.length_eq_zero_iff]
  split_ifs at htail <;> omega

theorem Holds.popFront {x : T} (h : s.Holds (x :: xs)) :
    ∃ s', s.popFront = .ok (x, s') ∧ s'.Holds xs := by
  have htail := h.tail
  have hlen := h.length_lt
  have hhead := s.head_lt
  have hfirst := h.objects 0 (Nat.succ_pos _)
  rw [place, Nat.add_zero, if_pos hhead] at hfirst
  rw [List.length_cons] at hlen
  have hplace : ∀ i < C - 1, ∀ s' : StaticList T C, s'.head = after C s.head →
      s'.place i = s.place (i + 1) := by
    intro i hi s' hs'
    rw [place, place, hs', after_eq hhead]
    split_ifs <;> omega
  have hne : s.head ≠ s.tail := fun heq => List.cons_ne_nil x xs (h.head_eq_tail.mp heq)
  rw [StaticList.popFront, if_neg hne, hfirst]
  refine ⟨_, rfl, ⟨by omega, ?_, ?_⟩⟩
  · rw [hplace _ (by omega) _ rfl]
    exact htail
  · intro i hi
    rw [hplace _ (by omega) _ rfl]
    exact h.objects (i + 1) (Nat.succ_lt_succ hi)

theorem Holds.popBack {x : T} (h : s.Holds (xs ++ [x])) :
    ∃ s', s.popBack = .ok (x, s') ∧ s'.Holds xs := by
  have htail := h.tail
  have hlen := h.length_lt
  have hhead := s.head_lt
  have hlast := h.objects xs.length (by simp)
  rw [List.getElem_concat_length rfl] at hlast
  rw [List.length_append, List.length_singleton] at hlen htail
  have hbefore : before C s.tail = s.place xs.length := by
    rw [htail, before]
    simp only [place]
    split_ifs <;> omega
  have hne : s.head ≠ s.tail := fun heq => by
    have hnil := h.head_eq_tail.mp heq
    exact List.cons_ne_nil x [] (List.append_eq_nil_iff.mp hnil).2
  have hx : s.objects (before C s.tail) = x := by rw [hbefore, hlast]
  rw [StaticList.popBack, if_neg hne, hx]
  refine ⟨_, rfl, ⟨by omega, hbefore, ?_⟩⟩
  intro i hi
  have hi' : i < (xs ++ [x]).length := by simp; omega
  have hget : (xs ++ [x])[i] = xs[i] := List.getElem_append_left hi
  rw [← hget]
  exact h.objects i hi'

/-- What an operation does while a place stays free. -/
theorem Holds.exec (h : s.Holds xs) (hpops : op.pops → xs ≠ [])
    (hlt : (op.spec xs).2.length < C) :
    ∃ s', op.exec s = .ok ((op.spec xs).1, s') ∧ s'.Holds (op.spec xs).2 := by
  cases op with
  | pushFront value => exact ⟨_, rfl, (h.pushFront value).1 hlt⟩
  | emplaceFront object => exact ⟨_, rfl, (h.pushFront object).1 hlt⟩
  | pushBack value => exact ⟨_, rfl, (h.pushBack value).1 (by simpa [DequeOp.spec] using hlt)⟩
  | emplaceBack object => exact ⟨_, rfl, (h.pushBack object).1 (by simpa [DequeOp.spec] using hlt)⟩
  | popFront =>
    obtain ⟨x, ys, rfl⟩ := List.exists_cons_of_ne_nil (hpops rfl)
    obtain ⟨s', hpop, hs'⟩ := h.popFront
    exact ⟨s', by rw [DequeOp.exec, hpop]; rfl, hs'⟩
  | popBack =>
    obtain ⟨ys, x, rfl⟩ := (List.eq_nil_or_concat' xs).resolve_left (hpops rfl)
    obtain ⟨s', hpop, hs'⟩ := h.popBack
    refine ⟨s', ?_, ?_⟩
    · rw [DequeOp.exec, hpop, DequeOp.spec, List.getLast?_concat]
      rfl
    · rw [DequeOp.spec, List.dropLast_concat]
      exact hs'
  | clear => exact ⟨_, rfl, clear_holds⟩

/-- The push that takes the last place. -/
theorem Holds.exec_full (h : s.Holds xs) (hpops : op.pops → xs ≠ [])
    (hfull : (op.spec xs).2.length = C) {r : Option T} (hs' : op.exec s = .ok (r, s')) :
    ¬ s'.Agrees (op.spec xs).2 := by
  have hlen := h.length_lt
  refine not_agrees_of_full ?_ hfull
  cases op with
  | pushFront value =>
    obtain ⟨-, rfl⟩ := Prod.mk.inj (Except.ok.inj hs')
    exact (h.pushFront value).2 hfull
  | emplaceFront object =>
    obtain ⟨-, rfl⟩ := Prod.mk.inj (Except.ok.inj hs')
    exact (h.pushFront object).2 hfull
  | pushBack value =>
    obtain ⟨-, rfl⟩ := Prod.mk.inj (Except.ok.inj hs')
    exact (h.pushBack value).2 (by simpa [DequeOp.spec] using hfull)
  | emplaceBack object =>
    obtain ⟨-, rfl⟩ := Prod.mk.inj (Except.ok.inj hs')
    exact (h.pushBack object).2 (by simpa [DequeOp.spec] using hfull)
  | popFront =>
    rw [DequeOp.spec, List.length_tail] at hfull
    omega
  | popBack =>
    rw [DequeOp.spec, List.length_dropLast] at hfull
    omega
  | clear =>
    have hpos := s.head_lt
    rw [DequeOp.spec, List.length_nil] at hfull
    omega

theorem Refines.agrees {ops : List (DequeOp T)} (h : s.Refines xs ops) : s.Agrees xs := by
  cases ops with
  | nil => exact h
  | cons op ops => exact h.1

theorem Holds.refines_iff {ops : List (DequeOp T)} (h : s.Holds xs)
    (hlegal : DequeOp.Legal C xs ops) : s.Refines xs ops ↔ DequeOp.StaysBelow C xs ops := by
  induction ops generalizing s xs with
  | nil => exact iff_of_true h.agrees trivial
  | cons op ops ih =>
    obtain ⟨hpops, hle, hrest⟩ := hlegal
    by_cases hlt : (op.spec xs).2.length < C
    · obtain ⟨s', hexec, hs'⟩ := h.exec hpops hlt
      rw [Refines, DequeOp.StaysBelow, ← ih hs' hrest]
      constructor
      · rintro ⟨-, t, ht, hrefines⟩
        obtain ⟨-, rfl⟩ := Prod.mk.inj (Except.ok.inj (ht.symm.trans hexec))
        exact ⟨hlt, hrefines⟩
      · intro hrefines
        exact ⟨h.agrees, s', hexec, hrefines.2⟩
    · refine iff_of_false ?_ fun hbelow => hlt hbelow.1
      rintro ⟨-, t, ht, hrefines⟩
      exact h.exec_full hpops (by omega) ht hrefines.agrees

/-- A static list is a deque in the runs in which it is never full. -/
theorem refines_iff_staysBelow (objects : ℕ → T) (hC : 0 < C) (ops : List (DequeOp T))
    (hlegal : DequeOp.Legal C [] ops) :
    (new objects hC).Refines [] ops ↔ DequeOp.StaysBelow C [] ops :=
  (new_holds objects hC).refines_iff hlegal

/-- The ring of ten turns backwards over its end. -/
theorem refines_iff_ten : (new (fun _ => 0) (by decide : 0 < 10)).Refines []
      [.pushFront 1, .pushFront 2, .popBack, .pushBack 3, .popFront] ↔
    DequeOp.StaysBelow 10 [] [.pushFront 1, .pushFront 2, .popBack, .pushBack 3, .popFront] :=
  refines_iff_staysBelow _ _ _ (by simp [DequeOp.Legal, DequeOp.spec, DequeOp.pops])

/-- A list with one place that holds an element says that it is empty. -/
theorem not_refines_one : DequeOp.Legal 1 [] [.pushBack 7] ∧
    ¬ (new (fun _ => 0) (by decide : 0 < 1)).Refines [] [.pushBack 7] := by
  refine ⟨by simp [DequeOp.Legal, DequeOp.spec, DequeOp.pops], ?_⟩
  rintro ⟨-, s', hs', hagrees⟩
  have hsize := hagrees.size
  obtain ⟨-, rfl⟩ := Prod.mk.inj (Except.ok.inj hs')
  exact absurd hsize (by decide)

end StaticList

end Cantos
