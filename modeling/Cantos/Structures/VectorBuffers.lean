import Cantos.Lib.Blocks
import Cantos.Lib.Steps
import Cantos.Structures.VectorRefinement
import Mathlib.Order.BooleanAlgebra.Set

/-!
# The buffers of vectors

Vectors in memory, each with a pointer to a buffer that it may hand to another one.  What the
elements are does not matter here; every access to one is an access to its buffer.  The
operations stop at a null pointer and outside of a buffer.  What is pushed onto a vector may be
an element of a vector, and of that one too: it is read behind the growth.

## Main definitions

* `State`, `Op`, `step`: the vectors of a program and what it does with them.
* `Owning`: the buffers in use are those of the vectors, and some that no vector points to.
* `AllReleased`: what is left behind when all vectors are gone.
-/

namespace Cantos.VectorBuffers

open Blocks Steps

/-- `vector<T>` -/
structure Vector where
  buff : Option ℕ
  count : ℕ
  buffSize : ℕ
  deriving DecidableEq, Repr

/-- The members before a constructor runs. -/
def Vector.initial : Vector := ⟨none, 0, 0⟩

section Operations
variable (sizeofT : ℕ)

/-- `kmem::kmalloc(sizeof(T) * target, 0)` -/
def kmalloc (target : ℕ) (h : Heap) : Option ℕ × Heap :=
  if sizeofT * target % 2 ^ 32 = 0 then (none, h) else (some h.next, h.alloc)

/-- `kmem::kfree(buff)` -/
def kfree : (buff : Option ℕ) → Heap → Heap
  | none, h => h
  | some b, h => h.free b

namespace Vector

/-- `buff[i]` -/
def access (v : Vector) (i : ℕ) (h : Heap) : Option Heap :=
  match v.buff with
  | none => none
  | some b => if i < VectorState.newCells sizeofT v.buffSize then some (h.use b) else none

/-- Access the next `k` elements from `i` on. -/
def accessAll (v : Vector) : (k i : ℕ) → Heap → Option Heap
  | 0, _, h => some h
  | k + 1, i, h => do
      let h ← v.access sizeofT i h
      v.accessAll k (i + 1) h

/-- Construct the next `k` elements of a vector from those of another one. -/
def constructAll (v other : Vector) : (k i : ℕ) → Heap → Option Heap
  | 0, _, h => some h
  | k + 1, i, h => do
      let h ← other.access sizeofT i h
      let h ← v.access sizeofT i h
      v.constructAll other k (i + 1) h

/-- `grow_buff(target)` -/
def growBuff (target : ℕ) (v : Vector) (h : Heap) : Option (Vector × Heap) := do
  let (newBuff, h) := kmalloc sizeofT target h
  let w : Vector := { v with buff := newBuff, buffSize := target }
  let h ← w.constructAll sizeofT v v.count 0 h
  pure (w, kfree v.buff h)

/-- `vector()` -/
def empty (h : Heap) : Option (Vector × Heap) := growBuff sizeofT 4 initial h

/-- `vector(count)` and `vector(count, value)` -/
def ofCount (count : ℕ) (h : Heap) : Option (Vector × Heap) := do
  let (v, h) ← growBuff sizeofT count initial h
  let h ← v.accessAll sizeofT count 0 h
  pure ({ v with count := count }, h)

/-- `vector(other)` -/
def copy (other : Vector) (h : Heap) : Option (Vector × Heap) := do
  let (v, h) ← growBuff sizeofT other.buffSize initial h
  let v := { v with count := other.count }
  let h ← v.constructAll sizeofT other v.count 0 h
  pure (v, h)

/-- `operator[]`; a panic stops. -/
def index (v : Vector) (pos : ℕ) (h : Heap) : Option Heap :=
  if pos ≥ v.count then none else v.access sizeofT pos h

/-- Read a value that is in a buffer, or elsewhere. -/
def read : (value : Option ℕ) → Heap → Heap
  | none, h => h
  | some b, h => h.use b

/-- `push_back` and `emplace_back`, of a reference to `value`. -/
def pushBack (v : Vector) (value : Option ℕ) (h : Heap) : Option (Vector × Heap) := do
  let (v, h) ←
    if v.count = v.buffSize then v.growBuff sizeofT (v.buffSize * 2 % 2 ^ 32) h else some (v, h)
  let pos := v.count
  let v := { v with count := pos + 1 }
  let h ← v.index sizeofT pos h
  pure (v, read value h)

/-- `pop_back` -/
def popBack (v : Vector) (h : Heap) : Option (Vector × Heap) := do
  let h ← v.index sizeofT ((v.count + 2 ^ 32 - 1) % 2 ^ 32) h
  pure ({ v with count := v.count - 1 }, h)

/-- `clear` -/
def clear (v : Vector) (h : Heap) : Option (Vector × Heap) :=
  match v.buff with
  | none => some (v, h)
  | some _ => do
      let h ← v.accessAll sizeofT v.count 0 h
      pure ({ v with count := 0 }, h)

/-- `~vector` -/
def destroy (v : Vector) (h : Heap) : Option Heap := do
  let (v, h) ← v.clear sizeofT h
  pure (kfree v.buff h)

end Vector

end Operations

/-! ## Programs -/

/-- The constructors that take no vector. -/
inductive Start
  | empty
  | ofCount (count : ℕ)

/-- What is pushed onto a vector: an element of a vector, or something else. -/
inductive Value
  | outside
  | element (y i : ℕ)

/-- The operations on one vector. -/
inductive Call
  | pushBack (value : Value)
  | popBack
  | index (pos : ℕ)
  | iterate
  | clear

/-- What a program does with the vectors, which are named by their addresses. -/
inductive Op
  | construct (x : ℕ) (start : Start)
  | copyConstruct (x y : ℕ)
  | moveConstruct (x y : ℕ)
  | moveAssign (x y : ℕ)
  | call (x : ℕ) (call : Call)
  | destroy (x : ℕ)

structure State where
  vectors : ℕ → Option Vector
  heap : Heap

namespace State

def start : State := ⟨fun _ => none, .empty⟩

/-- Put a vector at an address, or take it away. -/
def put (s : State) (x : ℕ) (v : Option Vector) (h : Heap) : State :=
  ⟨Function.update s.vectors x v, h⟩

end State

section Step
variable (sizeofT : ℕ)

def Start.exec : Start → Heap → Option (Vector × Heap)
  | .empty, h => Vector.empty sizeofT h
  | .ofCount count, h => Vector.ofCount sizeofT count h

/-- The buffer that a value is in; an element is one that there is. -/
def Value.buff (s : State) : Value → Option (Option ℕ)
  | .outside => some none
  | .element y i => do
      let v ← s.vectors y
      guard (i < v.count ∧ v.buff.isSome)
      pure v.buff

def Call.exec (s : State) (v : Vector) (h : Heap) : Call → Option (Vector × Heap)
  | .pushBack value => do v.pushBack sizeofT (← value.buff s) h
  | .popBack => v.popBack sizeofT h
  | .index pos => do pure (v, ← v.index sizeofT pos h)
  | .iterate => do pure (v, ← v.accessAll sizeofT v.count 0 h)
  | .clear => v.clear sizeofT h

/-- One operation of a program. A vector is constructed where there is none. -/
def step (s : State) : Op → Option State
  | .construct x start => do
      guard (s.vectors x).isNone
      let (v, h) ← start.exec sizeofT s.heap
      pure (s.put x (some v) h)
  | .copyConstruct x y => do
      guard (s.vectors x).isNone
      let other ← s.vectors y
      let (v, h) ← Vector.copy sizeofT other s.heap
      pure (s.put x (some v) h)
  | .moveConstruct x y => do
      guard (s.vectors x).isNone
      let other ← s.vectors y
      let s := s.put x (some other) s.heap
      pure (s.put y (some { other with buff := none }) s.heap)
  | .moveAssign x y => do
      let v ← s.vectors x
      let (v, h) ← v.clear sizeofT s.heap
      let s := s.put x (some v) h
      let other ← s.vectors y
      let s := s.put x (some other) s.heap
      pure (s.put y (some { other with buff := none }) s.heap)
  | .call x call => do
      let v ← s.vectors x
      let (v, h) ← call.exec sizeofT s v s.heap
      pure (s.put x (some v) h)
  | .destroy x => do
      let v ← s.vectors x
      let h ← v.destroy sizeofT s.heap
      pure (s.put x none h)

end Step

/-! ## The buffer of one vector -/

/-- The block of a buffer, unless it is a null pointer. -/
def blocks (buff : Option ℕ) : Set ℕ := {b | b ∈ buff}

@[simp] theorem mem_blocks {b : ℕ} {buff : Option ℕ} : b ∈ blocks buff ↔ b ∈ buff := Iff.rfl

@[simp] theorem blocks_none : blocks none = ∅ := Set.eq_empty_of_forall_notMem fun _ h => nomatch h

@[simp] theorem blocks_some (b : ℕ) : blocks (some b) = {b} :=
  Set.ext fun _ => Option.mem_some_iff.trans eq_comm

/-- A buffer, and other blocks `F` that are in use. -/
structure Owns (h : Heap) (ok : Prop) (F : Set ℕ) (buff : Option ℕ) : Prop where
  has : h.Has ok (F ∪ blocks buff)
  apart : ∀ b ∈ buff, b ∉ F

section Owns
variable {sizeofT target count k i : ℕ} {h h₁ : Heap} {ok : Prop} {F L : Set ℕ}
  {buff value : Option ℕ} {v w other : Vector} {s : State}

theorem Has.owns_none (hF : h.Has ok F) : Owns h ok F none where
  has := by rwa [blocks_none, Set.union_empty]
  apart b hb := nomatch hb

theorem kmalloc_owns (hL : h.Has ok L) :
    Owns (kmalloc sizeofT target h).2 ok L (kmalloc sizeofT target h).1 := by
  rw [kmalloc]
  split_ifs
  · exact Has.owns_none hL
  · refine ⟨?_, fun b hb => ?_⟩
    · rw [blocks_some, Set.union_singleton]
      exact hL.alloc
    · obtain rfl := Option.mem_some_iff.mp hb
      exact hL.next_notMem

theorem Owns.kfree (ho : Owns h ok F buff) : (kfree buff h).Has ok F := by
  cases buff with
  | none =>
    have hF := ho.has
    rwa [blocks_none, Set.union_empty] at hF
  | some b =>
    have hfree := ho.has.free (Set.mem_union_right F (mem_blocks.mpr rfl))
    have hsets := Set.insert_sdiff_self_of_notMem (ho.apart b rfl)
    rwa [blocks_some, Set.union_singleton, hsets] at hfree

namespace Vector

theorem access_has (ha : v.access sizeofT i h = some h₁) (hL : h.Has ok L) (hv : blocks v.buff ⊆ L) :
    h₁.Has ok L := by
  rw [access] at ha
  cases hb : v.buff with
  | none => simp [hb] at ha
  | some b =>
    simp only [hb, Option.ite_none_right_eq_some, Option.some.injEq] at ha
    obtain ⟨-, rfl⟩ := ha
    exact hL.use (hv (by rw [hb, mem_blocks]; rfl))

theorem accessAll_has (ha : v.accessAll sizeofT k i h = some h₁) (hL : h.Has ok L)
    (hv : blocks v.buff ⊆ L) : h₁.Has ok L := by
  induction k generalizing i h with
  | zero => exact Option.some.inj ha ▸ hL
  | succ k ih =>
    obtain ⟨h', hi, ha⟩ := Option.bind_eq_some_iff.mp ha
    exact ih ha (access_has hi hL hv)

theorem constructAll_has (hc : v.constructAll sizeofT other k i h = some h₁) (hL : h.Has ok L)
    (hv : blocks v.buff ⊆ L) (hother : blocks other.buff ⊆ L) : h₁.Has ok L := by
  induction k generalizing i h with
  | zero => exact Option.some.inj hc ▸ hL
  | succ k ih =>
    obtain ⟨h', hi, hc⟩ := Option.bind_eq_some_iff.mp hc
    obtain ⟨h'', hi', hc⟩ := Option.bind_eq_some_iff.mp hc
    exact ih hc (access_has hi' (access_has hi hL hother) hv)

theorem index_has (hi : v.index sizeofT i h = some h₁) (hL : h.Has ok L) (hv : blocks v.buff ⊆ L) :
    h₁.Has ok L := by
  rw [index] at hi
  split_ifs at hi
  exact access_has hi hL hv

/-- The new buffer takes the place of the old one. -/
theorem growBuff_owns (hg : v.growBuff sizeofT target h = some (w, h₁)) (ho : Owns h ok F v.buff) :
    Owns h₁ ok F w.buff := by
  have hnew := @kmalloc_owns sizeofT target h _ _ ho.has
  rw [growBuff] at hg
  obtain ⟨h', hconstruct, hg⟩ := Option.bind_eq_some_iff.mp hg
  obtain ⟨rfl, rfl⟩ := Prod.mk.inj (Option.some.inj hg)
  have hboth := constructAll_has hconstruct hnew.has Set.subset_union_right
    (Set.subset_union_of_subset_left Set.subset_union_right _)
  rw [Set.union_right_comm] at hboth
  have hold : Owns h' ok (F ∪ blocks (kmalloc sizeofT target h).1) v.buff := by
    refine ⟨hboth, fun b hb hmem => ?_⟩
    rcases hmem with hF | hb'
    · exact ho.apart b hb hF
    · exact hnew.apart b hb' (Or.inr hb)
  exact ⟨hold.kfree, fun b hb hF => hnew.apart b hb (Or.inl hF)⟩

theorem empty_owns (he : empty sizeofT h = some (w, h₁)) (hF : h.Has ok F) : Owns h₁ ok F w.buff :=
  growBuff_owns he (Has.owns_none hF)

theorem ofCount_owns (hc : ofCount sizeofT count h = some (w, h₁)) (hF : h.Has ok F) :
    Owns h₁ ok F w.buff := by
  rw [ofCount] at hc
  obtain ⟨⟨v, h'⟩, hg, hc⟩ := Option.bind_eq_some_iff.mp hc
  obtain ⟨h'', ha, hc⟩ := Option.bind_eq_some_iff.mp hc
  obtain ⟨rfl, rfl⟩ := Prod.mk.inj (Option.some.inj hc)
  have ho := growBuff_owns hg (Has.owns_none hF)
  exact ⟨accessAll_has ha ho.has Set.subset_union_right, ho.apart⟩

theorem copy_owns (hc : copy sizeofT other h = some (w, h₁)) (hF : h.Has ok F)
    (hother : blocks other.buff ⊆ F) : Owns h₁ ok F w.buff := by
  rw [copy] at hc
  obtain ⟨⟨v, h'⟩, hg, hc⟩ := Option.bind_eq_some_iff.mp hc
  obtain ⟨h'', ha, hc⟩ := Option.bind_eq_some_iff.mp hc
  obtain ⟨rfl, rfl⟩ := Prod.mk.inj (Option.some.inj hc)
  have ho := growBuff_owns hg (Has.owns_none hF)
  exact ⟨constructAll_has ha ho.has Set.subset_union_right
    (Set.subset_union_of_subset_left hother _), ho.apart⟩

/-- The old buffer is given back. -/
theorem growBuff_frees {b : ℕ} (hg : v.growBuff sizeofT target h = some (w, h₁))
    (hb : b ∈ v.buff) : .free b ∈ h₁.trace := by
  rw [growBuff] at hg
  obtain ⟨h', hconstruct, hg⟩ := Option.bind_eq_some_iff.mp hg
  obtain ⟨rfl, rfl⟩ := Prod.mk.inj (Option.some.inj hg)
  rw [Option.mem_def.mp hb]
  exact List.mem_append_right _ (List.mem_singleton_self _)

theorem index_free {b : ℕ} (hi : v.index sizeofT i h = some h₁) (hb : .free b ∈ h.trace) :
    .free b ∈ h₁.trace := by
  rw [index, Option.ite_none_left_eq_some] at hi
  obtain ⟨-, hi⟩ := hi
  rw [access] at hi
  cases hv : v.buff with
  | none => simp [hv] at hi
  | some c =>
    simp only [hv, Option.ite_none_right_eq_some, Option.some.injEq] at hi
    obtain ⟨-, rfl⟩ := hi
    exact List.mem_append_left _ hb

theorem read_has (hL : h.Has ok L) (hvalue : blocks value ⊆ L) : (read value h).Has ok L := by
  cases value with
  | none => exact hL
  | some b => exact hL.use (hvalue (mem_blocks.mpr rfl))

/-- The value is not one in the buffer that the push replaces. -/
def Survives (v : Vector) (value : Option ℕ) : Prop :=
  v.count = v.buffSize → ∀ b ∈ value, b ∉ v.buff

/-- A push reads a buffer that was given back when it replaces the one with the value. -/
theorem pushBack_owns (hp : v.pushBack sizeofT value h = some (w, h₁)) (ho : Owns h ok F v.buff)
    (hvalue : blocks value ⊆ F ∪ blocks v.buff) :
    Owns h₁ (ok ∧ v.Survives value) F w.buff := by
  rw [pushBack] at hp
  split_ifs at hp with hfull
  all_goals
    obtain ⟨⟨v', h'⟩, hg, hp⟩ := Option.bind_eq_some_iff.mp hp
    obtain ⟨h'', hi, hp⟩ := Option.bind_eq_some_iff.mp hp
    obtain ⟨rfl, rfl⟩ := Prod.mk.inj (Option.some.inj hp)
  · have ho' := growBuff_owns hg ho
    have hhas := index_has hi ho'.has Set.subset_union_right
    refine ⟨?_, ho'.apart⟩
    by_cases hlive : v.Survives value
    · rw [and_iff_left hlive]
      refine read_has hhas fun b hb => Or.inl ?_
      exact (hvalue hb).resolve_right fun hold => hlive hfull b hb hold
    · have hnot : ¬ (ok ∧ v.Survives value) := fun h => hlive h.2
      rw [Survives] at hlive
      push Not at hlive
      obtain ⟨-, b, hb, hold⟩ := hlive
      rw [eq_false hnot, Option.mem_def.mp hb]
      exact hhas.use_freed (index_free hi (growBuff_frees hg hold))
  · obtain ⟨rfl, rfl⟩ := Prod.mk.inj (Option.some.inj hg)
    have hlive : v.Survives value := fun h => absurd h hfull
    rw [and_iff_left hlive]
    exact ⟨read_has (index_has hi ho.has Set.subset_union_right) hvalue, ho.apart⟩

theorem popBack_owns (hp : v.popBack sizeofT h = some (w, h₁)) (ho : Owns h ok F v.buff) :
    Owns h₁ ok F w.buff := by
  rw [popBack] at hp
  obtain ⟨h', hi, hp⟩ := Option.bind_eq_some_iff.mp hp
  obtain ⟨rfl, rfl⟩ := Prod.mk.inj (Option.some.inj hp)
  exact ⟨index_has hi ho.has Set.subset_union_right, ho.apart⟩

theorem clear_owns (hc : v.clear sizeofT h = some (w, h₁)) (ho : Owns h ok F v.buff) :
    w.buff = v.buff ∧ Owns h₁ ok F w.buff := by
  rw [clear] at hc
  split at hc
  · obtain ⟨rfl, rfl⟩ := Prod.mk.inj (Option.some.inj hc)
    exact ⟨rfl, ho⟩
  · obtain ⟨h', ha, hc⟩ := Option.bind_eq_some_iff.mp hc
    obtain ⟨rfl, rfl⟩ := Prod.mk.inj (Option.some.inj hc)
    exact ⟨rfl, accessAll_has ha ho.has Set.subset_union_right, ho.apart⟩

theorem destroy_has (hd : v.destroy sizeofT h = some h₁) (ho : Owns h ok F v.buff) : h₁.Has ok F := by
  rw [destroy] at hd
  obtain ⟨⟨w, h'⟩, hc, hd⟩ := Option.bind_eq_some_iff.mp hd
  obtain rfl := Option.some.inj hd
  exact (clear_owns hc ho).2.kfree

end Vector

theorem Start.exec_owns {start : Start} (he : start.exec sizeofT h = some (w, h₁)) (hF : h.Has ok F) :
    Owns h₁ ok F w.buff := by
  cases start with
  | empty => exact Vector.empty_owns he hF
  | ofCount count => exact Vector.ofCount_owns he hF

/-- What is pushed is not in the buffer that the push replaces. -/
def Call.Survives (s : State) (v : Vector) : Call → Prop
  | .pushBack y => ∀ value ∈ y.buff s, v.Survives value
  | _ => True

theorem Call.exec_owns {call : Call} (he : call.exec sizeofT s v h = some (w, h₁))
    (ho : Owns h ok F v.buff)
    (hvalue : ∀ value y, value ∈ Value.buff s y → blocks value ⊆ F ∪ blocks v.buff) :
    Owns h₁ (ok ∧ call.Survives s v) F w.buff := by
  cases call with
  | pushBack y =>
    obtain ⟨value, hy, he⟩ := Option.bind_eq_some_iff.mp he
    simpa [Call.Survives, hy] using Vector.pushBack_owns he ho (hvalue value y hy)
  | popBack => simpa [Call.Survives] using Vector.popBack_owns he ho
  | index pos =>
    obtain ⟨h', hi, he⟩ := Option.bind_eq_some_iff.mp he
    obtain ⟨rfl, rfl⟩ := Prod.mk.inj (Option.some.inj he)
    simp only [Call.Survives, and_true]
    exact ⟨Vector.index_has hi ho.has Set.subset_union_right, ho.apart⟩
  | iterate =>
    obtain ⟨h', ha, he⟩ := Option.bind_eq_some_iff.mp he
    obtain ⟨rfl, rfl⟩ := Prod.mk.inj (Option.some.inj he)
    simp only [Call.Survives, and_true]
    exact ⟨Vector.accessAll_has ha ho.has Set.subset_union_right, ho.apart⟩
  | clear => simpa [Call.Survives] using (Vector.clear_owns he ho).2

end Owns

/-! ## The buffers of all vectors -/

namespace State

/-- The buffer of the vector at an address. -/
def buff (s : State) (x : ℕ) : Option ℕ := (s.vectors x).bind Vector.buff

/-- The buffers of the vectors. -/
def held (s : State) : Set ℕ := {b | ∃ x, b ∈ s.buff x}

/-- The buffers of the vectors but one. -/
def others (s : State) (x : ℕ) : Set ℕ := {b | ∃ y ≠ x, b ∈ s.buff y}

end State

/-- The buffers in use are those of the vectors, of one each, and the `lost` ones. -/
structure Owning (s : State) (ok : Prop) (lost : Set ℕ) : Prop where
  has : s.heap.Has ok (s.held ∪ lost)
  apart : ∀ b ∈ s.held, b ∉ lost
  unique : ∀ x y b, b ∈ s.buff x → b ∈ s.buff y → x = y

section Owning
variable {sizeofT x y : ℕ} {s s' : State} {h : Heap} {ok ok' : Prop} {lost : Set ℕ} {o : Option Vector} {op : Op}
  {ops : List Op}

theorem State.vectors_put_of_ne (hy : y ≠ x) : (s.put x o h).vectors y = s.vectors y :=
  Function.update_of_ne hy _ _

@[simp] theorem State.buff_put_self : (s.put x o h).buff x = o.bind Vector.buff := by
  simp only [State.buff, State.put, Function.update_self]

theorem State.buff_put_of_ne (hy : y ≠ x) : (s.put x o h).buff y = s.buff y := by
  rw [State.buff, State.vectors_put_of_ne hy, State.buff]

theorem State.held_eq (s : State) (x : ℕ) : s.held = s.others x ∪ blocks (s.buff x) := by
  ext b
  constructor
  · rintro ⟨y, hb⟩
    by_cases hy : y = x
    · exact Or.inr (hy ▸ hb)
    · exact Or.inl ⟨y, hy, hb⟩
  · rintro (⟨y, -, hb⟩ | hb)
    · exact ⟨y, hb⟩
    · exact ⟨x, hb⟩

theorem State.others_put : (s.put x o h).others x = s.others x := by
  ext b
  refine exists_congr fun y => and_congr_right fun hy => ?_
  rw [State.buff_put_of_ne hy]

theorem Owning.start : Owning State.start True ∅ where
  has := by
    have hnone : State.start.held = ∅ := Set.eq_empty_of_forall_notMem fun _ ⟨_, hb⟩ => nomatch hb
    rw [hnone, Set.union_empty]
    exact Heap.Has.empty
  apart _ hb := fun hc => hc
  unique _ _ _ hb := nomatch hb

/-- One vector, and all other buffers in use. -/
theorem Owning.owns (ho : Owning s ok lost) (x : ℕ) : Owns s.heap ok (s.others x ∪ lost) (s.buff x) where
  has := by
    rw [Set.union_right_comm, ← s.held_eq]
    exact ho.has
  apart := by
    rintro b hb (⟨y, hy, hb'⟩ | hlost)
    · exact hy (ho.unique y x b hb' hb)
    · exact ho.apart b ⟨x, hb⟩ hlost

/-- A new value of one vector. -/
theorem Owning.put (ho : Owning s ok lost) (hx : Owns h ok' (s.others x ∪ lost) (o.bind Vector.buff)) :
    Owning (s.put x o h) ok' lost where
  has := by
    rw [(s.put x o h).held_eq x, State.others_put, State.buff_put_self, Set.union_right_comm]
    exact hx.has
  apart := by
    rw [(s.put x o h).held_eq x, State.others_put, State.buff_put_self]
    rintro b (⟨y, -, hb⟩ | hb)
    · exact ho.apart b ⟨y, hb⟩
    · exact fun hlost => hx.apart b hb (Or.inr hlost)
  unique := by
    have hself : ∀ y b, b ∈ (s.put x o h).buff x → b ∈ (s.put x o h).buff y → y = x := by
      intro y b hb hb'
      by_contra hy
      rw [State.buff_put_self] at hb
      rw [State.buff_put_of_ne hy] at hb'
      exact hx.apart b hb (Or.inl ⟨y, hy, hb'⟩)
    intro y z b hy hz
    by_cases hyx : y = x
    · subst hyx
      exact (hself z b hy hz).symm
    · by_cases hzx : z = x
      · subst hzx
        exact hself y b hz hy
      · rw [State.buff_put_of_ne hyx] at hy
        rw [State.buff_put_of_ne hzx] at hz
        exact ho.unique y z b hy hz

/-- A vector whose buffer goes to another one, which loses its own. -/
theorem Owning.move (ho : Owning s ok lost) (hx : x ≠ y → s'.buff x = s.buff y) (hy : s'.buff y = none)
    (hz : ∀ z, z ≠ x → z ≠ y → s'.buff z = s.buff z) (hheap : s'.heap = s.heap) :
    Owning s' ok (lost ∪ blocks (s.buff x)) := by
  have hcases : ∀ z b, b ∈ s'.buff z →
      (z = x ∧ y ≠ x ∧ b ∈ s.buff y) ∨ (z ≠ x ∧ z ≠ y ∧ b ∈ s.buff z) := by
    intro z b hb
    by_cases hzy : z = y
    · rw [hzy, hy] at hb
      cases hb
    · by_cases hzx : z = x
      · subst hzx
        exact Or.inl ⟨rfl, Ne.symm hzy, hx hzy ▸ hb⟩
      · exact Or.inr ⟨hzx, hzy, hz z hzx hzy ▸ hb⟩
  have hheld : s'.held = s.others x := by
    ext b
    constructor
    · rintro ⟨z, hb⟩
      rcases hcases z b hb with ⟨-, hyx, hb⟩ | ⟨hzx, -, hb⟩
      · exact ⟨y, hyx, hb⟩
      · exact ⟨z, hzx, hb⟩
    · rintro ⟨z, hzx, hb⟩
      by_cases hzy : z = y
      · subst hzy
        exact ⟨x, hx (Ne.symm hzx) ▸ hb⟩
      · exact ⟨z, hz z hzx hzy ▸ hb⟩
  refine ⟨?_, ?_, ?_⟩
  · rw [hheld, hheap, Set.union_comm lost, ← Set.union_assoc, ← s.held_eq]
    exact ho.has
  · rw [hheld]
    rintro b ⟨z, hzx, hb⟩ (hlost | hbx)
    · exact ho.apart b ⟨z, hb⟩ hlost
    · exact hzx (ho.unique z x b hb hbx)
  · intro z w b hbz hbw
    rcases hcases z b hbz with ⟨rfl, -, hbz⟩ | ⟨hzx, hzy, hbz⟩ <;>
      rcases hcases w b hbw with ⟨rfl, -, hbw⟩ | ⟨hwx, hwy, hbw⟩
    · rfl
    · exact absurd (ho.unique w y b hbw hbz) hwy
    · exact absurd (ho.unique z y b hbz hbw) hzy
    · exact ho.unique z w b hbz hbw

/-! ## Steps -/

/-- The buffers that no vector points to any more after an operation: `operator=` does not free
the one that it replaces. -/
def Op.drops (s : State) : Op → Set ℕ
  | .moveAssign x _ => blocks (s.buff x)
  | _ => ∅

/-- A push does not read an element of a buffer that it replaces: a full vector gets none of its
own elements. -/
def Op.Keeps (s : State) : Op → Prop
  | .call x (.pushBack (.element y _)) => y = x → ∀ v ∈ s.vectors x, v.count ≠ v.buffSize
  | _ => True

/-- A move assignment needs a vector without a buffer. -/
def Op.Allowed (s : State) : Op → Prop
  | .moveAssign x _ => s.buff x = none
  | op => op.Keeps s

theorem buff_of_vectors {v : Vector} (hv : s.vectors x = some v) : s.buff x = v.buff := by
  rw [State.buff, hv, Option.bind_some]

theorem buff_of_isNone (hx : (s.vectors x).isNone) : s.buff x = none := by
  rw [State.buff, Option.isNone_iff_eq_none.mp hx, Option.bind_none]

/-- `buff = move(other.buff)` and `other.buff = nullptr` -/
theorem Owning.transfer {other : Vector} (ho : Owning s ok lost) (hy : s.vectors y = some other) :
    Owning ((s.put x (some other) s.heap).put y (some { other with buff := none }) s.heap) ok
      (lost ∪ blocks (s.buff x)) := by
  refine ho.move (fun hne => ?_) State.buff_put_self (fun z hzx hzy => ?_) rfl
  · rw [State.buff_put_of_ne hne, State.buff_put_self, buff_of_vectors hy]
    rfl
  · rw [State.buff_put_of_ne hzy, State.buff_put_of_ne hzx]

theorem Value.buff_element {value : Option ℕ} {i : ℕ} (hy : value ∈ Value.buff s (.element y i)) :
    ∃ u b, s.vectors y = some u ∧ u.buff = some b ∧ value = some b := by
  obtain ⟨u, hu, hy⟩ := Option.bind_eq_some_iff.mp hy
  obtain ⟨g, hguard, hy⟩ := Option.bind_eq_some_iff.mp hy
  obtain ⟨b, hb⟩ := Option.isSome_iff_exists.mp ((Option.guard_eq_some' g).mp hguard).2
  exact ⟨u, b, hu, hb, (Option.some.inj hy).symm.trans hb⟩

/-- The buffer with a value is one of a vector. -/
theorem State.blocks_value {value : Option ℕ} {y : Value} (s : State) (x : ℕ) (lost : Set ℕ)
    (hy : value ∈ y.buff s) : blocks value ⊆ s.others x ∪ lost ∪ blocks (s.buff x) := by
  rw [Set.union_right_comm, ← s.held_eq]
  intro b hb
  cases y with
  | outside =>
    obtain rfl := Option.some.inj hy
    cases hb
  | element y i =>
    obtain ⟨u, c, hu, hc, rfl⟩ := Value.buff_element hy
    obtain rfl := Option.mem_some_iff.mp hb
    refine Or.inl ⟨y, ?_⟩
    rw [buff_of_vectors hu, hc]
    rfl

/-- Only a vector's own elements are in its buffer. -/
theorem Owning.stays_iff {v : Vector} {call : Call} {p : Vector × Heap}
    (ho : Owning s ok lost) (hx : s.vectors x = some v)
    (he : call.exec sizeofT s v s.heap = some p) :
    call.Survives s v ↔ (Op.call x call).Keeps s := by
  rcases call with (_ | ⟨y, i⟩) | _ | _ | _ | _
  case pushBack.outside =>
    refine iff_of_true ?_ trivial
    intro value hvalue hfull b hb
    obtain rfl := Option.some.inj hvalue
    cases hb
  case pushBack.element =>
    obtain ⟨value, hvalue, -⟩ := Option.bind_eq_some_iff.mp he
    obtain ⟨u, b, hu, hb, rfl⟩ := Value.buff_element hvalue
    constructor
    · rintro hlive rfl w hw hfull
      obtain rfl := Option.some.inj (hx.symm.trans hw)
      obtain rfl := Option.some.inj (hx.symm.trans hu)
      exact hlive (some b) hvalue hfull b rfl hb
    · intro hkeeps value' hvalue' hfull c hc hold
      obtain rfl := Option.some.inj (hvalue.symm.trans hvalue')
      obtain rfl := Option.mem_some_iff.mp hc
      have hyx := ho.unique y x b (buff_of_vectors hu ▸ hb) (buff_of_vectors hx ▸ hold)
      exact hkeeps hyx v hx hfull
  all_goals exact Iff.rfl

/-- The buffers of the vectors are those that no operation dropped, and none is used that was
given back unless a push reads it. -/
theorem Owning.step (ho : Owning s ok lost) (hs : step sizeofT s op = some s') :
    Owning s' (ok ∧ op.Keeps s) (lost ∪ op.drops s) := by
  have hnew : ∀ {x}, (s.vectors x).isNone → s.heap.Has ok (s.others x ∪ lost) := by
    intro x hx
    have hhas := (ho.owns x).has
    rwa [buff_of_isNone hx, blocks_none, Set.union_empty] at hhas
  cases op with
  | construct x start =>
    obtain ⟨u, hguard, hs⟩ := Option.bind_eq_some_iff.mp hs
    obtain ⟨⟨v, h⟩, he, hs⟩ := Option.bind_eq_some_iff.mp hs
    obtain rfl := Option.some.inj hs
    have hx := (Option.guard_eq_some' u).mp hguard
    change Owning _ (ok ∧ True) (lost ∪ ∅)
    rw [and_true, Set.union_empty]
    exact ho.put (Start.exec_owns he (hnew hx))
  | copyConstruct x y =>
    obtain ⟨u, hguard, hs⟩ := Option.bind_eq_some_iff.mp hs
    obtain ⟨other, hy, hs⟩ := Option.bind_eq_some_iff.mp hs
    obtain ⟨⟨v, h⟩, he, hs⟩ := Option.bind_eq_some_iff.mp hs
    obtain rfl := Option.some.inj hs
    have hx := (Option.guard_eq_some' u).mp hguard
    have hother : blocks other.buff ⊆ s.others x ∪ lost := by
      intro b hb
      refine Or.inl ⟨y, ?_, buff_of_vectors hy ▸ hb⟩
      rintro rfl
      rw [hy] at hx
      cases hx
    change Owning _ (ok ∧ True) (lost ∪ ∅)
    rw [and_true, Set.union_empty]
    exact ho.put (Vector.copy_owns he (hnew hx) hother)
  | moveConstruct x y =>
    obtain ⟨u, hguard, hs⟩ := Option.bind_eq_some_iff.mp hs
    obtain ⟨other, hy, hs⟩ := Option.bind_eq_some_iff.mp hs
    obtain rfl := Option.some.inj hs
    have hmoved := ho.transfer (x := x) hy
    rw [buff_of_isNone ((Option.guard_eq_some' u).mp hguard), blocks_none] at hmoved
    change Owning _ (ok ∧ True) _
    rwa [and_true]
  | moveAssign x y =>
    obtain ⟨v, hx, hs⟩ := Option.bind_eq_some_iff.mp hs
    obtain ⟨⟨w, h⟩, hc, hs⟩ := Option.bind_eq_some_iff.mp hs
    obtain ⟨other, hy, hs⟩ := Option.bind_eq_some_iff.mp hs
    obtain rfl := Option.some.inj hs
    obtain ⟨hbuff, hcleared⟩ := Vector.clear_owns hc (buff_of_vectors hx ▸ ho.owns x)
    have hmoved := (ho.put (o := some w) hcleared).transfer (x := x) hy
    rw [State.buff_put_self, Option.bind_some, hbuff, ← buff_of_vectors hx] at hmoved
    change Owning _ (ok ∧ True) _
    rwa [and_true]
  | call x call =>
    obtain ⟨v, hx, hs⟩ := Option.bind_eq_some_iff.mp hs
    obtain ⟨⟨w, h⟩, he, hs⟩ := Option.bind_eq_some_iff.mp hs
    obtain rfl := Option.some.inj hs
    change Owning _ _ (lost ∪ ∅)
    rw [Set.union_empty, ← ho.stays_iff hx he]
    refine ho.put (Call.exec_owns he (buff_of_vectors hx ▸ ho.owns x) fun value y hy => ?_)
    exact buff_of_vectors hx ▸ s.blocks_value x lost hy
  | destroy x =>
    obtain ⟨v, hx, hs⟩ := Option.bind_eq_some_iff.mp hs
    obtain ⟨h, hd, hs⟩ := Option.bind_eq_some_iff.mp hs
    obtain rfl := Option.some.inj hs
    change Owning _ (ok ∧ True) (lost ∪ ∅)
    rw [and_true, Set.union_empty]
    exact ho.put (Has.owns_none (Vector.destroy_has hd (buff_of_vectors hx ▸ ho.owns x)))

theorem Op.allowed_iff : op.Allowed s ↔ op.Keeps s ∧ op.drops s = ∅ := by
  cases op with
  | moveAssign x y =>
    rw [Op.drops, Op.Allowed, and_iff_right (show Op.Keeps s (.moveAssign x y) from trivial)]
    cases s.buff x with
    | none => simp
    | some b => simp
  | construct | copyConstruct | moveConstruct | call | destroy => exact (and_iff_left rfl).symm

/-- A run loses nothing, and uses nothing that was given back, when all its operations are
allowed. -/
theorem Owning.run (ho : Owning s ok lost)
    (hrun : run (VectorBuffers.step sizeofT) s ops = some s') :
    ∃ ok' lost', Owning s' ok' lost' ∧ (ok' ∧ lost' = ∅ ↔ (ok ∧ lost = ∅) ∧
      Along (VectorBuffers.step sizeofT) (fun s op => op.Allowed s) s ops) := by
  induction ops generalizing s ok lost with
  | nil =>
    obtain rfl := Option.some.inj hrun
    exact ⟨ok, lost, ho, (and_iff_left trivial).symm⟩
  | cons op ops ih =>
    obtain ⟨t, ht, hrest⟩ := run_cons.mp hrun
    obtain ⟨ok', lost', ho', hiff⟩ := ih (ho.step ht) hrest
    refine ⟨ok', lost', ho', ?_⟩
    rw [hiff, Set.union_empty_iff, Along, Op.allowed_iff]
    constructor
    · rintro ⟨⟨⟨hok, hkeeps⟩, hlost, hdrops⟩, hall⟩
      refine ⟨⟨hok, hlost⟩, ⟨hkeeps, hdrops⟩, fun t' ht' => ?_⟩
      obtain rfl := Option.some.inj (ht.symm.trans ht')
      exact hall
    · rintro ⟨⟨hok, hlost⟩, ⟨hkeeps, hdrops⟩, hall⟩
      exact ⟨⟨⟨hok, hkeeps⟩, hlost, hdrops⟩, hall t ht⟩

end Owning

/-! ## All vectors are destroyed -/

/-- Every buffer was freed exactly once, and none was used after it was freed. -/
def AllReleased (s : State) : Prop := Released s.heap.trace ∧ Safe s.heap.trace

/-- The buffers are freed, and none is used after that, as long as every move assignment finds a
null pointer and no full vector is given one of its own elements. -/
theorem allReleased_iff {sizeofT : ℕ} {ops : List Op} {s : State}
    (hrun : run (step sizeofT) .start ops = some s) (hend : ∀ x, s.vectors x = none) :
    AllReleased s ↔ Along (step sizeofT) (fun s op => op.Allowed s) .start ops := by
  obtain ⟨ok, lost, ho, hiff⟩ := Owning.start.run hrun
  have hheld : s.held = ∅ := by
    refine Set.eq_empty_of_forall_notMem fun b ⟨x, hb⟩ => ?_
    rw [State.buff, hend x] at hb
    cases hb
  have hhas := ho.has
  rw [hheld, Set.empty_union] at hhas
  rw [AllReleased, hhas.released_iff, hiff, and_iff_right ⟨trivial, rfl⟩]

/-- A vector of one element, which is pushed once more. -/
theorem allReleased_one : ∃ s,
    run (step 4) .start [.construct 0 .empty, .call 0 (.pushBack .outside),
      .call 0 (.pushBack (.element 0 0)), .destroy 0] = some s ∧
      (AllReleased s ↔ Along (step 4) (fun s op => op.Allowed s) .start
        [.construct 0 .empty, .call 0 (.pushBack .outside),
          .call 0 (.pushBack (.element 0 0)), .destroy 0]) := by
  refine ⟨_, rfl, allReleased_iff rfl fun x => ?_⟩
  by_cases hx : x = 0
  · subst hx
    rfl
  · rw [State.vectors_put_of_ne hx, State.vectors_put_of_ne hx, State.vectors_put_of_ne hx,
      State.vectors_put_of_ne hx]
    rfl

/-- The vector that `read_inode` assigns to the entries of a new directory. -/
theorem not_allReleased_assign : ¬ ∀ sizeofT ops s, run (step sizeofT) .start ops = some s →
    (∀ x, s.vectors x = none) → AllReleased s := by
  intro h
  have hall := h 4
    [.construct 0 .empty, .construct 1 .empty, .moveAssign 0 1, .destroy 1, .destroy 0] _ rfl
    (fun x => ?_)
  · exact absurd (hall.1 0 (by decide)) (by decide)
  · by_cases h0 : x = 0
    · subst h0
      rfl
    · by_cases h1 : x = 1
      · subst h1
        rfl
      · rw [State.vectors_put_of_ne h0, State.vectors_put_of_ne h1, State.vectors_put_of_ne h1,
          State.vectors_put_of_ne h0, State.vectors_put_of_ne h0, State.vectors_put_of_ne h1,
          State.vectors_put_of_ne h0]
        rfl

end Cantos.VectorBuffers
