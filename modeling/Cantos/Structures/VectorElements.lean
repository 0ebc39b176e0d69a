import Cantos.Lib.Exec
import Cantos.Structures.VectorBuffers

/-!
# Vectors with and without elements

A vector that has no elements, only a buffer, does what the one with elements does: wherever an
operation on elements returns, the same operation returns without them, and leaves a buffer of
the same size with as many elements.

## Main definitions

* `Shapes`: a vector has the buffer of one with elements.

## Main results

* `run_shapes`: a run on elements is one on buffers.
-/

namespace Cantos.VectorBuffers

open Blocks VectorState

variable {T : Type} {sizeofT target k i : ℕ} {w : Vector} {v v' : VectorState T} {xs : List T}
  {cells cells' : List (Option T)} {x : T} {h : Heap}

/-! ## Cells -/

theorem lt_of_get (hg : get cells i = .ok x) : i < cells.length := by
  by_contra hc
  rw [VectorState.get, List.getElem?_eq_none (Nat.le_of_not_lt hc)] at hg
  cases hg

theorem length_of_put (hp : put cells i x = .ok cells') :
    i < cells.length ∧ cells'.length = cells.length := by
  rw [put] at hp
  split_ifs at hp with hi
  obtain rfl := Except.ok.inj hp
  exact ⟨hi, List.length_set⟩

theorem length_of_putAll (hp : putAll xs i cells = .ok cells') :
    cells'.length = cells.length ∧ ∀ j < xs.length, i + j < cells.length := by
  induction xs generalizing i cells with
  | nil =>
    obtain rfl := Except.ok.inj hp
    exact ⟨rfl, fun j hj => absurd hj (Nat.not_lt_zero j)⟩
  | cons x xs ih =>
    obtain ⟨cells₁, hput, hp⟩ := bind_eq_ok.mp hp
    obtain ⟨hi, hlen⟩ := length_of_put hput
    obtain ⟨hlen', hlt⟩ := ih hp
    refine ⟨hlen'.trans hlen, fun j hj => ?_⟩
    cases j with
    | zero => exact hi
    | succ j =>
      have hj' := hlt j (Nat.lt_of_succ_lt_succ hj)
      omega

theorem length_of_getAll (hg : getAll cells k i = .ok xs) :
    xs.length = k ∧ ∀ j < k, i + j < cells.length := by
  induction k generalizing i xs with
  | zero =>
    obtain rfl := Except.ok.inj hg
    exact ⟨rfl, fun j hj => absurd hj (Nat.not_lt_zero j)⟩
  | succ k ih =>
    obtain ⟨x, hget, hg⟩ := bind_eq_ok.mp hg
    obtain ⟨ys, hrest, hg⟩ := bind_eq_ok.mp hg
    obtain rfl := Except.ok.inj hg
    obtain ⟨hlen, hlt⟩ := ih hrest
    refine ⟨congrArg Nat.succ hlen, fun j hj => ?_⟩
    cases j with
    | zero => exact lt_of_get hget
    | succ j =>
      have hj' := hlt j (Nat.lt_of_succ_lt_succ hj)
      omega

/-! ## Shapes -/

/-- The vector `w` has a buffer of the size of the one of `v`, with as many elements. -/
structure Shapes (sizeofT : ℕ) (w : Vector) (v : VectorState T) : Prop where
  count : w.count = v.count
  buffSize : w.buffSize = v.buffSize
  null : w.buff = none ↔ v.buff = none
  cells : v.buff ≠ none → v.cells.length = newCells sizeofT v.buffSize

theorem lt_of_forall_succ {n : ℕ} (hlt : ∀ j < k + 1, i + j < n) : ∀ j < k, i + 1 + j < n := by
  intro j hj
  rw [Nat.add_assoc, Nat.add_comm 1 j]
  exact hlt (j + 1) (Nat.succ_lt_succ hj)

theorem Shapes.exists_access (hs : Shapes sizeofT w v) (hi : i < v.cells.length) (h : Heap) :
    ∃ h₁, w.access sizeofT i h = some h₁ := by
  have hv : v.buff ≠ none := by
    intro hnull
    rw [VectorState.cells, hnull] at hi
    exact Nat.not_lt_zero i hi
  obtain ⟨b, hb⟩ := Option.ne_none_iff_exists'.mp (mt hs.null.mp hv)
  rw [hs.cells hv, ← hs.buffSize] at hi
  exact ⟨h.use b, by rw [Vector.access, hb]; exact if_pos hi⟩

theorem Shapes.exists_accessAll (hs : Shapes sizeofT w v)
    (hlt : ∀ j < k, i + j < v.cells.length) (h : Heap) :
    ∃ h₁, w.accessAll sizeofT k i h = some h₁ := by
  induction k generalizing i h with
  | zero => exact ⟨h, rfl⟩
  | succ k ih =>
    obtain ⟨h₁, haccess⟩ := hs.exists_access (i := i) (hlt 0 (Nat.succ_pos k)) h
    obtain ⟨h₂, hrest⟩ := ih (lt_of_forall_succ hlt) h₁
    exact ⟨h₂, by rw [Vector.accessAll, haccess]; exact hrest⟩

theorem Shapes.exists_constructAll {w' : Vector} (hs : Shapes sizeofT w v)
    (hs' : Shapes sizeofT w' v') (hlt : ∀ j < k, i + j < v.cells.length)
    (hlt' : ∀ j < k, i + j < v'.cells.length) (h : Heap) :
    ∃ h₁, w'.constructAll sizeofT w k i h = some h₁ := by
  induction k generalizing i h with
  | zero => exact ⟨h, rfl⟩
  | succ k ih =>
    obtain ⟨h₁, hread⟩ := hs.exists_access (i := i) (hlt 0 (Nat.succ_pos k)) h
    obtain ⟨h₂, hwrite⟩ := hs'.exists_access (i := i) (hlt' 0 (Nat.succ_pos k)) h₁
    obtain ⟨h₃, hrest⟩ := ih (lt_of_forall_succ hlt) (lt_of_forall_succ hlt') h₂
    refine ⟨h₃, Option.bind_eq_some_iff.mpr ⟨h₁, hread, ?_⟩⟩
    exact Option.bind_eq_some_iff.mpr ⟨h₂, hwrite, hrest⟩

/-- New buffers are null pointers for the same sizes. -/
theorem kmalloc_eq_none_iff (h : Heap) :
    (VectorBuffers.kmalloc sizeofT target h).1 = none ↔
      VectorState.kmalloc (T := T) sizeofT target = none := by
  rw [VectorBuffers.kmalloc, VectorState.kmalloc]
  split_ifs <;> simp

theorem Shapes.growBuff (hs : Shapes sizeofT w v)
    (hg : VectorState.growBuff sizeofT target v = .ok v') (h : Heap) :
    ∃ w' h₁, w.growBuff sizeofT target h = some (w', h₁) ∧ Shapes sizeofT w' v' := by
  obtain ⟨xs, hread, hg⟩ := bind_eq_ok.mp hg
  obtain ⟨cells, hput, hg⟩ := bind_eq_ok.mp hg
  obtain rfl := Except.ok.inj hg
  obtain ⟨hcount, hlt⟩ := length_of_getAll hread
  obtain ⟨hlen, hlt'⟩ := length_of_putAll hput
  have hv' : ((VectorState.kmalloc (T := T) sizeofT target).map fun _ => cells).getD [] =
      cells := by
    cases hk : VectorState.kmalloc (T := T) sizeofT target with
    | none =>
      rw [hk] at hlen
      exact (List.eq_nil_of_length_eq_zero hlen).symm
    | some c => rfl
  have hnew : Shapes sizeofT ⟨(VectorBuffers.kmalloc sizeofT target h).1, w.count, target⟩
      { v with
        buff := (VectorState.kmalloc (T := T) sizeofT target).map fun _ => cells
        buffSize := target } := by
    refine ⟨hs.count, rfl, ?_, fun _ => ?_⟩
    · rw [Option.map_eq_none_iff]
      exact kmalloc_eq_none_iff h
    · rw [VectorState.cells, hv', hlen, kmalloc_getD, List.length_replicate]
  obtain ⟨h₁, hconstruct⟩ := @Shapes.exists_constructAll T sizeofT w.count 0 w v _ _ hs hnew
    (fun j hj => hlt j (hs.count ▸ hj))
    (fun j hj => by
      rw [VectorState.cells, hv', hlen]
      exact hlt' j (by rwa [hcount, ← hs.count]))
    (VectorBuffers.kmalloc sizeofT target h).2
  exact ⟨_, VectorBuffers.kfree w.buff h₁,
    Option.bind_eq_some_iff.mpr ⟨h₁, hconstruct, rfl⟩, hnew⟩

/-- The cells may change, and the number of elements. -/
theorem Shapes.set {f : List (Option T) → List (Option T)} (hs : Shapes sizeofT w v) (n : ℕ)
    (hf : ∀ c ∈ v.buff, (f c).length = c.length) :
    Shapes sizeofT { w with count := n } { v with buff := v.buff.map f, count := n } where
  count := rfl
  buffSize := hs.buffSize
  null := by rw [Option.map_eq_none_iff, hs.null]
  cells hv := by
    obtain ⟨c, hc⟩ := Option.ne_none_iff_exists'.mp (mt Option.map_eq_none_iff.mpr hv)
    have hlen := hs.cells (by rw [hc]; exact Option.some_ne_none c)
    rw [VectorState.cells, hc, Option.getD_some] at hlen
    rw [VectorState.cells, hc, Option.map_some, Option.getD_some, hf c hc, hlen]

theorem initial_shapes : Shapes sizeofT Vector.initial (VectorState.initial (T := T)) where
  count := rfl
  buffSize := rfl
  null := iff_of_true rfl rfl
  cells hv := absurd rfl hv

/-! ## Operations -/

theorem Shapes.exists_index (hs : Shapes sizeofT w v) (hi : v.index target = .ok i)
    (hlt : i < v.cells.length) (h : Heap) : ∃ h₁, w.index sizeofT target h = some h₁ := by
  rw [VectorState.index] at hi
  split_ifs at hi with hcount hnull
  obtain rfl := Except.ok.inj hi
  obtain ⟨h₁, haccess⟩ := hs.exists_access hlt h
  exact ⟨h₁, by rw [Vector.index, if_neg (hs.count ▸ hcount), haccess]⟩

theorem cells_of_mem {c : List (Option T)} (hc : c ∈ v.buff) : v.cells = c := by
  rw [VectorState.cells, Option.mem_def.mp hc, Option.getD_some]

/-- An element behind the others. -/
theorem Shapes.push (hs : Shapes sizeofT w v)
    (hi : ({ v with count := v.count + 1 } : VectorState T).index v.count = .ok i)
    (hput : put v.cells i x = .ok cells) (h : Heap) :
    (∃ h₁, ({ w with count := w.count + 1 } : Vector).index sizeofT w.count h = some h₁) ∧
      Shapes sizeofT { w with count := w.count + 1 }
        { v with buff := v.buff.map fun _ => cells, count := v.count + 1 } := by
  obtain ⟨hlt, hlen⟩ := length_of_put hput
  have hcount : Shapes sizeofT { w with count := w.count + 1 } { v with count := v.count + 1 } :=
    ⟨congrArg Nat.succ hs.count, hs.buffSize, hs.null, hs.cells⟩
  constructor
  · rw [hs.count] at hcount ⊢
    exact hcount.exists_index hi hlt h
  · rw [hs.count]
    exact hs.set (v.count + 1) fun c hc => by rw [hlen, cells_of_mem hc]

theorem Shapes.pushBack (hs : Shapes sizeofT w v) (hp : v.pushBack sizeofT x = .ok v') (h : Heap) :
    ∃ w' h₁, w.pushBack sizeofT none h = some (w', h₁) ∧ Shapes sizeofT w' v' := by
  rw [VectorState.pushBack] at hp
  rw [Vector.pushBack, hs.count, hs.buffSize]
  split_ifs at hp ⊢ with hfull
  all_goals
    obtain ⟨v₁, hg, hp⟩ := bind_eq_ok.mp hp
    obtain ⟨i, hi, hp⟩ := bind_eq_ok.mp hp
    obtain ⟨cells, hput, hp⟩ := bind_eq_ok.mp hp
    obtain rfl := Except.ok.inj hp
  · obtain ⟨w₁, h₁, hgrow, hs₁⟩ := hs.growBuff hg h
    obtain ⟨⟨h₂, hindex⟩, hs₂⟩ := hs₁.push hi hput h₁
    refine ⟨_, h₂, Option.bind_eq_some_iff.mpr ⟨(w₁, h₁), hgrow, ?_⟩, hs₂⟩
    exact Option.bind_eq_some_iff.mpr ⟨h₂, hindex, rfl⟩
  · obtain rfl := Except.ok.inj hg
    obtain ⟨⟨h₂, hindex⟩, hs₂⟩ := hs.push hi hput h
    refine ⟨_, h₂, Option.bind_eq_some_iff.mpr ⟨(w, h), rfl, ?_⟩, hs₂⟩
    exact Option.bind_eq_some_iff.mpr ⟨h₂, hindex, rfl⟩

theorem Shapes.popBack (hs : Shapes sizeofT w v) (hp : v.popBack = .ok v') (h : Heap) :
    ∃ w' h₁, w.popBack sizeofT h = some (w', h₁) ∧ Shapes sizeofT w' v' := by
  obtain ⟨i, hi, hp⟩ := bind_eq_ok.mp hp
  obtain ⟨x, hget, hp⟩ := bind_eq_ok.mp hp
  obtain rfl := Except.ok.inj hp
  obtain ⟨h₁, hindex⟩ := hs.exists_index hi (lt_of_get hget) h
  refine ⟨_, h₁, ?_, hs.set (v.count - 1) fun c _ => List.length_set⟩
  rw [Vector.popBack, hs.count, hindex]
  rfl

theorem Shapes.iterate (hs : Shapes sizeofT w v) (hi : v.iterate = .ok xs) (h : Heap) :
    ∃ h₁, w.accessAll sizeofT w.count 0 h = some h₁ := by
  rw [hs.count]
  exact hs.exists_accessAll (length_of_getAll hi).2 h

theorem Shapes.clear (hs : Shapes sizeofT w v) (hc : v.clear = .ok v') (h : Heap) :
    ∃ w' h₁, w.clear sizeofT h = some (w', h₁) ∧ Shapes sizeofT w' v' := by
  rw [VectorState.clear] at hc
  split_ifs at hc with hnull
  · obtain rfl := Except.ok.inj hc
    have hw := hs.null.mpr (Option.isNone_iff_eq_none.mp hnull)
    exact ⟨w, h, by rw [Vector.clear, hw], hs⟩
  · obtain ⟨xs, hi, hc⟩ := bind_eq_ok.mp hc
    obtain rfl := Except.ok.inj hc
    obtain ⟨h₁, hall⟩ := hs.iterate hi h
    obtain ⟨b, hb⟩ := Option.ne_none_iff_exists'.mp fun hw =>
      hnull (Option.isNone_iff_eq_none.mpr (hs.null.mp hw))
    refine ⟨{ w with count := 0 }, h₁, ?_, hs.set 0 fun c hc => ?_⟩
    · rw [Vector.clear, hb]
      exact Option.bind_eq_some_iff.mpr ⟨h₁, hall, rfl⟩
    · obtain ⟨hlen, hlt⟩ := length_of_getAll hi
      have hle : xs.length ≤ c.length := by
        by_contra hcon
        have := hlt c.length (hlen ▸ Nat.lt_of_not_le hcon)
        rw [cells_of_mem hc, Nat.zero_add] at this
        exact Nat.lt_irrefl _ this
      rw [List.length_append, List.length_replicate, List.length_drop]
      omega

theorem Shapes.copy (hs : Shapes sizeofT w v) (hc : v.copy sizeofT = .ok v') (h : Heap) :
    ∃ w' h₁, Vector.copy sizeofT w h = some (w', h₁) ∧ Shapes sizeofT w' v' := by
  obtain ⟨v₁, hg, hc⟩ := bind_eq_ok.mp hc
  obtain ⟨xs, hi, hc⟩ := bind_eq_ok.mp hc
  obtain ⟨cells, hput, hc⟩ := bind_eq_ok.mp hc
  obtain rfl := Except.ok.inj hc
  obtain ⟨w₁, h₁, hgrow, hs₁⟩ := initial_shapes.growBuff hg h
  obtain ⟨hlen, hlt⟩ := length_of_getAll hi
  obtain ⟨hlen', hlt'⟩ := length_of_putAll hput
  have hcount : Shapes sizeofT { w₁ with count := v.count } { v₁ with count := v.count } :=
    ⟨rfl, hs₁.buffSize, hs₁.null, hs₁.cells⟩
  obtain ⟨h₂, hconstruct⟩ := hs.exists_constructAll hcount hlt (hlen ▸ hlt') h₁
  refine ⟨_, h₂, ?_, hs₁.set v.count fun c hc => by rw [hlen', cells_of_mem hc]⟩
  rw [Vector.copy, hs.count, hs.buffSize]
  exact Option.bind_eq_some_iff.mpr ⟨(w₁, h₁), hgrow,
    Option.bind_eq_some_iff.mpr ⟨h₂, hconstruct, rfl⟩⟩

theorem construct_shapes (hc : construct sizeofT target xs = .ok v') (hxs : xs.length = target)
    (h : Heap) :
    ∃ w h₁, Vector.ofCount sizeofT target h = some (w, h₁) ∧ Shapes sizeofT w v' := by
  obtain ⟨v₁, hg, hc⟩ := bind_eq_ok.mp hc
  obtain ⟨cells, hput, hc⟩ := bind_eq_ok.mp hc
  obtain rfl := Except.ok.inj hc
  obtain ⟨w₁, h₁, hgrow, hs₁⟩ := initial_shapes.growBuff hg h
  obtain ⟨hlen, hlt⟩ := length_of_putAll hput
  obtain ⟨h₂, hall⟩ := hs₁.exists_accessAll (hxs ▸ hlt) h₁
  refine ⟨_, h₂, ?_, hs₁.set xs.length fun c hc => by rw [hlen, cells_of_mem hc]⟩
  rw [Vector.ofCount, hxs]
  exact Option.bind_eq_some_iff.mpr ⟨(w₁, h₁), hgrow,
    Option.bind_eq_some_iff.mpr ⟨h₂, hall, rfl⟩⟩

/-- A constructor without the elements. -/
def startBuffers : VectorStart T → Start
  | .empty => .empty
  | .ofCount count | .ofValue count _ => .ofCount count

/-- Whatever a constructor makes with elements, it makes without them. -/
theorem make_shapes [Inhabited T] {start : VectorStart T} (hm : start.make sizeofT = .ok v)
    (h : Heap) :
    ∃ w h₁, (startBuffers start).exec sizeofT h = some (w, h₁) ∧ Shapes sizeofT w v := by
  cases start with
  | empty => exact initial_shapes.growBuff hm h
  | ofCount count => exact construct_shapes hm List.length_replicate h
  | ofValue count value => exact construct_shapes hm List.length_replicate h

/-- An operation without the elements; what it is given is in no vector of `s`. -/
def execBuffers (sizeofT : ℕ) (s : State) (w : Vector) (h : Heap) :
    VectorOp T → Option (Vector × Heap)
  | .pushBack _ | .emplaceBack _ => (Call.pushBack .outside).exec sizeofT s w h
  | .popBack => Call.popBack.exec sizeofT s w h
  | .clear => Call.clear.exec sizeofT s w h
  | .at pos => (Call.index pos).exec sizeofT s w h
  | .iterate => Call.iterate.exec sizeofT s w h
  | .copy => Vector.copy sizeofT w h

/-- Whatever an operation on elements does, it does without them. -/
theorem Shapes.exec {op : VectorOp T} {r : VectorReply T} (hs : Shapes sizeofT w v)
    (he : op.exec sizeofT v = .ok (r, v')) (s : State) (h : Heap) :
    ∃ w' h₁, execBuffers sizeofT s w h op = some (w', h₁) ∧ Shapes sizeofT w' v' := by
  cases op with
  | pushBack value | emplaceBack object =>
    obtain ⟨v₁, hp, he⟩ := bind_eq_ok.mp he
    obtain ⟨-, rfl⟩ := Prod.mk.inj (Except.ok.inj he)
    exact hs.pushBack hp h
  | popBack =>
    obtain ⟨v₁, hp, he⟩ := bind_eq_ok.mp he
    obtain ⟨-, rfl⟩ := Prod.mk.inj (Except.ok.inj he)
    exact hs.popBack hp h
  | clear =>
    obtain ⟨v₁, hc, he⟩ := bind_eq_ok.mp he
    obtain ⟨-, rfl⟩ := Prod.mk.inj (Except.ok.inj he)
    exact hs.clear hc h
  | copy =>
    obtain ⟨v₁, hc, he⟩ := bind_eq_ok.mp he
    obtain ⟨-, rfl⟩ := Prod.mk.inj (Except.ok.inj he)
    exact hs.copy hc h
  | iterate =>
    obtain ⟨xs, hi, he⟩ := bind_eq_ok.mp he
    obtain ⟨-, rfl⟩ := Prod.mk.inj (Except.ok.inj he)
    obtain ⟨h₁, hall⟩ := hs.iterate hi h
    exact ⟨w, h₁, Option.bind_eq_some_iff.mpr ⟨h₁, hall, rfl⟩, hs⟩
  | «at» pos =>
    obtain ⟨x, hx, he⟩ := bind_eq_ok.mp he
    obtain ⟨-, rfl⟩ := Prod.mk.inj (Except.ok.inj he)
    obtain ⟨i, hi, hget⟩ := bind_eq_ok.mp hx
    obtain ⟨h₁, hindex⟩ := hs.exists_index hi (lt_of_get hget) h
    exact ⟨w, h₁, Option.bind_eq_some_iff.mpr ⟨h₁, hindex, rfl⟩, hs⟩

/-! ## Runs -/

/-- Run operations on a vector with elements, up to what they return. -/
def runElements (sizeofT : ℕ) : List (VectorOp T) → VectorState T → Except VectorStuck (VectorState T)
  | [], v => .ok v
  | op :: ops, v => do
      let (_, v) ← op.exec sizeofT v
      runElements sizeofT ops v

/-- Run operations on a vector without elements. -/
def runBuffers (sizeofT : ℕ) (s : State) : List (VectorOp T) → Vector × Heap → Option (Vector × Heap)
  | [], p => some p
  | op :: ops, (w, h) => do
      let p ← execBuffers sizeofT s w h op
      runBuffers sizeofT s ops p

theorem Shapes.run {ops : List (VectorOp T)} (hs : Shapes sizeofT w v)
    (hrun : runElements sizeofT ops v = .ok v') (s : State) (h : Heap) :
    ∃ w' h₁, runBuffers sizeofT s ops (w, h) = some (w', h₁) ∧ Shapes sizeofT w' v' := by
  induction ops generalizing v w h with
  | nil =>
    obtain rfl := Except.ok.inj hrun
    exact ⟨w, h, rfl, hs⟩
  | cons op ops ih =>
    obtain ⟨⟨r, v₁⟩, he, hrest⟩ := bind_eq_ok.mp hrun
    obtain ⟨w₁, h₁, hexec, hs₁⟩ := hs.exec he s h
    obtain ⟨w', h₂, hrun', hs'⟩ := ih hs₁ hrest h₁
    exact ⟨w', h₂, Option.bind_eq_some_iff.mpr ⟨(w₁, h₁), hexec, hrun'⟩, hs'⟩

/-- Wherever a vector with elements gets from its constructor on, the one without them gets, and
its buffer has as many cells and elements. -/
theorem run_shapes [Inhabited T] {start : VectorStart T} {ops : List (VectorOp T)}
    (hm : start.make sizeofT = .ok v) (hrun : runElements sizeofT ops v = .ok v') (s : State)
    (h : Heap) :
    ∃ w w' h₁ h₂, (startBuffers start).exec sizeofT h = some (w, h₁) ∧
      runBuffers sizeofT s ops (w, h₁) = some (w', h₂) ∧ Shapes sizeofT w' v' := by
  obtain ⟨w, h₁, hmake, hs⟩ := make_shapes hm h
  obtain ⟨w', h₂, hrun', hs'⟩ := hs.run hrun s h₁
  exact ⟨w, w', h₁, h₂, hmake, hrun', hs'⟩

end Cantos.VectorBuffers
