import Cantos.Structures.Vector

/-!
# `vector<T>` is a list

A vector holds a list when its first cells are the elements and the other cells of its buffer
are raw.  Every operation keeps this while the buffer can be replaced by a larger one when it
is full: a buffer of no cells stays one, and the size of a large one wraps.

## Main definitions

* `VectorState.Agrees`, `VectorState.Refines`: what a vector answers.
* `VectorState.Holds`: the cells of a list.
* `VectorOp.CanGrow`: a push meets a free cell, or a buffer that can be doubled.
-/

namespace Cantos

namespace VectorState

variable {T : Type} {sizeofT : ℕ} {v v' : VectorState T} {xs ys : List T}

/-! ## Cells -/

/-- The cells of a buffer of `n` cells with the elements `xs`. -/
def layout (xs : List T) (n : ℕ) : List (Option T) :=
  xs.map some ++ List.replicate (n - xs.length) none

theorem length_layout {n : ℕ} (h : xs.length ≤ n) : (layout xs n).length = n := by
  simp [layout, h]

theorem layout_nil (n : ℕ) : layout ([] : List T) n = List.replicate n none := by
  simp [layout]

theorem get_layout {n i : ℕ} (hi : i < xs.length) : get (layout xs n) i = .ok xs[i] := by
  rw [get, layout, List.getElem?_append_left (by simpa using hi)]
  simp [hi]

/-- Reading what is left from the `pre.length`-th element on. -/
theorem getAll_layout {n : ℕ} {pre : List T} :
    getAll (layout (pre ++ xs) n) xs.length pre.length = .ok xs := by
  induction xs generalizing pre with
  | nil => rfl
  | cons x xs ih =>
    have hx : get (layout (pre ++ x :: xs) n) pre.length = .ok x := by
      rw [get_layout (by simp)]
      simp
    have hrest := @ih (pre ++ [x])
    rw [List.append_assoc, List.singleton_append, List.length_append, List.length_singleton] at hrest
    rw [List.length_cons, getAll, hx]
    change (getAll _ _ _ >>= _) = _
    rw [hrest]
    rfl

theorem put_layout {n : ℕ} (x : T) (h : xs.length < n) :
    put (layout xs n) xs.length x = .ok (layout (xs ++ [x]) n) := by
  have hcells : List.replicate (n - xs.length) (none : Option T) =
      none :: List.replicate (n - (xs.length + 1)) none := by
    rw [← List.replicate_succ]
    congr 1
    omega
  rw [put, if_pos (by rw [length_layout (by omega)]; exact h), layout, hcells]
  simp [layout]

/-- Elements are constructed while there are cells. -/
theorem putAll_layout {n : ℕ} {pre : List T} (hpre : pre.length ≤ n) :
    putAll xs pre.length (layout pre n) =
      if (pre ++ xs).length ≤ n then .ok (layout (pre ++ xs) n) else .error .badAccess := by
  induction xs generalizing pre with
  | nil =>
    rw [putAll, List.append_nil, if_pos hpre]
  | cons x xs ih =>
    rw [putAll]
    by_cases hlt : pre.length < n
    · rw [put_layout x hlt]
      have hrest := @ih (pre ++ [x]) (by simp; omega)
      rw [List.append_assoc, List.singleton_append, List.length_append, List.length_singleton]
        at hrest
      exact hrest
    · rw [put, if_neg (by rw [length_layout hpre]; exact hlt), if_neg (by simp; omega)]
      rfl

theorem getAll_initial : getAll (initial (T := T)).cells (initial (T := T)).count 0 = .ok [] := rfl

/-! ## Buffers -/

/-- What `kmalloc` is asked for fits a `size_t`, and so does the block with its header. -/
def Fits (sizeofT target : ℕ) : Prop := sizeofT * target ≤ 2 ^ 32 - 12

instance (sizeofT n : ℕ) : Decidable (Fits sizeofT n) := inferInstanceAs (Decidable (_ ≤ _))

theorem Fits.mod {n : ℕ} (h : Fits sizeofT n) : sizeofT * n % 2 ^ 32 = sizeofT * n :=
  Nat.mod_eq_of_lt (Nat.lt_of_le_of_lt h (by decide))

theorem newCells_eq {n : ℕ} (hT : 0 < sizeofT) (h : Fits sizeofT n) : newCells sizeofT n = n := by
  simp only [newCells]
  rw [h.mod, Nat.min_eq_left (Kmem.le_granted h), Nat.mul_div_cancel_left n hT]

theorem newCells_lt {n : ℕ} (hT : 0 < sizeofT) (h : ¬ Fits sizeofT n) : newCells sizeofT n < n := by
  rw [Fits, Nat.not_le] at h
  simp only [newCells]
  rw [Nat.div_lt_iff_lt_mul hT, Nat.mul_comm n]
  by_cases hwrap : sizeofT * n < 2 ^ 32
  · -- The product is one of the last eleven sizes.
    rw [Nat.mod_eq_of_lt hwrap]
    exact Nat.lt_of_le_of_lt (Nat.min_le_right _ _) (Kmem.granted_lt h hwrap)
  · have hlt := Nat.mod_lt (sizeofT * n) (by decide : 0 < 2 ^ 32)
    have hmin := Nat.min_le_left (sizeofT * n % 2 ^ 32) (Kmem.granted (sizeofT * n % 2 ^ 32))
    omega

theorem newCells_of_mod {n : ℕ} (h : sizeofT * n % 2 ^ 32 = 0) : newCells sizeofT n = 0 := by
  simp only [newCells]
  rw [h, Nat.zero_min, Nat.zero_div]

theorem kmalloc_getD {n : ℕ} : (kmalloc (T := T) sizeofT n).getD [] =
    List.replicate (newCells sizeofT n) none := by
  rw [kmalloc]
  split_ifs with hzero
  · rw [newCells_of_mod hzero]
    rfl
  · rfl

theorem kmalloc_isNone {n : ℕ} (hT : 0 < sizeofT) (h : Fits sizeofT n) :
    (kmalloc (T := T) sizeofT n).isNone = true ↔ n = 0 := by
  have hiff : sizeofT * n = 0 ↔ n = 0 := by
    rw [Nat.mul_eq_zero]
    exact or_iff_right (Nat.ne_of_gt hT)
  rw [kmalloc, h.mod, ← hiff]
  split_ifs with hzero
  · exact iff_of_true rfl hzero
  · exact iff_of_false Bool.false_ne_true hzero

/-- The vector has the elements `xs`, and can hold `buffSize` elements. -/
structure Holds (sizeofT : ℕ) (v : VectorState T) (xs : List T) : Prop where
  count : v.count = xs.length
  le : xs.length ≤ v.buffSize
  cells : v.cells = layout xs v.buffSize
  fits : Fits sizeofT v.buffSize
  null : v.buff.isNone = true ↔ v.buffSize = 0

/-- A buffer is replaced when the elements fit the new one. -/
theorem growBuff_eq {n : ℕ} (hread : getAll v.cells v.count 0 = .ok xs) :
    growBuff sizeofT n v =
      if xs.length ≤ newCells sizeofT n then
        .ok { v with buff := (kmalloc (T := T) sizeofT n).map fun _ => layout xs (newCells sizeofT n)
                     buffSize := n }
      else .error .badAccess := by
  have hput := @putAll_layout T xs (newCells sizeofT n) [] (Nat.zero_le _)
  rw [layout_nil, List.nil_append, List.length_nil] at hput
  rw [growBuff, hread, kmalloc_getD]
  change (putAll xs 0 _ >>= _) = _
  rw [hput]
  split_ifs
  · rfl
  · rfl

/-- The cells of a new buffer; a null pointer has none. -/
theorem map_kmalloc_getD {n : ℕ} (h : xs.length ≤ newCells sizeofT n) :
    ((kmalloc (T := T) sizeofT n).map fun _ => layout xs (newCells sizeofT n)).getD [] =
      layout xs (newCells sizeofT n) := by
  rw [kmalloc]
  split_ifs with hzero
  · rw [newCells_of_mod hzero] at h ⊢
    simp [List.eq_nil_of_length_eq_zero (Nat.le_zero.mp h), layout]
  · rfl

/-- A buffer that is replaced by one of a size that fits. -/
theorem growBuff_holds {n : ℕ} (hT : 0 < sizeofT) (hcount : v.count = xs.length)
    (hread : getAll v.cells v.count 0 = .ok xs) (hle : xs.length ≤ n) (hn : Fits sizeofT n) :
    ∃ v', growBuff sizeofT n v = .ok v' ∧ v'.Holds sizeofT xs ∧ v'.buffSize = n := by
  have hcells := newCells_eq hT hn
  have hmap := @map_kmalloc_getD T sizeofT xs n (hcells.symm ▸ hle)
  rw [growBuff_eq hread, if_pos (hcells.symm ▸ hle)]
  rw [hcells] at hmap ⊢
  refine ⟨_, rfl, ⟨hcount, hle, hmap, hn, ?_⟩, rfl⟩
  rw [Option.isNone_map]
  exact kmalloc_isNone hT hn

/-! ## What a vector answers -/

/-- The buffer is valid, and the vector answers what the list `xs` answers. -/
structure Agrees (v : VectorState T) (xs : List T) : Prop where
  le : v.count ≤ v.buffSize
  valid : v.buffSize ≤ v.cells.length
  size : v.count = xs.length
  front : ∀ x ∈ xs.head?, v.front = .ok x
  back : ∀ x ∈ xs.getLast?, v.back = .ok x
  iterate : v.iterate = .ok xs

/-- A buffer of a size that wraps is not valid. -/
theorem length_lt_of_growBuff {n : ℕ} (hT : 0 < sizeofT) (hn : ¬ Fits sizeofT n)
    (hread : getAll v.cells v.count 0 = .ok xs) (h : growBuff sizeofT n v = .ok v') :
    v'.cells.length < v'.buffSize := by
  have hlt := newCells_lt hT hn
  rw [growBuff_eq hread] at h
  split_ifs at h with hle
  have hv' := Except.ok.inj h
  subst hv'
  change (Option.getD (Option.map _ _) []).length < n
  rw [map_kmalloc_getD hle, length_layout hle]
  exact hlt

section Holds
variable (hT : 0 < sizeofT) (h : v.Holds sizeofT xs)
include h

theorem Holds.iterate : v.iterate = .ok xs := by
  rw [VectorState.iterate, h.cells, h.count]
  exact @getAll_layout T xs v.buffSize []

theorem Holds.not_null (hlt : 0 < v.buffSize) : v.buff.isNone = false := by
  rw [Bool.eq_false_iff]
  intro hnone
  exact Nat.ne_of_gt hlt (h.null.mp hnone)

theorem Holds.index {pos : ℕ} : v.index pos =
    if pos < xs.length then .ok pos else .error (.panic "Out of bounds vector access!") := by
  have hle := h.le
  rw [VectorState.index, h.count]
  by_cases hpos : pos < xs.length
  · have hnull := h.not_null (by omega)
    rw [if_neg (by omega), if_neg (by simp [hnull]), if_pos hpos]
  · rw [if_pos (by omega), if_neg hpos]

theorem Holds.at' {pos : ℕ} : v.at' pos =
    match xs[pos]? with
    | some x => .ok x
    | none => .error (.panic "Out of bounds vector access!") := by
  rw [VectorState.at', h.index]
  by_cases hpos : pos < xs.length
  · rw [if_pos hpos, List.getElem?_eq_getElem hpos, h.cells]
    exact get_layout hpos
  · rw [if_neg hpos, List.getElem?_eq_none (by omega)]
    rfl

include hT

theorem Holds.length_lt : xs.length < 2 ^ 32 := by
  have hfits := h.fits
  have hle := h.le
  rw [Fits] at hfits
  have hmul : 1 * v.buffSize ≤ sizeofT * v.buffSize := Nat.mul_le_mul_right _ hT
  omega

/-- `count - 1`, when there are elements. -/
theorem Holds.last (hpos : 0 < xs.length) : (v.count + 2 ^ 32 - 1) % 2 ^ 32 = xs.length - 1 := by
  have hlt := h.length_lt hT
  have hcount := h.count
  omega

theorem Holds.agrees : v.Agrees xs where
  le := by
    rw [h.count]
    exact h.le
  valid := Nat.le_of_eq (by rw [h.cells, length_layout h.le])
  size := h.count
  front x hx := by
    rw [VectorState.front, h.at', ← List.head?_eq_getElem?, hx]
  back x hx := by
    have hpos : 0 < xs.length := by
      rw [List.length_pos_iff]
      rintro rfl
      cases hx
    rw [VectorState.back, h.at', h.last hT hpos, ← List.getLast?_eq_getElem?, hx]
  iterate := h.iterate

/-! ### The operations -/

omit hT in
theorem Holds.exists_cells (hlt : 0 < v.buffSize) : v.buff = some (layout xs v.buffSize) := by
  have hnull := h.not_null hlt
  have hcells := h.cells
  rw [VectorState.cells] at hcells
  cases hbuff : v.buff with
  | none => simp [hbuff] at hnull
  | some cells =>
    rw [hbuff] at hcells
    exact congrArg some hcells

theorem Holds.popBack {x : T} (hxs : xs = ys ++ [x]) :
    ∃ v', v.popBack = .ok v' ∧ v'.Holds sizeofT ys := by
  have hlen : xs.length = ys.length + 1 := by simp [hxs]
  have hle := h.le
  have hcount := h.count
  have hlast := h.last hT (by omega)
  have hget : get v.cells (xs.length - 1) = .ok x := by
    rw [h.cells, get_layout (by omega)]
    simp [hxs]
  have hset : (layout xs v.buffSize).set ys.length none = layout ys v.buffSize := by
    have hcells : List.replicate (v.buffSize - ys.length) (none : Option T) =
        none :: List.replicate (v.buffSize - xs.length) none := by
      have hsub : v.buffSize - ys.length = v.buffSize - xs.length + 1 := by omega
      rw [hsub, List.replicate_succ]
    rw [layout, layout, hcells, hxs]
    simp
  have hrun : v.popBack = .ok { v with
      buff := v.buff.map fun cells => cells.set (xs.length - 1) none, count := v.count - 1 } := by
    rw [VectorState.popBack, hlast, h.index, if_pos (by omega)]
    change (get v.cells (xs.length - 1) >>= _) = _
    rw [hget]
    rfl
  refine ⟨_, hrun, ⟨by simp only; omega, by simp only; omega, ?_, h.fits, ?_⟩⟩
  · rw [VectorState.cells, h.exists_cells (by omega), hlen, Nat.add_sub_cancel]
    exact hset
  · rw [Option.isNone_map]
    exact h.null

omit hT in
theorem Holds.clear : ∃ v', v.clear = .ok v' ∧ v'.Holds sizeofT [] := by
  have hle := h.le
  by_cases hnull : v.buff.isNone = true
  · have hzero := h.null.mp hnull
    have hnil : xs = [] := List.eq_nil_of_length_eq_zero (by omega)
    subst hnil
    exact ⟨v, by rw [VectorState.clear, if_pos hnull], h⟩
  · have hpos : 0 < v.buffSize := Nat.pos_of_ne_zero fun hzero => hnull (h.null.mpr hzero)
    have hrun : v.clear = .ok { v with
        buff := v.buff.map fun cells =>
          List.replicate xs.length none ++ cells.drop xs.length
        count := 0 } := by
      rw [VectorState.clear, if_neg hnull, h.iterate]
      rfl
    refine ⟨_, hrun, ⟨rfl, Nat.zero_le _, ?_, h.fits, ?_⟩⟩
    · rw [VectorState.cells, h.exists_cells hpos]
      change List.replicate xs.length none ++ (layout xs v.buffSize).drop xs.length = layout [] _
      have hdrop : (layout xs v.buffSize).drop xs.length =
          List.replicate (v.buffSize - xs.length) none := by
        simp [layout]
      rw [hdrop, ← List.replicate_add, layout_nil, Nat.add_sub_cancel' hle]
    · rw [Option.isNone_map]
      exact h.null

omit hT in
/-- A push on a vector with a free cell. -/
theorem Holds.pushFree (x : T) (hlt : xs.length < v.buffSize) :
    ∃ v', v.pushBack sizeofT x = .ok v' ∧ v'.Holds sizeofT (xs ++ [x]) := by
  have hcount := h.count
  have hput : put v.cells v.count x = .ok (layout (xs ++ [x]) v.buffSize) := by
    rw [h.cells, h.count]
    exact put_layout x hlt
  have hrun : v.pushBack sizeofT x = .ok { v with
      buff := v.buff.map fun _ => layout (xs ++ [x]) v.buffSize, count := v.count + 1 } := by
    have hnull := h.not_null (by omega)
    rw [VectorState.pushBack, if_neg (by omega)]
    change (VectorState.index { v with count := v.count + 1 } v.count >>= _) = _
    rw [VectorState.index, if_neg (by simp), if_neg (by simp [hnull])]
    change (put v.cells v.count x >>= _) = _
    rw [hput]
    rfl
  refine ⟨_, hrun, ⟨by simp [hcount], by simp; omega, ?_, h.fits, ?_⟩⟩
  · rw [VectorState.cells, h.exists_cells (by omega)]
    rfl
  · rw [Option.isNone_map]
    exact h.null

/-- A full vector whose buffer can be doubled. -/
theorem Holds.pushGrow (x : T) (hfull : v.count = v.buffSize) (hpos : v.buffSize ≠ 0)
    (hfits : Fits sizeofT (v.buffSize * 2)) :
    ∃ v', v.pushBack sizeofT x = .ok v' ∧ v'.Holds sizeofT (xs ++ [x]) := by
  have hcount := h.count
  have hmod : v.buffSize * 2 % 2 ^ 32 = v.buffSize * 2 := by
    rw [Fits] at hfits
    have hmul : 1 * (v.buffSize * 2) ≤ sizeofT * (v.buffSize * 2) := Nat.mul_le_mul_right _ hT
    exact Nat.mod_eq_of_lt (by omega)
  obtain ⟨v₁, hgrow, hv₁, hsize⟩ := growBuff_holds hT hcount h.iterate (by omega) hfits
  have hpush : v.pushBack sizeofT x = v₁.pushBack sizeofT x := by
    rw [VectorState.pushBack, if_pos hfull, VectorState.grow, hmod, hgrow, VectorState.pushBack,
      if_neg (by have := hv₁.count; omega)]
    rfl
  rw [hpush]
  exact hv₁.pushFree x (by omega)

/-- A full vector whose buffer cannot be doubled has no cell for another element then, or too
few for its size. -/
theorem Holds.grow_bad {v₁ : VectorState T} (hfull : v.count = v.buffSize)
    (hbad : v.buffSize = 0 ∨ ¬ Fits sizeofT (v.buffSize * 2)) (hgrow : v.grow sizeofT = .ok v₁) :
    v₁.buff.isNone = true ∨ v₁.cells.length < v₁.buffSize := by
  have hcount := h.count
  have hlt := h.length_lt hT
  rw [VectorState.grow] at hgrow
  by_cases hfits : Fits sizeofT (v.buffSize * 2 % 2 ^ 32)
  · rw [growBuff_eq h.iterate, newCells_eq hT hfits] at hgrow
    by_cases hle : xs.length ≤ v.buffSize * 2 % 2 ^ 32
    · -- The size did not wrap, so there was no buffer.
      have hsame : v.buffSize * 2 % 2 ^ 32 = v.buffSize * 2 := by omega
      rw [hsame] at hfits
      have hzero := hbad.resolve_right (not_not_intro hfits)
      rw [if_pos hle] at hgrow
      have hv₁ := Except.ok.inj hgrow
      subst hv₁
      left
      simp [hzero, kmalloc]
    · rw [if_neg hle] at hgrow
      cases hgrow
  · exact .inr (length_lt_of_growBuff hT hfits h.iterate hgrow)

/-- A push on a full vector whose buffer cannot be doubled. -/
theorem Holds.not_push (x : T) (hfull : v.count = v.buffSize)
    (hbad : v.buffSize = 0 ∨ ¬ Fits sizeofT (v.buffSize * 2))
    (hpush : v.pushBack sizeofT x = .ok v') : ¬ v'.Agrees ys := by
  intro hagrees
  have hvalid := hagrees.valid
  rw [VectorState.pushBack, if_pos hfull] at hpush
  cases hgrow : v.grow sizeofT with
  | error e =>
    rw [hgrow] at hpush
    cases hpush
  | ok v₁ =>
    rw [hgrow] at hpush
    change (VectorState.index { v₁ with count := v₁.count + 1 } v₁.count >>= _) = _ at hpush
    rw [VectorState.index, if_neg (by simp)] at hpush
    by_cases hnull : v₁.buff.isNone = true
    · rw [if_pos hnull] at hpush
      cases hpush
    · rw [if_neg hnull] at hpush
      change (put v₁.cells v₁.count x >>= _) = _ at hpush
      rw [put] at hpush
      by_cases hin : v₁.count < v₁.cells.length
      · rw [if_pos hin] at hpush
        have hv' := Except.ok.inj hpush
        subst hv'
        have hfew := (h.grow_bad hT hfull hbad hgrow).resolve_left hnull
        cases hbuff : v₁.buff with
        | none => simp [hbuff] at hnull
        | some cells =>
          simp only [VectorState.cells, hbuff, Option.map_some, Option.getD_some, List.length_set]
            at hvalid hfew
          omega
      · rw [if_neg hin] at hpush
        cases hpush

/-- A copy has the elements, and the size of the buffer. -/
theorem Holds.copy : ∃ v', v.copy sizeofT = .ok v' ∧ v'.Holds sizeofT xs := by
  obtain ⟨v₁, hgrow, hv₁, hsize⟩ :=
    growBuff_holds hT (by rfl) getAll_initial (Nat.zero_le v.buffSize) h.fits
  have hput := @putAll_layout T xs v.buffSize [] (Nat.zero_le _)
  rw [List.nil_append, List.length_nil, if_pos h.le, ← hsize, ← hv₁.cells] at hput
  have hrun : v.copy sizeofT = .ok { v₁ with
      buff := v₁.buff.map fun _ => layout xs v₁.buffSize, count := v.count } := by
    rw [VectorState.copy, hgrow]
    change (v.iterate >>= _) = _
    rw [h.iterate]
    change (putAll xs 0 v₁.cells >>= _) = _
    rw [hput]
    rfl
  refine ⟨_, hrun, ⟨h.count, hsize.symm ▸ h.le, ?_, hv₁.fits, ?_⟩⟩
  · by_cases hzero : v₁.buffSize = 0
    · have hnil : xs = [] := List.eq_nil_of_length_eq_zero (by have := h.le; omega)
      have hnull := hv₁.null.mpr hzero
      rw [Option.isNone_iff_eq_none] at hnull
      simp [VectorState.cells, hnull, hnil, hzero, layout]
    · rw [VectorState.cells, hv₁.exists_cells (Nat.pos_of_ne_zero hzero)]
      rfl
  · rw [Option.isNone_map]
    exact hv₁.null

end Holds

end VectorState

/-! ## Runs -/

namespace VectorOp
variable {T : Type}

/-- A push meets a free cell, or a buffer that can be doubled. -/
def CanGrow (sizeofT : ℕ) (v : VectorState T) : VectorOp T → Prop
  | .pushBack _ | .emplaceBack _ => v.count = v.buffSize →
      v.buffSize ≠ 0 ∧ VectorState.Fits sizeofT (v.buffSize * 2)
  | _ => True

/-- Elements are popped from vectors that have one. -/
def Legal : List T → List (VectorOp T) → Prop
  | _, [] => True
  | xs, op :: ops => (∀ ys r, op.spec xs = .ok (r, ys) → Legal ys ops) ∧
      match op with
      | .popBack => xs ≠ []
      | _ => True

end VectorOp

namespace VectorState
variable {T : Type} {sizeofT : ℕ} {v v' : VectorState T} {xs ys : List T} {op : VectorOp T}
  {ops : List (VectorOp T)}

/-- The vector answers what the list answers, and so on after every operation, unless an
index is out of bounds. -/
def Refines (sizeofT : ℕ) : VectorState T → List T → List (VectorOp T) → Prop
  | v, xs, [] => v.Agrees xs
  | v, xs, op :: ops => v.Agrees xs ∧
      match op.spec xs with
      | .ok (r, ys) => ∃ v', op.exec sizeofT v = .ok (r, v') ∧ Refines sizeofT v' ys ops
      | .error e => op.exec sizeofT v = .error e

/-- No push of the run meets a full buffer that cannot be doubled. -/
def Roomy (sizeofT : ℕ) : VectorState T → List (VectorOp T) → Prop
  | _, [] => True
  | v, op :: ops => op.CanGrow sizeofT v ∧
      ∀ r v', op.exec sizeofT v = .ok (r, v') → Roomy sizeofT v' ops

theorem Holds.pushBack (hT : 0 < sizeofT) (h : v.Holds sizeofT xs) {x : T}
    (hgrow : v.count = v.buffSize → v.buffSize ≠ 0 ∧ Fits sizeofT (v.buffSize * 2)) :
    ∃ v', v.pushBack sizeofT x = .ok v' ∧ v'.Holds sizeofT (xs ++ [x]) := by
  have hcount := h.count
  have hle := h.le
  by_cases hfull : v.count = v.buffSize
  · exact h.pushGrow hT x hfull (hgrow hfull).1 (hgrow hfull).2
  · exact h.pushFree x (by omega)

/-- An operation that can grow does what it does on the list. -/
theorem Holds.exec (hT : 0 < sizeofT) (h : v.Holds sizeofT xs) (hgrow : op.CanGrow sizeofT v)
    (hlegal : VectorOp.Legal xs (op :: ops)) :
    match op.spec xs with
    | .ok (r, ys) => ∃ v', op.exec sizeofT v = .ok (r, v') ∧ v'.Holds sizeofT ys
    | .error e => op.exec sizeofT v = .error e := by
  cases op with
  | pushBack value =>
    obtain ⟨v', hpush, hv'⟩ := h.pushBack hT hgrow
    exact ⟨v', by rw [VectorOp.exec, hpush]; rfl, hv'⟩
  | emplaceBack object =>
    obtain ⟨v', hpush, hv'⟩ := h.pushBack hT hgrow
    exact ⟨v', by rw [VectorOp.exec, emplaceBack, hpush]; rfl, hv'⟩
  | popBack =>
    obtain ⟨zs, x, hxs⟩ := (List.eq_nil_or_concat' xs).resolve_left hlegal.2
    obtain ⟨v', hpop, hv'⟩ := h.popBack hT hxs
    refine ⟨v', by rw [VectorOp.exec, hpop]; rfl, ?_⟩
    rw [hxs, List.dropLast_concat]
    exact hv'
  | clear =>
    obtain ⟨v', hclear, hv'⟩ := h.clear
    exact ⟨v', by rw [VectorOp.exec, hclear]; rfl, hv'⟩
  | «at» pos =>
    rw [VectorOp.spec]
    cases hx : xs[pos]? with
    | some x =>
      refine ⟨v, ?_, h⟩
      rw [VectorOp.exec, h.at', hx]
      rfl
    | none =>
      simp only [VectorOp.exec, h.at', hx]
      rfl
  | iterate => exact ⟨v, by rw [VectorOp.exec, h.iterate]; rfl, h⟩
  | copy =>
    obtain ⟨v', hcopy, hv'⟩ := h.copy hT
    exact ⟨v', by rw [VectorOp.exec, hcopy]; rfl, hv'⟩

/-- A push that cannot grow does not. -/
theorem Holds.not_exec (hT : 0 < sizeofT) (h : v.Holds sizeofT xs)
    (hgrow : ¬ op.CanGrow sizeofT v) {r : VectorReply T}
    (hexec : op.exec sizeofT v = .ok (r, v')) : ¬ v'.Agrees ys := by
  have hpush : ∀ x, v.count = v.buffSize → ¬ (v.buffSize ≠ 0 ∧ Fits sizeofT (v.buffSize * 2)) →
      (do pure (VectorReply.void, ← v.pushBack sizeofT x)) = Except.ok (r, v') →
        ¬ v'.Agrees ys := by
    intro x hfull hbad hexec
    cases hrun : v.pushBack sizeofT x with
    | error e =>
      rw [hrun] at hexec
      cases hexec
    | ok v₁ =>
      rw [hrun] at hexec
      obtain ⟨-, rfl⟩ := Prod.mk.inj (Except.ok.inj hexec)
      exact h.not_push hT x hfull (by tauto) hrun
  cases op with
  | pushBack value =>
    rw [VectorOp.CanGrow, Classical.not_imp] at hgrow
    exact hpush value hgrow.1 hgrow.2 hexec
  | emplaceBack object =>
    rw [VectorOp.CanGrow, Classical.not_imp] at hgrow
    exact hpush object hgrow.1 hgrow.2 hexec
  | _ => exact absurd trivial hgrow

theorem Refines.agrees (h : v.Refines sizeofT xs ops) : v.Agrees xs := by
  cases ops with
  | nil => exact h
  | cons op ops => exact h.1

theorem Holds.refines_iff (hT : 0 < sizeofT) (h : v.Holds sizeofT xs)
    (hlegal : VectorOp.Legal xs ops) : v.Refines sizeofT xs ops ↔ v.Roomy sizeofT ops := by
  induction ops generalizing v xs with
  | nil => exact iff_of_true (h.agrees hT) trivial
  | cons op ops ih =>
    have hrest := hlegal.1
    rw [Refines, Roomy]
    by_cases hgrow : op.CanGrow sizeofT v
    · have hexec := h.exec hT hgrow hlegal
      cases hspec : op.spec xs with
      | error e =>
        simp only [hspec] at hexec ⊢
        refine iff_of_true ⟨h.agrees hT, hexec⟩ ⟨hgrow, fun r v' hrun => ?_⟩
        rw [hexec] at hrun
        cases hrun
      | ok p =>
        obtain ⟨r, ys⟩ := p
        simp only [hspec] at hexec ⊢
        obtain ⟨v', hrun, hv'⟩ := hexec
        have hiff := ih hv' (hrest ys r hspec)
        constructor
        · rintro ⟨-, w, hw, hrefines⟩
          refine ⟨hgrow, fun r' w' hw' => ?_⟩
          obtain ⟨-, rfl⟩ := Prod.mk.inj (Except.ok.inj (hw'.symm.trans hrun))
          obtain ⟨-, rfl⟩ := Prod.mk.inj (Except.ok.inj (hw.symm.trans hrun))
          exact hiff.mp hrefines
        · intro hroomy
          exact ⟨h.agrees hT, v', hrun, hiff.mpr (hroomy.2 r v' hrun)⟩
    · refine iff_of_false ?_ fun hroomy => hgrow hroomy.1
      rintro ⟨-, hrun⟩
      cases hspec : op.spec xs with
      | error e => cases op <;> first | exact hgrow trivial | cases hspec
      | ok p =>
        obtain ⟨r, ys⟩ := p
        simp only [hspec] at hrun
        obtain ⟨v', hexec, hrefines⟩ := hrun
        exact h.not_exec hT hgrow hexec hrefines.agrees

end VectorState

/-! ## Constructors -/

namespace VectorStart
variable {T : Type} [Inhabited T] {sizeofT : ℕ}

/-- The size of the first buffer. -/
def target : VectorStart T → ℕ
  | .empty => 4
  | .ofCount count => count
  | .ofValue count _ => count

/-- The constructor makes a vector that answers as the list does from then on. -/
def Refines (sizeofT : ℕ) (start : VectorStart T) (ops : List (VectorOp T)) : Prop :=
  ∃ v, start.make sizeofT = .ok v ∧ v.Refines sizeofT start.spec ops

/-- The first buffer fits, and no push meets a full buffer that cannot be doubled. -/
def Roomy (sizeofT : ℕ) (start : VectorStart T) (ops : List (VectorOp T)) : Prop :=
  VectorState.Fits sizeofT start.target ∧
    ∀ v, start.make sizeofT = .ok v → v.Roomy sizeofT ops

section Construct
variable {n : ℕ} {xs : List T} {v : VectorState T} (hT : 0 < sizeofT)
include hT

omit [Inhabited T] in
theorem construct_holds (hlen : xs.length = n) (hn : VectorState.Fits sizeofT n) :
    ∃ v, VectorState.construct sizeofT n xs = .ok v ∧ v.Holds sizeofT xs := by
  obtain ⟨v, hgrow, hv, hsize⟩ :=
    VectorState.growBuff_holds hT (by rfl) VectorState.getAll_initial (Nat.zero_le n) hn
  have hput := @VectorState.putAll_layout T xs n [] (Nat.zero_le _)
  rw [List.nil_append, List.length_nil, if_pos (Nat.le_of_eq hlen), ← hsize, ← hv.cells] at hput
  have hrun : VectorState.construct sizeofT n xs = .ok { v with
      buff := v.buff.map fun _ => VectorState.layout xs v.buffSize, count := xs.length } := by
    rw [VectorState.construct, hgrow]
    change (VectorState.putAll xs 0 v.cells >>= _) = _
    rw [hput]
    rfl
  refine ⟨_, hrun, ⟨rfl, Nat.le_of_eq (hlen.trans hsize.symm), ?_, hv.fits, ?_⟩⟩
  · by_cases hzero : v.buffSize = 0
    · have hnil : xs = [] := List.eq_nil_of_length_eq_zero (by omega)
      have hnull := hv.null.mpr hzero
      rw [Option.isNone_iff_eq_none] at hnull
      simp [VectorState.cells, hnull, hnil, hzero, VectorState.layout]
    · rw [VectorState.cells, hv.exists_cells (Nat.pos_of_ne_zero hzero)]
      rfl
  · rw [Option.isNone_map]
    exact hv.null

omit [Inhabited T] in
/-- The elements do not fit a first buffer whose size wraps. -/
theorem not_construct (hlen : xs.length = n) (hn : ¬ VectorState.Fits sizeofT n) :
    VectorState.construct sizeofT n xs ≠ .ok v := by
  intro hrun
  have hlt := VectorState.newCells_lt hT hn
  have hput := @VectorState.putAll_layout T xs (VectorState.newCells sizeofT n) [] (Nat.zero_le _)
  rw [List.nil_append, List.length_nil, if_neg (by omega)] at hput
  rw [VectorState.construct, VectorState.growBuff_eq VectorState.getAll_initial, if_pos (by simp)] at hrun
  change (VectorState.putAll xs 0 (Option.getD (Option.map _ _) []) >>= _) = _ at hrun
  rw [VectorState.map_kmalloc_getD (Nat.zero_le _), hput] at hrun
  cases hrun

theorem make_holds {start : VectorStart T} (hfits : VectorState.Fits sizeofT start.target) :
    ∃ v, start.make sizeofT = .ok v ∧ v.Holds sizeofT start.spec := by
  cases start with
  | empty =>
    obtain ⟨v, hgrow, hv, -⟩ := VectorState.growBuff_holds hT (by rfl) VectorState.getAll_initial (Nat.zero_le 4) hfits
    exact ⟨v, hgrow, hv⟩
  | ofCount count => exact construct_holds hT List.length_replicate hfits
  | ofValue count value => exact construct_holds hT List.length_replicate hfits

theorem not_make {start : VectorStart T} (hfits : ¬ VectorState.Fits sizeofT start.target)
    (hmake : start.make sizeofT = .ok v) : ¬ v.Agrees start.spec := by
  cases start with
  | empty =>
    intro hagrees
    have hvalid := hagrees.valid
    have hfew := VectorState.length_lt_of_growBuff hT hfits VectorState.getAll_initial hmake
    omega
  | ofCount count => exact absurd hmake (not_construct hT List.length_replicate hfits)
  | ofValue count value => exact absurd hmake (not_construct hT List.length_replicate hfits)

end Construct

/-- A vector is a list in the runs in which its buffer can be doubled when it is full. -/
theorem refines_iff_roomy (hT : 0 < sizeofT) (start : VectorStart T) (ops : List (VectorOp T))
    (hlegal : VectorOp.Legal start.spec ops) :
    start.Refines sizeofT ops ↔ start.Roomy sizeofT ops := by
  by_cases hfits : VectorState.Fits sizeofT start.target
  · obtain ⟨v, hmake, hv⟩ := make_holds hT hfits
    have hiff := hv.refines_iff hT hlegal
    constructor
    · rintro ⟨w, hw, hrefines⟩
      refine ⟨hfits, fun w' hw' => ?_⟩
      obtain rfl := Except.ok.inj (hw'.symm.trans hmake)
      obtain rfl := Except.ok.inj (hw.symm.trans hmake)
      exact hiff.mp hrefines
    · intro hroomy
      exact ⟨v, hmake, hiff.mpr (hroomy.2 v hmake)⟩
  · refine iff_of_false ?_ fun hroomy => hfits hroomy.1
    rintro ⟨v, hmake, hrefines⟩
    exact not_make hT hfits hmake hrefines.agrees

/-- A vector of one element of four bytes grows twice. -/
theorem refines_iff_one :
    (VectorStart.ofCount (T := ℕ) 1).Refines 4 [.pushBack 1, .pushBack 2, .popBack, .copy] ↔
      (VectorStart.ofCount (T := ℕ) 1).Roomy 4 [.pushBack 1, .pushBack 2, .popBack, .copy] :=
  refines_iff_roomy (by decide) _ _ (by simp [VectorOp.Legal, VectorOp.spec, VectorStart.spec])

/-- The first push on a vector of no elements is a panic. -/
theorem not_refines_zero : VectorOp.Legal (VectorStart.ofCount (T := ℕ) 0).spec [.pushBack 7] ∧
    ¬ (VectorStart.ofCount (T := ℕ) 0).Refines 4 [.pushBack 7] := by
  refine ⟨by simp [VectorOp.Legal, VectorOp.spec], ?_⟩
  rintro ⟨v, hv, -, w, hw, -⟩
  obtain rfl := Except.ok.inj hv
  cases hw

end VectorStart

end Cantos
