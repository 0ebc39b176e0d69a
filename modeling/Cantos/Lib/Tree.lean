import Mathlib.Data.List.Basic

/-!
# Trees given by their edges

A graph whose edges have a source and a target, and of which a tree can be reached from a
root: every node is the target of one edge at most, and the root of none.

## Main definitions

* `Under`: a node can be reached from another one.
* `IsTree`: what can be reached from the root is a tree.
-/

namespace Cantos.Tree

variable {β ε : Type} (src tgt : ε → β) (E : ε → Prop)

/-- The nodes that can be reached from `b`. -/
inductive Under (b : β) : β → Prop
  | refl : Under b b
  | step {x : ε} (h : Under b (src x)) (hx : E x) : Under b (tgt x)

structure IsTree (root : β) : Prop where
  unique : ∀ x y, Under src tgt E root (src x) → Under src tgt E root (src y) → E x → E y →
    tgt x = tgt y → x = y
  root : ∀ x, Under src tgt E root (src x) → E x → tgt x ≠ root

variable {src tgt E} {root a b c : β} {x y : ε}

theorem Under.trans (hab : Under src tgt E a b) (hbc : Under src tgt E b c) :
    Under src tgt E a c := by
  induction hbc with
  | refl => exact hab
  | step _ hx ih => exact ih.step hx

/-- A node under another one is this node or under one of the targets of its edges. -/
theorem Under.head (h : Under src tgt E b c) :
    c = b ∨ ∃ x, src x = b ∧ E x ∧ Under src tgt E (tgt x) c := by
  induction h with
  | refl => exact .inl rfl
  | @step x _ hx ih =>
    rcases ih with hsrc | ⟨y, hy, hEy, hunder⟩
    · exact .inr ⟨x, hsrc, hx, .refl⟩
    · exact .inr ⟨y, hy, hEy, hunder.step hx⟩

/-- The last edge on the way to the target of an edge is this edge. -/
theorem IsTree.under_tgt (ht : IsTree src tgt E root) (hx : E x)
    (hsrc : Under src tgt E root (src x)) (hb : Under src tgt E root b)
    (h : Under src tgt E b (tgt x)) : tgt x = b ∨ Under src tgt E b (src x) := by
  generalize hc : tgt x = c at h
  cases h with
  | refl => exact .inl rfl
  | step h hy =>
    rw [ht.unique x _ hsrc (hb.trans h) hx hy hc]
    exact .inr h

/-- No way leads back to the source of an edge. -/
theorem IsTree.not_under_src (ht : IsTree src tgt E root) (hx : E x)
    (hsrc : Under src tgt E root (src x)) : ¬ Under src tgt E (tgt x) (src x) := by
  generalize hb : src x = b at hsrc
  induction hsrc generalizing x with
  | refl =>
    intro h
    have hroot : Under src tgt E root (src x) := hb ▸ .refl
    generalize hc : root = c at h
    cases h with
    | refl => exact ht.root x hroot hx hc.symm
    | step h hy => exact ht.root _ ((hroot.step hx).trans h) hy hc.symm
  | @step w hw hEw ih =>
    intro h
    have hsrc : Under src tgt E root (src x) := hb ▸ hw.step hEw
    rcases ht.under_tgt hEw hw (hsrc.step hx) h with htgt | hunder
    · -- The edge leads from its target to itself.
      obtain rfl := ht.unique w x hw hsrc hEw hx htgt
      exact ih hx rfl (hb ▸ .refl)
    · refine ih hEw rfl (Under.trans ?_ hunder)
      rw [← hb]
      exact Under.refl.step hx

/-- What is under the targets of two edges from one node is separate. -/
theorem IsTree.eq_of_under (ht : IsTree src tgt E root) (hx : E x) (hy : E y)
    (hsrc : Under src tgt E root (src x)) (hxy : src x = src y)
    (hxc : Under src tgt E (tgt x) c) (hyc : Under src tgt E (tgt y) c) : x = y := by
  have hsrc' : Under src tgt E root (src y) := hxy ▸ hsrc
  induction hxc with
  | refl =>
    rcases ht.under_tgt hx hsrc (hsrc'.step hy) hyc with htgt | hunder
    · exact ht.unique x y hsrc hsrc' hx hy htgt
    · exact absurd (hxy ▸ hunder) (ht.not_under_src hy hsrc')
  | @step z hz hEz ih =>
    have hsrcz := (hsrc.step hx).trans hz
    rcases ht.under_tgt hEz hsrcz (hsrc'.step hy) hyc with htgt | hunder
    · obtain rfl := ht.unique z y hsrcz hsrc' hEz hy htgt
      exact absurd (hxy ▸ hz) (ht.not_under_src hx hsrc)
    · exact ih hunder

end Cantos.Tree
