import Mathlib.Data.Set.Finite.Basic
import Mathlib.Logic.Function.Iterate

/-!
# Walking through a set

A walk goes from place to place by a function, for as long as it is inside of a set.  In a
finite set it ends unless it comes to a place twice.

## Main definitions

* `Walk.Stays`: the walk is inside for some steps.
* `Walk.Leaves`: it is inside for some steps and then outside.
-/

namespace Cantos.Walk

variable {α : Type*} (next : α → α) (inside : α → Prop) (a : α)

/-- The first `k` places of the walk from `a` are inside. -/
def Stays (k : ℕ) : Prop := ∀ j < k, inside (next^[j] a)

/-- The first `n` places of the walk from `a` are inside, and the next one is not. -/
def Leaves (n : ℕ) : Prop := Stays next inside a n ∧ ¬ inside (next^[n] a)

/-- No place that the walk comes to inside is one it was at before. -/
def NoReturn : Prop := ∀ i j, i < j → Stays next inside a (j + 1) → next^[i] a ≠ next^[j] a

variable {next inside a} {i j k n : ℕ}

theorem Stays.mono (h : Stays next inside a n) (hk : k ≤ n) : Stays next inside a k :=
  fun j hj => h j (hj.trans_le hk)

theorem stays_succ : Stays next inside a (k + 1) ↔ inside a ∧ Stays next inside (next a) k := by
  constructor
  · intro h
    exact ⟨h 0 k.succ_pos, fun j hj => h (j + 1) (Nat.succ_lt_succ hj)⟩
  · rintro ⟨h₀, h⟩ j hj
    cases j with
    | zero => exact h₀
    | succ j => exact h j (Nat.lt_of_succ_lt_succ hj)

theorem leaves_zero : Leaves next inside a 0 ↔ ¬ inside a :=
  ⟨fun h => h.2, fun h => ⟨fun j hj => absurd hj j.not_lt_zero, h⟩⟩

theorem leaves_succ :
    Leaves next inside a (n + 1) ↔ inside a ∧ Leaves next inside (next a) n := by
  rw [Leaves, Leaves, stays_succ, and_assoc, Function.iterate_succ_apply]

theorem Leaves.stays_iff (h : Leaves next inside a n) : Stays next inside a k ↔ k ≤ n := by
  refine ⟨fun hk => ?_, h.1.mono⟩
  by_contra hlt
  exact h.2 (hk n (Nat.lt_of_not_le hlt))

/-- A walk that comes back goes around for ever. -/
theorem Leaves.noReturn (h : Leaves next inside a n) : NoReturn next inside a := by
  intro i j hij hj heq
  have hjn : j + 1 ≤ n := h.stays_iff.mp hj
  -- The place behind the last one is also a place before it.
  have hback : next^[n] a = next^[n - j + i] a := by
    have hsplit : n = n - j + j := by omega
    conv_lhs => rw [hsplit]
    rw [Function.iterate_add_apply, ← heq, ← Function.iterate_add_apply]
  exact h.2 (hback ▸ h.1 (n - j + i) (by omega))

theorem exists_leaves_iff (hfin : {x | inside x}.Finite) :
    (∃ n, Leaves next inside a n) ↔ NoReturn next inside a := by
  refine ⟨fun ⟨n, h⟩ => h.noReturn, fun h => ?_⟩
  by_contra hnone
  -- Without an end all places are inside.
  have hall : ∀ k, Stays next inside a k := by
    intro k
    induction k with
    | zero => exact fun j hj => absurd hj j.not_lt_zero
    | succ k ih =>
      intro j hj
      rcases Nat.lt_succ_iff_lt_or_eq.mp hj with hj | rfl
      · exact ih j hj
      · by_contra hout
        exact hnone ⟨j, ih, hout⟩
  have hinj : Function.Injective fun k => next^[k] a := by
    intro i j hij
    rcases Nat.lt_trichotomy i j with hlt | heq | hlt
    · exact absurd hij (h i j hlt (hall _))
    · exact heq
    · exact absurd hij.symm (h j i hlt (hall _))
  refine Set.infinite_of_injective_forall_mem hinj (fun k => ?_) hfin
  exact hall (k + 1) k k.lt_succ_self

end Cantos.Walk
