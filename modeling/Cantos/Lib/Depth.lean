import Mathlib.Data.Finset.Card
import Mathlib.Logic.Relation

/-!
# The depth of a recursion

A recursion makes calls from calls.  Where these are among finitely many, its depth is bounded
exactly when no call leads to itself.

## Main definitions

* `Depth.Within`: a call and those from it are nested less than some number of times.
* `Depth.Acyclic`: nothing that a call leads to leads to itself.
-/

namespace Cantos.Depth

open Relation

variable {α : Type*} (R : α → α → Prop)

/-- The call `a` and those it leads to are nested at most `k` deep. -/
def Within : (k : ℕ) → (a : α) → Prop
  | 0, _ => False
  | k + 1, a => ∀ b, R a b → Within k b

/-- Nothing that `a` leads to leads to itself. -/
def Acyclic (a : α) : Prop := ∀ c, ReflTransGen R a c → ¬ TransGen R c c

variable {R} {a b c : α} {k n : ℕ}

theorem Within.mono (h : Within R k a) (hk : k ≤ n) : Within R n a := by
  induction k generalizing a n with
  | zero => exact absurd h id
  | succ k ih =>
    obtain ⟨n, rfl⟩ := Nat.exists_eq_succ_of_ne_zero (Nat.ne_of_gt (Nat.zero_lt_of_lt hk))
    exact fun b hb => ih (h b hb) (Nat.le_of_succ_le_succ hk)

theorem Within.acc (h : Within R k a) : Acc (flip R) a := by
  induction k generalizing a with
  | zero => exact absurd h id
  | succ k ih => exact ⟨a, fun b hb => ih (h b hb)⟩

theorem not_self_of_acc {r : α → α → Prop} (h : Acc r a) : ¬ r a a := by
  induction h with
  | intro a _ ih => exact fun ha => ih a ha ha

theorem Within.acyclic (h : Within R k a) : Acyclic R a := by
  intro c hac hcycle
  have hflip : ∀ {x y}, TransGen R x y → TransGen (flip R) y x := fun h => h.swap
  have hacc : Acc (TransGen (flip R)) c := by
    rcases reflTransGen_iff_eq_or_transGen.mp hac with rfl | hac
    · exact h.acc.transGen
    · exact h.acc.transGen.inv (hflip hac)
  exact not_self_of_acc hacc (hflip hcycle)

/-- The calls under way are different ones, so there is room for all of them in the depth. -/
theorem within_of_acyclic {S : Finset α} (hS : ∀ a b, R a b → b ∈ S) (h : Acyclic R a) :
    Within R (S.card + 2) a := by
  classical
  have hpath : ∀ k b, ∀ path ⊆ S, (∀ p ∈ path, TransGen R p b) → ReflTransGen R a b → b ∈ S →
      S.card + 1 ≤ k + path.card → Within R k b := by
    intro k
    induction k with
    | zero =>
      intro b path hsub _ _ _ hcard
      have := Finset.card_le_card hsub
      omega
    | succ k ih =>
      intro b path hsub hpath hab hb hcard c hc
      have hnew : b ∉ path := fun hmem => h b hab (hpath b hmem)
      refine ih c (insert b path) ?_ ?_ (hab.tail hc) (hS b c hc) ?_
      · exact Finset.insert_subset hb hsub
      · intro p hp
        rcases Finset.mem_insert.mp hp with rfl | hp
        · exact .single hc
        · exact (hpath p hp).tail hc
      · rw [Finset.card_insert_of_notMem hnew]
        omega
  intro b hb
  refine hpath (S.card + 1) b ∅ (Finset.empty_subset S) (fun p hp => ?_) (.single hb) (hS a b hb) ?_
  · exact absurd hp (Finset.notMem_empty p)
  · exact Nat.le_add_right _ _

end Cantos.Depth
