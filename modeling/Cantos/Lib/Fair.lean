import Mathlib.Order.Basic
import Mathlib.Data.Nat.Basic

/-!
# Fair orders of steps

Several parties take steps on one state, in an order that is given from outside.  The order is
fair when every party takes a step again and again.  A state in which nothing happens to a
party is left as it is by the party's step.

## Main definitions

* `Fair.stateAt`: the state at a time.
* `Fair.IsFair`
* `Fair.eventually`: the rule that a fair order reaches a goal.
-/

namespace Cantos.Fair

variable {σ π : Type} (step : π → σ → σ) (order : ℕ → π) (s : σ)

/-- The state before the step at a time. -/
def stateAt : ℕ → σ
  | 0 => s
  | t + 1 => step (order t) (stateAt t)

/-- Every party takes a step again and again. -/
def IsFair (order : ℕ → π) : Prop := ∀ p t, ∃ t', t ≤ t' ∧ order t' = p

variable {step order s} {I goal : σ → Prop}

/-- What every step preserves holds all the time. -/
theorem always (hstep : ∀ p s, I s → I (step p s)) (hs : I s) (t : ℕ) :
    I (stateAt step order s t) := by
  induction t with
  | zero => exact hs
  | succ t ih => exact hstep _ _ ih

/-- A fair order reaches a goal when in every other state it is some party's turn, whose step
reaches the goal or makes a rank smaller, and the steps of the others either do that too or
leave the rank and the turn as they are. -/
theorem eventually (hfair : IsFair order) (rank : σ → ℕ) (turn : σ → π)
    (hstep : ∀ p s, I s → I (step p s))
    (hturn : ∀ s, I s → ¬ goal s →
      goal (step (turn s) s) ∨ rank (step (turn s) s) < rank s)
    (hother : ∀ p s, I s → ¬ goal s → p ≠ turn s → goal (step p s) ∨ rank (step p s) < rank s ∨
      rank (step p s) = rank s ∧ turn (step p s) = turn s)
    (hs : I s) : ∃ t, goal (stateAt step order s t) := by
  have hinv : ∀ t, I (stateAt step order s t) := always hstep hs
  suffices h : ∀ r t, rank (stateAt step order s t) = r → ∃ t', goal (stateAt step order s t') from
    h _ 0 rfl
  intro r
  induction r using Nat.strongRecOn with
  | ind r ihRank =>
    intro t hr
    -- The party whose turn it is takes its step after some time.
    obtain ⟨t', hle, hmine⟩ := hfair (turn (stateAt step order s t)) t
    obtain ⟨wait, rfl⟩ := Nat.exists_eq_add_of_le hle
    clear hle
    induction wait generalizing t with
    | zero =>
      by_cases hgoal : goal (stateAt step order s t)
      · exact ⟨t, hgoal⟩
      · have hnext := hturn _ (hinv t) hgoal
        rw [← hmine] at hnext
        rcases hnext with hreached | hless
        · exact ⟨t + 1, hreached⟩
        · exact ihRank _ (hr ▸ hless) (t + 1) rfl
    | succ wait ih =>
      by_cases hgoal : goal (stateAt step order s t)
      · exact ⟨t, hgoal⟩
      have hnext : goal (stateAt step order s (t + 1)) ∨
          rank (stateAt step order s (t + 1)) < rank (stateAt step order s t) ∨
          rank (stateAt step order s (t + 1)) = rank (stateAt step order s t) ∧
            turn (stateAt step order s (t + 1)) = turn (stateAt step order s t) := by
        by_cases hp : order t = turn (stateAt step order s t)
        · have hnext := hturn _ (hinv t) hgoal
          rw [← hp] at hnext
          exact hnext.imp_right .inl
        · exact hother _ _ (hinv t) hgoal hp
      rcases hnext with hreached | hless | ⟨hsame, hturn'⟩
      · exact ⟨t + 1, hreached⟩
      · exact ihRank _ (hr ▸ hless) (t + 1) rfl
      · refine ih (t + 1) (hsame.trans hr) ?_
        rw [hturn', ← hmine]
        congr 1
        omega

end Cantos.Fair
