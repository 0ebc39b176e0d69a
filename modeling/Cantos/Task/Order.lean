import Cantos.Task.Holders

/-!
# The order of the threads

Threads wait in one list for all CPUs: they are put in at the front and taken out at the back, by
sections that hold `waiting_mutex` and may follow each other in any order.

## Main definitions

* `Machine.queued`, `Machine.picked`: what a move puts into the list, and what it takes.

## Main results

* `Machine.first_come`: threads are taken in the order in which they were put in.
-/

namespace Cantos.Machine

/-- The thread that a move puts into `waiting_threads`. -/
def queued (s : Machine) : Move → List ℕ
  | .advance c =>
      match (s.cpu c).frames with
      | .push t :: _ => [t]
      | .park t :: _ => if s.wchan t = noWchan then [t] else []
      | _ => []
  | _ => []

/-- The thread that `schedule` takes from `waiting_threads`. -/
def picked (s : Machine) : Move → List ℕ
  | .advance c =>
      match (s.cpu c).frames with
      | .pick :: _ => s.waiting.getLast?.toList
      | _ => []
  | _ => []

variable {s s' : Machine} {m : Move} {ms : List Move} {t k : ℕ}

/-- A move that is no part of `waiting_threads`. -/
theorem waiting_step_of_other (hstep : s.step m = some s') (hm : ∀ c, m ≠ .advance c) :
    s'.waiting = s.waiting := by
  cases m with
  | advance c => exact absurd rfl (hm c)
  | _ =>
    simp only [step] at hstep
    repeat' split at hstep
    all_goals first
      | cases hstep; rfl
      | cases hstep

/-- A frame that is no part of `waiting_threads`. -/
theorem waiting_advance_of_other {c : ℕ} {top : Frame} {rest : List Frame}
    (hstep : s.advance c top rest = some s') (hpush : ∀ t, top ≠ .push t)
    (hpark : ∀ t, top ≠ .park t) (hpick : top ≠ .pick) : s'.waiting = s.waiting := by
  cases top with
  | push t => exact absurd rfl (hpush t)
  | park t => exact absurd rfl (hpark t)
  | pick => exact absurd rfl hpick
  | popped inThread stack =>
    cases inThread <;> simp only [advance] at hstep <;> cases hstep <;> rfl
  | _ =>
    simp only [advance] at hstep
    repeat' split at hstep
    all_goals first
      | cases hstep; rfl
      | cases hstep

/-- The front of the list is where threads are put in, its back is the front of the queue. -/
theorem queue_advance {c : ℕ} (hstep : s.step (.advance c) = some s') :
    s.picked (.advance c) ++ s'.waiting.reverse =
      s.waiting.reverse ++ s.queued (.advance c) := by
  rcases hf : (s.cpu c).frames with _ | ⟨top, rest⟩
  · simp [step, hf] at hstep
  simp only [step, hf] at hstep
  simp only [picked, queued, hf]
  cases top with
  | push t =>
    simp only [advance, Option.some.injEq] at hstep
    simp [← hstep]
  | park t =>
    simp only [advance, Option.some.injEq] at hstep
    rw [← hstep]
    by_cases hw : s.wchan t = noWchan
    · simp [hw]
    · simp [hw]
  | pick =>
    simp only [advance] at hstep
    rcases hlast : s.waiting.getLast? with _ | next
    · rw [hlast] at hstep
      cases hstep
    · rw [hlast] at hstep
      simp only [Option.some.injEq] at hstep
      obtain ⟨front, hfront⟩ := List.getLast?_eq_some_iff.mp hlast
      simp [← hstep, hfront]
  | _ =>
    have hsame : s'.waiting = s.waiting :=
      waiting_advance_of_other hstep (by simp) (by simp) (by simp)
    simp [hsame]

theorem queue_step (s : Machine) (m : Move) (s' : Machine) (hstep : s.step m = some s') :
    s.picked m ++ s'.waiting.reverse = s.waiting.reverse ++ s.queued m := by
  cases m with
  | advance c => exact queue_advance hstep
  | _ =>
    rw [waiting_step_of_other hstep fun _ h => by cases h]
    simp [picked, queued]

/-- In every interleaving, what the CPUs have taken from the list, in the order in which they have
taken it, and what still waits is what waited before and what was put in since, in the order in
which it was put in: no thread overtakes another, is lost or is taken twice. -/
theorem first_come (hrun : Steps.run step s ms = some s') :
    Steps.collect step picked s ms ++ s'.waiting.reverse =
      s.waiting.reverse ++ Steps.collect step queued s ms :=
  Steps.queue queue_step hrun

theorem first_come_newThread :
    ∃ s', Steps.run step boot newThreadMoves = some s' ∧
      Steps.collect step picked boot newThreadMoves = [0, 1] ∧
      [0, 1] ++ s'.waiting.reverse = [0, 1, 0] := by
  have hrun : (Steps.run step boot newThreadMoves).isSome := by decide
  obtain ⟨s', hs'⟩ := Option.isSome_iff_exists.mp hrun
  have hpicked : Steps.collect step picked boot newThreadMoves = [0, 1] := by decide
  have hqueued : Steps.collect step queued boot newThreadMoves = [0, 1, 0] := by decide
  refine ⟨s', hs', hpicked, ?_⟩
  have hcome := first_come hs'
  rw [hpicked, hqueued] at hcome
  exact hcome

end Cantos.Machine
