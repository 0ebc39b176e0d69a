import Mathlib.Data.List.Induction
import Mathlib.Data.Option.Basic
import Mathlib.Logic.Function.Basic

/-!
# Runs of a machine

A machine is a partial function from a state and a move to the next state; a move that is
not possible has no next state.  Interleavings are runs whose moves are of several parties.

## Main definitions

* `Steps.run`: the state a list of moves ends in.
* `Steps.Along`: every move of a run is made in a state that allows it.
* `Steps.collect`: what the moves of a run put out.
-/

namespace Cantos.Steps

variable {σ μ : Type} (step : σ → μ → Option σ) {s s' : σ} {m : μ} {ms ms' : List μ}

/-- Make moves one after the other. -/
def run : σ → List μ → Option σ
  | s, [] => some s
  | s, m :: ms => (step s m).bind fun s' => run s' ms

/-- Every move of the run from `s` is made in a state that allows it. -/
def Along (allows : σ → μ → Prop) : σ → List μ → Prop
  | _, [] => True
  | s, m :: ms => allows s m ∧ ∀ s', step s m = some s' → Along allows s' ms

variable {step} {allows : σ → μ → Prop} {I : σ → Prop}

theorem run_cons : run step s (m :: ms) = some s' ↔
    ∃ t, step s m = some t ∧ run step t ms = some s' := by
  rw [run, Option.bind_eq_some_iff]

theorem run_append :
    run step s (ms ++ ms') = (run step s ms).bind fun t => run step t ms' := by
  induction ms generalizing s with
  | nil => rfl
  | cons m ms ih =>
    rw [List.cons_append, run, run, Option.bind_assoc]
    congr 1
    ext1 t
    exact ih

theorem run_concat : run step s (ms ++ [m]) = some s' ↔
    ∃ t, run step s ms = some t ∧ step t m = some s' := by
  rw [run_append, Option.bind_eq_some_iff]
  simp [run]

/-- A property of the moves that have been made and the state that they lead to, which every
move preserves, holds of every run. -/
theorem history {P : List μ → σ → Prop} (hnil : P [] s)
    (hstep : ∀ ms t m t', P ms t → step t m = some t' → P (ms ++ [m]) t')
    (hrun : run step s ms = some s') : P ms s' := by
  induction ms using List.reverseRecOn generalizing s' with
  | nil =>
    rw [run] at hrun
    exact Option.some.inj hrun ▸ hnil
  | append_singleton ms m ih =>
    obtain ⟨t, ht, hstep'⟩ := run_concat.mp hrun
    exact hstep ms t m s' (ih ht) hstep'

/-- Whether a run is allowed can be computed along it. -/
instance decidableAlong [∀ s m, Decidable (allows s m)] :
    ∀ s ms, Decidable (Along step allows s ms)
  | _, [] => isTrue trivial
  | s, m :: ms =>
      match h : step s m with
      | none => decidable_of_iff (allows s m) (by simp [Along, h])
      | some t =>
          have := decidableAlong t ms
          decidable_of_iff (allows s m ∧ Along step allows t ms) (by simp [Along, h])

theorem along_and {allows' : σ → μ → Prop} (h : Along step allows s ms)
    (h' : Along step allows' s ms) : Along step (fun s m => allows s m ∧ allows' s m) s ms := by
  induction ms generalizing s with
  | nil => trivial
  | cons m ms ih => exact ⟨⟨h.1, h'.1⟩, fun t ht => ih (h.2 t ht) (h'.2 t ht)⟩

theorem along_true : Along step (fun _ _ => True) s ms := by
  induction ms generalizing s with
  | nil => trivial
  | cons m ms ih => exact ⟨trivial, fun _ _ => ih⟩

/-- A property that every allowed move preserves holds after every run of allowed moves. -/
theorem invariant (hstep : ∀ s m s', I s → allows s m → step s m = some s' → I s') (hs : I s)
    (hms : Along step allows s ms) (hrun : run step s ms = some s') : I s' := by
  induction ms generalizing s with
  | nil =>
    rw [run] at hrun
    exact Option.some.inj hrun ▸ hs
  | cons m ms ih =>
    obtain ⟨t, ht, hrest⟩ := run_cons.mp hrun
    exact ih (hstep s m t hs hms.1 ht) (hms.2 t ht) hrest

/-- Where every allowed move is possible and preserves a property, every allowed run is. -/
theorem exists_run (hstep : ∀ s m, I s → allows s m → ∃ s', step s m = some s' ∧ I s') (hs : I s)
    (hms : Along step allows s ms) : ∃ s', run step s ms = some s' ∧ I s' := by
  induction ms generalizing s with
  | nil => exact ⟨s, rfl, hs⟩
  | cons m ms ih =>
    obtain ⟨t, ht, hI⟩ := hstep s m hs hms.1
    obtain ⟨s', hrun, hs'⟩ := ih hI (hms.2 t ht)
    exact ⟨s', run_cons.mpr ⟨t, ht, hrun⟩, hs'⟩

/-- Where a move is possible exactly when it is allowed, so is a run. -/
theorem isSome_run_iff
    (hstep : ∀ s m, I s → ((step s m).isSome ↔ allows s m) ∧ ∀ s', step s m = some s' → I s')
    (hs : I s) : (run step s ms).isSome ↔ Along step allows s ms := by
  induction ms generalizing s with
  | nil => simp [run, Along]
  | cons m ms ih =>
    obtain ⟨hsome, hnext⟩ := hstep s m hs
    rw [run, Along, ← hsome]
    rcases hstep' : step s m with _ | t
    · simp
    · simpa using ih (hnext t hstep')

/-- Where the allowed moves that are `ok` preserve a property that makes a state good, and the
others lead to no good state, the runs of `ok` moves are those whose states are all good. -/
theorem prefixes_iff {ok : σ → μ → Prop} {Good : σ → Prop} (hgood : ∀ s, I s → Good s)
    (hok : ∀ s m, I s → allows s m → ok s m → ∃ s', step s m = some s' ∧ I s')
    (hbad : ∀ s m s', I s → allows s m → ¬ ok s m → step s m = some s' → ¬ Good s') (hs : I s)
    (hms : Along step allows s ms) :
    (∀ ms', ms' <+: ms → ∃ s', run step s ms' = some s' ∧ Good s') ↔ Along step ok s ms := by
  induction ms generalizing s with
  | nil =>
    refine iff_of_true (fun ms' h => ?_) trivial
    obtain rfl := List.prefix_nil.mp h
    exact ⟨s, rfl, hgood s hs⟩
  | cons m ms ih =>
    constructor
    · intro h
      have hm : ok s m := by
        by_contra hm
        obtain ⟨s', hrun, hs'⟩ := h [m] (by simp)
        obtain ⟨t, ht, hrest⟩ := run_cons.mp hrun
        rw [run] at hrest
        exact hbad s m t hs hms.1 hm ht (Option.some.inj hrest ▸ hs')
      refine ⟨hm, fun t ht => ?_⟩
      obtain ⟨t', ht', hI⟩ := hok s m hs hms.1 hm
      obtain rfl := Option.some.inj (ht.symm.trans ht')
      refine (ih hI (hms.2 t ht)).mp fun ms' hpre => ?_
      obtain ⟨s', hrun, hs'⟩ := h (m :: ms') (List.cons_prefix_cons.mpr ⟨rfl, hpre⟩)
      obtain ⟨u, hu, hrest⟩ := run_cons.mp hrun
      obtain rfl := Option.some.inj (ht.symm.trans hu)
      exact ⟨s', hrest, hs'⟩
    · rintro ⟨hm, hrest⟩ ms' hpre
      cases ms' with
      | nil => exact ⟨s, rfl, hgood s hs⟩
      | cons m' ms' =>
        obtain ⟨rfl, hpre'⟩ := List.cons_prefix_cons.mp hpre
        obtain ⟨t, ht, hI⟩ := hok s m' hs hms.1 hm
        obtain ⟨s', hrun, hs'⟩ := (ih hI (hms.2 t ht)).mpr (hrest t ht) ms' hpre'
        exact ⟨s', run_cons.mpr ⟨t, ht, hrun⟩, hs'⟩

/-- What the moves of a run put out, one after the other. -/
def collect {α : Type} (step : σ → μ → Option σ) (out : σ → μ → List α) : σ → List μ → List α
  | _, [] => []
  | s, m :: ms =>
      out s m ++
        match step s m with
        | none => []
        | some s' => collect step out s' ms

/-- A queue: where every move takes from the front what it puts out and adds behind what it takes
in, so does every run. -/
theorem queue {α : Type} {out inp : σ → μ → List α} {q : σ → List α}
    (hstep : ∀ s m s', step s m = some s' → out s m ++ q s' = q s ++ inp s m)
    (hrun : run step s ms = some s') :
    collect step out s ms ++ q s' = q s ++ collect step inp s ms := by
  induction ms generalizing s with
  | nil =>
    rw [run] at hrun
    obtain rfl := Option.some.inj hrun
    simp [collect]
  | cons m ms ih =>
    obtain ⟨t, ht, hrest⟩ := run_cons.mp hrun
    simp only [collect, ht]
    calc out s m ++ collect step out t ms ++ q s'
        = out s m ++ (collect step out t ms ++ q s') := List.append_assoc ..
      _ = out s m ++ q t ++ collect step inp t ms := by rw [ih hrest, List.append_assoc]
      _ = q s ++ (inp s m ++ collect step inp t ms) := by
        rw [hstep s m t ht, List.append_assoc]

/-- A log: where every move adds what it puts out, so does every run. -/
theorem grows {α : Type} {out : σ → μ → List α} {q : σ → List α}
    (hstep : ∀ s m s', I s → step s m = some s' → I s' ∧ q s' = q s ++ out s m) (hs : I s)
    (hrun : run step s ms = some s') : I s' ∧ q s' = q s ++ collect step out s ms := by
  induction ms generalizing s with
  | nil =>
    rw [run] at hrun
    obtain rfl := Option.some.inj hrun
    simpa [collect] using hs
  | cons m ms ih =>
    obtain ⟨t, ht, hrest⟩ := run_cons.mp hrun
    obtain ⟨hI, hlog⟩ := hstep s m t hs ht
    obtain ⟨hI', hlog'⟩ := ih hI hrest
    refine ⟨hI', ?_⟩
    rw [hlog', hlog, collect, ht, List.append_assoc]

/-- What is made of the pieces can be made of the whole. -/
theorem collect_comp {α β : Type} {out : σ → μ → List α} {g : List α → List β} (hnil : g [] = [])
    (happend : ∀ l l', g (l ++ l') = g l ++ g l') :
    collect step (fun s m => g (out s m)) s ms = g (collect step out s ms) := by
  induction ms generalizing s with
  | nil => exact hnil.symm
  | cons m ms ih =>
    rw [collect, collect, happend]
    rcases step s m with _ | t
    · exact congrArg (g (out s m) ++ ·) hnil.symm
    · exact congrArg (g (out s m) ++ ·) ih

/-- A weaker condition allows more runs. -/
theorem Along.mono {allows' : σ → μ → Prop} (himp : ∀ s m, allows s m → allows' s m)
    (hms : Along step allows s ms) : Along step allows' s ms := by
  induction ms generalizing s with
  | nil => trivial
  | cons m ms ih => exact ⟨himp s m hms.1, fun t ht => ih (hms.2 t ht)⟩

/-- Two conditions that agree where a property holds that every move preserves allow the
same runs. -/
theorem along_congr {allows' : σ → μ → Prop} (hstep : ∀ s m s', I s → step s m = some s' → I s')
    (hiff : ∀ s m, I s → (allows s m ↔ allows' s m)) (hs : I s) :
    Along step allows s ms ↔ Along step allows' s ms := by
  induction ms generalizing s with
  | nil => rfl
  | cons m ms ih =>
    rw [Along, Along, hiff s m hs]
    exact and_congr_right fun _ => forall_congr' fun s' =>
      forall_congr' fun hs' => ih (hstep s m s' hs hs')

/-- A run that is allowed is allowed from every state it goes through. -/
theorem Along.right (h : Along step allows s (ms ++ ms')) (hrun : run step s ms = some s') :
    Along step allows s' ms' := by
  induction ms generalizing s with
  | nil =>
    rw [run] at hrun
    exact Option.some.inj hrun ▸ h
  | cons m ms ih =>
    obtain ⟨t, ht, hrest⟩ := run_cons.mp hrun
    exact ih (h.2 t ht) hrest

theorem Along.left (h : Along step allows s (ms ++ ms')) : Along step allows s ms := by
  induction ms generalizing s with
  | nil => trivial
  | cons m ms ih => exact ⟨h.1, fun t ht => ih (h.2 t ht)⟩

/-- The last move of a run. -/
theorem Along.last (h : Along step allows s (ms ++ [m])) (hrun : run step s ms = some s') :
    allows s' m := (h.right hrun).1

end Cantos.Steps
