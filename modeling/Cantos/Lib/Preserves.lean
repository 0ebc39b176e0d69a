import Cantos.Lib.Exec

/-!
# Properties of the state that a program keeps

The rules to show that every run that returns keeps a property, command by command.  A
command whose continuation depends on the state it reads is followed from that state.

## Main definitions

* `Exec.PreservesAt`, `Exec.Preserves`: the runs from one state, and from all.
-/

namespace Cantos.Exec

variable {ε σ α β : Type}

/-- The rest of a program matters only where the first part returns. -/
theorem bind_congr {x : Exec ε σ α} {f g : α → Exec ε σ β} {s : σ}
    (h : ∀ a s', x.Returns s a s' → f a s' = g a s') : (x >>= f) s = (x >>= g) s := by
  rcases x.returns_or_stops s with ⟨a, s', hx⟩ | ⟨e, s', hx⟩
  · rw [hx.bind_eq, hx.bind_eq, h a s' hx]
  · rw [hx.bind_eq, hx.bind_eq]

theorem bind_eq_of_eq {x y : Exec ε σ α} {s : σ} (h : x s = y s) (f : α → Exec ε σ β) :
    (x >>= f) s = (y >>= f) s := by
  rw [bind_def, bind_def, h]

/-- The run of `x` from `s` keeps `P`, if it returns. -/
def PreservesAt (P : σ → Prop) (x : Exec ε σ α) (s : σ) : Prop :=
  P s → ∀ a s', x.Returns s a s' → P s'

/-- The runs of `x` that return keep `P`. -/
def Preserves (P : σ → Prop) (x : Exec ε σ α) : Prop := ∀ s, PreservesAt P x s

section Preserves
variable {P : σ → Prop} {x y : Exec ε σ α} {f : α → Exec ε σ β} {g : σ → Exec ε σ β} {s t : σ}

theorem PreservesAt.set (h : P s → P t) : PreservesAt P (Exec.set t : Exec ε σ Unit) s := by
  intro hs _ s' hr
  obtain rfl := returns_set.mp hr
  exact h hs

theorem PreservesAt.bind (hx : PreservesAt P x s) (hf : ∀ a, Preserves P (f a)) :
    PreservesAt P (x >>= f) s := by
  intro hs b s'' hr
  obtain ⟨a, s', hx', hf'⟩ := returns_bind.mp hr
  exact hf a s' (hx hs a s' hx') b s'' hf'

namespace Preserves

theorem bind (hx : Preserves P x) (hf : ∀ a, Preserves P (f a)) : Preserves P (x >>= f) :=
  fun s => (hx s).bind hf

theorem get (hg : ∀ s, PreservesAt P (g s) s) : Preserves P (Exec.get >>= g) := hg

theorem pure (a : α) : Preserves P (pure a : Exec ε σ α) := by
  intro s hs _ s' hr
  obtain ⟨-, rfl⟩ := returns_pure.mp hr
  exact hs

theorem stop {e : ε} : Preserves P (Exec.stop e : Exec ε σ α) := fun _ _ _ _ hr =>
  absurd hr returns_stop

theorem modify {h : σ → σ} (hh : ∀ s, P s → P (h s)) :
    Preserves P (Exec.modify h : Exec ε σ Unit) := by
  intro s hs _ s' hr
  obtain rfl := returns_modify.mp hr
  exact hh s hs

theorem ite {c : Prop} [Decidable c] (hx : Preserves P x) (hy : Preserves P y) :
    Preserves P (if c then x else y) := by
  split_ifs
  · exact hx
  · exact hy

end Preserves
end Preserves

end Cantos.Exec
