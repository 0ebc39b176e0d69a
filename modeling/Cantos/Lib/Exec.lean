import Mathlib.Logic.Function.Basic
import Mathlib.Logic.Relation
import Mathlib.Tactic.Common

/-!
# Computations that read and write a state and may stop

`Exec ε σ α` is a program over a state `σ` that returns an `α` or stops for a
reason `ε`.  The state is kept in both cases, so a statement about a program that
stops can still speak of the state it stopped in.

A program is reasoned about through two relations, `Returns` and `Stops`, and
their inversion lemmas along `bind`.  `Gives` is total correctness: the rules for it
run a program forwards.

## Main definitions

* `Exec ε σ α`: a program; `get`, `set`, `modify`, `stop` are its primitives.
* `Exec.Returns`, `Exec.Stops`: what a run ends with.
* `Exec.Gives`: a run returns, with a property of what it returns.
-/

namespace Cantos

universe u

/-- A program over the state `σ` that returns an `α` or stops for a reason `ε`. -/
def Exec (ε σ : Type) (α : Type) : Type := σ → Except ε α × σ

namespace Exec

variable {ε σ α β : Type}

/-- Return a value and leave the state alone. -/
protected def pure (a : α) : Exec ε σ α := fun s => (.ok a, s)

/-- Run `x`; when it returns, go on with `f`, and when it stops, stop. -/
protected def bind (x : Exec ε σ α) (f : α → Exec ε σ β) : Exec ε σ β := fun s =>
  match x s with
  | (.ok a, s') => f a s'
  | (.error e, s') => (.error e, s')

instance : Monad (Exec ε σ) where
  pure := Exec.pure
  bind := Exec.bind

/-- Read the state. -/
def get : Exec ε σ σ := fun s => (.ok s, s)

/-- Write the state. -/
def set (s : σ) : Exec ε σ Unit := fun _ => (.ok (), s)

/-- Update the state. -/
def modify (f : σ → σ) : Exec ε σ Unit := fun s => (.ok (), f s)

/-- Stop for the reason `e`. -/
def stop (e : ε) : Exec ε σ α := fun s => (.error e, s)

/-- The run of `x` from `s` returns `a` in the state `s'`. -/
def Returns (x : Exec ε σ α) (s : σ) (a : α) (s' : σ) : Prop := x s = (.ok a, s')

/-- The run of `x` from `s` stops for the reason `e` in the state `s'`. -/
def Stops (x : Exec ε σ α) (s : σ) (e : ε) (s' : σ) : Prop := x s = (.error e, s')

/-- A run is known by its result. -/
theorem returns_of_fst {x : Exec ε σ α} {s : σ} {a : α} (h : (x s).1 = .ok a) :
    x.Returns s a (x s).2 := Prod.ext h rfl

theorem bind_def (x : Exec ε σ α) (f : α → Exec ε σ β) (s : σ) :
    (x >>= f) s = match x s with
      | (.ok a, s') => f a s'
      | (.error e, s') => (.error e, s') := rfl

theorem Returns.bind_eq {x : Exec ε σ α} {s s' : σ} {a : α} (h : x.Returns s a s')
    (f : α → Exec ε σ β) : (x >>= f) s = f a s' := by
  rw [bind_def, h]

theorem Stops.bind_eq {x : Exec ε σ α} {s s' : σ} {e : ε} (h : x.Stops s e s')
    (f : α → Exec ε σ β) : (x >>= f) s = (.error e, s') := by
  rw [bind_def, h]

/-- A run either returns or stops. -/
theorem returns_or_stops (x : Exec ε σ α) (s : σ) :
    (∃ a s', x.Returns s a s') ∨ ∃ e s', x.Stops s e s' := by
  unfold Returns Stops
  rcases x s with ⟨_ | _, _⟩
  · exact .inr ⟨_, _, rfl⟩
  · exact .inl ⟨_, _, rfl⟩

theorem Returns.not_stops {x : Exec ε σ α} {s s' s'' : σ} {a : α} {e : ε}
    (h : x.Returns s a s') : ¬ x.Stops s e s'' := by
  intro h'
  rw [Stops, h] at h'
  cases h'

theorem Returns.unique {x : Exec ε σ α} {s s₁ s₂ : σ} {a b : α}
    (h : x.Returns s a s₁) (h' : x.Returns s b s₂) : a = b ∧ s₁ = s₂ := by
  rw [Returns, h] at h'
  cases h'
  exact ⟨rfl, rfl⟩

theorem bind_bind {x : Exec ε σ α} {f : α → Exec ε σ β} {g : β → Exec ε σ γ} :
    x >>= f >>= g = x >>= fun a => f a >>= g := by
  funext s
  simp only [bind_def]
  rcases x s with ⟨_ | a, s'⟩ <;> rfl

theorem returns_bind {x : Exec ε σ α} {f : α → Exec ε σ β} {s s'' : σ} {b : β} :
    (x >>= f).Returns s b s'' ↔ ∃ a s', x.Returns s a s' ∧ (f a).Returns s' b s'' := by
  constructor
  · intro h
    rcases x.returns_or_stops s with ⟨a, s', hx⟩ | ⟨e, s', hx⟩
    · exact ⟨a, s', hx, by rw [Returns, ← hx.bind_eq f]; exact h⟩
    · rw [Returns, hx.bind_eq f] at h
      cases h
  · rintro ⟨a, s', hx, hf⟩
    rw [Returns, hx.bind_eq f]
    exact hf

theorem stops_bind {x : Exec ε σ α} {f : α → Exec ε σ β} {s s'' : σ} {e : ε} :
    (x >>= f).Stops s e s'' ↔
      x.Stops s e s'' ∨ ∃ a s', x.Returns s a s' ∧ (f a).Stops s' e s'' := by
  constructor
  · intro h
    rcases x.returns_or_stops s with ⟨a, s', hx⟩ | ⟨e', s', hx⟩
    · exact .inr ⟨a, s', hx, by rw [Stops, ← hx.bind_eq f]; exact h⟩
    · rw [Stops, hx.bind_eq f] at h
      cases h
      exact .inl hx
  · rintro (hx | ⟨a, s', hx, hf⟩)
    · exact hx.bind_eq f
    · rw [Stops, hx.bind_eq f]
      exact hf

section Primitives
variable {s s' : σ} {a b : α} {e e' : ε}

@[simp] theorem returns_pure : (pure a : Exec ε σ α).Returns s b s' ↔ b = a ∧ s' = s := by
  constructor
  · intro h; cases h; exact ⟨rfl, rfl⟩
  · rintro ⟨rfl, rfl⟩; rfl

@[simp] theorem stops_pure : ¬ (pure a : Exec ε σ α).Stops s e s' := by intro h; cases h

@[simp] theorem returns_get {t : σ} : (get : Exec ε σ σ).Returns s t s' ↔ t = s ∧ s' = s := by
  constructor
  · intro h; cases h; exact ⟨rfl, rfl⟩
  · rintro ⟨rfl, rfl⟩; rfl

@[simp] theorem stops_get : ¬ (get : Exec ε σ σ).Stops s e s' := by intro h; cases h

@[simp] theorem returns_set {t : σ} {u : Unit} :
    (set t : Exec ε σ Unit).Returns s u s' ↔ s' = t := by
  constructor
  · intro h; cases h; rfl
  · rintro rfl; rfl

@[simp] theorem stops_set {t : σ} : ¬ (set t : Exec ε σ Unit).Stops s e s' := by
  intro h; cases h

@[simp] theorem returns_modify {f : σ → σ} {u : Unit} :
    (modify f : Exec ε σ Unit).Returns s u s' ↔ s' = f s := by
  constructor
  · intro h; cases h; rfl
  · rintro rfl; rfl

@[simp] theorem stops_modify {f : σ → σ} : ¬ (modify f : Exec ε σ Unit).Stops s e s' := by
  intro h; cases h

@[simp] theorem returns_stop : ¬ (stop e : Exec ε σ α).Returns s a s' := by intro h; cases h

@[simp] theorem stops_stop :
    (stop e' : Exec ε σ α).Stops s e s' ↔ e = e' ∧ s' = s := by
  constructor
  · intro h; cases h; exact ⟨rfl, rfl⟩
  · rintro ⟨rfl, rfl⟩; rfl

/-! A run of a primitive followed by the rest of a program. -/

variable {f : α → Exec ε σ β} {g : σ → Exec ε σ β} {k : Unit → Exec ε σ β} {c : β}

@[simp] theorem returns_pure_bind : (pure a >>= f).Returns s c s' ↔ (f a).Returns s c s' := Iff.rfl

@[simp] theorem returns_get_bind : (get >>= g).Returns s c s' ↔ (g s).Returns s c s' := Iff.rfl

@[simp] theorem returns_set_bind {t : σ} :
    (set t >>= k).Returns s c s' ↔ (k ()).Returns t c s' := Iff.rfl

@[simp] theorem returns_modify_bind {h : σ → σ} :
    (modify h >>= k).Returns s c s' ↔ (k ()).Returns (h s) c s' := Iff.rfl

@[simp] theorem returns_stop_bind : ¬ (stop e >>= f).Returns s c s' := by intro h; cases h

end Primitives

/-! ## Total correctness -/

/-- The run of `x` from `s` returns, with `Q` of what it returns. -/
def Gives (x : Exec ε σ α) (s : σ) (Q : α → σ → Prop) : Prop := ∃ a s', x.Returns s a s' ∧ Q a s'

section Gives
variable {Q Q' : α → σ → Prop} {R : β → σ → Prop} {x : Exec ε σ α} {f : α → Exec ε σ β}
  {g : σ → Exec ε σ β} {k : Unit → Exec ε σ β} {s t : σ} {a : α}

theorem gives_bind : (x >>= f).Gives s R ↔ x.Gives s fun a s' => (f a).Gives s' R := by
  constructor
  · rintro ⟨b, s'', h, hR⟩
    obtain ⟨a, s', hx, hf⟩ := returns_bind.mp h
    exact ⟨a, s', hx, b, s'', hf, hR⟩
  · rintro ⟨a, s', hx, b, s'', hf, hR⟩
    exact ⟨b, s'', returns_bind.mpr ⟨a, s', hx, hf⟩, hR⟩

theorem Gives.mono (h : x.Gives s Q) (hQ : ∀ a s', Q a s' → Q' a s') : x.Gives s Q' := by
  obtain ⟨a, s', hx, ha⟩ := h
  exact ⟨a, s', hx, hQ a s' ha⟩

/-- The rule for a call: what it gives is what the rest of the program starts from. -/
theorem Gives.bind (h : x.Gives s Q) (hf : ∀ a s', Q a s' → (f a).Gives s' R) :
    (x >>= f).Gives s R :=
  gives_bind.mpr (h.mono hf)

@[simp] theorem gives_pure : (pure a : Exec ε σ α).Gives s Q ↔ Q a s := by
  constructor
  · rintro ⟨_, _, h, hQ⟩
    obtain ⟨rfl, rfl⟩ := returns_pure.mp h
    exact hQ
  · intro hQ
    exact ⟨a, s, rfl, hQ⟩

@[simp] theorem gives_pure_bind : (pure a >>= f).Gives s R ↔ (f a).Gives s R := Iff.rfl

@[simp] theorem gives_get_bind : (get >>= g).Gives s R ↔ (g s).Gives s R := Iff.rfl

@[simp] theorem gives_set_bind : (set t >>= k).Gives s R ↔ (k ()).Gives t R := Iff.rfl

@[simp] theorem gives_modify_bind {h : σ → σ} :
    (modify h >>= k).Gives s R ↔ (k ()).Gives (h s) R := Iff.rfl

@[simp] theorem gives_modify {h : σ → σ} {Q : Unit → σ → Prop} :
    (modify h : Exec ε σ Unit).Gives s Q ↔ Q () (h s) := by
  constructor
  · rintro ⟨_, _, hx, hQ⟩
    rw [returns_modify] at hx
    exact hx ▸ hQ
  · intro hQ
    exact ⟨(), h s, rfl, hQ⟩

@[simp] theorem stops_get_bind {e : ε} : (get >>= g).Stops s e t ↔ (g s).Stops s e t := Iff.rfl

theorem Stops.bind {e : ε} (h : x.Stops s e t) : (x >>= f).Stops s e t := stops_bind.mpr (.inl h)

end Gives

end Exec

/-- Where a computation without a state returns, its first part does. -/
theorem bind_eq_ok {ε α β : Type} {x : Except ε α} {f : α → Except ε β} {b : β} :
    x >>= f = .ok b ↔ ∃ a, x = .ok a ∧ f a = .ok b := by
  cases x with
  | error e =>
    constructor
    · intro h
      cases h
    · rintro ⟨a, ha, -⟩
      cases ha
  | ok a => exact ⟨fun h => ⟨a, rfl, h⟩, fun ⟨_, ha, h⟩ => Except.ok.inj ha ▸ h⟩

end Cantos
