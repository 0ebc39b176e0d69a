import Cantos.Lib.Exec

/-!
# Programs with a bound on their depth

A recursive program that is cut off at a depth stops there for a reason `e` of its own.  The
recursion ends where all runs with enough depth are the same one and are not cut off.

## Main definitions

* `Exec.Avoids`: no run stops for the reason `e`.
* `Exec.AvoidsAt`: the run from a state does not.
* `Exec.Settles`: from some depth on, the runs from a state are one run that is not cut off.
-/

namespace Cantos.Exec

variable {ε σ α β : Type} {e : ε}

/-- No run of `x` stops for the reason `e`. -/
def Avoids (e : ε) (x : Exec ε σ α) : Prop := ∀ s s', ¬ x.Stops s e s'

namespace Avoids

variable {x y : Exec ε σ α} {f : α → Exec ε σ β}

theorem pure (a : α) : Avoids e (pure a : Exec ε σ α) := fun _ _ => stops_pure

theorem stop {e' : ε} (he : e' ≠ e) : Avoids e (Exec.stop e' : Exec ε σ α) := fun _ _ h =>
  he (stops_stop.mp h).1.symm

theorem set (t : σ) : Avoids e (Exec.set t : Exec ε σ Unit) := fun _ _ => stops_set

theorem modify (g : σ → σ) : Avoids e (Exec.modify g : Exec ε σ Unit) := fun _ _ => stops_modify

theorem bind (hx : Avoids e x) (hf : ∀ a, Avoids e (f a)) : Avoids e (x >>= f) := by
  intro s s' h
  obtain h | ⟨a, s₁, -, h⟩ := stops_bind.mp h
  · exact hx s s' h
  · exact hf a s₁ s' h

theorem get {g : σ → Exec ε σ α} (hg : ∀ s, Avoids e (g s)) : Avoids e (Exec.get >>= g) :=
  bind (fun _ _ => stops_get) hg

theorem ite {c : Prop} [Decidable c] (hx : Avoids e x) (hy : Avoids e y) :
    Avoids e (if c then x else y) := by
  split_ifs
  · exact hx
  · exact hy

end Avoids

/-- The run of `x` from `s` does not stop for the reason `e`. -/
def AvoidsAt (e : ε) (x : Exec ε σ α) (s : σ) : Prop := ∀ s', ¬ x.Stops s e s'

namespace AvoidsAt

variable {x y : Exec ε σ α} {f : α → Exec ε σ β} {s s' : σ}

theorem of_avoids (h : Avoids e x) : AvoidsAt e x s := h s

theorem of_returns {a : α} (h : x.Returns s a s') : AvoidsAt e x s := fun _ => h.not_stops

theorem of_stops {e' : ε} (h : x.Stops s e' s') (he : e' ≠ e) : AvoidsAt e x s := by
  intro s'' h'
  rw [Stops, h] at h'
  cases h'
  exact he rfl

theorem congr (h : AvoidsAt e x s) (hxy : y s = x s) : AvoidsAt e y s := by
  intro s' hs
  rw [Stops, hxy] at hs
  exact h s' hs

theorem bind (hx : AvoidsAt e x s) (hf : ∀ a s', x.Returns s a s' → AvoidsAt e (f a) s') :
    AvoidsAt e (x >>= f) s := by
  intro s'' h
  obtain h | ⟨a, s', ha, h⟩ := stops_bind.mp h
  · exact hx s'' h
  · exact hf a s' ha s'' h

/-- A first part that is known to return. -/
theorem bind_returns {a : α} (hx : x.Returns s a s') (hf : AvoidsAt e (f a) s') :
    AvoidsAt e (x >>= f) s := by
  intro s'' h
  rw [Stops, hx.bind_eq f] at h
  exact hf s'' h

end AvoidsAt

/-- From some depth on, the runs from `s` are the same, and do not stop for the reason `e`. -/
def Settles (e : ε) (x : ℕ → Exec ε σ α) (s : σ) : Prop :=
  ∃ N r, (∀ depth ≥ N, x depth s = r) ∧ r.1 ≠ .error e

namespace Settles

variable {x y : ℕ → Exec ε σ α} {f : ℕ → α → Exec ε σ β} {s : σ}

/-- A program without a bound. -/
theorem of_avoids {z : Exec ε σ α} (h : Avoids e z) : Settles e (fun _ => z) s :=
  ⟨0, z s, fun _ _ => rfl, fun hz => h s (z s).2 (Prod.ext hz rfl)⟩

/-- A call within the program is one deeper. -/
theorem succ (h : Settles e (fun depth => x (depth + 1)) s) : Settles e x s := by
  obtain ⟨N, r, hr, he⟩ := h
  refine ⟨N + 1, r, fun depth hdepth => ?_, he⟩
  obtain ⟨depth, rfl⟩ := Nat.exists_eq_add_of_le' (Nat.one_le_of_lt hdepth)
  exact hr depth (Nat.le_of_succ_le_succ hdepth)

theorem congr (h : Settles e x s) (hxy : ∀ depth, y depth s = x depth s) : Settles e y s := by
  obtain ⟨N, r, hr, he⟩ := h
  exact ⟨N, r, fun depth hdepth => (hxy depth).trans (hr depth hdepth), he⟩

/-- The rest of a program matters only where the first part returns. -/
theorem bind (hx : Settles e x s)
    (hf : ∀ depth a s', (x depth).Returns s a s' → Settles e (fun depth => f depth a) s') :
    Settles e (fun depth => x depth >>= f depth) s := by
  obtain ⟨N, ⟨_ | a, s'⟩, hr, he⟩ := hx
  · exact ⟨N, _, fun depth hdepth => Stops.bind_eq (hr depth hdepth) _, by simpa using he⟩
  · obtain ⟨M, r, hr', he'⟩ := hf N a s' (hr N (Nat.le_refl N))
    refine ⟨N + M, r, fun depth hdepth => ?_, he'⟩
    have hfirst := hr depth (Nat.le_trans (Nat.le_add_right N M) hdepth)
    exact (Returns.bind_eq hfirst _).trans (hr' depth (Nat.le_trans (Nat.le_add_left M N) hdepth))

/-- A first part that is known to return. -/
theorem bind_returns (N : ℕ) {a : α} {s' : σ} (hx : ∀ depth ≥ N, (x depth).Returns s a s')
    (hf : Settles e (fun depth => f depth a) s') :
    Settles e (fun depth => x depth >>= f depth) s := by
  obtain ⟨M, r, hr, he⟩ := hf
  refine ⟨N + M, r, fun depth hdepth => ?_, he⟩
  have hfirst := hx depth (Nat.le_trans (Nat.le_add_right N M) hdepth)
  exact (hfirst.bind_eq _).trans (hr depth (Nat.le_trans (Nat.le_add_left M N) hdepth))

theorem bind_step {z : Exec ε σ α} {a : α} {s' : σ} (hz : z.Returns s a s')
    (hf : Settles e (fun depth => f depth a) s') : Settles e (fun depth => z >>= f depth) s :=
  bind_returns 0 (fun _ _ => hz) hf

theorem of_returns (N : ℕ) {a : α} {s' : σ} (hx : ∀ depth ≥ N, (x depth).Returns s a s') :
    Settles e x s := ⟨N, (.ok a, s'), hx, nofun⟩

theorem of_stops (N : ℕ) {e' : ε} {s' : σ} (hx : ∀ depth ≥ N, (x depth).Stops s e' s')
    (he : e' ≠ e) : Settles e x s :=
  ⟨N, (.error e', s'), hx, fun h => he (Except.error.inj h)⟩

/-- Some depth is never reached. -/
theorem exists_depth (h : Settles e x s) : ∃ depth, ∀ s', ¬ (x depth).Stops s e s' := by
  obtain ⟨N, r, hr, he⟩ := h
  refine ⟨N, fun s' hs => he ?_⟩
  rw [← hr N (Nat.le_refl N)]
  exact congrArg Prod.fst hs

end Settles

end Cantos.Exec
