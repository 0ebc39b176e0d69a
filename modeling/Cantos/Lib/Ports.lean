import Cantos.Lib.Exec

/-!
# Programs that talk to a device

A program reads and writes ports.  The device may answer anything: its answers are a stream, and
what a program does for all streams it does for all devices.  A protocol is a monitor of the events
at the ports, which accepts an event or not, and a program follows the protocol if the monitor
accepts all that it does, whether it returns, stops or is cut off.

## Main definitions

* `Bus`: the answers that are left, the events so far and the variables of the program.
* `Bus.seen`: the monitor after the events so far.
* `Follows`: pre- and postconditions on the monitor and the variables.
-/

namespace Cantos.Ports

/-- What happens at a port. -/
inductive Event (π β : Type)
  | inp (port : π) (b : β)
  | out (port : π) (b : β)
  deriving DecidableEq, Repr

/-- The variables of a program and its device. -/
structure Bus (π β σ : Type) where
  answers : ℕ → β
  log : List (Event π β)
  vars : σ

variable {π β σ κ ε α γ : Type}

/-- Read a port. -/
def inb (port : π) : Exec ε (Bus π β σ) β := fun s =>
  (.ok (s.answers 0),
    { s with answers := fun n => s.answers (n + 1), log := s.log ++ [.inp port (s.answers 0)] })

/-- Write a port. -/
def outb (port : π) (b : β) : Exec ε (Bus π β σ) Unit :=
  Exec.modify fun s => { s with log := s.log ++ [.out port b] }

/-- Read the variables. -/
def vars : Exec ε (Bus π β σ) σ := fun s => (.ok s.vars, s)

/-- Write the variables. -/
def modifyVars (f : σ → σ) : Exec ε (Bus π β σ) Unit :=
  Exec.modify fun s => { s with vars := f s.vars }

variable (accept : κ → Event π β → Option κ)

/-- The monitor after the events, unless it has not accepted one. -/
def Bus.seen (k : κ) (s : Bus π β σ) : Option κ := s.log.foldlM accept k

/-- From a state with `P`, all that `x` does is accepted; `Q` holds where it returns and `E` where
it stops. -/
def Follows (k₀ : κ) (P : κ → σ → Prop) (x : Exec ε (Bus π β σ) α) (Q : α → κ → σ → Prop)
    (E : ε → κ → Prop) : Prop :=
  ∀ s k, s.seen accept k₀ = some k → P k s.vars →
    ∃ k', (x s).2.seen accept k₀ = some k' ∧
      (∀ a, (x s).1 = .ok a → Q a k' (x s).2.vars) ∧ ∀ e, (x s).1 = .error e → E e k'

variable {accept} {k₀ : κ} {P P' : κ → σ → Prop} {Q Q' : α → κ → σ → Prop} {R : γ → κ → σ → Prop}
  {E : ε → κ → Prop} {x y : Exec ε (Bus π β σ) α} {f : α → Exec ε (Bus π β σ) γ} {port : π} {b : β}

theorem seen_concat {s : Bus π β σ} {k : κ} {e : Event π β} {ans : ℕ → β}
    (h : s.seen accept k₀ = some k) :
    Bus.seen accept k₀ { s with answers := ans, log := s.log ++ [e] } = accept k e := by
  have hlog : s.log.foldlM accept k₀ = some k := h
  simp [Bus.seen, hlog]

namespace Follows

theorem pure {a : α} (h : ∀ k v, P k v → Q a k v) : Follows accept k₀ P (pure a) Q E := by
  intro s k hk hP
  refine ⟨k, hk, ?_, ?_⟩
  · intro a' ha
    exact Except.ok.inj ha ▸ h k s.vars hP
  · intro e he
    cases he

theorem stop {e : ε} (h : ∀ k v, P k v → E e k) :
    Follows accept k₀ P (Exec.stop e : Exec ε (Bus π β σ) α) Q E := by
  intro s k hk hP
  refine ⟨k, hk, ?_, ?_⟩
  · intro a ha
    cases ha
  · intro e' he
    exact Except.error.inj he ▸ h k s.vars hP

theorem bind (hx : Follows accept k₀ P x Q E) (hf : ∀ a, Follows accept k₀ (Q a) (f a) R E) :
    Follows accept k₀ P (x >>= f) R E := by
  intro s k hk hP
  obtain ⟨k', hk', hok, herr⟩ := hx s k hk hP
  rw [Exec.bind_def]
  rcases hres : x s with ⟨a | a, s'⟩
  · rw [hres] at hk' herr
    refine ⟨k', hk', ?_, ?_⟩
    · intro c hc
      cases hc
    · intro e he
      exact herr e (congrArg Except.error (Except.error.inj he))
  · rw [hres] at hk' hok
    exact hf a s' k' hk' (hok a rfl)

theorem mono (hx : Follows accept k₀ P x Q E) (hP : ∀ k v, P' k v → P k v)
    (hQ : ∀ a k v, Q a k v → Q' a k v) : Follows accept k₀ P' x Q' E := by
  intro s k hk h
  obtain ⟨k', hk', hok, herr⟩ := hx s k hk (hP k s.vars h)
  exact ⟨k', hk', fun a ha => hQ a k' _ (hok a ha), herr⟩

theorem ite {c : Prop} [Decidable c] (hx : c → Follows accept k₀ P x Q E)
    (hy : ¬ c → Follows accept k₀ P y Q E) : Follows accept k₀ P (if c then x else y) Q E := by
  split_ifs with hc
  · exact hx hc
  · exact hy hc

/-- What does not depend on the state is a hypothesis. -/
theorem fact {c : Prop} (hx : c → Follows accept k₀ P x Q E) :
    Follows accept k₀ (fun k v => P k v ∧ c) x Q E := by
  intro s k hk h
  exact hx h.2 s k hk h.1

/-- The state at the beginning has a name. -/
theorem fix (h : ∀ k v, P k v → Follows accept k₀ (fun k' v' => k' = k ∧ v' = v) x Q E) :
    Follows accept k₀ P x Q E := by
  intro s k hk hP
  exact h k s.vars hP s k hk ⟨rfl, rfl⟩

/-- A loop over a list, with an invariant of what is left of it. -/
theorem forM {ι : Type} {l : List ι} {g : ι → Exec ε (Bus π β σ) PUnit}
    {P : List ι → κ → σ → Prop}
    (h : ∀ i rest, i :: rest <:+ l →
      Follows accept k₀ (P (i :: rest)) (g i) (fun _ => P rest) E) :
    Follows accept k₀ (P l) (l.forM g) (fun _ => P []) E := by
  induction l with
  | nil => exact pure fun _ _ hP => hP
  | cons i l ih =>
    refine bind (h i l (List.suffix_refl _)) fun _ => ih fun j rest hsuffix => ?_
    exact h j rest (hsuffix.trans (List.suffix_cons i l))

theorem inb {Q : β → κ → σ → Prop}
    (h : ∀ k v b, P k v → ∃ k', accept k (.inp port b) = some k' ∧ Q b k' v) :
    Follows accept k₀ P (Ports.inb port : Exec ε (Bus π β σ) β) Q E := by
  intro s k hk hP
  obtain ⟨k', hk', hQ⟩ := h k s.vars (s.answers 0) hP
  refine ⟨k', (seen_concat hk).trans hk', ?_, ?_⟩
  · intro b hb
    exact Except.ok.inj hb ▸ hQ
  · intro e he
    cases he

theorem outb {Q : Unit → κ → σ → Prop}
    (h : ∀ k v, P k v → ∃ k', accept k (.out port b) = some k' ∧ Q () k' v) :
    Follows accept k₀ P (Ports.outb port b : Exec ε (Bus π β σ) Unit) Q E := by
  intro s k hk hP
  obtain ⟨k', hk', hQ⟩ := h k s.vars hP
  refine ⟨k', (seen_concat hk).trans hk', ?_, ?_⟩
  · intro _ _
    exact hQ
  · intro e he
    cases he

theorem vars {Q : σ → κ → σ → Prop} (h : ∀ k v, P k v → Q v k v) :
    Follows accept k₀ P (Ports.vars : Exec ε (Bus π β σ) σ) Q E := by
  intro s k hk hP
  refine ⟨k, hk, ?_, ?_⟩
  · intro v hv
    exact Except.ok.inj hv ▸ h k s.vars hP
  · intro e he
    cases he

theorem modifyVars {g : σ → σ} {Q : Unit → κ → σ → Prop} (h : ∀ k v, P k v → Q () k (g v)) :
    Follows accept k₀ P (Ports.modifyVars g : Exec ε (Bus π β σ) Unit) Q E := by
  intro s k hk hP
  refine ⟨k, hk, ?_, ?_⟩
  · intro _ _
    exact h k s.vars hP
  · intro e he
    cases he

end Follows

end Cantos.Ports
