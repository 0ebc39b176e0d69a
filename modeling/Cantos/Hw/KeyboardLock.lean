import Cantos.Hw.Keyboard
import Cantos.Lib.Steps

/-!
# Console output and the keyboard's interrupt

`printk`, `kwarn` and `kerror` write to the console with a mutex.  `Ps2KeyboardDriver::handle`
calls them too, in an interrupt handler, in front of whatever code the interrupt was taken in.

Code is that of a thread, or of a CPU without one; a CPU runs one piece of code at a time,
with or without the handler in front of it.  The handler runs with interrupts disabled, and
`Mutex::lock` then spins.

## Main definitions

* `Console`: the state.
* `Console.step`: one move of a CPU.
* `Console.StuckAt`: the handler spins on a mutex that the code under it holds.
-/

namespace Cantos.Ps2keyboard

open Steps

/-- Where some code is. -/
inductive CodePc
  | outside
  /-- `Mutex::lock` in front of `trylock`, with the interrupt flag that was pushed. -/
  | locking (eflags : Bool)
  /-- In front of `cli`. -/
  | failed
  /-- Behind `cli`. -/
  | looking
  /-- Behind `sti`, in `task_yield` or `hlt`. -/
  | resting
  /-- With the mutex. -/
  | writing
  deriving DecidableEq, Repr

/-- Where `Ps2Port::handle` is. -/
inductive HandlerPc
  /-- In front of `_mutex.lock()`. -/
  | lockPs2
  /-- In front of `driver->handle()`. -/
  | call
  /-- `driver->handle()` in front of the mutex of the console. -/
  | lockPrintk
  /-- With the mutex of the console. -/
  | writing
  /-- In front of `_mutex.unlock()`. -/
  | unlockPs2
  /-- In front of `lapic::eoi()`. -/
  | eoi
  deriving DecidableEq, Repr

/-- The handler of an interrupt of one of the two ports. -/
structure Handler where
  second : Bool
  pc : HandlerPc
  deriving DecidableEq, Repr

/-- Who holds the mutex of the console. -/
inductive Owner
  | code (t : ℕ)
  | handler (c : ℕ)
  deriving DecidableEq, Repr

structure Console where
  /-- The code that a CPU runs. -/
  running : ℕ → ℕ
  /-- The CPU that runs some code. -/
  onCpu : ℕ → Option ℕ
  pc : ℕ → CodePc
  /-- The interrupt flag of some code, which is saved while it is not running. -/
  interrupts : ℕ → Bool
  /-- The handler in front of the code on a CPU. -/
  handler : ℕ → Option Handler
  /-- `_mutex` of `printk.cpp` -/
  printk : Option Owner
  /-- `_mutex` of `ps2.cpp` -/
  ps2 : Option ℕ
  /-- The drivers of the two ports, by `second`. -/
  driver : Bool → Driver

/-- The moves of a CPU. -/
inductive Move
  /-- The code sets or clears the interrupt flag. -/
  | interrupts (c : ℕ) (on : Bool)
  /-- The code calls `printk`, `kwarn` or `kerror`. -/
  | call (c : ℕ)
  | trylock (c : ℕ)
  | cli (c : ℕ)
  | sti (c : ℕ)
  /-- The code comes back from `task_yield` or `hlt`. -/
  | again (c : ℕ)
  | unlock (c : ℕ)
  /-- The CPU goes on with other code, by a timer interrupt or because its code yields. -/
  | switch (c t : ℕ)
  /-- An interrupt of a port. -/
  | interrupt (c : ℕ) (second : Bool)
  /-- `driver->handle()` with a byte. -/
  | read (c : ℕ) (input : Byte)
  /-- The port is not enabled, or has no driver. -/
  | skip (c : ℕ)
  /-- The handler goes on. -/
  | handler (c : ℕ)
  deriving DecidableEq, Repr

namespace Console

variable (s : Console)

/-- The code on a CPU goes on somewhere else. -/
def setPc (c : ℕ) (pc : CodePc) : Console :=
  { s with pc := Function.update s.pc (s.running c) pc }

def setHandler (c : ℕ) (h : Option Handler) : Console :=
  { s with handler := Function.update s.handler c h }

def setInterrupts (c : ℕ) (on : Bool) : Console :=
  { s with interrupts := Function.update s.interrupts (s.running c) on }

/-- The code on a CPU takes a step, when no handler is in front of it and it is at `pc`. -/
def codeStep (c : ℕ) (pc : CodePc) (s' : Console) : Option Console :=
  if s.handler c = none ∧ s.pc (s.running c) = pc then some s' else none

/-- `Mutex::lock` on the mutex of the console, with or without interrupts. -/
def tryLock (c : ℕ) (eflags : Bool) : Console :=
  if s.printk = none then { s.setPc c .writing with printk := some (.code (s.running c)) }
  else if eflags then s.setPc c .failed
  else s

/-- A step of `Ps2Port::handle`; `lock` spins. -/
def handlerStep (c : ℕ) (second : Bool) : HandlerPc → Option Console
  | .lockPs2 =>
      if s.ps2 = none then some { s.setHandler c (some ⟨second, .call⟩) with ps2 := some c }
      else some s
  | .call => none
  | .lockPrintk =>
      if s.printk = none then
        some { s.setHandler c (some ⟨second, .writing⟩) with printk := some (.handler c) }
      else some s
  | .writing => some { s.setHandler c (some ⟨second, .unlockPs2⟩) with printk := none }
  | .unlockPs2 => some { s.setHandler c (some ⟨second, .eoi⟩) with ps2 := none }
  | .eoi => some (s.setHandler c none)

/-- `driver->handle()`: the handler then wants to print, or is done. -/
def readStep (c : ℕ) (second : Bool) (input : Byte) : Console :=
  let (d, printed) := handle (s.driver second) input
  { s.setHandler c (some ⟨second, if printed.isSome then .lockPrintk else .unlockPs2⟩) with
    driver := Function.update s.driver second d }

/-- One move, when it is possible. -/
def step : Move → Option Console
  | .interrupts c on => s.codeStep c .outside (s.setInterrupts c on)
  | .call c => s.codeStep c .outside (s.setPc c (.locking (s.interrupts (s.running c))))
  | .trylock c =>
      match s.pc (s.running c) with
      | .locking eflags => s.codeStep c (.locking eflags) (s.tryLock c eflags)
      | _ => none
  | .cli c => s.codeStep c .failed ((s.setPc c .looking).setInterrupts c false)
  | .sti c => s.codeStep c .looking ((s.setPc c .resting).setInterrupts c true)
  | .again c => s.codeStep c .resting (s.setPc c (.locking true))
  | .unlock c => s.codeStep c .writing { s.setPc c .outside with printk := none }
  | .switch c t =>
      if s.handler c = none ∧ s.onCpu t = none ∧
          (s.interrupts (s.running c) ∨ s.pc (s.running c) = .outside) then
        some { s with
          running := Function.update s.running c t
          onCpu := Function.update (Function.update s.onCpu (s.running c) none) t (some c) }
      else none
  | .interrupt c second =>
      if s.handler c = none ∧ s.interrupts (s.running c) then
        some (s.setHandler c (some ⟨second, .lockPs2⟩))
      else none
  | .read c input =>
      match s.handler c with
      | some ⟨second, .call⟩ => some (s.readStep c second input)
      | _ => none
  | .skip c =>
      match s.handler c with
      | some ⟨second, .call⟩ => some (s.setHandler c (some ⟨second, .unlockPs2⟩))
      | _ => none
  | .handler c => (s.handler c).bind fun h => s.handlerStep c h.second h.pc

/-- Nobody prints, and no interrupt was taken. -/
structure Boots : Prop where
  onCpu : ∀ c, s.onCpu (s.running c) = some c
  pc : ∀ t, s.pc t = .outside
  handler : ∀ c, s.handler c = none
  printk : s.printk = none
  ps2 : s.ps2 = none

/-- The handler on a CPU spins on the mutex of the console, which is held by the code that it
interrupted. -/
def StuckAt (c : ℕ) : Prop :=
  (∃ second, s.handler c = some ⟨second, .lockPrintk⟩) ∧ s.printk = some (.code (s.running c))

/-- A byte at which the driver prints is handled in front of code that holds the mutex. -/
def Harmful : Move → Prop
  | .read c input =>
      s.printk = some (.code (s.running c)) ∧
        ∃ second, s.handler c = some ⟨second, .call⟩ ∧
          (handle (s.driver second) input).2.isSome
  | _ => False

instance : DecidablePred s.Harmful := fun m =>
  match m with
  | .read _ _ => inferInstanceAs (Decidable (_ ∧ ∃ _ : Bool, _))
  | .interrupts _ _ | .call _ | .trylock _ | .cli _ | .sti _ | .again _ | .unlock _ | .switch _ _
  | .interrupt _ _ | .skip _ | .handler _ => isFalse id

/-! ## One move -/

variable {s} {s' : Console} {m : Move} {ms : List Move} {c : ℕ} {pc : CodePc}

/-- Every CPU knows its code, and no handler waits for the code under it. -/
structure Inv (s : Console) : Prop where
  onCpu : ∀ c, s.onCpu (s.running c) = some c
  free : ∀ c, ¬ s.StuckAt c

theorem codeStep_eq_some {t : Console} (h : s.codeStep c pc t = some s') :
    s.handler c = none ∧ s' = t := by
  unfold codeStep at h
  split_ifs at h with hguard
  exact ⟨hguard.1, (Option.some.inj h).symm⟩

/-- A move that makes no handler wait and does not take the mutex keeps the invariant. -/
theorem Inv.keep (h : s.Inv) (hrunning : s'.running = s.running) (honCpu : s'.onCpu = s.onCpu)
    (hhandler : ∀ c second, s'.handler c = some ⟨second, .lockPrintk⟩ →
      s.handler c = some ⟨second, .lockPrintk⟩)
    (hprintk : ∀ t, s'.printk = some (.code t) → s.printk = some (.code t)) : s'.Inv where
  onCpu := by
    rw [hrunning, honCpu]
    exact h.onCpu
  free := by
    rintro c ⟨⟨second, hwaits⟩, hholds⟩
    rw [hrunning] at hholds
    exact h.free c ⟨⟨second, hhandler c second hwaits⟩, hprintk _ hholds⟩

/-- A handler that goes on to some other place than the mutex of the console. -/
theorem Inv.setHandler (h : s.Inv) {next : Option Handler} (hrunning : s'.running = s.running)
    (honCpu : s'.onCpu = s.onCpu) (hhandler : s'.handler = Function.update s.handler c next)
    (hnext : ∀ second, next ≠ some ⟨second, .lockPrintk⟩)
    (hprintk : ∀ t, s'.printk = some (.code t) → s.printk = some (.code t)) : s'.Inv := by
  refine h.keep hrunning honCpu (fun c' second hwaits => ?_) hprintk
  rw [hhandler] at hwaits
  by_cases hc : c' = c
  · subst hc
    rw [Function.update_self] at hwaits
    exact absurd hwaits (hnext second)
  · rwa [Function.update_of_ne hc] at hwaits

/-- The code on a CPU takes the mutex: no other CPU runs this code. -/
theorem Inv.tryLock (h : s.Inv) (hc : s.handler c = none) (eflags : Bool) :
    (s.tryLock c eflags).Inv := by
  unfold Console.tryLock
  split_ifs with hfree
  · refine ⟨h.onCpu, ?_⟩
    rintro c' ⟨⟨second, hwaits⟩, hholds⟩
    have hsame : s.running c = s.running c' := Owner.code.inj (Option.some.inj hholds)
    have hcpu : c = c' := by
      have hon := h.onCpu c
      rw [hsame, h.onCpu c'] at hon
      exact (Option.some.inj hon).symm
    subst hcpu
    exact absurd (hc.symm.trans hwaits) (by simp)
  · exact h.keep rfl rfl (fun _ _ => id) fun _ => id
  · exact h

theorem Inv.switch (h : s.Inv) {t : ℕ} (hc : s.handler c = none) (ht : s.onCpu t = none) :
    Inv { s with
      running := Function.update s.running c t
      onCpu := Function.update (Function.update s.onCpu (s.running c) none) t (some c) } where
  onCpu c' := by
    dsimp only
    by_cases hc' : c' = c
    · subst hc'
      rw [Function.update_self, Function.update_self]
    · have hne : s.running c' ≠ t := fun heq => by
        have hon := h.onCpu c'
        rw [heq, ht] at hon
        cases hon
      have hne' : s.running c' ≠ s.running c := fun heq => by
        have hon := h.onCpu c'
        rw [heq, h.onCpu c] at hon
        exact hc' (Option.some.inj hon).symm
      rw [Function.update_of_ne hc', Function.update_of_ne hne, Function.update_of_ne hne']
      exact h.onCpu c'
  free := by
    rintro c' ⟨⟨second, hwaits⟩, hholds⟩
    have hc' : c' ≠ c := by
      rintro rfl
      exact absurd (hc.symm.trans hwaits) (by simp)
    refine h.free c' ⟨⟨second, hwaits⟩, ?_⟩
    have hsame : Function.update s.running c t c' = s.running c' := Function.update_of_ne hc' _ _
    rw [← hsame]
    exact hholds

theorem Inv.handlerStep (h : s.Inv) {second : Bool} {pc : HandlerPc}
    (hs' : s.handlerStep c second pc = some s') : s'.Inv := by
  cases pc with
  | lockPs2 =>
    simp only [Console.handlerStep] at hs'
    split_ifs at hs' <;> cases hs'
    · exact h.setHandler rfl rfl rfl (by simp) fun _ => id
    · exact h
  | call => cases hs'
  | lockPrintk =>
    simp only [Console.handlerStep] at hs'
    split_ifs at hs' <;> cases hs'
    · exact h.setHandler rfl rfl rfl (by simp) (by simp)
    · exact h
  | writing =>
    cases hs'
    exact h.setHandler rfl rfl rfl (by simp) (by simp)
  | unlockPs2 =>
    cases hs'
    exact h.setHandler rfl rfl rfl (by simp) fun _ => id
  | eoi =>
    cases hs'
    exact h.setHandler rfl rfl rfl (by simp) fun _ => id

/-- The handler reads a byte at which it prints only when the code under it does not hold the
mutex. -/
theorem Inv.readStep (h : s.Inv) {second : Bool} {input : Byte}
    (hcall : s.handler c = some ⟨second, .call⟩) (hm : ¬ s.Harmful (.read c input)) :
    (s.readStep c second input).Inv := by
  by_cases hprinted : (handle (s.driver second) input).2.isSome
  · refine ⟨h.onCpu, ?_⟩
    rintro c' ⟨⟨second', hwaits⟩, hholds⟩
    by_cases hc : c' = c
    · subst hc
      exact hm ⟨hholds, second, hcall, hprinted⟩
    · simp only [Console.readStep, Console.setHandler, Function.update_of_ne hc] at hwaits
      exact h.free c' ⟨⟨second', hwaits⟩, hholds⟩
  · have hquiet : (handle (s.driver second) input).2.isSome = false := by simpa using hprinted
    have hdone : (s.readStep c second input).handler =
        Function.update s.handler c (some ⟨second, .unlockPs2⟩) := by
      simp [Console.readStep, Console.setHandler, hquiet]
    exact h.setHandler rfl rfl hdone (by simp) fun _ => id

/-- One move. -/
theorem Inv.step (h : s.Inv) (hm : ¬ s.Harmful m) (hs' : s.step m = some s') : s'.Inv := by
  cases m with
  | interrupts c on =>
    obtain ⟨-, rfl⟩ := codeStep_eq_some hs'
    exact h.keep rfl rfl (fun _ _ => id) fun _ => id
  | call c =>
    obtain ⟨-, rfl⟩ := codeStep_eq_some hs'
    exact h.keep rfl rfl (fun _ _ => id) fun _ => id
  | trylock c =>
    simp only [Console.step] at hs'
    split at hs'
    next eflags _ =>
      obtain ⟨hc, rfl⟩ := codeStep_eq_some hs'
      exact h.tryLock hc eflags
    next => cases hs'
  | cli c =>
    obtain ⟨-, rfl⟩ := codeStep_eq_some hs'
    exact h.keep rfl rfl (fun _ _ => id) fun _ => id
  | sti c =>
    obtain ⟨-, rfl⟩ := codeStep_eq_some hs'
    exact h.keep rfl rfl (fun _ _ => id) fun _ => id
  | again c =>
    obtain ⟨-, rfl⟩ := codeStep_eq_some hs'
    exact h.keep rfl rfl (fun _ _ => id) fun _ => id
  | unlock c =>
    obtain ⟨-, rfl⟩ := codeStep_eq_some hs'
    exact h.keep rfl rfl (fun _ _ => id) (by simp)
  | switch c t =>
    simp only [Console.step] at hs'
    split_ifs at hs' with hguard
    cases hs'
    exact h.switch hguard.1 hguard.2.1
  | interrupt c second =>
    simp only [Console.step] at hs'
    split_ifs at hs'
    cases hs'
    exact h.setHandler rfl rfl rfl (by simp) fun _ => id
  | read c input =>
    simp only [Console.step] at hs'
    split at hs'
    next second hcall =>
      cases hs'
      exact h.readStep hcall hm
    next => cases hs'
  | skip c =>
    simp only [Console.step] at hs'
    split at hs'
    next second hcall =>
      cases hs'
      exact h.setHandler rfl rfl rfl (by simp) fun _ => id
    next => cases hs'
  | handler c =>
    obtain ⟨handler, -, hstep⟩ := Option.bind_eq_some_iff.mp hs'
    exact h.handlerStep hstep

theorem Boots.inv (h : s.Boots) : s.Inv where
  onCpu := h.onCpu
  free c := fun hstuck => by
    obtain ⟨second, hwaits⟩ := hstuck.1
    rw [h.handler c] at hwaits
    cases hwaits

/-! ## Runs -/

/-- A harmful move is possible, and leaves the handler stuck. -/
theorem Harmful.stuck (h : s.Harmful m) : ∃ s' c, s.step m = some s' ∧ s'.StuckAt c := by
  cases m with
  | read c input =>
    obtain ⟨hholds, second, hcall, hprinted⟩ := h
    refine ⟨s.readStep c second input, c, by simp [Console.step, hcall], ⟨second, ?_⟩, hholds⟩
    simp [Console.readStep, Console.setHandler, hprinted]
  | _ => exact h.elim

/-- No state that a run goes through has a CPU that is stuck. -/
def NeverStuck (s : Console) (ms : List Move) : Prop :=
  ∀ before, before <+: ms → ∀ s', run step s before = some s' → ∀ c, ¬ s'.StuckAt c

theorem NeverStuck.along (h : s.NeverStuck ms) :
    Along step (fun s m => ¬ s.Harmful m) s ms := by
  induction ms generalizing s with
  | nil => trivial
  | cons m ms ih =>
    refine ⟨fun hharmful => ?_, fun t ht => ih fun before hbefore s' hs' c => ?_⟩
    · obtain ⟨t, c, ht, hstuck⟩ := hharmful.stuck
      refine h [m] ⟨ms, rfl⟩ t ?_ c hstuck
      exact run_cons.mpr ⟨t, ht, rfl⟩
    · exact h (m :: before) ((List.prefix_cons_inj m).mpr hbefore) s'
        (run_cons.mpr ⟨t, ht, hs'⟩) c

/-- A handler is never stuck exactly when no byte at which the driver prints is handled in front
of code that holds the mutex of the console. -/
theorem neverStuck_iff (hs : s.Boots) (ms : List Move) :
    s.NeverStuck ms ↔ Along step (fun s m => ¬ s.Harmful m) s ms := by
  refine ⟨NeverStuck.along, ?_⟩
  rintro h before ⟨rest, rfl⟩ s' hs'
  exact (invariant (fun _ _ _ hinv hm hstep => hinv.step hm hstep) hs.inv h.left hs').free

/-- A CPU for every piece of code, with interrupts enabled. -/
def booted : Console where
  running c := c
  onCpu t := some t
  pc _ := .outside
  interrupts _ := true
  handler _ := none
  printk := none
  ps2 := none
  driver _ := configured

theorem boots_booted : booted.Boots := ⟨fun _ => rfl, fun _ => rfl, fun _ => rfl, rfl, rfl⟩

/-- A key is pressed while the code prints; the key's byte is `input`. -/
def keyPressed (input : Byte) : List Move :=
  [.call 0, .trylock 0, .interrupt 0 false, .handler 0, .read 0 input]

/-- The prefix byte of an extended key does no harm: nothing is printed for it. -/
theorem neverStuck_iff_prefix : booted.NeverStuck (keyPressed 0xe0) := by
  exact (neverStuck_iff boots_booted _).mpr (by decide)

theorem not_neverStuck_keyPressed : ¬ booted.NeverStuck (keyPressed 0x1c) := by
  intro h
  exact absurd h.along (by decide)

end Console

end Cantos.Ps2keyboard
