import Cantos.Hw.Acpi
import Cantos.Lib.Steps
import Mathlib.Tactic.Ring

/-!
# The timer of the local APIC

The rate of the APIC timer is not known at boot.  CPU 0 lets it interrupt every `_CAL_INIT`
ticks and counts the interrupts in a second of the PIT; every CPU then reloads its timer so
that it interrupts `SWITCHES_PER_SECOND` times a second, and is preempted from then on.

A handler is one step.  Those of CPU 0 do not interrupt each other, since they are entered with
interrupts disabled, and the other CPUs read nothing of it but `_ticks_per_sec`, which is
written once.

## Main definitions

* `timer`: the handler of the timer, with what it does besides writing its variables.
* `step`: an interrupt or the start of a CPU.
* `Window`: which interrupts are counted.
* `Due`: the moves of a machine whose two timers are periodic.

## Main results

* `yields_calibrated`: a CPU is preempted only at the rate that CPU 0 has measured.
* `reload_measured`: what is measured.
* `reload_accurate`: how far that is off.
-/

namespace Cantos.Timer

/-- The CPUs, by `cpu::id()`. -/
abbrev CpuId := Fin Acpi.maxCores

instance : NeZero Acpi.maxCores := ⟨by decide⟩

/-- `PER_SECOND` of `pit`. -/
def perSecond : ℕ := 82

/-- `_CAL_INIT` -/
def calInit : ℕ := 1000

/-- `_CAL_DIV` -/
def calDiv : ℕ := 3

def switchesPerSecond : ℕ := 1000

def intLapicBase : ℕ := 0x20

def timerModePeriodic : ℕ := 1 <<< 17

def lvtMask : ℕ := 1 <<< 16

/-- The registers of the timer of a CPU. -/
structure Registers where
  /-- `TIMER_INITIAL` -/
  timerInitial : ℕ
  /-- `TIMER_DIVIDE_CONFIGURATION` -/
  divide : ℕ
  /-- `LVT_TIMER` -/
  lvtTimer : ℕ
  deriving DecidableEq, Repr

/-- The variables of `lapic.cpp` that belong to the timer, `pit::time` and the registers. -/
structure State where
  time : ℕ
  /-- 0 = Waiting for first change, 1 = counting, 2 = done -/
  stage : ℕ
  deadline : ℕ
  callibrationTicks : ℕ
  ticksPerSec : ℕ
  calibrated : CpuId → Bool
  lapic : CpuId → Registers

/-- What a handler does besides writing variables and registers of the timer. -/
inductive Effect
  | eoi
  /-- `task::task_timer_yield()` -/
  | taskTimerYield
  deriving DecidableEq, Repr

namespace State

def setRegisters (s : State) (id : CpuId) (r : Registers) : State :=
  { s with lapic := Function.update s.lapic id r }

/-- `_write(TIMER_INITIAL, initial)` -/
def writeInitial (s : State) (id : CpuId) (initial : ℕ) : State :=
  s.setRegisters id { s.lapic id with timerInitial := initial }

/-- `_set_timer` -/
def setTimer (s : State) (id : CpuId) (initial divide : ℕ) : State :=
  s.setRegisters id ⟨initial, divide, timerModePeriodic ||| intLapicBase⟩

/-- `_calibrated[id] = true` -/
def setCalibrated (s : State) (id : CpuId) : State :=
  { s with calibrated := Function.update s.calibrated id true }

/-- `_ticks_per_sec / _CAL_DIV / SWITCHES_PER_SECOND` -/
def reload (s : State) : ℕ := s.ticksPerSec / calDiv / switchesPerSecond

end State

/-- `timer`, the handler of the timer of a CPU. -/
def timer (s : State) (id : CpuId) : State × List Effect :=
  if id = 0 then
    match s.stage with
    | 0 =>
        if s.deadline < s.time then
          ({ s with
              stage := 1
              deadline := (s.time + perSecond + 1) % 2 ^ 32
              callibrationTicks := 1 }, [.eoi])
        else (s, [.eoi])
    | 1 =>
        if s.deadline < s.time then
          let s := { s with
            stage := 2
            ticksPerSec := s.callibrationTicks * calInit % 2 ^ 32 * calDiv % 2 ^ 32 }
          ({ s.writeInitial 0 s.reload with callibrationTicks := 0 }, [.eoi])
        else ({ s with callibrationTicks := (s.callibrationTicks + 1) % 2 ^ 32 }, [.eoi])
    | 2 => (s, [.eoi, .taskTimerYield])
    | _ => (s, [.eoi])
  else if s.calibrated id then (s, [.eoi, .taskTimerYield])
  else if s.ticksPerSec ≠ 0 then
    (((s.setTimer id s.reload calDiv).writeInitial id s.reload).setCalibrated id, [.eoi])
  else (s, [.eoi])

/-- `pit::interrupt` -/
def pitInterrupt (s : State) : State := { s with time := (s.time + 1) % 2 ^ 32 }

/-- `setup`, of a CPU that starts. -/
def setup (s : State) (id : CpuId) : State := s.setTimer id calInit calDiv

inductive Move
  | pit
  | timer (id : CpuId)
  | setup (id : CpuId)
  deriving DecidableEq, Repr

/-- A timer interrupts when it has been set up and does not stand still; a CPU starts once. -/
def Possible (s : State) : Move → Prop
  | .pit => True
  | .timer id =>
      (s.lapic id).lvtTimer = timerModePeriodic ||| intLapicBase ∧ (s.lapic id).timerInitial ≠ 0
  | .setup id => (s.lapic id).lvtTimer = lvtMask

instance (s : State) : (m : Move) → Decidable (Possible s m)
  | .pit => isTrue trivial
  | .timer _ => inferInstanceAs (Decidable (_ ∧ _))
  | .setup _ => inferInstanceAs (Decidable (_ = _))

def after (s : State) : Move → State
  | .pit => pitInterrupt s
  | .timer id => (timer s id).1
  | .setup id => setup s id

def step (s : State) (m : Move) : Option State := if Possible s m then some (after s m) else none

/-- After `init` and `setup` on CPU 0. The timers of the other CPUs are as a reset leaves them. -/
def boot : State where
  time := 0
  stage := 0
  deadline := 0
  callibrationTicks := 0
  ticksPerSec := 0
  calibrated := fun _ => false
  lapic := Function.update (fun _ => ⟨0, 0, lvtMask⟩) 0
    ⟨calInit, calDiv, timerModePeriodic ||| intLapicBase⟩

variable {s s' : State} {m : Move} {ms : List Move} {id id' : CpuId} {n d : ℕ} {r : Registers}

section Fields

@[simp] theorem setRegisters_self : (s.setRegisters id r).lapic id = r := Function.update_self ..

theorem setRegisters_of_ne (h : id' ≠ id) : (s.setRegisters id r).lapic id' = s.lapic id' :=
  Function.update_of_ne h ..

end Fields

theorem step_eq_some : step s m = some s' ↔ Possible s m ∧ s' = after s m := by
  unfold step
  split_ifs with h
  · simp [h, eq_comm]
  · simp [h]

/-- What an interrupt of the timer of CPU 0 does. -/
theorem timer_zero (s : State) :
    (s.stage = 0 ∧ s.time ≤ s.deadline ∧ timer s 0 = (s, [.eoi])) ∨
    (s.stage = 0 ∧ s.deadline < s.time ∧ timer s 0 =
      ({ s with stage := 1, deadline := (s.time + perSecond + 1) % 2 ^ 32,
                callibrationTicks := 1 }, [.eoi])) ∨
    (s.stage = 1 ∧ s.time ≤ s.deadline ∧ timer s 0 =
      ({ s with callibrationTicks := (s.callibrationTicks + 1) % 2 ^ 32 }, [.eoi])) ∨
    (s.stage = 1 ∧ s.deadline < s.time ∧
      (timer s 0).2 = [.eoi] ∧ (timer s 0).1.stage = 2 ∧ (timer s 0).1.time = s.time ∧
      (timer s 0).1.ticksPerSec = s.callibrationTicks * calInit % 2 ^ 32 * calDiv % 2 ^ 32 ∧
      (timer s 0).1.calibrated = s.calibrated ∧
      (timer s 0).1.lapic = Function.update s.lapic 0
        { s.lapic 0 with timerInitial := (timer s 0).1.reload }) ∨
    (s.stage = 2 ∧ timer s 0 = (s, [.eoi, .taskTimerYield])) ∨
    (2 < s.stage ∧ timer s 0 = (s, [.eoi])) := by
  unfold timer
  rcases s with ⟨time, stage, deadline, ticks, tps, cal, lapic⟩
  match stage with
  | 0 =>
    by_cases h : deadline < time
    · simp [h]
    · simp [h, Nat.le_of_not_lt h]
  | 1 =>
    by_cases h : deadline < time
    · simp [h, State.writeInitial, State.setRegisters, State.reload]
    · simp [h, Nat.le_of_not_lt h]
  | 2 => simp
  | n + 3 => simp

/-- What an interrupt of the timer of another CPU does. -/
theorem timer_other (s : State) (hid : id ≠ 0) :
    (s.calibrated id = true ∧ timer s id = (s, [.eoi, .taskTimerYield])) ∨
    (s.calibrated id = false ∧ s.ticksPerSec ≠ 0 ∧ timer s id =
      ({ s with
          calibrated := Function.update s.calibrated id true
          lapic := Function.update s.lapic id
            ⟨s.reload, calDiv, timerModePeriodic ||| intLapicBase⟩ }, [.eoi])) ∨
    (s.calibrated id = false ∧ s.ticksPerSec = 0 ∧ timer s id = (s, [.eoi])) := by
  unfold timer
  rw [if_neg hid]
  rcases hc : s.calibrated id with _ | _
  · by_cases ht : s.ticksPerSec = 0
    · simp [ht]
    · simp [ht, State.writeInitial, State.setTimer, State.setRegisters, State.setCalibrated,
        State.reload]
  · simp

/-! ## The CPUs agree on the rate -/

/-- The registers of a CPU that is preempted. -/
def preempted (s : State) : Registers := ⟨s.reload, calDiv, timerModePeriodic ||| intLapicBase⟩

/-- What the timers of the CPUs are set to. -/
structure Agrees (s : State) : Prop where
  stage : s.stage ≤ 2
  unmeasured : s.stage ≠ 2 → s.ticksPerSec = 0
  first : ∃ n, s.lapic 0 = ⟨n, calDiv, timerModePeriodic ||| intLapicBase⟩
  measured : s.stage = 2 → s.lapic 0 = preempted s
  others : ∀ id, s.calibrated id = true → s.stage = 2 ∧ s.lapic id = preempted s

theorem agrees_boot : Agrees boot := by
  constructor
  · decide
  · intro _
    rfl
  · exact ⟨calInit, rfl⟩
  · intro h
    cases h
  · intro id h
    cases h

/-- Where neither the rate nor a register changes, the timers agree as before. -/
theorem Agrees.congr (h : Agrees s) (hstage : s'.stage = s.stage)
    (hticks : s'.ticksPerSec = s.ticksPerSec) (hcal : s'.calibrated = s.calibrated)
    (hlapic : s'.lapic = s.lapic) : Agrees s' := by
  have hp : preempted s' = preempted s := by simp only [preempted, State.reload, hticks]
  constructor
  · rw [hstage]
    exact h.stage
  · rw [hstage, hticks]
    exact h.unmeasured
  · rw [hlapic]
    exact h.first
  · rw [hstage, hlapic, hp]
    exact h.measured
  · intro id hid
    rw [hcal] at hid
    rw [hstage, hlapic, hp]
    exact h.others id hid

theorem Agrees.timer_zero (h : Agrees s) : Agrees (timer s 0).1 := by
  rcases Timer.timer_zero s with ⟨-, -, ht⟩ | ⟨hs, -, ht⟩ | ⟨hs, -, ht⟩ |
    ⟨hs, -, -, hstage, -, -, hcal, hlapic⟩ | ⟨-, ht⟩ | ⟨-, ht⟩
  · rwa [ht]
  · have hno : ∀ id, s.calibrated id ≠ true := by
      intro id hid
      have := (h.others id hid).1
      omega
    rw [ht]
    constructor
    · exact Nat.le_succ 1
    · intro _
      exact h.unmeasured (by omega)
    · exact h.first
    · intro h
      cases h
    · intro id hid
      exact absurd hid (hno id)
  · rw [ht]
    exact h.congr rfl rfl rfl rfl
  · -- CPU 0 has its rate; no other CPU can have one yet
    have hfirst : (timer s 0).1.lapic 0 = preempted (timer s 0).1 := by
      obtain ⟨n, hn⟩ := h.first
      rw [hlapic, Function.update_self, hn, preempted]
    constructor
    · omega
    · intro hne
      exact absurd hstage hne
    · exact ⟨_, hfirst⟩
    · intro _
      exact hfirst
    · intro id hid
      rw [hcal] at hid
      have := (h.others id hid).1
      omega
  · rwa [ht]
  · rwa [ht]

theorem Agrees.timer_other (h : Agrees s) (hid : id ≠ 0) : Agrees (timer s id).1 := by
  rcases Timer.timer_other s hid with ⟨-, ht⟩ | ⟨-, hne, ht⟩ | ⟨-, -, ht⟩
  · rwa [ht]
  · have hstage : s.stage = 2 := by
      by_contra hstage
      exact hne (h.unmeasured hstage)
    rw [ht]
    constructor
    · exact h.stage
    · exact h.unmeasured
    · obtain ⟨n, hn⟩ := h.first
      exact ⟨n, (Function.update_of_ne hid.symm ..).trans hn⟩
    · intro _
      exact (Function.update_of_ne hid.symm ..).trans (h.measured hstage)
    · intro id' hid'
      refine ⟨hstage, ?_⟩
      by_cases heq : id' = id
      · subst heq
        exact Function.update_self ..
      · have hold : s.calibrated id' = true := (Function.update_of_ne heq ..).symm.trans hid'
        exact (Function.update_of_ne heq ..).trans (h.others id' hold).2
  · rwa [ht]

theorem Agrees.setup (h : Agrees s) (hreset : (s.lapic id).lvtTimer = lvtMask) :
    Agrees (setup s id) := by
  have hmask : ¬ timerModePeriodic ||| intLapicBase = lvtMask := by decide
  have hid : id ≠ 0 := by
    intro heq
    obtain ⟨n, hn⟩ := h.first
    rw [heq, hn] at hreset
    exact hmask hreset
  constructor
  · exact h.stage
  · exact h.unmeasured
  · obtain ⟨n, hn⟩ := h.first
    exact ⟨n, (setRegisters_of_ne hid.symm).trans hn⟩
  · intro hstage
    exact (setRegisters_of_ne hid.symm).trans (h.measured hstage)
  · intro id' hid'
    obtain ⟨hstage, hlapic⟩ := h.others id' hid'
    have hne : id' ≠ id := by
      intro heq
      rw [← heq, hlapic] at hreset
      exact hmask hreset
    exact ⟨hstage, (setRegisters_of_ne hne).trans hlapic⟩

theorem Agrees.step (h : Agrees s) (hstep : step s m = some s') : Agrees s' := by
  obtain ⟨hpossible, rfl⟩ := step_eq_some.mp hstep
  cases m with
  | pit => exact h.congr rfl rfl rfl rfl
  | timer id =>
    by_cases hid : id = 0
    · subst hid
      exact h.timer_zero
    · exact h.timer_other hid
  | setup id => exact h.setup hpossible

theorem agrees_of_run (hs : Agrees s) (hrun : Steps.run step s ms = some s') : Agrees s' := by
  have hall : Steps.Along step (fun _ _ => True) s ms := Steps.along_true
  exact Steps.invariant (fun _ _ _ h _ hstep => h.step hstep) hs hall hrun

/-- A CPU that has its rate. -/
def State.Has (s : State) (id : CpuId) : Prop := s.stage = 2 ∧ (id = 0 ∨ s.calibrated id = true)

theorem State.Has.lapic (h : s.Has id) (hs : Agrees s) : s.lapic id = preempted s := by
  rcases h with ⟨hstage, rfl | hcal⟩
  · exact hs.measured hstage
  · exact (hs.others id hcal).2

theorem has_of_yields (hs : Agrees s) (hy : .taskTimerYield ∈ (timer s id).2) :
    s.Has id ∧ timer s id = (s, [.eoi, .taskTimerYield]) := by
  by_cases hid : id = 0
  · subst hid
    rcases timer_zero s with ⟨-, -, ht⟩ | ⟨-, -, ht⟩ | ⟨-, -, ht⟩ | ⟨-, -, ht, -⟩ | ⟨hstage, ht⟩ |
      ⟨hstage, -⟩
    · simp [ht] at hy
    · simp [ht] at hy
    · simp [ht] at hy
    · simp [ht] at hy
    · exact ⟨⟨hstage, .inl rfl⟩, ht⟩
    · have := hs.stage
      omega
  · rcases timer_other s hid with ⟨hcal, ht⟩ | ⟨-, -, ht⟩ | ⟨-, -, ht⟩
    · exact ⟨⟨(hs.others id hcal).1, .inr hcal⟩, ht⟩
    · simp [ht] at hy
    · simp [ht] at hy

/-- The rate of a CPU stays as it is. -/
theorem State.Has.step (h : s.Has id) (hstep : step s m = some s') :
    s'.Has id ∧ s'.ticksPerSec = s.ticksPerSec := by
  obtain ⟨-, rfl⟩ := step_eq_some.mp hstep
  obtain ⟨hstage, hid⟩ := h
  cases m with
  | pit => exact ⟨⟨hstage, hid⟩, rfl⟩
  | setup id' => exact ⟨⟨hstage, hid⟩, rfl⟩
  | timer id' =>
    by_cases hz : id' = 0
    · subst hz
      have ht : timer s 0 = (s, [.eoi, .taskTimerYield]) := by
        simp [timer, hstage]
      rw [after, ht]
      exact ⟨⟨hstage, hid⟩, rfl⟩
    · rcases timer_other s hz with ⟨-, ht⟩ | ⟨-, -, ht⟩ | ⟨-, -, ht⟩
      · rw [after, ht]
        exact ⟨⟨hstage, hid⟩, rfl⟩
      · rw [after, ht]
        refine ⟨⟨hstage, hid.imp_right fun hcal => ?_⟩, rfl⟩
        by_cases heq : id = id'
        · subst heq
          exact Function.update_self ..
        · exact (Function.update_of_ne heq ..).trans hcal
      · rw [after, ht]
        exact ⟨⟨hstage, hid⟩, rfl⟩

theorem State.Has.run (h : s.Has id) (hrun : Steps.run Timer.step s ms = some s') :
    s'.Has id ∧ s'.ticksPerSec = s.ticksPerSec := by
  induction ms generalizing s with
  | nil =>
    rw [Steps.run] at hrun
    exact Option.some.inj hrun ▸ ⟨h, rfl⟩
  | cons m ms ih =>
    obtain ⟨t, ht, hrest⟩ := Steps.run_cons.mp hrun
    obtain ⟨h', htps⟩ := h.step ht
    obtain ⟨h'', htps'⟩ := ih h' hrest
    exact ⟨h'', htps'.trans htps⟩

/-- In every interleaving of the interrupts of the timers: a CPU that is preempted by its timer
has acknowledged the interrupt, CPU 0 has finished its measurement, the timer reloads with
what CPU 0 has measured, as the one of CPU 0 does, and will ever after. -/
theorem yields_calibrated (hrun : Steps.run step boot ms = some s)
    (hy : .taskTimerYield ∈ (timer s id).2) :
    timer s id = (s, [.eoi, .taskTimerYield]) ∧ s.stage = 2 ∧
      ∀ ms' s', Steps.run step s ms' = some s' →
        s'.lapic id = ⟨s.reload, calDiv, timerModePeriodic ||| intLapicBase⟩ ∧
        s'.lapic 0 = s'.lapic id := by
  have hs : Agrees s := agrees_of_run agrees_boot hrun
  obtain ⟨h, ht⟩ := has_of_yields hs hy
  refine ⟨ht, h.1, fun ms' s' hrun' => ?_⟩
  have hs' : Agrees s' := agrees_of_run hs hrun'
  obtain ⟨h', htps⟩ := h.run hrun'
  have hp : preempted s' = preempted s := by simp only [preempted, State.reload, htps]
  have hid : s'.lapic id = preempted s := (h'.lapic hs').trans hp
  exact ⟨hid, ((hs'.measured h'.1).trans hp).trans hid.symm⟩

/-- The timer of CPU 0 interrupts after an interrupt of the PIT, and again when the PIT has
interrupted 84 times more. -/
def counting : List Move := .pit :: .timer 0 :: List.replicate 84 .pit

theorem exists_stage {k : ℕ} (ms : List Move)
    (h : (Steps.run step boot ms).map (·.stage) = some k) :
    ∃ s, Steps.run step boot ms = some s ∧ s.stage = k := by
  obtain ⟨s, hs, hk⟩ := Option.map_eq_some_iff.mp h
  exact ⟨s, hs, hk⟩

theorem yields_calibrated_counting : ∃ s, Steps.run step boot (counting ++ [.timer 0]) = some s ∧
    ∀ ms' s', Steps.run step s ms' = some s' → s'.lapic 0 = preempted s := by
  obtain ⟨s, hrun, hstage⟩ :=
    exists_stage (k := 2) (counting ++ [.timer 0]) (by decide +kernel)
  have hy : .taskTimerYield ∈ (timer s 0).2 := by simp [timer, hstage]
  exact ⟨s, hrun, fun ms' s' hrun' => ((yields_calibrated hrun hy).2.2 ms' s' hrun').1⟩

/-! ## What is measured -/

/-- How often the PIT has interrupted. -/
def pits (ms : List Move) : ℕ := ms.count .pit

/-- How often the timer of CPU 0 has interrupted. -/
def ticks (ms : List Move) : ℕ := ms.count (.timer 0)

@[simp] theorem pits_append (ms ms' : List Move) : pits (ms ++ ms') = pits ms + pits ms' :=
  List.count_append ..

@[simp] theorem ticks_append (ms ms' : List Move) : ticks (ms ++ ms') = ticks ms + ticks ms' :=
  List.count_append ..

@[simp] theorem pits_nil : pits [] = 0 := rfl

@[simp] theorem ticks_nil : ticks [] = 0 := rfl

@[simp] theorem pits_pit : pits (.pit :: ms) = pits ms + 1 := List.count_cons_self ..

@[simp] theorem pits_timer : pits (.timer id :: ms) = pits ms := List.count_cons_of_ne (by simp) ..

@[simp] theorem pits_setup : pits (.setup id :: ms) = pits ms := List.count_cons_of_ne (by simp) ..

@[simp] theorem ticks_timer : ticks (.timer 0 :: ms) = ticks ms + 1 := List.count_cons_self ..

theorem pits_of_ne (hm : m ≠ .pit) : pits (m :: ms) = pits ms := List.count_cons_of_ne hm ..

theorem ticks_of_ne (hm : m ≠ .timer 0) : ticks (m :: ms) = ticks ms := List.count_cons_of_ne hm ..

/-- The interrupts that are counted are those of CPU 0 from the first one after an interrupt of
the PIT, as long as the PIT has not interrupted `PER_SECOND + 2` times more. -/
structure Window (pre window : List Move) : Prop where
  started : 1 ≤ pits pre
  first : ∀ w, w ++ [.timer 0] <+: pre → pits w = 0
  counted : ∀ w, w ++ [.timer 0] <+: window → pits w ≤ perSecond + 1

/-- The moves that have been made, by the stage that they lead to. -/
inductive Phase (ms : List Move) (s : State) : Prop
  | waiting (stage : s.stage = 0) (deadline : s.deadline = 0)
      (first : ∀ w, w ++ [.timer 0] <+: ms → pits w = 0)
  | counting (pre window : List Move) (stage : s.stage = 1)
      (split : ms = pre ++ .timer 0 :: window) (counts : Window pre window)
      (deadline : s.deadline = pits pre + perSecond + 1)
      (counted : s.callibrationTicks = (1 + ticks window) % 2 ^ 32)
  | done (pre window post : List Move) (stage : s.stage = 2)
      (split : ms = pre ++ .timer 0 :: (window ++ .timer 0 :: post)) (counts : Window pre window)
      (full : perSecond + 2 ≤ pits window)
      (measured : s.ticksPerSec = (1 + ticks window) * (calInit * calDiv) % 2 ^ 32)

theorem first_concat_of_ne {k : ℕ} (hm : m ≠ .timer 0)
    (h : ∀ w, w ++ [.timer 0] <+: ms → pits w ≤ k) :
    ∀ w, w ++ [.timer 0] <+: ms ++ [m] → pits w ≤ k := by
  intro w hw
  rcases List.prefix_concat_iff.mp hw with heq | hw
  · exact absurd (List.append_inj_right' heq rfl) (by simpa using Ne.symm hm)
  · exact h w hw

theorem first_concat_timer {k : ℕ} (hk : pits ms ≤ k)
    (h : ∀ w, w ++ [.timer 0] <+: ms → pits w ≤ k) :
    ∀ w, w ++ [.timer 0] <+: ms ++ [.timer 0] → pits w ≤ k := by
  intro w hw
  rcases List.prefix_concat_iff.mp hw with heq | hw
  · rwa [List.append_inj_left' heq rfl]
  · exact h w hw

/-- A move that CPU 0 does not count. -/
theorem Phase.other (h : Phase ms s) (hm : m ≠ .timer 0) (hstage : s'.stage = s.stage)
    (hdeadline : s'.deadline = s.deadline) (hcount : s'.callibrationTicks = s.callibrationTicks)
    (hticks : s'.ticksPerSec = s.ticksPerSec) : Phase (ms ++ [m]) s' := by
  cases h with
  | waiting stage deadline first =>
    refine .waiting (hstage.trans stage) (hdeadline.trans deadline) fun w hw => ?_
    exact Nat.le_zero.mp (first_concat_of_ne hm (fun w hw => (first w hw).le) w hw)
  | counting pre window stage split counts deadline counted =>
    refine .counting pre (window ++ [m]) (hstage.trans stage) (by simp [split])
      { counts with counted := first_concat_of_ne hm counts.counted }
      (hdeadline.trans deadline) ?_
    rw [hcount, counted, ticks_append, ticks_of_ne hm, ticks_nil, Nat.add_zero]
  | done pre window post stage split counts full measured =>
    exact .done pre window (post ++ [m]) (hstage.trans stage) (by simp [split]) counts full
      (hticks.trans measured)

/-- An interrupt of the timer of CPU 0. -/
theorem Phase.timer (h : Phase ms s) (htime : s.time = pits ms)
    (hpits : pits ms + perSecond + 2 < 2 ^ 32) : Phase (ms ++ [.timer 0]) (Timer.timer s 0).1 := by
  cases h with
  | waiting stage deadline first =>
    by_cases hlt : s.deadline < s.time
    · have ht : (Timer.timer s 0).1 = { s with
          stage := 1, deadline := (s.time + perSecond + 1) % 2 ^ 32, callibrationTicks := 1 } := by
        simp [Timer.timer, stage, hlt]
      rw [ht]
      refine .counting ms [] rfl rfl ⟨by omega, first, ?_⟩ ?_ rfl
      · intro w hw
        simp at hw
      · show (s.time + perSecond + 1) % 2 ^ 32 = pits ms + perSecond + 1
        rw [htime]
        exact Nat.mod_eq_of_lt (by omega)
    · have ht : (Timer.timer s 0).1 = s := by
        simp [Timer.timer, stage, hlt]
      rw [ht]
      refine .waiting stage deadline fun w hw => ?_
      exact Nat.le_zero.mp
        (first_concat_timer (by omega) (fun w hw => (first w hw).le) w hw)
  | counting pre window stage split counts deadline counted =>
    have hsum : pits ms = pits pre + pits window := by simp [split]
    by_cases hlt : s.deadline < s.time
    · have ht : (Timer.timer s 0).1.ticksPerSec =
          s.callibrationTicks * calInit % 2 ^ 32 * calDiv % 2 ^ 32 ∧
          (Timer.timer s 0).1.stage = 2 := by
        simp [Timer.timer, stage, hlt, State.writeInitial, State.setRegisters]
      refine .done pre window [] ht.2 (by simp [split]) counts (by omega) ?_
      rw [ht.1, counted]
      simp only [calInit, calDiv]
      omega
    · have ht : (Timer.timer s 0).1 =
          { s with callibrationTicks := (s.callibrationTicks + 1) % 2 ^ 32 } := by
        simp [Timer.timer, stage, hlt]
      rw [ht]
      refine .counting pre (window ++ [.timer 0]) stage (by simp [split])
        { counts with counted := first_concat_timer (by omega) counts.counted } deadline ?_
      show (s.callibrationTicks + 1) % 2 ^ 32 = _
      rw [counted, ticks_append, ticks_timer, ticks_nil]
      omega
  | done pre window post stage split counts full measured =>
    have ht : (Timer.timer s 0).1 = s := by
      simp [Timer.timer, stage]
    rw [ht]
    exact .done pre window (post ++ [.timer 0]) stage (by simp [split]) counts full measured

theorem phase_step (h : pits ms + perSecond + 2 < 2 ^ 32 → s.time = pits ms ∧ Phase ms s)
    (hstep : step s m = some s') (hpits : pits (ms ++ [m]) + perSecond + 2 < 2 ^ 32) :
    s'.time = pits (ms ++ [m]) ∧ Phase (ms ++ [m]) s' := by
  obtain ⟨-, rfl⟩ := step_eq_some.mp hstep
  rw [pits_append] at hpits ⊢
  obtain ⟨htime, hphase⟩ := h (by omega)
  cases m with
  | pit =>
    refine ⟨?_, hphase.other (by simp) rfl rfl rfl rfl⟩
    simp only [pits_pit, pits_nil, Nat.zero_add] at hpits ⊢
    show (s.time + 1) % 2 ^ 32 = pits ms + 1
    rw [htime]
    exact Nat.mod_eq_of_lt (by omega)
  | setup id => exact ⟨htime, hphase.other (by simp) rfl rfl rfl rfl⟩
  | timer id =>
    by_cases hid : id = 0
    · subst hid
      refine ⟨?_, hphase.timer htime (by omega)⟩
      rcases timer_zero s with ⟨-, -, ht⟩ | ⟨-, -, ht⟩ | ⟨-, -, ht⟩ | ⟨-, -, -, -, ht, -⟩ |
        ⟨-, ht⟩ | ⟨-, ht⟩
      all_goals simp [after, ht, htime]
    · have hne : Move.timer id ≠ .timer 0 := by simpa using hid
      rcases timer_other s hid with ⟨-, ht⟩ | ⟨-, -, ht⟩ | ⟨-, -, ht⟩
      all_goals
        simp only [after, ht]
        exact ⟨htime, hphase.other hne rfl rfl rfl rfl⟩

theorem phase_run (hrun : Steps.run step boot ms = some s)
    (hpits : pits ms + perSecond + 2 < 2 ^ 32) : s.time = pits ms ∧ Phase ms s := by
  refine Steps.history (P := fun ms s => pits ms + perSecond + 2 < 2 ^ 32 →
    s.time = pits ms ∧ Phase ms s) ?_ ?_ hrun hpits
  · intro _
    refine ⟨rfl, .waiting rfl rfl fun w hw => ?_⟩
    simp at hw
  · intro ms t m t' h hstep hpits
    exact phase_step h hstep hpits

/-- In every interleaving in which `pit::time` does not wrap: when the measurement has ended, the
rate is that of the interrupts of CPU 0 from the first one after an interrupt of the PIT until the
PIT has interrupted 84 times more, and the timers reload with their number. -/
theorem reload_measured (hrun : Steps.run step boot ms = some s)
    (hpits : pits ms + perSecond + 2 < 2 ^ 32) (hstage : s.stage = 2) :
    ∃ pre window post, ms = pre ++ .timer 0 :: (window ++ .timer 0 :: post) ∧ Window pre window ∧
      perSecond + 2 ≤ pits window ∧
      s.ticksPerSec = (1 + ticks window) * (calInit * calDiv) % 2 ^ 32 ∧
      ((1 + ticks window) * (calInit * calDiv) < 2 ^ 32 → s.reload = 1 + ticks window) := by
  cases (phase_run hrun hpits).2 with
  | waiting stage => omega
  | counting pre window stage => omega
  | done pre window post _ split counts full measured =>
    refine ⟨pre, window, post, split, counts, full, measured, fun hlt => ?_⟩
    rw [State.reload, measured, Nat.mod_eq_of_lt hlt]
    simp only [calInit, calDiv, switchesPerSecond]
    omega

theorem reload_measured_counting : ∃ s, Steps.run step boot (counting ++ [.timer 0]) = some s ∧
    ∃ pre window post, counting ++ [.timer 0] = pre ++ .timer 0 :: (window ++ .timer 0 :: post) ∧
      Window pre window := by
  obtain ⟨s, hrun, hstage⟩ :=
    exists_stage (k := 2) (counting ++ [.timer 0]) (by decide +kernel)
  obtain ⟨pre, window, post, hsplit, hw, -⟩ := reload_measured hrun (by decide +kernel) hstage
  exact ⟨s, hrun, pre, window, post, hsplit, hw⟩

/-! ## Periodic timers -/

/-- The PIT is due at `p` and then every `P`, and the timer of CPU 0 at `t` and then every `L`. -/
def Due (P L : ℕ) : (p t : ℕ) → List Move → Prop
  | _, _, [] => True
  | p, t, m :: ms =>
      if m = .pit then p ≤ t ∧ Due P L (p + P) t ms
      else if m = .timer 0 then t ≤ p ∧ Due P L p (t + L) ms
      else Due P L p t ms

instance decidableDue (P L : ℕ) : ∀ p t ms, Decidable (Due P L p t ms)
  | _, _, [] => isTrue trivial
  | p, t, m :: ms =>
      have := decidableDue P L (p + P) t ms
      have := decidableDue P L p (t + L) ms
      have := decidableDue P L p t ms
      inferInstanceAs (Decidable (if m = .pit then p ≤ t ∧ Due P L (p + P) t ms
        else if m = .timer 0 then t ≤ p ∧ Due P L p (t + L) ms else Due P L p t ms))

section Due
variable {P L p t : ℕ} {ms' : List Move}

@[simp] theorem due_pit : Due P L p t (.pit :: ms) ↔ p ≤ t ∧ Due P L (p + P) t ms := by
  simp [Due]

@[simp] theorem due_timer : Due P L p t (.timer 0 :: ms) ↔ t ≤ p ∧ Due P L p (t + L) ms := by
  simp [Due]

theorem due_other (hp : m ≠ .pit) (ht : m ≠ .timer 0) :
    Due P L p t (m :: ms) ↔ Due P L p t ms := by
  simp [Due, hp, ht]

/-- Every interrupt moves the time at which the next one of its timer is due. -/
theorem due_append : Due P L p t (ms ++ ms') ↔
    Due P L p t ms ∧ Due P L (p + P * pits ms) (t + L * ticks ms) ms' := by
  induction ms generalizing p t with
  | nil => simp [Due]
  | cons m ms ih =>
    rw [List.cons_append]
    by_cases hp : m = .pit
    · subst hp
      have htime : p + P + P * pits ms = p + P * (pits ms + 1) := by ring
      rw [due_pit, due_pit, ih, and_assoc, pits_pit, ticks_of_ne (by simp), htime]
    · by_cases ht : m = .timer 0
      · subst ht
        have htime : t + L + L * ticks ms = t + L * (ticks ms + 1) := by ring
        rw [due_timer, due_timer, ih, and_assoc, pits_timer, ticks_timer, htime]
      · have hpits : pits (m :: ms) = pits ms := List.count_cons_of_ne hp
        rw [due_other hp ht, due_other hp ht, ih, hpits, ticks_of_ne ht]

/-- The PIT is not late. -/
theorem Due.pit_le (h : Due P L p t ms) (hpits : 1 ≤ pits ms) :
    p + P * pits ms ≤ t + L * ticks ms + P := by
  induction ms using List.reverseRecOn with
  | nil => simp at hpits
  | append_singleton ms m ih =>
    obtain ⟨hms, hm⟩ := due_append.mp h
    by_cases hp : m = .pit
    · subst hp
      have hle : p + P * pits ms ≤ t + L * ticks ms := (due_pit.mp hm).1
      rw [pits_append, ticks_append, pits_pit, ticks_of_ne (by simp)]
      simp only [pits_nil, ticks_nil, Nat.zero_add, Nat.add_zero, Nat.mul_add, Nat.mul_one]
      omega
    · have hsame : pits (ms ++ [m]) = pits ms := by
        rw [pits_append, pits_of_ne hp, pits_nil, Nat.add_zero]
      rw [hsame] at hpits ⊢
      have hle := ih hms hpits
      have hmono : L * ticks ms ≤ L * ticks (ms ++ [m]) :=
        Nat.mul_le_mul_left L (by rw [ticks_append]; omega)
      omega

theorem exists_last_tick (h : 1 ≤ ticks ms) : ∃ w w', ms = w ++ .timer 0 :: w' ∧ ticks w' = 0 := by
  induction ms using List.reverseRecOn with
  | nil => simp at h
  | append_singleton ms m ih =>
    by_cases hm : m = .timer 0
    · exact ⟨ms, [], by rw [hm], rfl⟩
    · rw [ticks_append, ticks_of_ne hm, ticks_nil, Nat.add_zero] at h
      obtain ⟨w, w', rfl, hw'⟩ := ih h
      refine ⟨w, w' ++ [m], by simp, ?_⟩
      rw [ticks_append, hw', ticks_of_ne hm, ticks_nil]

/-- The interrupts that are counted take between 83 and 84 periods of the PIT. -/
theorem Window.bounds {pre window : List Move} (hw : Window pre window)
    (hfull : perSecond + 2 ≤ pits window) (hdue : Due P L p t (pre ++ .timer 0 :: window)) :
    (perSecond + 1) * P ≤ (1 + ticks window) * L ∧
      (1 + ticks window) * L ≤ (perSecond + 2) * P + L := by
  obtain ⟨hpre, hrest⟩ := due_append.mp hdue
  generalize hp : p + P * pits pre = p₁ at hrest
  generalize ht : t + L * ticks pre = t₁ at hrest
  obtain ⟨hstart, hwindow⟩ := due_timer.mp hrest
  have hlate : p₁ ≤ t₁ + P := hp ▸ ht ▸ hpre.pit_le hw.started
  constructor
  · have hend := hwindow.pit_le (by omega)
    have hpits : P * (perSecond + 2) ≤ P * pits window := Nat.mul_le_mul_left P hfull
    have hlow : P * (perSecond + 2) = (perSecond + 1) * P + P := by ring
    have hlen : L * ticks window + L = (1 + ticks window) * L := by ring
    omega
  · rcases Nat.eq_zero_or_pos (ticks window) with hzero | hpos
    · rw [hzero]
      omega
    · obtain ⟨w, w', hsplit, hw'⟩ := exists_last_tick hpos
      have hlast : t₁ + L + L * ticks w ≤ p₁ + P * pits w :=
        (due_timer.mp (due_append.mp (hsplit ▸ hwindow)).2).1
      have hcounted : pits w ≤ perSecond + 1 := hw.counted w ⟨w', by simp [hsplit]⟩
      have hpits : P * pits w ≤ P * (perSecond + 1) := Nat.mul_le_mul_left P hcounted
      have hticks : ticks window = ticks w + 1 := by simp [hsplit, hw']
      have hhigh : P * (perSecond + 1) + P = (perSecond + 2) * P := by ring
      have hlen : (1 + ticks window) * L = L + L * ticks w + L := by rw [hticks]; ring
      omega

end Due

/-- With periodic timers that are not too fast for the arithmetic: `_CAL_INIT` ticks taking `L`,
the timers reload with a number `n` of ticks that make `_CAL_INIT * n` ticks, `n * L`, last from
83 to 84 periods of the PIT, to the interval of an interrupt. -/
theorem reload_accurate {P L p t : ℕ} (hrun : Steps.run step boot ms = some s)
    (hstep : step s (.timer 0) = some s') (hcounting : s.stage = 1) (hdone : s'.stage = 2)
    (hdue : Due P L p t ms) (hpits : pits ms + perSecond + 2 < 2 ^ 32)
    (hslow : ((perSecond + 2) * P + L) * (calInit * calDiv) < 2 ^ 32 * L) :
    (perSecond + 1) * P ≤ s'.reload * L ∧ s'.reload * L ≤ (perSecond + 2) * P + L := by
  obtain ⟨htime, hphase⟩ := phase_run hrun hpits
  obtain ⟨-, rfl⟩ := step_eq_some.mp hstep
  cases hphase with
  | waiting stage => omega
  | done pre window post stage => omega
  | counting pre window stage split counts deadline counted =>
    rcases timer_zero s with ⟨h0, -⟩ | ⟨h0, -⟩ | ⟨-, -, ht⟩ | ⟨-, hlt, -, -, -, htps, -⟩ | ⟨h2, -⟩ |
      ⟨h3, -⟩
    · omega
    · omega
    · simp only [after, ht] at hdone
      omega
    · have hfull : perSecond + 2 ≤ pits window := by
        have hsum : pits ms = pits pre + pits window := by simp [split]
        omega
      have hbounds := counts.bounds hfull (split ▸ hdue)
      have hexact : (1 + ticks window) * (calInit * calDiv) < 2 ^ 32 := by
        refine Nat.lt_of_mul_lt_mul_right (a := L) (lt_of_le_of_lt ?_ hslow)
        calc (1 + ticks window) * (calInit * calDiv) * L
            = (1 + ticks window) * L * (calInit * calDiv) := by ring
          _ ≤ ((perSecond + 2) * P + L) * (calInit * calDiv) :=
              Nat.mul_le_mul_right _ hbounds.2
      have hreload : (after s (.timer 0)).reload = 1 + ticks window := by
        simp only [calInit, calDiv] at hexact
        simp only [after, State.reload, htps, counted, calInit, calDiv, switchesPerSecond]
        omega
      rwa [hreload]
    · omega
    · omega

/-- The timer of CPU 0 interrupts every 84 periods of the PIT. -/
theorem reload_accurate_counting : ∃ s s', Steps.run step boot counting = some s ∧
    step s (.timer 0) = some s' ∧ 83 ≤ s'.reload * 84 ∧ s'.reload * 84 ≤ 168 := by
  obtain ⟨s', hrun', hdone⟩ :=
    exists_stage (k := 2) (counting ++ [.timer 0]) (by decide +kernel)
  obtain ⟨s, hrun, hstage⟩ := exists_stage (k := 1) counting (by decide +kernel)
  obtain ⟨t, ht, hstep⟩ := Steps.run_concat.mp hrun'
  obtain rfl := Option.some.inj (hrun.symm.trans ht)
  exact ⟨s, s', hrun, hstep, reload_accurate (P := 1) (L := 84) (p := 0) (t := 0) hrun hstep hstage
    hdone (by decide +kernel) (by decide +kernel) (by decide)⟩

end Cantos.Timer
