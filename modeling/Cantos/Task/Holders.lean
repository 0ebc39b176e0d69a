import Cantos.Task.Machine

/-!
# Threads that hold the locks of the scheduler

`new_thread` and `resume` take `_mutex` and `waiting_mutex` with the interrupts on, so a
timer interrupt may switch out the thread that holds one.  The CPU then waits for the lock
in `task_yield_done` or in `schedule`, and the thread can only run again once a CPU has taken
it.  As long as no thread is switched out with a lock, the scheduler waits for no thread that
does not run.

## Main definitions

* `Machine.HoldersRun`: a CPU without a thread waits for no thread that is not running.
* `Machine.keepsHolders`: the moves that switch out no thread that holds a lock.
-/

namespace Cantos

open Steps

/-- A frame of a thread that saves none: not one of `schedule`. -/
def Frame.plain : Frame → Bool
  | .park _ | .schedule | .pick | .use _ | .enter _ | .ending _ | .done _ _ _ => false
  | _ => true

/-- A frame of a thread. -/
inductive Frame.Runs : Frame → Prop
  | plain {f : Frame} (h : f.plain) : f.Runs
  | done {stack : Stack} {eflags : Bool} {frames : List Frame} (h : ∀ f ∈ frames, f.Runs) :
      Runs (.done stack eflags frames)

theorem Frame.Runs.cons {f : Frame} {frames : List Frame} (h : f.plain)
    (hframes : ∀ f ∈ frames, f.Runs) : ∀ f' ∈ f :: frames, f'.Runs :=
  List.forall_mem_cons.mpr ⟨.plain h, hframes⟩

namespace Machine

/-- `task_yield_done` and `schedule` wait for the lock on the CPU. -/
def waits (s : Machine) (c : ℕ) (l : Lock) : Bool :=
  (s.cpu c).thread.isNone &&
    match (s.cpu c).frames with
    | .lock l' :: _ => l' = l
    | .schedule :: _ => l = .waiting
    | _ => false

/-- A thread a CPU waits for, when it runs none itself, is running. -/
def HoldersRun (s : Machine) : Prop :=
  ∀ c l t, s.waits c l → s.holder l = some (.thread t) → ∃ c', (s.cpu c').thread = some t

/-- The thread of the CPU holds no lock. -/
def holdsNone (s : Machine) (c : ℕ) : Bool :=
  match (s.cpu c).thread with
  | none => true
  | some t => s.holder .waiting ≠ some (.thread t) && s.holder .task ≠ some (.thread t)

/-- A thread that is switched out, or ends, holds no lock. -/
def keepsHolders (s : Machine) : Move → Bool
  | .taskEnd c => s.holdsNone c
  | .advance c =>
      match (s.cpu c).frames with
      | .done _ _ _ :: _ => s.holdsNone c
      | _ => true
  | _ => true

/-- The invariant. -/
structure Held (s : Machine) : Prop where
  cpu : ∀ c, (s.cpu c).thread.isSome → ∀ f ∈ (s.cpu c).frames, f.Runs
  context : ∀ t, ∀ f ∈ (s.context t).frames, f.Runs
  holder : ∀ l t, s.holder l = some (.thread t) → ∃ c, (s.cpu c).thread = some t

section Invariant
variable {s s' : Machine} {c t : ℕ} {k : Cpu} {l l' : Lock} {top : Frame} {rest : List Frame}

theorem Held.holdersRun (h : Held s) : HoldersRun s :=
  fun _ l t _ => h.holder l t

theorem holdsNone_ne (h : s.holdsNone c) (hthread : (s.cpu c).thread = some t) :
    s.holder l ≠ some (.thread t) := by
  rw [holdsNone, hthread] at h
  cases l <;> simp_all

theorem of_setHolder_none (hl : (s.setHolder l none).holder l' = some (.thread t)) :
    s.holder l' = some (.thread t) := by
  by_cases heq : l' = l
  · simp [setHolder, heq] at hl
  · simpa [setHolder, Function.update_of_ne heq] using hl

theorem of_setHolder_taker (hl : (s.setHolder l (some (s.taker c))).holder l' = some (.thread t)) :
    s.holder l' = some (.thread t) ∨ (s.cpu c).thread = some t := by
  by_cases heq : l' = l
  · right
    simp only [setHolder, heq, Function.update_self, taker, Option.some.injEq] at hl
    split at hl <;> simp_all
  · left
    simpa [setHolder, Function.update_of_ne heq] using hl

theorem Held.update_context (h : Held s) {context : Context}
    (hframes : ∀ f ∈ context.frames, f.Runs) :
    ∀ t', ∀ f ∈ (Function.update s.context t context t').frames, f.Runs := by
  intro t'
  by_cases heq : t' = t
  · subst heq
    rwa [Function.update_self]
  · rw [Function.update_of_ne heq]
    exact h.context t'

/-- The CPU keeps its thread. -/
theorem Held.setCpu (h : Held s) (hcpu : s'.cpu = Function.update s.cpu c k)
    (hthread : k.thread = (s.cpu c).thread)
    (hframes : (s.cpu c).thread.isSome → ∀ f ∈ k.frames, f.Runs)
    (hcontext : ∀ t, ∀ f ∈ (s'.context t).frames, f.Runs)
    (hholder : ∀ l t, s'.holder l = some (.thread t) →
      s.holder l = some (.thread t) ∨ (s.cpu c).thread = some t) : Held s' where
  cpu c' := by
    rw [hcpu]
    by_cases hc : c' = c
    · subst hc
      rwa [Function.update_self, hthread]
    · rw [Function.update_of_ne hc]
      exact h.cpu c'
  context := hcontext
  holder l t hl := by
    have hrun : ∃ c', (s.cpu c').thread = some t := by
      rcases hholder l t hl with hold | hnew
      · exact h.holder l t hold
      · exact ⟨c, hnew⟩
    obtain ⟨c', hc'⟩ := hrun
    refine ⟨c', ?_⟩
    rw [hcpu]
    by_cases hc : c' = c
    · subst hc
      rwa [Function.update_self, hthread]
    · rwa [Function.update_of_ne hc]

/-- The CPU leaves a thread that holds no lock. -/
theorem Held.leave (h : Held s) (hnone : s.holdsNone c)
    (hcpu : s'.cpu = Function.update s.cpu c k) (hthread : k.thread = none)
    (hcontext : ∀ t, ∀ f ∈ (s'.context t).frames, f.Runs)
    (hholder : s'.holder = s.holder) : Held s' where
  cpu c' := by
    rw [hcpu]
    by_cases hc : c' = c
    · subst hc
      simp [hthread]
    · rw [Function.update_of_ne hc]
      exact h.cpu c'
  context := hcontext
  holder l t hl := by
    rw [hholder] at hl
    obtain ⟨c', hc'⟩ := h.holder l t hl
    refine ⟨c', ?_⟩
    have hc : c' ≠ c := by
      rintro rfl
      exact holdsNone_ne hnone hc' hl
    rwa [hcpu, Function.update_of_ne hc]

/-- A CPU without a thread enters one. -/
theorem Held.enter (h : Held s) (hnone : (s.cpu c).thread = none) :
    Held (s.setCpu c ⟨some t, (s.context t).eflags, (s.context t).stack, (s.context t).frames⟩) where
  cpu c' := by
    by_cases hc : c' = c
    · subst hc
      simpa [Machine.setCpu] using h.context t
    · simpa [Machine.setCpu, Function.update_of_ne hc] using h.cpu c'
  context := h.context
  holder l t' hl := by
    obtain ⟨c', hc'⟩ := h.holder l t' hl
    have hc : c' ≠ c := by
      rintro rfl
      simp [hnone] at hc'
    exact ⟨c', by simpa [Machine.setCpu, Function.update_of_ne hc] using hc'⟩

/-- A CPU with a frame of `schedule` has no thread. -/
theorem Held.idle (h : Held s) (hf : (s.cpu c).frames = top :: rest) (hplain : top.plain = false)
    (hdone : ∀ stack eflags frames, top ≠ .done stack eflags frames) :
    (s.cpu c).thread = none := by
  by_contra hthread
  have hruns := h.cpu c (Option.isSome_iff_ne_none.mpr hthread) top (hf ▸ List.mem_cons_self)
  cases hruns with
  | plain htop => simp [hplain] at htop
  | done => exact hdone _ _ _ rfl

theorem Held.advance (h : Held s) (hf : (s.cpu c).frames = top :: rest)
    (hdone : ∀ stack eflags frames, top = .done stack eflags frames → s.holdsNone c)
    (hs' : s.advance c top rest = some s') : Held s' := by
  have hrest : (s.cpu c).thread.isSome → ∀ f ∈ rest, f.Runs :=
    fun hthread f hmem => h.cpu c hthread f (hf ▸ List.mem_cons_of_mem _ hmem)
  cases top with
  | code => cases hs'
  | timer =>
    simp only [Machine.advance, callYield] at hs'
    split_ifs at hs' with hnone
    · cases hs'
      exact h.setCpu rfl rfl (fun hthread => .cons rfl (hrest hthread)) h.context (fun l t => .inl)
    · cases hs'
      refine h.setCpu rfl rfl (fun hthread => ?_) h.context (fun l t => .inl)
      exact .cons rfl (.cons rfl (hrest hthread))
  | timerOut =>
    cases hs'
    exact h.setCpu rfl rfl hrest h.context (fun l t => .inl)
  | pushed eflags | haveRead eflags inThread stack =>
    cases hs'
    exact h.setCpu rfl rfl (fun hthread => .cons rfl (hrest hthread)) h.context (fun l t => .inl)
  | popped inThread stack =>
    cases inThread with
    | false =>
      cases hs'
      exact h.setCpu rfl rfl hrest h.context (fun l t => .inl)
    | true =>
      cases hs'
      refine h.setCpu rfl rfl (fun hthread => ?_) h.context (fun l t => .inl)
      simpa using Frame.Runs.done (hrest hthread)
  | done stack eflags frames =>
    simp only [Machine.advance] at hs'
    split at hs'
    next => cases hs'
    next t ht =>
      cases hs'
      have hruns : (Frame.done stack eflags frames).Runs :=
        h.cpu c (by simp [ht]) _ (hf ▸ List.mem_cons_self)
      refine h.leave (hdone _ _ _ rfl) rfl rfl (h.update_context ?_) rfl
      cases hruns with
      | plain hplain => cases hplain
      | done hframes => exact hframes
  | lock l =>
    simp only [Machine.advance, callYield] at hs'
    split_ifs at hs' with hfree hyield
    · cases hs'
      exact h.setCpu rfl rfl hrest h.context fun l t => of_setHolder_taker
    · cases hs'
      refine h.setCpu rfl rfl (fun hthread => ?_) h.context (fun l t => .inl)
      exact .cons rfl (.cons rfl (hrest hthread))
    · cases hs'
      exact h
  | enter t =>
    cases hs'
    exact h.enter (h.idle hf rfl (by simp))
  | construct =>
    cases hs'
    refine h.setCpu rfl rfl (fun hthread => .cons rfl (hrest hthread))
      (h.update_context (.cons rfl (by simp))) fun l t hl => .inl (of_setHolder_none hl)
  | adopt t =>
    cases hs'
    refine h.setCpu rfl rfl (fun hthread => ?_) h.context (fun l t => .inl)
    exact .cons rfl (.cons rfl (hrest hthread))
  | check t =>
    simp only [Machine.advance] at hs'
    split_ifs at hs' with hwchan
    · cases hs'
      refine h.setCpu rfl rfl (fun hthread => ?_) h.context fun l t hl => .inl (of_setHolder_none hl)
      exact .cons rfl (.cons rfl (hrest hthread))
    · cases hs'
      exact h.setCpu rfl rfl hrest h.context fun l t hl => .inl (of_setHolder_none hl)
  | push t =>
    cases hs'
    exact h.setCpu rfl rfl hrest h.context fun l t hl => .inl (of_setHolder_none hl)
  | park t | ending t =>
    have hnone := h.idle hf rfl (by simp)
    cases hs'
    refine h.setCpu rfl rfl (fun hthread => ?_) h.context fun l t hl => .inl (of_setHolder_none hl)
    simp [hnone] at hthread
  | pick | use next =>
    have hnone := h.idle hf rfl (by simp)
    simp only [Machine.advance] at hs'
    split at hs'
    next => cases hs'
    next =>
      cases hs'
      refine h.setCpu rfl rfl (fun hthread => ?_) h.context fun l t hl => .inl (of_setHolder_none hl)
      simp [hnone] at hthread
  | schedule =>
    have hnone := h.idle hf rfl (by simp)
    simp only [Machine.advance] at hs'
    split_ifs at hs' with hwait
    · cases hs'
      refine h.setCpu rfl rfl (fun hthread => ?_) h.context (fun l t => .inl)
      simp [hnone] at hthread
    · cases hs'
      refine h.setCpu rfl rfl (fun hthread => ?_) h.context fun l t => of_setHolder_taker
      simp [hnone] at hthread

/-- One move. -/
theorem Held.step {m : Move} (h : Held s) (hm : s.keepsHolders m) (hs' : s.step m = some s') :
    Held s' := by
  cases m with
  | interrupts c on =>
    simp only [Machine.step] at hs'
    split_ifs at hs'
    cases hs'
    exact h.setCpu rfl rfl (h.cpu c) h.context (fun l t => .inl)
  | yield c =>
    simp only [Machine.step, callYield] at hs'
    split_ifs at hs'
    cases hs'
    exact h.setCpu rfl rfl (fun hthread => .cons rfl (h.cpu c hthread)) h.context (fun l t => .inl)
  | wait c wchan =>
    simp only [Machine.step, callYield] at hs'
    split at hs'
    next => cases hs'
    next =>
      split_ifs at hs'
      cases hs'
      exact h.setCpu rfl rfl (fun hthread => .cons rfl (h.cpu c hthread)) h.context
        (fun l t => .inl)
  | newThread c | resume c t =>
    simp only [Machine.step] at hs'
    split_ifs at hs'
    cases hs'
    exact h.setCpu rfl rfl (fun hthread => .cons rfl (.cons rfl (h.cpu c hthread))) h.context
      (fun l t => .inl)
  | taskEnd c =>
    simp only [Machine.step] at hs'
    split at hs'
    next => cases hs'
    next t ht =>
      split_ifs at hs'
      cases hs'
      exact h.leave hm rfl rfl h.context rfl
  | schedule c =>
    simp only [Machine.step] at hs'
    split_ifs at hs' with hc
    cases hs'
    refine h.setCpu rfl rfl (fun hthread => ?_) h.context (fun l t => .inl)
    simp [Option.isNone_iff_eq_none.mp hc.2] at hthread
  | tick c =>
    simp only [Machine.step] at hs'
    split_ifs at hs'
    cases hs'
    exact h.setCpu rfl rfl (fun hthread => .cons rfl (h.cpu c hthread)) h.context (fun l t => .inl)
  | advance c =>
    simp only [Machine.step] at hs'
    split at hs'
    next => cases hs'
    next top rest hf =>
      apply h.advance hf _ hs'
      rintro stack eflags frames rfl
      simpa [keepsHolders, hf] using hm

end Invariant

theorem Boots.held {s : Machine} (h : Boots s) : Held s where
  cpu c hthread := by simp [h.thread c] at hthread
  context t := by simp [h.context t]
  holder l t hl := by simp [h.holder l] at hl

/-- In every run in which no thread is switched out with a lock, the scheduler waits for no
thread that is not running. -/
theorem holdersRun_run {s s' : Machine} {ms : List Move} (h : Boots s)
    (hms : Along step (keepsHolders · ·) s ms) (hrun : run step s ms = some s') : HoldersRun s' :=
  (invariant (fun _ _ _ => Held.step) h.held hms hrun).holdersRun

/-- A thread makes another one, yields, and is switched out and in again. -/
def newThreadMoves : List Move :=
  enterMoves ++ .newThread 0 :: List.replicate 5 (.advance 0) ++
    .yield 0 :: List.replicate 11 (.advance 0)

theorem holdersRun_newThread :
    ∃ s', run step boot newThreadMoves = some s' ∧ HoldersRun s' := by
  have hrun : (run step boot newThreadMoves).isSome := by decide
  obtain ⟨s', hs'⟩ := Option.isSome_iff_exists.mp hrun
  exact ⟨s', hs', holdersRun_run boot_boots (by decide) hs'⟩

/-- A tick comes in when the thread holds `waiting_mutex` in `new_thread`. -/
def heldMoves : List Move :=
  enterMoves ++ .newThread 0 :: List.replicate 4 (.advance 0) ++
    .tick 0 :: List.replicate 5 (.advance 0)

/-- `task_yield_done` waits for the thread that it has just switched out. -/
theorem not_holdersRun_tick : ¬ ∀ ms s', run step boot ms = some s' → HoldersRun s' := by
  intro h
  have hrun : ∃ s' ∈ run step boot heldMoves, s'.waits 0 .waiting ∧
      s'.holder .waiting = some (.thread 0) ∧ (s'.cpu 0).thread = none := by
    decide
  obtain ⟨s', hs', hwaits, hholder, hnone⟩ := hrun
  obtain ⟨c, hc⟩ := h heldMoves s' hs' 0 .waiting 0 hwaits hholder
  have hboot : (s'.cpu c).thread = none := by
    by_cases h0 : c = 0
    · rwa [h0]
    · rw [run_cpu hs' fun m hm => ?_]
      · exact boot_boots.thread c
      · have hmoves : ∀ m ∈ heldMoves, m.cpu = 0 := by decide
        rwa [hmoves m hm]
  rw [hboot] at hc
  cases hc

end Machine

end Cantos
