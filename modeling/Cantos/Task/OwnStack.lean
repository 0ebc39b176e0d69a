import Cantos.Task.Machine

/-!
# CPUs that switch on their own stacks

`task_yield` reads the stack of its CPU with the interrupts off, and gives them back before
it uses the value.  A thread that is switched out in between may go on on another CPU, and
then moves to a stack that is not its own.  Nothing else goes wrong: as long as no thread is
resumed in this window on another CPU, every CPU keeps to its own stack.

## Main definitions

* `Machine.OwnStacks`: no CPU is on the stack of another.
* `Machine.keepsCpu`: the moves that do not resume a thread in the window elsewhere.
-/

namespace Cantos

open Steps

/-- What a frame knows about the stack of its CPU is right. -/
def Frame.own (c : ℕ) : Frame → Bool
  | .haveRead _ true stack | .popped true stack => stack = c
  | .done stack _ _ => !stack.isCpu
  | _ => true

/-- The frame does not go on to leave the stack it is on. -/
def Frame.stays : Frame → Bool
  | .haveRead _ true _ | .popped true _ | .done _ _ _ => false
  | _ => true

theorem Frame.own_of_stays {f : Frame} (h : f.stays) (c : ℕ) : f.own c := by
  unfold Frame.stays at h
  unfold Frame.own
  split at h <;> simp_all

namespace Machine

/-- Every CPU that is on the stack of a CPU is on its own. -/
def OwnStacks (s : Machine) : Prop := ∀ c x, (s.cpu c).stack = .cpu x → x = c

/-- A timer interrupt does not come in between the move to the stack of the CPU and the
`cli` of `task_yield_done`, and a thread that has read the stack of its CPU in a
`task_yield` it has not finished is not resumed on another CPU. -/
def keepsCpu (s : Machine) : Move → Bool
  | .tick c =>
      match (s.cpu c).frames with
      | .done _ _ _ :: _ => false
      | _ => true
  | .advance c =>
      match (s.cpu c).frames with
      | .enter t :: _ => (s.context t).frames.all (Frame.own c)
      | _ => true
  | _ => true

/-- The state of a CPU that keeps to its stack. -/
structure CpuOwn (c : ℕ) (k : Cpu) : Prop where
  own : ∀ x, k.stack = .cpu x → x = c
  frames : ∀ f ∈ k.frames, f.own c
  /-- On the stack of a CPU no thread is running, or it is just being switched out. -/
  kernel : (k.stack.isCpu = false) ∨ (k.thread = none ∧ ∀ f ∈ k.frames, f.stays) ∨
    ∃ stack eflags frames, k.frames = [.done stack eflags frames]

/-- The invariant: no context lies on the stack of a CPU. -/
structure Owned (s : Machine) : Prop where
  cpu : ∀ c, CpuOwn c (s.cpu c)
  context : ∀ t, (s.context t).stack.isCpu = false

section Invariant
variable {s s' : Machine} {c : ℕ} {k : Cpu} {top : Frame} {rest fs : List Frame} {i : Bool}

theorem Owned.update (h : Owned s) (hk : CpuOwn c k) (c' : ℕ) :
    CpuOwn c' (Function.update s.cpu c k c') := by
  by_cases hc : c' = c
  · subst hc
    rwa [Function.update_self]
  · rw [Function.update_of_ne hc]
    exact h.cpu c'

theorem Owned.setCpu (h : Owned s) (hk : CpuOwn c k) (hcpu : s'.cpu = Function.update s.cpu c k)
    (hcontext : s'.context = s.context) : Owned s' where
  cpu := by
    rw [hcpu]
    exact h.update hk
  context := by
    rw [hcontext]
    exact h.context

/-- Frames that stay may be added to the frames of a CPU that is not switching out. -/
theorem CpuOwn.replace (h : CpuOwn c k)
    (hdone : ∀ stack eflags frames rest, k.frames ≠ .done stack eflags frames :: rest)
    (hfs : ∀ f ∈ fs, f.stays ∨ f ∈ k.frames) :
    CpuOwn c { k with interrupts := i, frames := fs } where
  own := h.own
  frames f hmem := by
    rcases hfs f hmem with hstays | hold
    · exact Frame.own_of_stays hstays c
    · exact h.frames f hold
  kernel := by
    rcases h.kernel with hout | ⟨hnone, hstays⟩ | ⟨stack, eflags, frames, heq⟩
    · exact .inl hout
    · refine .inr (.inl ⟨hnone, fun f hmem => ?_⟩)
      rcases hfs f hmem with hf' | hold
      · exact hf'
      · exact hstays f hold
    · exact absurd heq (hdone _ _ _ _)

/-- A CPU with a thread is on the stack of a CPU only to switch it out. -/
theorem CpuOwn.out (h : CpuOwn c k)
    (hdone : ∀ stack eflags frames rest, k.frames ≠ .done stack eflags frames :: rest)
    (hleave : k.thread ≠ none ∨ ∃ f ∈ k.frames, ¬ f.stays) : k.stack.isCpu = false := by
  rcases h.kernel with hout | ⟨hnone, hstays⟩ | ⟨stack, eflags, frames, heq⟩
  · exact hout
  · rcases hleave with hthread | ⟨f, hf, hnot⟩
    · exact absurd hnone hthread
    · exact absurd (hstays f hf) hnot
  · exact absurd heq (hdone _ _ _ _)

/-- A CPU without a thread. -/
theorem cpuOwn_idle {stack : Stack} (hown : ∀ x, stack = .cpu x → x = c)
    (hfs : ∀ f ∈ fs, f.stays) : CpuOwn c ⟨none, i, stack, fs⟩ where
  own := hown
  frames f hf := Frame.own_of_stays (hfs f hf) c
  kernel := .inr (.inl ⟨rfl, hfs⟩)

/-- A CPU that is on no stack of a CPU. -/
theorem cpuOwn_out {thread : Option ℕ} {stack : Stack} (hout : stack.isCpu = false)
    (hfs : ∀ f ∈ fs, f.own c) : CpuOwn c ⟨thread, i, stack, fs⟩ where
  own x hx := by simp [show stack = .cpu x from hx, Stack.isCpu] at hout
  frames := hfs
  kernel := .inl hout

/-- A frame that goes on keeps the CPU on its stack. -/
theorem Owned.advance (h : Owned s) (hf : (s.cpu c).frames = top :: rest)
    (henter : ∀ t, top = .enter t → ∀ f ∈ (s.context t).frames, f.own c)
    (hs' : s.advance c top rest = some s') : Owned s' := by
  have hc := h.cpu c
  have htop : top.own c := hc.frames top (hf ▸ List.mem_cons_self)
  have hrest : ∀ f ∈ rest, f ∈ (s.cpu c).frames := fun f hmem => hf ▸ List.mem_cons_of_mem _ hmem
  cases top with
  | code => cases hs'
  | timer =>
    simp only [Machine.advance, callYield] at hs'
    split_ifs at hs' <;> cases hs' <;>
      exact h.setCpu (hc.replace (by simp [hf]) (by simp +contextual [Frame.stays, hrest])) rfl rfl
  | timerOut =>
    cases hs'
    exact h.setCpu (hc.replace (by simp [hf]) (by simp +contextual [hrest])) rfl rfl
  | pushed eflags =>
    cases hs'
    refine h.setCpu ?_ rfl rfl
    by_cases hthread : (s.cpu c).thread = none
    · apply hc.replace (by simp [hf])
      simp +contextual [Frame.stays, hthread, hrest]
    · apply cpuOwn_out (hc.out (by simp [hf]) (.inl hthread))
      intro f hmem
      rcases List.mem_cons.mp hmem with rfl | hmem
      · simp [Frame.own, Option.isSome_iff_ne_none.mpr hthread]
      · exact hc.frames f (hrest f hmem)
  | haveRead eflags inThread stack =>
    cases hs'
    refine h.setCpu ?_ rfl rfl
    cases inThread with
    | false =>
      apply hc.replace (by simp [hf])
      simp +contextual [Frame.stays, hrest]
    | true =>
      apply cpuOwn_out (hc.out (by simp [hf]) (.inr ⟨_, hf ▸ List.mem_cons_self, by simp [Frame.stays]⟩))
      intro f hmem
      rcases List.mem_cons.mp hmem with rfl | hmem
      · exact htop
      · exact hc.frames f (hrest f hmem)
  | popped inThread stack =>
    cases inThread with
    | false =>
      cases hs'
      exact h.setCpu (hc.replace (by simp [hf]) (by simp +contextual [hrest])) rfl rfl
    | true =>
      cases hs'
      have hout := hc.out (by simp [hf]) (.inr ⟨_, hf ▸ List.mem_cons_self, by simp [Frame.stays]⟩)
      refine h.setCpu ?_ rfl rfl
      exact
        { own := fun x hx => by simpa [Frame.own, ← Stack.cpu.inj hx, eq_comm] using htop
          frames := by simpa [Frame.own] using hout
          kernel := .inr (.inr ⟨_, _, _, rfl⟩) }
  | done stack eflags frames =>
    simp only [Machine.advance] at hs'
    split at hs'
    next => cases hs'
    next t ht =>
      cases hs'
      have hidle : CpuOwn c ⟨none, true, (s.cpu c).stack, [.lock .waiting, .park t]⟩ :=
        cpuOwn_idle hc.own (by simp [Frame.stays])
      refine ⟨h.update hidle, fun t' => ?_⟩
      by_cases heq : t' = t
      · subst heq
        simpa [Frame.own] using htop
      · simpa [Function.update_of_ne heq] using h.context t'
  | lock l =>
    simp only [Machine.advance, callYield] at hs'
    split_ifs at hs' <;> cases hs'
    · exact h.setCpu (hc.replace (by simp [hf]) (by simp +contextual [hrest])) rfl rfl
    · exact h.setCpu (hc.replace (by simp [hf]) (by simp +contextual [Frame.stays, hrest])) rfl rfl
    · exact h
  | enter t =>
    cases hs'
    exact h.setCpu (cpuOwn_out (h.context t) (henter t rfl)) rfl rfl
  | construct =>
    cases hs'
    have hk : CpuOwn c { s.cpu c with frames := .adopt s.taskCounter :: rest } :=
      hc.replace (by simp [hf]) (by simp +contextual [Frame.stays, hrest])
    refine ⟨h.update hk, fun t' => ?_⟩
    by_cases heq : t' = s.taskCounter
    · simp [heq, Stack.isCpu]
    · simpa [Function.update_of_ne heq] using h.context t'
  | park t | schedule | pick | use t | adopt t | check t | push t | ending t =>
    simp only [Machine.advance] at hs'
    repeat' split at hs'
    all_goals cases hs'
    all_goals
      exact h.setCpu (hc.replace (by simp [hf])
        (by simp +contextual [Frame.stays, hf])) rfl rfl

/-- One move. -/
theorem Owned.step {m : Move} (h : Owned s) (hm : s.keepsCpu m) (hs' : s.step m = some s') :
    Owned s' := by
  have hcode : ∀ c, s.code? c → ∀ stack eflags frames rest,
      (s.cpu c).frames ≠ .done stack eflags frames :: rest := by
    intro c hcode stack eflags frames rest hf
    simp [code?, hf] at hcode
  cases m with
  | interrupts c on =>
    simp only [Machine.step] at hs'
    split_ifs at hs' with hc
    cases hs'
    exact h.setCpu ((h.cpu c).replace (hcode c hc) (fun f hf => .inr hf)) rfl rfl
  | yield c =>
    simp only [Machine.step, callYield] at hs'
    split_ifs at hs' with hc
    cases hs'
    exact h.setCpu ((h.cpu c).replace (hcode c hc) (by simp +contextual [Frame.stays])) rfl rfl
  | wait c wchan =>
    simp only [Machine.step, callYield] at hs'
    split at hs'
    next => cases hs'
    next t ht =>
      split_ifs at hs' with hc
      cases hs'
      exact h.setCpu ((h.cpu c).replace (hcode c hc) (by simp +contextual [Frame.stays])) rfl rfl
  | newThread c =>
    simp only [Machine.step] at hs'
    split_ifs at hs' with hc
    cases hs'
    exact h.setCpu ((h.cpu c).replace (hcode c hc) (by simp +contextual [Frame.stays])) rfl rfl
  | resume c t =>
    simp only [Machine.step] at hs'
    split_ifs at hs' with hc
    cases hs'
    exact h.setCpu ((h.cpu c).replace (hcode c hc.1) (by simp +contextual [Frame.stays])) rfl rfl
  | taskEnd c =>
    simp only [Machine.step] at hs'
    split at hs'
    next => cases hs'
    next t ht =>
      split_ifs at hs' with hc
      cases hs'
      refine h.setCpu (cpuOwn_idle ?_ (by simp [Frame.stays])) rfl rfl
      simp [eq_comm]
  | schedule c =>
    simp only [Machine.step] at hs'
    split_ifs at hs' with hc
    cases hs'
    exact h.setCpu ((h.cpu c).replace (hcode c hc.1) (by simp [Frame.stays])) rfl rfl
  | tick c =>
    simp only [Machine.step] at hs'
    split_ifs at hs' with hi
    cases hs'
    exact h.setCpu ((h.cpu c).replace (by grind [keepsCpu]) (by simp +contextual [Frame.stays])) rfl rfl
  | advance c =>
    simp only [Machine.step] at hs'
    split at hs'
    next => cases hs'
    next top rest hf =>
      apply h.advance hf _ hs'
      rintro t rfl
      simpa [keepsCpu, hf] using hm

end Invariant

theorem Boots.owned {s : Machine} (h : Boots s) : Owned s where
  cpu c :=
    { own := fun x hx => by
        rcases h.stack c with hboot | hown
        · rw [hboot] at hx
          cases hx
        · exact (Stack.cpu.inj (hown ▸ hx)).symm
      frames := by simp [h.frames c, Frame.own]
      kernel := .inr (.inl ⟨h.thread c, by simp [h.frames c, Frame.stays]⟩) }
  context t := by simp [h.context t, Stack.isCpu]

/-- In every run that keeps the threads in the window on their CPUs, every CPU moves to its
own stack. -/
theorem ownStacks_run {s s' : Machine} {ms : List Move} (h : Boots s)
    (hms : Along step (keepsCpu · ·) s ms) (hrun : run step s ms = some s') : OwnStacks s' :=
  fun c => ((invariant (fun _ _ _ => Owned.step) h.owned hms hrun).cpu c).own

/-- A thread yields, and is switched out and in again. -/
def yieldMoves : List Move := enterMoves ++ .yield 0 :: List.replicate 11 (.advance 0)

theorem ownStacks_yield : ∃ s', run step boot yieldMoves = some s' ∧ OwnStacks s' := by
  have hrun : (run step boot yieldMoves).isSome := by decide
  obtain ⟨s', hs'⟩ := Option.isSome_iff_exists.mp hrun
  exact ⟨s', hs', ownStacks_run boot_boots (by decide) hs'⟩

/-- A tick comes in when the thread has read the stack of CPU 0; it goes on on CPU 1, and
both CPUs are on the stack of CPU 0. -/
def tickMoves : List Move :=
  enterMoves ++ [.yield 0, .advance 0, .advance 0, .tick 0] ++ List.replicate 7 (.advance 0) ++
    .schedule 1 :: List.replicate 7 (.advance 1)

theorem not_ownStacks_tick :
    ¬ ∀ ms s', run step boot ms = some s' → OwnStacks s' := by
  intro h
  have hrun : ∃ s' ∈ run step boot tickMoves, (s'.cpu 1).stack = .cpu 0 := by
    decide
  obtain ⟨s', hs', hstack⟩ := hrun
  have hown : 0 = 1 := h tickMoves s' hs' 1 0 hstack
  exact absurd hown (by decide)

end Machine

end Cantos
