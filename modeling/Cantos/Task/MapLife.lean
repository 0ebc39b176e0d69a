import Cantos.Task.Places

/-!
# The map of a thread that ends

A thread that yields leaves its map; a thread that ends does not.  Its last reference goes
away behind `Thread::end`, and the map is destroyed while the CPU still has it in CR3.

## Main definitions

* `Scheduler.exitedFirst`: a map that is destroyed is not entered.
* `Scheduler.keepsThreads`: no thread is destroyed.
-/

namespace Cantos

open Steps

/-- The thread whose map a CPU has entered, and has not left. -/
def Phase.mapped : Phase → Option ℕ
  | .entered t | .run t _ | .out t | .ending t => some t
  | _ => none

namespace Scheduler

/-- When the last reference to a thread goes away, its map is entered nowhere. -/
def exitedFirst (s : Scheduler) (m : Move) : Prop :=
  ∀ s' t, s.step m = some s' → s.Referenced t → ¬ s'.Referenced t →
    s'.usingCpu t = none ∧ ∀ c, s'.cr3 c ≠ some t

/-- No last reference goes away. -/
def keepsThreads (s : Scheduler) (m : Move) : Prop :=
  ∀ s' t, s.step m = some s' → s.Referenced t → s'.Referenced t

/-- The invariant. -/
structure Mapped (s : Scheduler) : Prop where
  entered : ∀ c t, (s.phase c).mapped = some t → s.usingCpu t = some c ∧ t ∈ s.threads
  /-- Who is in no process has ended, and without leaving its map. -/
  ended : ∀ t < s.taskCounter, t ∉ s.threads →
    s.usingCpu t ≠ none ∧ ∀ c, (s.phase c).mapped ≠ some t
  referenced : ∀ t, s.Referenced t → t < s.taskCounter

section Invariant
variable {s s' : Scheduler} {t c : ℕ} {k : Phase} {m : Move}

theorem Referenced.phase (h : (s.phase c).thread = some t) : s.Referenced t :=
  .inr (.inr (.inl ⟨c, h⟩))

theorem Referenced.waiting (h : t ∈ s.waiting) : s.Referenced t := .inr (.inl h)

theorem Referenced.handle (h : t ∈ s.handles) : s.Referenced t := .inr (.inr (.inr (.inl h)))

theorem Referenced.making (h : t ∈ s.making) : s.Referenced t :=
  .inr (.inr (.inr (.inr (.inl h))))

theorem Referenced.pushing (h : t ∈ s.pushing) : s.Referenced t :=
  .inr (.inr (.inr (.inr (.inr (.inl h)))))

theorem Referenced.abandoned (h : t ∈ s.abandoned) : s.Referenced t :=
  .inr (.inr (.inr (.inr (.inr (.inr h)))))

/-- A CPU goes on to a phase whose thread is referenced. -/
theorem Referenced.of_phase (h : s'.Referenced t) (hphase : s'.phase = Function.update s.phase c k)
    (hk : k.thread = some t → s.Referenced t) (hwaiting : t ∈ s'.waiting → s.Referenced t)
    (habandoned : t ∈ s'.abandoned → s.Referenced t) (hthreads : t ∈ s'.threads → t ∈ s.threads)
    (hlists : s'.handles = s.handles ∧ s'.making = s.making ∧ s'.pushing = s.pushing) :
    s.Referenced t := by
  obtain ⟨hhandles, hmaking, hpushing⟩ := hlists
  rcases h with h | h | ⟨c', h⟩ | h | h | h | h
  · exact .inl (hthreads h)
  · exact hwaiting h
  · rw [hphase] at h
    by_cases hc : c' = c
    · subst hc
      rw [Function.update_self] at h
      exact hk h
    · rw [Function.update_of_ne hc] at h
      exact .phase h
  · exact .handle (hhandles ▸ h)
  · exact .making (hmaking ▸ h)
  · exact .pushing (hpushing ▸ h)
  · exact habandoned h

/-- A call changes the references of one thread. -/
theorem Referenced.of_call {t₀ : ℕ} (h : s'.Referenced t) (hphase : s'.phase = s.phase)
    (h₀ : t = t₀ → s.Referenced t₀)
    (hlists : t ≠ t₀ → (t ∈ s'.threads → t ∈ s.threads) ∧ (t ∈ s'.waiting → t ∈ s.waiting) ∧
      (t ∈ s'.handles → t ∈ s.handles) ∧ (t ∈ s'.making → t ∈ s.making) ∧
      (t ∈ s'.pushing → t ∈ s.pushing)) (habandoned : s'.abandoned = s.abandoned) :
    s.Referenced t := by
  by_cases ht : t = t₀
  · exact ht ▸ h₀ ht
  · obtain ⟨hthreads, hwaiting, hhandles, hmaking, hpushing⟩ := hlists ht
    rcases h with h | h | ⟨c', h⟩ | h | h | h | h
    · exact .inl (hthreads h)
    · exact .waiting (hwaiting h)
    · exact .phase (hphase ▸ h)
    · exact .handle (hhandles h)
    · exact .making (hmaking h)
    · exact .pushing (hpushing h)
    · exact .abandoned (habandoned ▸ h)

/-- A step makes no reference out of nothing. -/
theorem Referenced.of_step (h : s'.Referenced t) (hs' : s.step m = some s') :
    s.Referenced t ∨ ∃ wchan, m = .construct wchan ∧ t = s.taskCounter := by
  cases m with
  | pick c =>
    simp only [Scheduler.step] at hs'
    split at hs'
    next next hphase hlast =>
      split_ifs at hs'
      cases hs'
      have hmem : next ∈ s.waiting := List.mem_of_getLast? hlast
      left
      refine h.of_phase rfl ?_ (fun hm => .waiting ((List.dropLast_sublist _).subset hm))
        (fun hm => .abandoned hm) id ⟨rfl, rfl, rfl⟩
      rintro ⟨⟩
      exact .waiting hmem
    next => cases hs'
  | use c | enterMap c | enter c | wait c wchan | yield c | exitMap c | free c | taskEnd c =>
    simp only [Scheduler.step] at hs'
    split at hs'
    next hphase =>
      try split_ifs at hs'
      all_goals cases hs'
      all_goals
        left
        refine h.of_phase rfl ?_ (fun hm => .waiting hm) (fun hm => .abandoned hm) id ⟨rfl, rfl, rfl⟩
        rintro ⟨⟩
        exact .phase (by rw [hphase]; rfl)
    next => cases hs'
  | forget c =>
    simp only [Scheduler.step] at hs'
    split at hs'
    next =>
      cases hs'
      left
      refine h.of_phase rfl ?_ (fun hm => .waiting hm) (fun hm => .abandoned hm) id ⟨rfl, rfl, rfl⟩
      rintro ⟨⟩
    next => cases hs'
  | park c =>
    simp only [Scheduler.step] at hs'
    split at hs'
    next t₀ hphase =>
      cases hs'
      have href : s.Referenced t₀ := .phase (by rw [hphase]; rfl)
      left
      refine h.of_phase rfl ?_ ?_ ?_ id ⟨rfl, rfl, rfl⟩
      · rintro ⟨⟩
      · intro hmem
        dsimp only at hmem
        split_ifs at hmem
        · rcases List.mem_cons.mp hmem with rfl | hold
          · exact href
          · exact .waiting hold
        · exact .waiting hmem
      · intro hmem
        rcases List.mem_cons.mp hmem with rfl | hold
        · exact href
        · exact .abandoned hold
    next => cases hs'
  | ending c =>
    simp only [Scheduler.step] at hs'
    split at hs'
    next t₀ hphase =>
      cases hs'
      left
      refine h.of_phase rfl ?_ (fun hm => .waiting hm) (fun hm => .abandoned hm)
        List.mem_of_mem_erase ⟨rfl, rfl, rfl⟩
      rintro ⟨⟩
      exact .phase (by rw [hphase]; rfl)
    next => cases hs'
  | construct wchan =>
    cases hs'
    by_cases ht : t = s.taskCounter
    · exact .inr ⟨wchan, rfl, ht⟩
    · left
      refine h.of_call rfl (fun he => absurd he ht) (fun _ => ?_) rfl
      simp [ht]
  | adopt t₀ =>
    simp only [Scheduler.step] at hs'
    split_ifs at hs' with hmem
    cases hs'
    left
    refine h.of_call rfl (fun _ => .making hmem) (fun ht => ?_) rfl
    simp [ht]
  | check t₀ =>
    simp only [Scheduler.step] at hs'
    split_ifs at hs' with hmem hwchan
    · cases hs'
      left
      refine h.of_call rfl (fun _ => .handle hmem) (fun ht => ?_) rfl
      simp [ht]
    · cases hs'
      exact .inl h
  | push t₀ =>
    simp only [Scheduler.step] at hs'
    split_ifs at hs' with hmem
    cases hs'
    left
    refine h.of_call rfl (fun _ => .pushing hmem) (fun ht => ?_) rfl
    simp [ht]
  | copy t₀ =>
    simp only [Scheduler.step] at hs'
    split_ifs at hs' with hmem
    cases hs'
    left
    have href : s.Referenced t₀ := hmem.elim .inl .handle
    refine h.of_call rfl (fun _ => href) (fun ht => ?_) rfl
    simp [ht]
  | drop t₀ =>
    simp only [Scheduler.step] at hs'
    split_ifs at hs' with hmem
    cases hs'
    left
    refine h.of_call rfl (fun _ => .handle hmem) (fun ht => ?_) rfl
    simp [ht]

/-- A step that enters and leaves no map. -/
theorem Mapped.congr (h : Mapped s) (href : ∀ t, s'.Referenced t → t < s'.taskCounter)
    (hmapped : ∀ c, (s'.phase c).mapped = (s.phase c).mapped)
    (husing : s'.usingCpu = s.usingCpu) (hthreads : s'.threads = s.threads)
    (hcounter : s'.taskCounter = s.taskCounter) : Mapped s' where
  entered c t := by
    rw [hmapped, husing, hthreads]
    exact h.entered c t
  ended t := by
    rw [hcounter, hthreads, husing]
    simp only [hmapped]
    exact h.ended t
  referenced := href

theorem mapped_update (hk : k.mapped = (s.phase c).mapped) (c' : ℕ) :
    (Function.update s.phase c k c').mapped = (s.phase c').mapped := by
  by_cases hc : c' = c
  · subst hc
    rw [Function.update_self, hk]
  · rw [Function.update_of_ne hc]

/-- A thread whose map another CPU does not use is not in a map there. -/
theorem Mapped.not_mapped {c' : ℕ} (h : Mapped s) (hne : s.usingCpu t ≠ some c') :
    (s.phase c').mapped ≠ some t := fun hmapped => hne (h.entered c' t hmapped).1

/-- A CPU takes a thread into its map, or lets it out. -/
theorem Mapped.switch {p : Phase} {o cr3 : Option ℕ} (h : Mapped s) (hmem : t ∈ s.threads)
    (hother : ∀ c' ≠ c, s.usingCpu t ≠ some c')
    (hp : ∀ t', p.mapped = some t' → t' = t ∧ o = some c)
    (hs' : s' = { s.setPhase c p with
      usingCpu := Function.update s.usingCpu t o
      cr3 := Function.update s.cr3 c cr3 })
    (href : ∀ t, s'.Referenced t → t < s'.taskCounter) : Mapped s' := by
  subst hs'
  refine ⟨fun c' t' hc' => ?_, fun t' hlt' hnot => ?_, href⟩
  · by_cases hcc : c' = c
    · subst hcc
      obtain ⟨rfl, rfl⟩ := hp t' (by simpa [Scheduler.setPhase] using hc')
      exact ⟨by simp, hmem⟩
    · have hold : (s.phase c').mapped = some t' := by
        simpa [Scheduler.setPhase, hcc] using hc'
      obtain ⟨husing, hmem'⟩ := h.entered c' t' hold
      have hne : t' ≠ t := by
        rintro rfl
        exact h.not_mapped (hother c' hcc) hold
      exact ⟨by simpa [hne] using husing, hmem'⟩
  · obtain ⟨husing, hmapped⟩ := h.ended t' hlt' hnot
    have hne : t' ≠ t := by
      rintro rfl
      exact hnot hmem
    refine ⟨by simpa [hne] using husing, fun c' => ?_⟩
    by_cases hcc : c' = c
    · subst hcc
      exact fun hc' => hne (hp t' (by simpa [Scheduler.setPhase] using hc')).1
    · simpa [Scheduler.setPhase, hcc] using hmapped c'

theorem Mapped.enterMap (h : Mapped s) (hphase : s.phase c = .used t) (hfree : s.usingCpu t = none)
    (hs' : s' = { s.setPhase c (.entered t) with
      usingCpu := Function.update s.usingCpu t (some c)
      cr3 := Function.update s.cr3 c (some t) })
    (href : ∀ t, s'.Referenced t → t < s'.taskCounter) : Mapped s' := by
  have hlt : t < s.taskCounter := h.referenced t (.phase (by rw [hphase]; rfl))
  have hmem : t ∈ s.threads := by
    by_contra hnot
    exact (h.ended t hlt hnot).1 hfree
  refine h.switch hmem (fun c' _ hc' => ?_) (fun t' ht' => ?_) hs' href
  · rw [hfree] at hc'
    cases hc'
  · exact ⟨(Option.some.inj ht').symm, rfl⟩

theorem Mapped.exitMap (h : Mapped s) (hphase : s.phase c = .out t)
    (hs' : s' = { s.setPhase c (.exited t) with
      usingCpu := Function.update s.usingCpu t none
      cr3 := Function.update s.cr3 c none })
    (href : ∀ t, s'.Referenced t → t < s'.taskCounter) : Mapped s' := by
  obtain ⟨howner, hmem⟩ := h.entered c t (by rw [hphase]; rfl)
  refine h.switch hmem (fun c' hcc hc' => ?_) (fun t' ht' => ?_) hs' href
  · rw [howner] at hc'
    exact hcc (Option.some.inj hc').symm
  · cases ht'

theorem Mapped.ending (h : Mapped s) (hphase : s.phase c = .ending t)
    (hs' : s' = { s.setPhase c (.gone t) with
      ended := Function.update s.ended t true
      threads := s.threads.erase t })
    (href : ∀ t, s'.Referenced t → t < s'.taskCounter) : Mapped s' := by
  subst hs'
  obtain ⟨howner, hmem⟩ := h.entered c t (by rw [hphase]; rfl)
  have hother : ∀ c' ≠ c, (s.phase c').mapped ≠ some t := by
    intro c' hcc
    refine h.not_mapped fun hc' => ?_
    rw [howner] at hc'
    exact hcc (Option.some.inj hc').symm
  refine ⟨fun c' t' hc' => ?_, fun t' hlt' hnot => ?_, href⟩
  · by_cases hcc : c' = c
    · simp [Scheduler.setPhase, hcc, Phase.mapped] at hc'
    · have hold : (s.phase c').mapped = some t' := by
        simpa [Scheduler.setPhase, hcc] using hc'
      obtain ⟨husing, hmem'⟩ := h.entered c' t' hold
      have hne : t' ≠ t := by
        rintro rfl
        exact hother c' hcc hold
      exact ⟨husing, (List.mem_erase_of_ne hne).mpr hmem'⟩
  · by_cases hne : t' = t
    · subst hne
      refine ⟨by simp [Scheduler.setPhase, howner], fun c' => ?_⟩
      by_cases hcc : c' = c
      · simp [Scheduler.setPhase, hcc, Phase.mapped]
      · simpa [Scheduler.setPhase, hcc] using hother c' hcc
    · obtain ⟨husing, hmapped⟩ := h.ended t' hlt' fun hm =>
        hnot ((List.mem_erase_of_ne hne).mpr hm)
      refine ⟨husing, fun c' => ?_⟩
      by_cases hcc : c' = c
      · simp [Scheduler.setPhase, hcc, Phase.mapped]
      · simpa [Scheduler.setPhase, hcc] using hmapped c'

theorem Mapped.construct {wchan : ℕ} (h : Mapped s) (hs' : s.step (.construct wchan) = some s')
    (href : ∀ t, s'.Referenced t → t < s'.taskCounter) : Mapped s' := by
  cases hs'
  refine ⟨fun c t hc => ?_, fun t hlt hnot => ?_, href⟩
  · obtain ⟨husing, hmem⟩ := h.entered c t hc
    have hne : t ≠ s.taskCounter := (h.referenced t (.inl hmem)).ne
    exact ⟨by simpa [hne] using husing, List.mem_cons_of_mem _ hmem⟩
  · rw [List.mem_cons, not_or] at hnot
    obtain ⟨husing, hmapped⟩ := h.ended t (by simp only at hlt; omega) hnot.2
    exact ⟨by simpa [hnot.1] using husing, hmapped⟩

theorem taskCounter_le (hs' : s.step m = some s') : s.taskCounter ≤ s'.taskCounter := by
  cases m <;> simp only [Scheduler.step] at hs' <;> repeat' split at hs'
  all_goals cases hs'
  all_goals simp [Scheduler.setPhase]

theorem Mapped.lt_of_step (h : Mapped s) (ht : s'.Referenced t) (hs' : s.step m = some s') :
    t < s'.taskCounter := by
  rcases ht.of_step hs' with hold | ⟨wchan, rfl, rfl⟩
  · exact (h.referenced t hold).trans_le (taskCounter_le hs')
  · cases hs'
    exact Nat.lt_succ_self _

/-- One step. -/
theorem Mapped.step (h : Mapped s) (hs' : s.step m = some s') : Mapped s' := by
  have href : ∀ t, s'.Referenced t → t < s'.taskCounter := fun t ht => h.lt_of_step ht hs'
  cases m with
  | enterMap c =>
    simp only [Scheduler.step] at hs'
    split at hs'
    next t hphase =>
      split_ifs at hs' with hfree
      exact h.enterMap hphase (by simpa using hfree) (Option.some.inj hs').symm href
    next => cases hs'
  | exitMap c =>
    simp only [Scheduler.step] at hs'
    split at hs'
    next t hphase => exact h.exitMap hphase (Option.some.inj hs').symm href
    next => cases hs'
  | ending c =>
    simp only [Scheduler.step] at hs'
    split at hs'
    next t hphase => exact h.ending hphase (Option.some.inj hs').symm href
    next => cases hs'
  | construct wchan => exact h.construct hs' href
  | pick c =>
    simp only [Scheduler.step] at hs'
    split at hs'
    next hphase _ =>
      split_ifs at hs'
      cases hs'
      refine h.congr href (mapped_update ?_) rfl rfl rfl
      rw [hphase]
      rfl
    next => cases hs'
  | use c | enter c | wait c wchan | yield c | free c | park c | taskEnd c | forget c =>
    simp only [Scheduler.step] at hs'
    split at hs'
    next hphase =>
      try split_ifs at hs'
      all_goals cases hs'
      all_goals
        refine h.congr href (mapped_update ?_) rfl rfl rfl
        rw [hphase]
        rfl
    next => cases hs'
  | adopt t | check t | push t | copy t | drop t =>
    simp only [Scheduler.step] at hs'
    split_ifs at hs'
    all_goals cases hs'
    all_goals exact h.congr href (fun _ => rfl) rfl rfl rfl

/-- A thread that is destroyed has its map entered. -/
theorem Mapped.destroyed (h : Mapped s) (hs' : s.step m = some s') (ht : s.Referenced t)
    (hnot : ¬ s'.Referenced t) : s'.usingCpu t ≠ none := by
  have hlt : t < s'.taskCounter := (h.referenced t ht).trans_le (taskCounter_le hs')
  exact ((h.step hs').ended t hlt fun hmem => hnot (.inl hmem)).1

theorem Mapped.exitedFirst_iff (h : Mapped s) : exitedFirst s m ↔ keepsThreads s m := by
  constructor
  · intro hexited s' t hs' ht
    by_contra hnot
    exact h.destroyed hs' ht hnot (hexited s' t hs' ht hnot).1
  · intro hkeeps s' t hs' ht hnot
    exact absurd (hkeeps s' t hs' ht) hnot

end Invariant

theorem Boots.mapped {s : Scheduler} (h : Boots s) : Mapped s where
  entered c t hc := by simp [h.phase c, Phase.mapped] at hc
  ended t hlt := by simp [h.taskCounter] at hlt
  referenced t ht := by
    rcases ht with ht | ht | ⟨c, ht⟩ | ht | ht | ht | ht
    · simp [h.threads] at ht
    · simp [h.waiting] at ht
    · simp [h.phase c, Phase.thread] at ht
    · simp [h.handles] at ht
    · simp [h.making] at ht
    · simp [h.pushing] at ht
    · simp [h.abandoned] at ht

/-- In a run the maps that are destroyed have been left exactly when none is destroyed. -/
theorem exitedFirst_iff_keeps {s : Scheduler} (h : Boots s) (ms : List Move) :
    Along step exitedFirst s ms ↔ Along step keepsThreads s ms :=
  along_congr (fun _ _ _ => Mapped.step) (fun _ _ => Mapped.exitedFirst_iff) h.mapped

/-- CPU 0 makes a thread, which runs to its end. -/
def endMoves : List Move :=
  [.construct 0, .adopt 0, .push 0, .pick 0, .use 0, .enterMap 0, .enter 0, .drop 0, .taskEnd 0,
    .ending 0]

theorem exitedFirst_iff_keeps_end :
    Along step exitedFirst (boot 1) (endMoves ++ [.forget 0]) ↔
      Along step keepsThreads (boot 1) (endMoves ++ [.forget 0]) :=
  exitedFirst_iff_keeps (boot_boots 1) _

/-- The last reference is `current` of `task_end_done`. -/
theorem not_exitedFirst_end : ¬ ∀ ms, Along step exitedFirst (boot 1) ms := by
  intro h
  have hrun : ∃ s ∈ run step (boot 1) endMoves, s.phase 0 = .gone 0 ∧ s.procCount = 1 ∧
      s.cr3 0 = some 0 ∧ s.threads = [] ∧ s.waiting = [] ∧ s.handles = [] ∧ s.making = [] ∧
      s.pushing = [] ∧ s.abandoned = [] := by
    decide
  obtain ⟨s, hs, hphase, hprocs, hcr3, hthreads, hwaiting, hhandles, hmaking, hpushing,
    habandoned⟩ := hrun
  have hplaced : Placed s :=
    invariant (fun _ _ _ => Placed.step) (boot_boots 1).placed (by decide) hs
  have hexited : exitedFirst s (.forget 0) := (h _).last hs
  have hstep : s.step (.forget 0) = some (s.setPhase 0 .idle) := by
    simp [Scheduler.step, hphase]
  have hgone : ¬ (s.setPhase 0 .idle).Referenced 0 := by
    have hidle : ∀ c, (Function.update s.phase 0 .idle c).thread ≠ some 0 := by
      intro c
      by_cases hc : c = 0
      · simp [hc, Phase.thread]
      · rw [Function.update_of_ne hc, hplaced.procs c (by omega)]
        simp [Phase.thread]
    simp [Referenced, Scheduler.setPhase, hthreads, hwaiting, hhandles, hmaking, hpushing,
      habandoned, hidle]
  exact (hexited _ 0 hstep (.phase (by rw [hphase]; rfl)) hgone).2 0 hcr3

end Scheduler

end Cantos
