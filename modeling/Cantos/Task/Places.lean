import Cantos.Task.Sections
import Mathlib.Data.List.Count
import Mathlib.Data.List.Nodup

/-!
# Where a thread is

Every thread is in one place: it waits, a call is about to make it wait, a CPU has it, or it
sleeps on its channel.  A `resume` that finds the channel set, but the thread not yet
switched out, puts it in a second one.  As long as no `resume` does so, the threads that wait
are the ones that can run.

## Main definitions

* `Scheduler.Sound`: what holds of `waiting_threads` and the CPUs.
* `Scheduler.keepsPlace`: a thread that is resumed has been switched out.
* `Scheduler.At`: the place of a thread.
-/

namespace Cantos

open Steps

namespace Scheduler

/-- `waiting_threads` has every thread that can run, and no other. -/
structure Sound (s : Scheduler) : Prop where
  nodup : s.waiting.Nodup
  away : ∀ t ∈ s.waiting, ∀ c, (s.phase c).current ≠ some t ∧ (s.phase c).leaving ≠ some t
  current : ∀ t c c', (s.phase c).current = some t → (s.phase c').current = some t → c = c'
  found : ∀ t < s.taskCounter, s.ended t = false → s.wchan t = noWchan →
    (∀ c, (s.phase c).thread ≠ some t) → t ∉ s.pushing → t ∉ s.making → t ∈ s.waiting
  /-- "Found an in use thread in the waiting list" -/
  picked : ∀ c t, s.phase c = .picked t → s.inUse t = false

/-- A thread that `resume` makes run has been made, and no CPU has it. -/
def keepsPlace (s : Scheduler) : Move → Bool
  | .check t =>
      s.wchan t = noWchan || t ∉ s.making &&
        (List.range s.procCount).all fun c => (s.phase c).thread ≠ some t
  | _ => true

/-- The places of a thread. -/
inductive Place
  | none
  | waiting
  | pushing
  | making
  | cpu (c : ℕ)
  deriving DecidableEq

/-- What holds of the thread of a phase, by `ended`, `in_use` and whether its channel is
`no_wchan`. -/
def PhaseFits (ended inUse : Bool) (free : Prop) : Phase → Prop
  | .idle => False
  | .picked _ => ended = false ∧ inUse = false ∧ free
  | .used _ | .entered _ | .run _ false | .ending _ => ended = false ∧ free
  | .run _ true | .out _ | .exited _ => ended = false
  | .park _ => ended = false ∧ inUse = false
  | .gone _ => ended = true ∧ free

/-- What holds of a thread in a place. -/
def Fits (s : Scheduler) (t : ℕ) : Place → Prop
  | .none => if s.ended t then s.wchan t = noWchan else s.inUse t = false ∧ s.wchan t ≠ noWchan
  | .waiting | .pushing => s.ended t = false ∧ s.inUse t = false ∧ s.wchan t = noWchan
  | .making => s.ended t = false ∧ s.inUse t = false
  | .cpu c => PhaseFits (s.ended t) (s.inUse t) (s.wchan t = noWchan) (s.phase c)

/-- The thread is in this place, and in no other. -/
structure At (s : Scheduler) (t : ℕ) (p : Place) : Prop where
  waiting : s.waiting.count t = if p = .waiting then 1 else 0
  pushing : s.pushing.count t = if p = .pushing then 1 else 0
  making : s.making.count t = if p = .making then 1 else 0
  cpu : ∀ c, (s.phase c).thread = some t ↔ p = .cpu c
  fits : t < s.taskCounter → s.Fits t p
  fresh : s.taskCounter ≤ t → p = .none

/-- The invariant. -/
structure Placed (s : Scheduler) : Prop where
  at_place : ∀ t, ∃ p, s.At t p
  handles : ∀ t ∈ s.handles, t < s.taskCounter
  threads : ∀ t ∈ s.threads, t < s.taskCounter
  procs : ∀ c, s.procCount ≤ c → s.phase c = .idle

section Invariant
variable {s s' : Scheduler} {t t' c c' : ℕ} {p : Place} {k : Phase}

theorem At.mem_waiting (h : s.At t p) : t ∈ s.waiting ↔ p = .waiting := by
  rw [← List.count_pos_iff, h.waiting]
  split_ifs with hp <;> simp [hp]

theorem At.mem_pushing (h : s.At t p) : t ∈ s.pushing ↔ p = .pushing := by
  rw [← List.count_pos_iff, h.pushing]
  split_ifs with hp <;> simp [hp]

theorem At.mem_making (h : s.At t p) : t ∈ s.making ↔ p = .making := by
  rw [← List.count_pos_iff, h.making]
  split_ifs with hp <;> simp [hp]

theorem At.lt (h : s.At t p) (hp : p ≠ .none) : t < s.taskCounter := by
  by_contra hlt
  exact hp (h.fresh (Nat.le_of_not_lt hlt))

theorem thread_of_current (h : k.current = some t) : k.thread = some t := by
  cases k <;> simp_all [Phase.current, Phase.thread]

theorem thread_of_leaving (h : k.leaving = some t) : k.thread = some t := by
  cases k <;> simp_all [Phase.leaving, Phase.thread]

theorem Placed.sound (h : Placed s) : Sound s where
  nodup := by
    apply List.nodup_iff_count_le_one.mpr
    intro t
    obtain ⟨p, hp⟩ := h.at_place t
    rw [hp.waiting]
    split_ifs <;> omega
  away t ht c := by
    obtain ⟨p, hp⟩ := h.at_place t
    have hwait := hp.mem_waiting.mp ht
    have hnot : (s.phase c).thread ≠ some t := by
      intro hthread
      rw [(hp.cpu c).mp hthread] at hwait
      cases hwait
    exact ⟨fun hc => hnot (thread_of_current hc), fun hl => hnot (thread_of_leaving hl)⟩
  current t c c' hc hc' := by
    obtain ⟨p, hp⟩ := h.at_place t
    have hplace := (hp.cpu c).mp (thread_of_current hc)
    have hplace' := (hp.cpu c').mp (thread_of_current hc')
    exact Place.cpu.inj (hplace.symm.trans hplace')
  found t hlt hended hfree hcpu hpushing hmaking := by
    obtain ⟨p, hp⟩ := h.at_place t
    rw [hp.mem_pushing] at hpushing
    rw [hp.mem_making] at hmaking
    rw [hp.mem_waiting]
    have hfits := hp.fits hlt
    cases p with
    | none => simp [Fits, hended, hfree] at hfits
    | waiting => rfl
    | pushing => exact absurd rfl hpushing
    | making => exact absurd rfl hmaking
    | cpu c => exact absurd ((hp.cpu c).mpr rfl) (hcpu c)
  picked c t hc := by
    obtain ⟨p, hp⟩ := h.at_place t
    have hplace := (hp.cpu c).mp (by simp [hc, Phase.thread])
    have hfits := hp.fits (hp.lt (by simp [hplace]))
    rw [hplace, Fits, hc] at hfits
    exact hfits.2.1

/-- A step that has nothing to do with the thread. -/
theorem At.congr (h : s.At t p) (hwaiting : s'.waiting.count t = s.waiting.count t)
    (hpushing : s'.pushing.count t = s.pushing.count t)
    (hmaking : s'.making.count t = s.making.count t)
    (hphase : ∀ c, s'.phase c = s.phase c ∨
      (s'.phase c).thread ≠ some t ∧ (s.phase c).thread ≠ some t)
    (hfields : s'.wchan t = s.wchan t ∧ s'.inUse t = s.inUse t ∧ s'.ended t = s.ended t)
    (hcounter : t < s'.taskCounter ↔ t < s.taskCounter) : s'.At t p where
  waiting := hwaiting.trans h.waiting
  pushing := hpushing.trans h.pushing
  making := hmaking.trans h.making
  cpu c := by
    rw [← h.cpu c]
    rcases hphase c with heq | ⟨hnot, hnot'⟩
    · rw [heq]
    · exact iff_of_false hnot hnot'
  fits hlt := by
    have hfits := h.fits (hcounter.mp hlt)
    obtain ⟨hwchan, hinUse, hended⟩ := hfields
    cases p with
    | cpu c =>
      rcases hphase c with heq | ⟨-, hnot⟩
      · simpa only [Fits, hwchan, hinUse, hended, heq] using hfits
      · exact absurd ((h.cpu c).mpr rfl) hnot
    | _ => simpa only [Fits, hwchan, hinUse, hended] using hfits
  fresh hle := h.fresh (by omega)

/-- A CPU goes on with its thread. -/
theorem Placed.setPhase (h : Placed s) (hk : (s.phase c).thread = some t)
    (hphase : s'.phase = Function.update s.phase c k) (hk' : k.thread = some t)
    (hprocs : s'.procCount = s.procCount) (hcounter : s'.taskCounter = s.taskCounter)
    (hlists : s'.waiting = s.waiting ∧ s'.pushing = s.pushing ∧ s'.making = s.making ∧
      s'.handles = s.handles) (hthreads : ∀ t ∈ s'.threads, t ∈ s.threads)
    (hfields : ∀ t' ≠ t, s'.wchan t' = s.wchan t' ∧ s'.inUse t' = s.inUse t' ∧
      s'.ended t' = s.ended t')
    (hfits : PhaseFits (s.ended t) (s.inUse t) (s.wchan t = noWchan) (s.phase c) →
      PhaseFits (s'.ended t) (s'.inUse t) (s'.wchan t = noWchan) k) : Placed s' where
  at_place t' := by
    obtain ⟨p, hp⟩ := h.at_place t'
    obtain ⟨hwaiting, hpushing, hmaking, -⟩ := hlists
    refine ⟨p, ?_⟩
    by_cases heq : t' = t
    · subst heq
      obtain rfl := (hp.cpu c).mp hk
      exact
        { waiting := by rw [hwaiting, hp.waiting]
          pushing := by rw [hpushing, hp.pushing]
          making := by rw [hmaking, hp.making]
          cpu := fun c' => by
            rw [hphase]
            by_cases hc : c' = c
            · subst hc
              simp [hk']
            · rw [Function.update_of_ne hc]
              exact hp.cpu c'
          fits := fun hlt => by
            rw [Fits, hphase, Function.update_self]
            exact hfits (hp.fits (hcounter ▸ hlt))
          fresh := fun hle => hp.fresh (hcounter ▸ hle) }
    · apply hp.congr (by rw [hwaiting]) (by rw [hpushing]) (by rw [hmaking]) _ (hfields t' heq)
        (by rw [hcounter])
      intro c'
      rw [hphase]
      by_cases hc : c' = c
      · subst hc
        right
        simp [hk, hk', Ne.symm heq]
      · exact .inl (Function.update_of_ne hc _ _)
  handles t' ht' := by
    rw [hcounter]
    exact h.handles t' (hlists.2.2.2 ▸ ht')
  threads t' ht' := by
    rw [hcounter]
    exact h.threads t' (hthreads t' ht')
  procs c' hc' := by
    rw [hprocs] at hc'
    have hne : c' ≠ c := by
      rintro rfl
      simp [h.procs c' hc', Phase.thread] at hk
    rw [hphase, Function.update_of_ne hne]
    exact h.procs c' hc'

/-- A thread changes its place, and the CPUs have the threads they had. -/
theorem Placed.move (h : Placed s) (hself : ∃ p, s'.At t p) (hphase : s'.phase = s.phase)
    (hprocs : s'.procCount = s.procCount)
    (hlists : ∀ t' ≠ t, s'.waiting.count t' = s.waiting.count t' ∧
      s'.pushing.count t' = s.pushing.count t' ∧ s'.making.count t' = s.making.count t')
    (hfields : ∀ t' ≠ t, s'.wchan t' = s.wchan t' ∧ s'.inUse t' = s.inUse t' ∧
      s'.ended t' = s.ended t')
    (hcounter : ∀ t' ≠ t, (t' < s'.taskCounter ↔ t' < s.taskCounter))
    (hhandles : ∀ t' ∈ s'.handles, t' < s'.taskCounter)
    (hthreads : ∀ t' ∈ s'.threads, t' < s'.taskCounter) : Placed s' where
  at_place t' := by
    by_cases heq : t' = t
    · subst heq
      exact hself
    · obtain ⟨p, hp⟩ := h.at_place t'
      obtain ⟨hwaiting, hpushing, hmaking⟩ := hlists t' heq
      exact ⟨p, hp.congr hwaiting hpushing hmaking (fun c => .inl (by rw [hphase])) (hfields t' heq)
        (hcounter t' heq)⟩
  handles := hhandles
  threads := hthreads
  procs := by
    rw [hphase, hprocs]
    exact h.procs

/-- A CPU takes a thread up, or leaves it. -/
theorem Placed.handOver (h : Placed s) (hself : ∃ p, s'.At t p)
    (hphase : s'.phase = Function.update s.phase c k)
    (hold : (s.phase c).thread = none ∨ (s.phase c).thread = some t)
    (hnew : k.thread = none ∨ k.thread = some t) (hc : s.procCount ≤ c → k = .idle)
    (hprocs : s'.procCount = s.procCount) (hcounter : s'.taskCounter = s.taskCounter)
    (hlists : ∀ t' ≠ t, s'.waiting.count t' = s.waiting.count t' ∧
      s'.pushing.count t' = s.pushing.count t' ∧ s'.making.count t' = s.making.count t')
    (hfields : s'.wchan = s.wchan ∧ s'.inUse = s.inUse ∧ s'.ended = s.ended)
    (hrefs : s'.handles = s.handles ∧ s'.threads = s.threads) : Placed s' where
  at_place t' := by
    by_cases heq : t' = t
    · subst heq
      exact hself
    · obtain ⟨p, hp⟩ := h.at_place t'
      obtain ⟨hwaiting, hpushing, hmaking⟩ := hlists t' heq
      refine ⟨p, hp.congr hwaiting hpushing hmaking (fun c' => ?_) ?_ (by rw [hcounter])⟩
      · rw [hphase]
        by_cases hcc : c' = c
        · subst hcc
          right
          rw [Function.update_self]
          have hne : some t ≠ some t' := fun he => heq (Option.some.inj he).symm
          constructor
          · rcases hnew with hn | hn <;> simp [hn, hne]
          · rcases hold with ho | ho <;> simp [ho, hne]
        · exact .inl (Function.update_of_ne hcc _ _)
      · obtain ⟨hwchan, hinUse, hended⟩ := hfields
        rw [hwchan, hinUse, hended]
        exact ⟨rfl, rfl, rfl⟩
  handles := by
    rw [hrefs.1, hcounter]
    exact h.handles
  threads := by
    rw [hrefs.2, hcounter]
    exact h.threads
  procs c' hle := by
    rw [hprocs] at hle
    rw [hphase]
    by_cases hcc : c' = c
    · subst hcc
      rw [Function.update_self]
      exact hc hle
    · rw [Function.update_of_ne hcc]
      exact h.procs c' hle

theorem Placed.pick (h : Placed s) (hidle : s.phase c = .idle) (hlast : s.waiting.getLast? = some t)
    (hlt : c < s.procCount) :
    Placed { s.setPhase c (.picked t) with waiting := s.waiting.dropLast } := by
  have hsplit : s.waiting = s.waiting.dropLast ++ [t] := (List.dropLast_append_getLast? t hlast).symm
  obtain ⟨p, hp⟩ := h.at_place t
  have hmem : t ∈ s.waiting := hsplit ▸ List.mem_append_right _ (List.mem_singleton_self t)
  obtain rfl := hp.mem_waiting.mp hmem
  have hcount : s.waiting.dropLast.count t = 0 := by
    have hone := hp.waiting
    rw [hsplit] at hone
    simpa using hone
  refine h.handOver (t := t) ⟨.cpu c, ?_⟩ rfl (.inl (by rw [hidle]; rfl)) (.inr rfl)
    (fun hle => absurd hlt (Nat.not_lt.mpr hle)) rfl rfl ?_ ⟨rfl, rfl, rfl⟩ ⟨rfl, rfl⟩
  · exact
      { waiting := hcount
        pushing := hp.pushing
        making := hp.making
        cpu := fun c' => by
          by_cases hc : c' = c
          · simp [Scheduler.setPhase, hc, Phase.thread]
          · simpa [Scheduler.setPhase, hc, Ne.symm hc] using hp.cpu c'
        fits := fun hlt => by
          simpa [Fits, PhaseFits, Scheduler.setPhase] using hp.fits hlt
        fresh := fun hle => absurd (hp.fresh hle) (by simp) }
  · intro t' ht'
    refine ⟨?_, rfl, rfl⟩
    conv_rhs => rw [hsplit]
    simp [Ne.symm ht']

/-- No other CPU has the thread of a phase. -/
theorem At.cpu_update (h : s.At t (.cpu c)) (hk : k.thread = none) (hp : p ≠ .cpu c)
    (hp' : ∀ c', p ≠ .cpu c') (c' : ℕ) :
    (Function.update s.phase c k c').thread = some t ↔ p = .cpu c' := by
  by_cases hc : c' = c
  · simp [hc, hk, hp]
  · rw [Function.update_of_ne hc, h.cpu c']
    exact iff_of_false (by simpa using Ne.symm hc) (hp' c')

theorem Placed.park (h : Placed s) (hpark : s.phase c = .park t) :
    Placed { s.setPhase c .idle with
      waiting := if s.wchan t = noWchan then t :: s.waiting else s.waiting
      abandoned := t :: s.abandoned } := by
  obtain ⟨p, hp⟩ := h.at_place t
  obtain rfl := (hp.cpu c).mp (by rw [hpark]; rfl)
  have hfits : s.ended t = false ∧ s.inUse t = false := by
    simpa [Fits, hpark, PhaseFits] using hp.fits (hp.lt (by simp))
  have hwaiting : s.waiting.count t = 0 := hp.waiting
  by_cases hfree : s.wchan t = noWchan
  · simp only [hfree, if_true]
    refine h.handOver (t := t) ⟨.waiting, ?_⟩ rfl (.inr (by rw [hpark]; rfl)) (.inl rfl)
      (fun _ => rfl) rfl rfl ?_ ⟨rfl, rfl, rfl⟩ ⟨rfl, rfl⟩
    · exact
        { waiting := by simp [hwaiting]
          pushing := hp.pushing
          making := hp.making
          cpu := hp.cpu_update rfl (by simp) (by simp)
          fits := fun _ => ⟨hfits.1, hfits.2, hfree⟩
          fresh := fun hle => absurd (hp.fresh hle) (by simp) }
    · intro t' ht'
      exact ⟨List.count_cons_of_ne (Ne.symm ht'), rfl, rfl⟩
  · simp only [hfree, if_false]
    refine h.handOver (t := t) ⟨.none, ?_⟩ rfl (.inr (by rw [hpark]; rfl)) (.inl rfl)
      (fun _ => rfl) rfl rfl (fun _ _ => ⟨rfl, rfl, rfl⟩) ⟨rfl, rfl, rfl⟩ ⟨rfl, rfl⟩
    exact
      { waiting := hwaiting
        pushing := hp.pushing
        making := hp.making
        cpu := hp.cpu_update rfl (by simp) (by simp)
        fits := fun _ => by simp [Fits, Scheduler.setPhase, hfits, hfree]
        fresh := fun _ => rfl }

theorem Placed.forget (h : Placed s) (hgone : s.phase c = .gone t) : Placed (s.setPhase c .idle) := by
  obtain ⟨p, hp⟩ := h.at_place t
  obtain rfl := (hp.cpu c).mp (by rw [hgone]; rfl)
  have hfits : s.ended t = true ∧ s.wchan t = noWchan := by
    simpa [Fits, hgone, PhaseFits] using hp.fits (hp.lt (by simp))
  refine h.handOver (t := t) ⟨.none, ?_⟩ rfl (.inr (by rw [hgone]; rfl)) (.inl rfl)
    (fun _ => rfl) rfl rfl (fun _ _ => ⟨rfl, rfl, rfl⟩) ⟨rfl, rfl, rfl⟩ ⟨rfl, rfl⟩
  exact
    { waiting := hp.waiting
      pushing := hp.pushing
      making := hp.making
      cpu := hp.cpu_update rfl (by simp) (by simp)
      fits := fun _ => by simp [Fits, Scheduler.setPhase, hfits]
      fresh := fun _ => rfl }

theorem Placed.construct {wchan : ℕ} (h : Placed s) (hs' : s.step (.construct wchan) = some s') :
    Placed s' := by
  cases hs'
  obtain ⟨p, hp⟩ := h.at_place s.taskCounter
  obtain rfl := hp.fresh le_rfl
  refine h.move (t := s.taskCounter) ⟨.making, ?_⟩ rfl rfl ?_ ?_ ?_ ?_ ?_
  · exact
      { waiting := hp.waiting
        pushing := hp.pushing
        making := by
          have hmaking : s.making.count s.taskCounter = 0 := hp.making
          simp [hmaking]
        cpu := fun c => by simpa using hp.cpu c
        fits := fun _ => by simp [Fits]
        fresh := fun hle => absurd hle (Nat.not_succ_le_self _) }
  · intro t' ht'
    exact ⟨rfl, rfl, List.count_cons_of_ne (Ne.symm ht')⟩
  · intro t' ht'
    simp [ht']
  · intro t' ht'
    simp only
    omega
  · exact fun t' ht' => Nat.lt_succ_of_lt (h.handles t' ht')
  · intro t' ht'
    rcases List.mem_cons.mp ht' with rfl | hold
    · exact Nat.lt_succ_self _
    · exact Nat.lt_succ_of_lt (h.threads t' hold)

theorem Placed.adopt (h : Placed s) (hs' : s.step (.adopt t) = some s') : Placed s' := by
  simp only [Scheduler.step] at hs'
  split_ifs at hs' with hmem
  cases hs'
  obtain ⟨p, hp⟩ := h.at_place t
  obtain rfl := hp.mem_making.mp hmem
  have hlt := hp.lt (by simp)
  refine h.move (t := t) ⟨.pushing, ?_⟩ rfl rfl ?_ ?_ (fun _ _ => Iff.rfl) ?_ h.threads
  · have hmaking : s.making.count t = 1 := hp.making
    have hpushing : s.pushing.count t = 0 := hp.pushing
    exact
      { waiting := hp.waiting
        pushing := by simp [hpushing]
        making := by simp [hmaking]
        cpu := fun c => by simpa using hp.cpu c
        fits := fun hlt => by simpa [Fits] using hp.fits hlt
        fresh := fun hle => absurd hlt (Nat.not_lt.mpr hle) }
  · intro t' ht'
    exact ⟨rfl, List.count_cons_of_ne (Ne.symm ht'), List.count_erase_of_ne ht'⟩
  · intro t' ht'
    simp [ht']
  · intro t' ht'
    rcases List.mem_cons.mp ht' with rfl | hold
    · exact hlt
    · exact h.handles t' hold

theorem Placed.check (h : Placed s) (hm : s.keepsPlace (.check t))
    (hs' : s.step (.check t) = some s') : Placed s' := by
  simp only [Scheduler.step] at hs'
  split_ifs at hs' with hmem hwchan
  · cases hs'
    obtain ⟨p, hp⟩ := h.at_place t
    have hlt := h.handles t hmem
    have hfits := hp.fits hlt
    simp only [keepsPlace, hwchan, decide_false, Bool.false_or, Bool.and_eq_true,
      decide_eq_true_eq, List.all_eq_true, List.mem_range] at hm
    obtain ⟨hmaking, hcpu⟩ := hm
    -- The channel is set, so the thread sleeps.
    obtain rfl : p = .none := by
      cases p with
      | none => rfl
      | waiting | pushing => exact absurd hfits.2.2 hwchan
      | making => exact absurd (hp.mem_making.mpr rfl) hmaking
      | cpu c =>
        have hthread := (hp.cpu c).mpr rfl
        have hproc : c < s.procCount := by
          by_contra hle
          simp [h.procs c (Nat.le_of_not_lt hle), Phase.thread] at hthread
        exact absurd hthread (hcpu c hproc)
    have hended : s.ended t = false := by
      by_contra hended
      simp only [Fits, Bool.not_eq_false] at hfits hended
      simp [hended, hwchan] at hfits
    refine h.move (t := t) ⟨.pushing, ?_⟩ rfl rfl ?_ ?_ (fun _ _ => Iff.rfl) h.handles h.threads
    · have hpushing : s.pushing.count t = 0 := hp.pushing
      exact
        { waiting := hp.waiting
          pushing := by simp [hpushing]
          making := hp.making
          cpu := fun c => by simpa using hp.cpu c
          fits := fun _ => by simpa [Fits, hended, hwchan] using hfits
          fresh := fun hle => absurd hlt (Nat.not_lt.mpr hle) }
    · intro t' ht'
      exact ⟨rfl, List.count_cons_of_ne (Ne.symm ht'), rfl⟩
    · intro t' ht'
      simp [ht']
  · cases hs'
    exact h

theorem Placed.push (h : Placed s) (hs' : s.step (.push t) = some s') : Placed s' := by
  simp only [Scheduler.step] at hs'
  split_ifs at hs' with hmem
  cases hs'
  obtain ⟨p, hp⟩ := h.at_place t
  obtain rfl := hp.mem_pushing.mp hmem
  have hlt := hp.lt (by simp)
  refine h.move (t := t) ⟨.waiting, ?_⟩ rfl rfl ?_ (fun _ _ => ⟨rfl, rfl, rfl⟩)
    (fun _ _ => Iff.rfl) h.handles h.threads
  · have hpushing : s.pushing.count t = 1 := hp.pushing
    have hwaiting : s.waiting.count t = 0 := hp.waiting
    exact
      { waiting := by simp [hwaiting]
        pushing := by simp [hpushing]
        making := hp.making
        cpu := fun c => by simpa using hp.cpu c
        fits := fun hlt => by simpa [Fits] using hp.fits hlt
        fresh := fun hle => absurd hlt (Nat.not_lt.mpr hle) }
  · intro t' ht'
    exact ⟨List.count_cons_of_ne (Ne.symm ht'), List.count_erase_of_ne ht', rfl⟩

theorem Placed.setHandles {handles : List ℕ} (h : Placed s)
    (hhandles : ∀ t ∈ handles, t < s.taskCounter) : Placed { s with handles := handles } where
  at_place t := by
    obtain ⟨p, hp⟩ := h.at_place t
    exact ⟨p, hp.congr rfl rfl rfl (fun _ => .inl rfl) ⟨rfl, rfl, rfl⟩ Iff.rfl⟩
  handles := hhandles
  threads := h.threads
  procs := h.procs

/-- One step. -/
theorem Placed.step {m : Move} (h : Placed s) (hm : s.keepsPlace m) (hs' : s.step m = some s') :
    Placed s' := by
  cases m with
  | pick c =>
    simp only [Scheduler.step] at hs'
    split at hs'
    next next hphase hlast =>
      split_ifs at hs' with hlt
      cases hs'
      exact h.pick hphase hlast hlt
    next => cases hs'
  | use c =>
    simp only [Scheduler.step] at hs'
    split at hs'
    next t hphase =>
      split_ifs at hs'
      cases hs'
      refine h.setPhase (by rw [hphase]; rfl) rfl rfl rfl rfl ⟨rfl, rfl, rfl, rfl⟩ (fun _ => id) ?_ ?_
      · intro t' ht'
        simp [Scheduler.setPhase, ht']
      · rw [hphase]
        exact fun hfits => ⟨hfits.1, hfits.2.2⟩
    next => cases hs'
  | enterMap c =>
    simp only [Scheduler.step] at hs'
    split at hs'
    next t hphase =>
      split_ifs at hs'
      cases hs'
      refine h.setPhase (by rw [hphase]; rfl) rfl rfl rfl rfl ⟨rfl, rfl, rfl, rfl⟩ (fun _ => id)
        (fun _ _ => ⟨rfl, rfl, rfl⟩) ?_
      rw [hphase]
      exact id
    next => cases hs'
  | enter c | taskEnd c =>
    simp only [Scheduler.step] at hs'
    split at hs'
    next t hphase =>
      cases hs'
      refine h.setPhase (by rw [hphase]; rfl) rfl rfl rfl rfl ⟨rfl, rfl, rfl, rfl⟩ (fun _ => id)
        (fun _ _ => ⟨rfl, rfl, rfl⟩) ?_
      rw [hphase]
      exact id
    next => cases hs'
  | yield c =>
    simp only [Scheduler.step] at hs'
    split at hs'
    next t wait hphase =>
      cases hs'
      refine h.setPhase (by rw [hphase]; rfl) rfl rfl rfl rfl ⟨rfl, rfl, rfl, rfl⟩ (fun _ => id)
        (fun _ _ => ⟨rfl, rfl, rfl⟩) ?_
      rw [hphase]
      cases wait with
      | false => exact And.left
      | true => exact id
    next => cases hs'
  | wait c wchan =>
    simp only [Scheduler.step] at hs'
    split at hs'
    next t hphase =>
      cases hs'
      refine h.setPhase (by rw [hphase]; rfl) rfl rfl rfl rfl ⟨rfl, rfl, rfl, rfl⟩ (fun _ => id) ?_ ?_
      · intro t' ht'
        simp [Scheduler.setPhase, ht']
      · rw [hphase]
        exact And.left
    next => cases hs'
  | exitMap c =>
    simp only [Scheduler.step] at hs'
    split at hs'
    next t hphase =>
      cases hs'
      refine h.setPhase (by rw [hphase]; rfl) rfl rfl rfl rfl ⟨rfl, rfl, rfl, rfl⟩ (fun _ => id)
        (fun _ _ => ⟨rfl, rfl, rfl⟩) ?_
      rw [hphase]
      exact id
    next => cases hs'
  | free c =>
    simp only [Scheduler.step] at hs'
    split at hs'
    next t hphase =>
      cases hs'
      refine h.setPhase (by rw [hphase]; rfl) rfl rfl rfl rfl ⟨rfl, rfl, rfl, rfl⟩ (fun _ => id) ?_ ?_
      · intro t' ht'
        simp [Scheduler.setPhase, ht']
      · rw [hphase]
        exact fun hfits => ⟨hfits, by simp⟩
    next => cases hs'
  | park c =>
    simp only [Scheduler.step] at hs'
    split at hs'
    next t hphase =>
      cases hs'
      exact h.park hphase
    next => cases hs'
  | ending c =>
    simp only [Scheduler.step] at hs'
    split at hs'
    next t hphase =>
      cases hs'
      refine h.setPhase (by rw [hphase]; rfl) rfl rfl rfl rfl ⟨rfl, rfl, rfl, rfl⟩
        (fun _ => List.mem_of_mem_erase) ?_ ?_
      · intro t' ht'
        simp [Scheduler.setPhase, ht']
      · rw [hphase]
        exact fun hfits => ⟨by simp, hfits.2⟩
    next => cases hs'
  | forget c =>
    simp only [Scheduler.step] at hs'
    split at hs'
    next t hphase =>
      cases hs'
      exact h.forget hphase
    next => cases hs'
  | construct wchan => exact h.construct hs'
  | adopt t => exact h.adopt hs'
  | check t => exact h.check hm hs'
  | push t => exact h.push hs'
  | copy t =>
    simp only [Scheduler.step] at hs'
    split_ifs at hs' with hmem
    cases hs'
    apply h.setHandles
    intro t' ht'
    rcases List.mem_cons.mp ht' with rfl | hold
    · exact hmem.elim (h.threads _) (h.handles _)
    · exact h.handles t' hold
  | drop t =>
    simp only [Scheduler.step] at hs'
    split_ifs at hs'
    cases hs'
    exact h.setHandles fun t' ht' => h.handles t' (List.mem_of_mem_erase ht')

end Invariant

theorem Boots.placed {s : Scheduler} (h : Boots s) : Placed s where
  at_place t := by
    refine ⟨.none, ?_⟩
    exact
      { waiting := by simp [h.waiting]
        pushing := by simp [h.pushing]
        making := by simp [h.making]
        cpu := fun c => by simp [h.phase c, Phase.thread]
        fits := fun hlt => by simp [h.taskCounter] at hlt
        fresh := fun _ => rfl }
  handles t ht := by simp [h.handles] at ht
  threads t ht := by simp [h.threads] at ht
  procs c _ := h.phase c

/-- In every run in which the threads that are resumed have been switched out, the threads
that wait are the ones that can run, and each of them once. -/
theorem sound_run {s s' : Scheduler} {ms : List Move} (h : Boots s)
    (hms : Along step (keepsPlace · ·) s ms) (hrun : run step s ms = some s') : Sound s' :=
  (invariant (fun _ _ _ => Placed.step) h.placed hms hrun).sound

/-- CPU 0 makes a thread and enters it, and the thread makes itself wait. -/
def waitMoves : List Move :=
  [.construct 7, .adopt 0, .push 0, .pick 0, .use 0, .enterMap 0, .enter 0, .wait 0 5]

/-- The thread is switched out, and resumed. -/
theorem sound_resume : ∃ s', run step (boot 1)
    (waitMoves ++ [.yield 0, .exitMap 0, .free 0, .park 0, .check 0, .push 0]) = some s' ∧
      Sound s' := by
  have hrun : (run step (boot 1)
      (waitMoves ++ [.yield 0, .exitMap 0, .free 0, .park 0, .check 0, .push 0])).isSome := by
    decide
  obtain ⟨s', hs'⟩ := Option.isSome_iff_exists.mp hrun
  exact ⟨s', hs', sound_run (boot_boots 1) (by decide) hs'⟩

/-- The thread is resumed before it is switched out: it waits while it is current. -/
theorem not_sound_resume : ¬ ∀ ms s', run step (boot 1) ms = some s' → Sound s' := by
  intro h
  have hrun : ∃ s' ∈ run step (boot 1) (waitMoves ++ [.check 0, .push 0]),
      0 ∈ s'.waiting ∧ (s'.phase 0).current = some 0 := by
    decide
  obtain ⟨s', hs', hmem, hcurrent⟩ := hrun
  exact ((h _ s' hs').away 0 hmem 0).1 hcurrent

end Scheduler

end Cantos
