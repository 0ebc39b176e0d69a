import Cantos.Mem.Cuts

/-!
# Ownership of frames

Runs of `page::alloc` and `page::free`.  When a free block serves the request for the record
wherever `page::alloc` cuts frames off an entry of the free list, each frame is in one entry of
the list or in one live chain, and a chain has as many frames as were asked for.

## Main definitions

* `Frames`, `Frames.step`: the calls, and the chains that are live.
* `Frames.Owned`: what the allocator owes its callers.
* `Frames.RecordServed`: the calls for which the heap does not grow in front of a cut.
-/

namespace Cantos

open Exec Linked

/-! ## The length of a chain -/

/-- `page::alloc` returns a chain of as many frames as it is asked for. -/
theorem alloc_count {depth count : ℕ} {flags : Flags} {s s' : Mem} {chain : List Page}
    (hr : (Page.alloc depth flags count).Returns s chain s') (hs : s.page.Walks) :
    Page.count chain = count := by
  induction depth generalizing count s s' chain with
  | zero =>
    rw [Page.alloc] at hr
    split_ifs at hr with hc
    · obtain ⟨rfl, rfl⟩ := returns_pure.mp hr
      exact hc.symm
    · obtain ⟨_, _, -, hstop⟩ := returns_bind.mp hr
      exact absurd hstop returns_stop
  | succ depth ih =>
    by_cases hc : count = 0
    · rw [hc, Page.alloc, if_pos rfl] at hr
      obtain ⟨rfl, rfl⟩ := returns_pure.mp hr
      exact hc.symm
    · obtain ⟨s₀, page, s₁, next, s₂, hlock, hfirst, hrest, hunlock, rfl⟩ := alloc_returns hc hr
      have hs₀ : s₀.page.Walks := by
        have h := Conserves.whenever (!flags.has flagNolock) Conserves.lock s _ _ hlock
        exact h.1 hs
      have h₁ : page.consecutive ≤ count ∧ s₁.page.Walks := by
        cases hfirst with
        | fresh empty record bump =>
          have ht := (Conserves.kmalloc depth sizeofPage (allocFlag flags) _ _ _ record).1 hs₀
          refine ⟨bump.consecutive_le ht.1, bump.within ht.1 ht.2, ?_⟩
          obtain ⟨pageId, pointer, map, rfl⟩ := bump.state
          exact ht.2
        | cut entries more record left =>
          have ht := (Conserves.kmalloc depth sizeofPage (allocFlag flags) _ _ _ record).1 hs₀
          exact ⟨le_rfl, ht⟩
        | whole entries less => exact ⟨less, hs₀⟩
      rcases hrest with ⟨hle, rfl, -⟩ | ⟨-, hrest⟩
      · simp only [Page.count]
        omega
      · have hnext := ih hrest h₁.2
        simp only [Page.count]
        omega

/-! ## The machine -/

/-- The memory subsystem, and the live chains with the numbers of frames asked for. -/
structure Frames where
  mem : Mem
  live : List (ℕ × List Page)

namespace Frames

open Steps

inductive Move
  | alloc (depth : ℕ) (flags : Flags) (count : ℕ)
  /-- A live chain is given back. -/
  | free (depth : ℕ) (count : ℕ) (chain : List Page)
  deriving DecidableEq

/-- A call that returns.  A call with `FLAG_NOLOCK` is made by a caller that holds the
lock, who gives it back behind the call. -/
def step (x : Frames) : Move → Option Frames
  | .alloc depth flags count =>
      if 1 ≤ count then
        match Page.alloc depth flags count { x.mem with mutex := flags.has flagNolock } with
        | (.ok chain, mem) => some ⟨{ mem with mutex := false }, (count, chain) :: x.live⟩
        | (.error _, _) => none
      else none
  | .free depth count chain =>
      if (count, chain) ∈ x.live then
        match Page.free depth chain { x.mem with mutex := false } with
        | (.ok _, mem) => some ⟨mem, x.live.erase (count, chain)⟩
        | (.error _, _) => none
      else none

/-- Where the call cuts frames off an entry of the free list, there is a block for the record. -/
def RecordServed (x : Frames) : Move → Prop
  | .alloc _ flags count => x.mem.Serves flags count
  | .free _ _ _ => True

instance (x : Frames) : DecidablePred x.RecordServed
  | .alloc _ _ _ => inferInstanceAs (Decidable (Mem.Serves _ _ _))
  | .free _ _ _ => inferInstanceAs (Decidable True)

/-- The frames of the live chains. -/
def liveFrames (x : Frames) : List ℕ := frames (x.live.flatMap Prod.snd)

/-- What the allocator owes its callers. -/
structure Owned (x : Frames) : Prop where
  /-- No frame is in two places, or twice in one. -/
  once : ∀ f, (frames x.mem.page.pageFreeHead).count f + x.liveFrames.count f ≤ 1
  /-- No entry has a count that has wrapped: there are only `2 ^ 20` frames. -/
  unwrapped : ∀ page ∈ x.mem.page.pageFreeHead, page.consecutive ≤ 2 ^ 20
  exact : ∀ p ∈ x.live, Page.count p.2 = p.1

structure Inv (x : Frames) : Prop where
  walks : x.mem.page.Walks
  backed : ∀ f, (frames x.mem.page.pageFreeHead).count f + x.liveFrames.count f ≤
    (handed x.mem.trace).count f
  exact : ∀ p ∈ x.live, Page.count p.2 = p.1

section Steps
variable {x x' : Frames} {m : Move}

theorem step_inv (h : x.Inv) (hserved : x.RecordServed m) (hstep : x.step m = some x') :
    x'.Inv := by
  cases m with
  | alloc depth flags count =>
    rw [step] at hstep
    split_ifs at hstep with hcount
    split at hstep
    next chain mem hr =>
      obtain rfl := Option.some.inj hstep
      obtain ⟨hwalks, new, htrace, hle⟩ := Conserves.alloc depth flags count _ _ _ hr
      have hfits := (alloc_cutsRight hr rfl hserved).all_fits htrace
      have htrace : ({ mem with mutex := false } : Mem).trace = new ++ x.mem.trace := htrace
      refine ⟨hwalks h.walks, fun f => ?_, fun p hp => ?_⟩
      · have hbefore := h.backed f
        have hcall := hle hfits f
        rw [htrace, count_handed_append]
        simp only [liveFrames, List.flatMap_cons, count_frames_append, frames_nil, List.count_nil,
          id_eq] at *
        omega
      · rcases List.mem_cons.mp hp with rfl | hp
        · exact alloc_count hr h.walks
        · exact h.exact p hp
    next => cases hstep
  | free depth count chain =>
    rw [step] at hstep
    split_ifs at hstep with hlive
    split at hstep
    next u mem hr =>
      obtain rfl := Option.some.inj hstep
      obtain ⟨hwalks, new, htrace, hle⟩ := Conserves.free depth chain _ _ _ hr
      have hfits := (Cuts.free depth chain _ rfl _ _ hr).all_fits htrace
      have htrace : mem.trace = new ++ x.mem.trace := htrace
      refine ⟨hwalks h.walks, fun f => ?_, fun p hp => h.exact p (List.mem_of_mem_erase hp)⟩
      have hbefore := h.backed f
      have hcall := hle hfits f
      have hperm := ((List.perm_cons_erase hlive).flatMap_right Prod.snd).flatMap_right Page.frames
      have hsplit : x.liveFrames.count f = (frames chain).count f +
          (frames ((x.live.erase (count, chain)).flatMap Prod.snd)).count f := by
        rw [liveFrames, frames, hperm.count_eq f, List.flatMap_cons, ← frames, count_frames_append]
      rw [htrace, count_handed_append]
      simp only [liveFrames, frames_nil, List.count_nil] at *
      omega
    next => cases hstep

theorem Inv.owned (h : x.Inv) (hfresh : (handed x.mem.trace).Nodup) : x.Owned where
  once f := (h.backed f).trans (List.nodup_iff_count_le_one.mp hfresh f)
  unwrapped page hpage := by
    apply le_of_runFrames_nodup (m := page.memBase)
    refine List.nodup_iff_count_le_one.mpr fun f => ?_
    have hone := (h.backed f).trans (List.nodup_iff_count_le_one.mp hfresh f)
    obtain ⟨pre, post, hl⟩ := List.append_of_mem hpage
    rw [hl, count_frames_append, count_frames_cons, Page.frames] at hone
    omega
  exact := h.exact

variable {s : Mem} {ms : List Move}

end Steps

end Frames

end Cantos
