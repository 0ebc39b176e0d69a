import Mathlib.Data.Set.Insert

/-!
# Blocks of an allocator

The events at an allocator: blocks are handed out, used and given back.  The rules say what an
event does to the set of blocks in use, so that a program is right when it knows its blocks.

## Main definitions

* `Heap`: an allocator and its trace.
* `Safe`: nothing happens to a block that was given back.
* `Released`: every block was given back once.
* `Heap.Has`: exactly some blocks are in use, and the trace is safe when a condition holds.
-/

namespace Cantos.Blocks

/-- What happens to a block. -/
inductive Event
  | alloc (b : ℕ)
  | use (b : ℕ)
  | free (b : ℕ)
  deriving DecidableEq, Repr

def Event.block : Event → ℕ
  | alloc b | use b | free b => b

/-- The blocks from `next` on have not been handed out. -/
structure Heap where
  next : ℕ
  trace : List Event

/-- A block that was given back is not used, and not given back again. -/
def Safe (trace : List Event) : Prop :=
  trace.Pairwise fun e f => ∀ b, e = .free b → f ≠ .use b ∧ f ≠ .free b

/-- Every block that was handed out was given back exactly once. -/
def Released (trace : List Event) : Prop :=
  ∀ b, Event.alloc b ∈ trace → trace.count (.free b) = 1

theorem Safe.count_le_one {trace : List Event} (h : Safe trace) (b : ℕ) :
    trace.count (.free b) ≤ 1 := by
  by_contra hc
  have htwice : [Event.free b, Event.free b].Sublist trace :=
    List.replicate_sublist_iff.mpr (Nat.lt_of_not_le hc)
  have hpair := List.pairwise_pair.mp (h.sublist htwice)
  exact (hpair b rfl).2 rfl

namespace Heap

variable {h : Heap} {L : Set ℕ} {b : ℕ} {e : Event} {ok : Prop}

def empty : Heap := ⟨0, []⟩

/-- Hand out a new block. -/
def alloc (h : Heap) : Heap := ⟨h.next + 1, h.trace ++ [.alloc h.next]⟩

def use (b : ℕ) (h : Heap) : Heap := { h with trace := h.trace ++ [.use b] }

/-- Give a block back. -/
def free (b : ℕ) (h : Heap) : Heap := { h with trace := h.trace ++ [.free b] }

/-- The blocks in use. -/
def live (h : Heap) : Set ℕ := {b | .alloc b ∈ h.trace ∧ .free b ∉ h.trace}

/-- Exactly the blocks of `L` are in use, and when `ok` holds, nothing has happened to the
others since they were given back. -/
structure Has (h : Heap) (ok : Prop) (L : Set ℕ) : Prop where
  live : h.live = L
  safe_iff : Safe h.trace ↔ ok
  lt : ∀ e ∈ h.trace, e.block < h.next

namespace Has

theorem empty : Heap.empty.Has True ∅ where
  live := Set.eq_empty_iff_forall_notMem.mpr fun _ hb => List.not_mem_nil hb.1
  safe_iff := iff_of_true List.Pairwise.nil trivial
  lt _ he := absurd he List.not_mem_nil

theorem mem_iff (hL : h.Has ok L) : b ∈ L ↔ .alloc b ∈ h.trace ∧ .free b ∉ h.trace := by
  rw [← hL.live]
  rfl

theorem block_lt (hL : h.Has ok L) (hb : b ∈ L) : b < h.next :=
  hL.lt (.alloc b) (hL.mem_iff.mp hb).1

theorem next_notMem (hL : h.Has ok L) : h.next ∉ L := fun hb => Nat.lt_irrefl _ (hL.block_lt hb)

theorem lt_append {n : ℕ} (hL : h.Has ok L) (he : e.block < n) (hn : h.next ≤ n) :
    ∀ f ∈ h.trace ++ [e], f.block < n := by
  intro f hf
  rcases List.mem_append.mp hf with hf | hf
  · exact Nat.lt_of_lt_of_le (hL.lt f hf) hn
  · obtain rfl := List.mem_singleton.mp hf
    exact he

/-- An event does no harm unless it is about a block that was given back. -/
theorem safe_append_iff (hL : h.Has ok L) (he : .free e.block ∉ h.trace) :
    Safe (h.trace ++ [e]) ↔ ok := by
  rw [← hL.safe_iff]
  constructor
  · intro hsafe
    exact (List.pairwise_append.mp hsafe).1
  · intro hsafe
    refine List.pairwise_append.mpr ⟨hsafe, List.pairwise_singleton _ _, fun f hf g hg b hb => ?_⟩
    obtain rfl := List.mem_singleton.mp hg
    have hne : g.block ≠ b := fun hblock => he (hblock ▸ hb ▸ hf)
    exact ⟨fun h => hne (h ▸ rfl), fun h => hne (h ▸ rfl)⟩

theorem alloc (hL : h.Has ok L) : h.alloc.Has ok (insert h.next L) where
  live := by
    have hnew : Event.free h.next ∉ h.trace := fun he => Nat.lt_irrefl _ (hL.lt _ he)
    ext b
    rw [Set.mem_insert_iff, hL.mem_iff]
    simp only [Heap.live, Heap.alloc, Set.mem_ofPred_eq, List.mem_append, List.mem_singleton,
      Event.alloc.injEq, reduceCtorEq, or_false]
    constructor
    · rintro ⟨hmem | rfl, hfree⟩
      · exact Or.inr ⟨hmem, hfree⟩
      · exact Or.inl rfl
    · rintro (rfl | ⟨hmem, hfree⟩)
      · exact ⟨Or.inr rfl, hnew⟩
      · exact ⟨Or.inl hmem, hfree⟩
  safe_iff := hL.safe_append_iff fun he => Nat.lt_irrefl _ (hL.lt _ he)
  lt := hL.lt_append (Nat.lt_succ_self _) (Nat.le_succ _)

theorem use (hL : h.Has ok L) (hb : b ∈ L) : (h.use b).Has ok L where
  live := by
    ext c
    rw [hL.mem_iff]
    simp [Heap.live, Heap.use]
  safe_iff := hL.safe_append_iff (hL.mem_iff.mp hb).2
  lt := hL.lt_append (hL.block_lt hb) (Nat.le_refl _)

/-- The use of a block that was given back. -/
theorem use_freed (hL : h.Has ok L) (hb : .free b ∈ h.trace) : (h.use b).Has False L where
  live := by
    ext c
    rw [hL.mem_iff]
    simp [Heap.live, Heap.use]
  safe_iff := by
    refine iff_of_false (fun hsafe => ?_) id
    exact ((List.pairwise_append.mp hsafe).2.2 _ hb _ (List.mem_singleton_self _) b rfl).1 rfl
  lt := hL.lt_append (hL.lt (.free b) hb) (Nat.le_refl _)

theorem free (hL : h.Has ok L) (hb : b ∈ L) : (h.free b).Has ok (L \ {b}) where
  live := by
    ext c
    rw [Set.mem_sdiff, hL.mem_iff]
    simp [Heap.live, Heap.free, and_assoc]
  safe_iff := hL.safe_append_iff (hL.mem_iff.mp hb).2
  lt := hL.lt_append (hL.block_lt hb) (Nat.le_refl _)

/-- Every block was given back once, and none was used after that, when none is in use and
`ok` holds. -/
theorem released_iff (hL : h.Has ok L) :
    Released h.trace ∧ Safe h.trace ↔ ok ∧ L = ∅ := by
  rw [hL.safe_iff, and_comm, Set.eq_empty_iff_forall_notMem]
  refine and_congr_right fun hok => ?_
  constructor
  · intro hr b hb
    obtain ⟨halloc, hfree⟩ := hL.mem_iff.mp hb
    exact absurd (hr b halloc) (by rw [List.count_eq_zero_of_not_mem hfree]; decide)
  · intro hempty b halloc
    have hfree : Event.free b ∈ h.trace := by
      by_contra hc
      exact hempty b (hL.mem_iff.mpr ⟨halloc, hc⟩)
    exact Nat.le_antisymm ((hL.safe_iff.mpr hok).count_le_one b) (List.count_pos_iff.mpr hfree)

end Has

end Heap

end Cantos.Blocks
