import Cantos.Mem.Split
import Cantos.Vm.Fault

/-!
# Chains that are clipped to a window

`Map::insert` enters the frames of a chain from an address on, as far as they are in a
window.  The pages in front of the window are skipped, unless the first one has a negative
address: then none is entered.

## Main definitions

* `Map.InsertsExactly`: the frames in the window are entered, and nothing else.
* `Map.Reaches`: the condition on the address.
-/

namespace Cantos

/-- Page `v` is in the window, and belongs to frame `k` of a chain that is inserted at page
`p`. -/
def Map.Belongs (min max : ℕ) (p : ℤ) (k v : ℕ) : Prop :=
  (v : ℤ) = p + k ∧ min ≤ v * pageSize ∧ v * pageSize < max

instance (min max : ℕ) (p : ℤ) (k v : ℕ) : Decidable (Map.Belongs min max p k v) :=
  inferInstanceAs (Decidable (_ ∧ _))

/-- `insert` at page `p` enters the frames that belong in the window, with the flags and the
present bit, and changes no other entry of any map. -/
structure Map.InsertsExactly (chain : List Page) (p : ℤ) (flags min max : ℕ) : Prop where
  inside : ∀ m k v f, (frames chain)[k]? = some f → Belongs min max p k v →
    (insert flags min max chain (p * pageSize) m).entry v = f ||| flags ||| pageTablePresent
  outside : ∀ m v, (∀ k < Page.count chain, ¬ Belongs min max p k v) →
    (insert flags min max chain (p * pageSize) m).entry v = m.entry v

/-- The chain starts at an address, or ends in front of the window. -/
def Map.Starts (chain : List Page) (p : ℤ) (min max : ℕ) : Prop :=
  p < 0 → ∀ k < Page.count chain, ¬ ((min : ℤ) ≤ (p + k) * pageSize ∧ (p + k) * pageSize < max)

section Insert
variable {chain : List Page} {page : Page} {flags min max k f : ℕ} {p : ℤ}

/-- The entry of a page of a chain is its frame, with the flags and the present bit. -/
theorem entryAt_frames (flags : ℕ) (h : (frames chain)[k]? = some f) :
    k < Page.count chain ∧ Page.entryAt flags chain k = f ||| flags ||| pageTablePresent := by
  induction chain generalizing k with
  | nil => cases h
  | cons page next ih =>
    have hlen : page.frames.length = page.consecutive := by
      rw [Page.frames, runFrames, List.length_map, List.length_range]
    rw [frames, List.flatMap_cons, ← frames] at h
    rw [Page.entryAt, Page.count]
    by_cases hk : k < page.consecutive
    · rw [List.getElem?_append_left (by rwa [hlen]), Page.frames, runFrames, List.getElem?_map,
        List.getElem?_range hk] at h
      rw [if_pos hk, tableEntry, ← Option.some.inj h]
      exact ⟨Nat.lt_add_right _ hk, rfl⟩
    · rw [List.getElem?_append_right (by omega), hlen] at h
      obtain ⟨hlt, hentry⟩ := ih h
      rw [if_neg hk]
      exact ⟨by omega, hentry⟩

/-- **`insert` enters exactly the pages in the window**, when the chain does not reach it from
a negative address. -/
theorem Map.insertsExactly_iff (chain : List Page) (p : ℤ) (flags min max : ℕ) :
    InsertsExactly chain p flags min max ↔ Starts chain p min max := by
  constructor
  · rintro h hneg k hk ⟨hmin, hmax⟩
    have hpage : 0 ≤ p + k := by
      by_contra hlt
      simp only [sizes] at hmin
      omega
    obtain ⟨v, hv⟩ := Int.eq_ofNat_of_zero_le hpage
    have hbelongs : Belongs min max p k v := by
      rw [hv] at hmin hmax
      exact ⟨hv.symm, by exact_mod_cast hmin, by exact_mod_cast hmax⟩
    obtain ⟨f, hf⟩ : ∃ f, (frames chain)[k]? = some f :=
      ⟨_, List.getElem?_eq_getElem (by rwa [length_frames])⟩
    -- A map without tables shows that nothing is entered.
    have hentry := h.inside ⟨fun _ => false, fun _ => 0, []⟩ k v f hf hbelongs
    rw [insert_of_neg (Int.mul_neg_of_neg_of_pos hneg (by decide))] at hentry
    have hbit := congrArg (Nat.testBit · 0) hentry
    simp [entry, pageTablePresent] at hbit
  · intro h
    by_cases hneg : p < 0
    · have hsame : ∀ m, insert flags min max chain (p * pageSize) m = m := fun m =>
        insert_of_neg (Int.mul_neg_of_neg_of_pos hneg (by decide))
      refine ⟨fun m k v f hf hbelongs => ?_, fun m v _ => by rw [hsame]⟩
      obtain ⟨hv, hmin, hmax⟩ := hbelongs
      refine absurd ⟨?_, ?_⟩ (h hneg k (entryAt_frames flags hf).1)
      · rw [← hv]
        exact_mod_cast hmin
      · rw [← hv]
        exact_mod_cast hmax
    · obtain ⟨a, rfl⟩ := Int.eq_ofNat_of_zero_le (Int.not_lt.mp hneg)
      have haddr : ((a : ℤ) * pageSize) = ((a * pageSize : ℕ) : ℤ) :=
        (Int.natCast_mul a pageSize).symm
      refine ⟨fun m k v f hf hbelongs => ?_, fun m v hnone => ?_⟩
      · obtain ⟨hv, hmin, hmax⟩ := hbelongs
        obtain rfl : v = a + k := by exact_mod_cast hv
        obtain ⟨hk, hentry⟩ := entryAt_frames flags hf
        rw [haddr, insert_entry, Nat.mul_div_cancel a (by decide), Nat.add_sub_cancel_left, if_pos,
          hentry]
        simp only [sizes] at *
        omega
      · rw [haddr, insert_entry, Nat.mul_div_cancel a (by decide), if_neg]
        rintro ⟨hle, hlt, hmin, hmax⟩
        have hsum : a * pageSize + (v - a) * pageSize = v * pageSize := by
          rw [← Nat.add_mul, Nat.add_sub_cancel' hle]
        rw [hsum] at hmin hmax
        exact hnone (v - a) (by omega) ⟨by omega, hmin, hmax⟩

/-- A chain of three frames that begins one page in front of address 0 is not entered. -/
theorem Map.not_insertsExactly_negative :
    ¬ InsertsExactly [⟨0, 0, 0x200000, 0, 3⟩] (-1) pageTableRw 0x1000 0x2000 := by
  intro h
  have hentry := h.inside ⟨fun _ => false, fun _ => 0, []⟩ 2 1 0x202000 (by decide) (by decide)
  revert hentry
  decide

end Insert

end Cantos
