import Cantos.Hw.Acpi
import Cantos.Lib.Walk
import Mathlib.Tactic.SplitIfs

/-!
# The loop over the entries of the MADT

The loop goes from entry to entry by their length bytes.  It ends, inside of the arrays, where
it never comes back to an entry and no kind of entry is there more often than its array has
room.

## Main definitions

* `types`: the types of the entries the loop comes to.
* `MadtBounded`: the loop ends, and all counts are within the arrays.
* `EntriesFit`: the condition.
-/

namespace Cantos.Acpi

variable {mem : Memory} {madt top p n fuel : ℕ} {c c' : Copied} {t : BitVec 8} {low : Low}

/-- The types of the first entries from `p` on. -/
def types (mem : Memory) : (p k : ℕ) → List (BitVec 8)
  | _, 0 => []
  | p, k + 1 => mem p :: types mem (nextEntry mem p) k

/-- The types that the `switch` has a case for. -/
def IsKind (t : BitVec 8) : Prop := t = 0x0#8 ∨ t = 0x1#8 ∨ t = 0x2#8

/-- The number of entries of a kind that have been copied. -/
def Copied.count (c : Copied) (t : BitVec 8) : ℕ :=
  if t = 0x0#8 then c.pc else if t = 0x1#8 then c.ic else if t = 0x2#8 then c.sc else 0

/-- All counts are within the arrays. -/
def Copied.Bounded (c : Copied) : Prop := ∀ t, IsKind t → c.count t ≤ madtCopy

/-- The loop over the entries ends and keeps to the arrays, and so does `cpu::init`. -/
def MadtBounded (mem : Memory) (madt : ℕ) : Prop :=
  ∀ low, ∃ fuel c, entryLoop mem (tableEnd mem madt) fuel (firstEntry madt)
      ⟨0, 0, 0, { low with lapicBase := read32 mem (add32 madt sizeofSdtHeader) }⟩ = .ok c ∧
    c.Bounded ∧ ∀ low', readMadt mem fuel madt low = .ok low' →
      low'.procCount ≤ madtCopy ∧ low'.ioapicCount ≤ madtCopy ∧ low'.isoCount ≤ madtCopy ∧
        ∀ stack, ∃ l, cpuInit stack low'.procCount = .ok l

/-- The loop comes to an entry only once, and to no more entries of a kind than there is room
for. -/
def EntriesFit (mem : Memory) (madt : ℕ) : Prop :=
  Walk.NoReturn (nextEntry mem) (· < tableEnd mem madt) (firstEntry madt) ∧
    ∀ k, Walk.Stays (nextEntry mem) (· < tableEnd mem madt) (firstEntry madt) k →
      ∀ t, IsKind t → (types mem (firstEntry madt) k).count t ≤ madtCopy

/-! ## One entry -/

theorem copyEntry_ok (h : copyEntry mem p c = .ok c') (ht : IsKind t) :
    c'.count t = c.count t + (if mem p = t then 1 else 0) ∧
      (mem p = t → c.count t < madtCopy) := by
  unfold copyEntry at h
  simp only at h
  split_ifs at h with h₀ hlt₀ h₁ hlt₁ h₂ hlt₂ <;> cases h
  · rcases ht with rfl | rfl | rfl <;> simp [Copied.count, h₀, hlt₀]
  · rcases ht with rfl | rfl | rfl <;> simp [Copied.count, h₁, hlt₁]
  · rcases ht with rfl | rfl | rfl <;> simp [Copied.count, h₂, hlt₂]
  · rcases ht with rfl | rfl | rfl <;> simp [h₀, h₁, h₂]

theorem exists_copyEntry (h : IsKind (mem p) → c.count (mem p) < madtCopy) :
    ∃ c', copyEntry mem p c = .ok c' := by
  unfold copyEntry
  simp only
  by_cases h₀ : mem p = 0x0#8
  · have hlt : c.pc < madtCopy := by simpa [Copied.count, h₀] using h (.inl h₀)
    exact ⟨_, by rw [if_pos h₀, if_pos hlt]⟩
  · by_cases h₁ : mem p = 0x1#8
    · have hlt : c.ic < madtCopy := by simpa [Copied.count, h₁] using h (.inr (.inl h₁))
      exact ⟨_, by rw [if_neg h₀, if_pos h₁, if_pos hlt]⟩
    · by_cases h₂ : mem p = 0x2#8
      · have hlt : c.sc < madtCopy := by simpa [Copied.count, h₂] using h (.inr (.inr h₂))
        exact ⟨_, by rw [if_neg h₀, if_neg h₁, if_pos h₂, if_pos hlt]⟩
      · exact ⟨_, by rw [if_neg h₀, if_neg h₁, if_neg h₂]⟩

/-! ## The loop -/

theorem entryLoop_inside (h : p < top) (hcopy : copyEntry mem p c = .ok c') :
    entryLoop mem top (fuel + 1) p c = entryLoop mem top fuel (nextEntry mem p) c' := by
  rw [entryLoop, if_pos h, hcopy]
  rfl

theorem count_types_succ (p n : ℕ) (t : BitVec 8) : (types mem p (n + 1)).count t =
    (if mem p = t then 1 else 0) + (types mem (nextEntry mem p) n).count t := by
  rw [types, List.count_cons, Nat.add_comm]
  simp only [beq_iff_eq]

/-- A run that ends has walked out of the table, and counted on the way. -/
theorem entryLoop_ok (h : entryLoop mem top fuel p c = .ok c') (hc : c.Bounded) :
    c'.Bounded ∧ ∃ n, Walk.Leaves (nextEntry mem) (· < top) p n ∧
      ∀ t, IsKind t → c'.count t = c.count t + (types mem p n).count t := by
  induction fuel generalizing p c with
  | zero => cases h
  | succ fuel ih =>
    by_cases hlt : p < top
    · rw [entryLoop, if_pos hlt] at h
      obtain ⟨c₁, hcopy, h⟩ := bind_eq_ok.mp h
      have hc₁ : c₁.Bounded := by
        intro t ht
        obtain ⟨heq, hroom⟩ := copyEntry_ok hcopy ht
        have hle := hc t ht
        rw [heq]
        split_ifs with htype
        · exact hroom htype
        · exact hle
      obtain ⟨hbounded, n, hleaves, hcount⟩ := ih h hc₁
      refine ⟨hbounded, n + 1, Walk.leaves_succ.mpr ⟨hlt, hleaves⟩, fun t ht => ?_⟩
      rw [hcount t ht, (copyEntry_ok hcopy ht).1, count_types_succ, Nat.add_assoc]
    · rw [entryLoop, if_neg hlt] at h
      cases h
      exact ⟨hc, 0, Walk.leaves_zero.mpr hlt, fun t ht => rfl⟩

/-- A walk out of the table with room for what it comes to is a run that ends. -/
theorem exists_entryLoop (h : Walk.Leaves (nextEntry mem) (· < top) p n)
    (hroom : ∀ t, IsKind t → c.count t + (types mem p n).count t ≤ madtCopy) :
    ∃ c', entryLoop mem top (n + 1) p c = .ok c' := by
  induction n generalizing p c with
  | zero =>
    have hout : ¬ p < top := h.2
    exact ⟨c, by rw [entryLoop, if_neg hout]⟩
  | succ n ih =>
    obtain ⟨hlt, hleaves⟩ := Walk.leaves_succ.mp h
    obtain ⟨c₁, hcopy⟩ := @exists_copyEntry mem p c fun hkind => by
      have := hroom _ hkind
      rw [count_types_succ, if_pos rfl] at this
      omega
    rw [entryLoop_inside hlt hcopy]
    refine ih hleaves fun t ht => ?_
    rw [(copyEntry_ok hcopy ht).1, Nat.add_assoc, ← count_types_succ]
    exact hroom t ht

theorem count_types_le (h : n ≤ fuel) (p : ℕ) (t : BitVec 8) :
    (types mem p n).count t ≤ (types mem p fuel).count t := by
  induction n generalizing p fuel with
  | zero => exact Nat.zero_le _
  | succ n ih =>
    obtain ⟨fuel, rfl⟩ := Nat.exists_eq_succ_of_ne_zero (Nat.ne_of_gt (Nat.zero_lt_of_lt h))
    rw [count_types_succ, count_types_succ]
    exact Nat.add_le_add_left (ih (Nat.le_of_succ_le_succ h) _) _

/-- As many entries of each kind as there are CPUs at most leave `cpu::init` in its arrays. -/
theorem exists_cpuInit {procCount : ℕ} (h : procCount ≤ maxCores) (stack : ℕ → ℕ) :
    ∃ l, cpuInit stack procCount = .ok l := by
  have hall : ∀ l : List ℕ, (∀ i ∈ l, i < maxCores) → ∃ l', (l.mapM fun i =>
      if i < maxCores then .ok ⟨i, stack i, false⟩ else .error .outOfBounds :
        Except LowStuck (List Status)) = .ok l' := by
    intro l hl
    induction l with
    | nil => exact ⟨[], rfl⟩
    | cons i l ih =>
      obtain ⟨l', hl'⟩ := ih fun j hj => hl j (List.mem_cons_of_mem i hj)
      exact ⟨⟨i, stack i, false⟩ :: l', by
        rw [List.mapM_cons, if_pos (hl i List.mem_cons_self), hl']
        rfl⟩
  exact hall _ fun i hi => (List.mem_range.mp hi).trans_le h

theorem Copied.Bounded.readMadt {low' : Low} (hc : c.Bounded)
    (hloop : entryLoop mem (tableEnd mem madt) fuel (firstEntry madt)
      ⟨0, 0, 0, { low with lapicBase := read32 mem (add32 madt sizeofSdtHeader) }⟩ = .ok c)
    (h : Acpi.readMadt mem fuel madt low = .ok low') :
    low'.procCount ≤ madtCopy ∧ low'.ioapicCount ≤ madtCopy ∧ low'.isoCount ≤ madtCopy := by
  simp only [Acpi.readMadt, hloop, bind, Except.bind] at h
  split_ifs at h
  cases h
  exact ⟨hc 0x0#8 (.inl rfl), hc 0x1#8 (.inr (.inl rfl)), hc 0x2#8 (.inr (.inr rfl))⟩

/-- **The loop over the MADT is bounded** exactly when its entries fit. -/
theorem madtBounded_iff (mem : Memory) (madt : ℕ) : MadtBounded mem madt ↔ EntriesFit mem madt := by
  have hzero : ∀ low, Copied.Bounded ⟨0, 0, 0, low⟩ := by
    rintro low t (rfl | rfl | rfl) <;> exact Nat.zero_le _
  have hcount : ∀ low t, IsKind t → Copied.count ⟨0, 0, 0, low⟩ t = 0 := by
    rintro low t (rfl | rfl | rfl) <;> rfl
  constructor
  · intro h
    obtain ⟨fuel, c, hloop, hc, -⟩ := h ⟨false, 0, 0, 0, 0, fun _ => [], fun _ => [], fun _ => []⟩
    obtain ⟨-, n, hleaves, heq⟩ := entryLoop_ok hloop (hzero _)
    refine ⟨hleaves.noReturn, fun k hk t ht => ?_⟩
    calc (types mem (firstEntry madt) k).count t
        ≤ (types mem (firstEntry madt) n).count t := count_types_le (hleaves.stays_iff.mp hk) _ t
      _ = c.count t := by rw [heq t ht, hcount _ t ht, Nat.zero_add]
      _ ≤ madtCopy := hc t ht
  · rintro ⟨hreturn, hroom⟩ low
    obtain ⟨n, hleaves⟩ := (Walk.exists_leaves_iff (Set.finite_lt_nat _)).mpr hreturn
    obtain ⟨c, hloop⟩ := @exists_entryLoop mem (tableEnd mem madt) (firstEntry madt) n
      ⟨0, 0, 0, { low with lapicBase := read32 mem (add32 madt sizeofSdtHeader) }⟩ hleaves
      fun t ht => by
        rw [hcount _ t ht, Nat.zero_add]
        exact hroom n hleaves.1 t ht
    have hc : c.Bounded := (entryLoop_ok hloop (hzero _)).1
    refine ⟨n + 1, c, hloop, hc, fun low' hlow' => ?_⟩
    obtain ⟨hproc, hio, hiso⟩ := hc.readMadt hloop hlow'
    exact ⟨hproc, hio, hiso, fun stack => exists_cpuInit hproc stack⟩

/-- In a table in front of the last 255 bytes of memory, the loop comes back to an entry only
if its length byte is 0. -/
theorem noReturn_iff_length_ne_zero (htop : top + 255 ≤ 2 ^ 32) :
    Walk.NoReturn (nextEntry mem) (· < top) p ↔
      ∀ k, Walk.Stays (nextEntry mem) (· < top) p (k + 1) →
        mem (add32 ((nextEntry mem)^[k] p) 1) ≠ 0 := by
  have hnext : ∀ q, q < top → nextEntry mem q = q + (mem (add32 q 1)).toNat := by
    intro q hq
    have hlt := (mem (add32 q 1)).isLt
    exact Nat.mod_eq_of_lt (by omega)
  constructor
  · intro h k hk hzero
    have hplace : (nextEntry mem)^[k] p < top := hk k k.lt_succ_self
    have hstay : (nextEntry mem)^[k + 1] p = (nextEntry mem)^[k] p := by
      rw [Function.iterate_succ_apply', hnext _ hplace, hzero]
      rfl
    refine h k (k + 1) k.lt_succ_self (fun j hj => ?_) hstay.symm
    rcases Nat.lt_succ_iff_lt_or_eq.mp hj with hj | rfl
    · exact hk j hj
    · exact hstay ▸ hplace
  · intro h
    -- The places go up.
    have hup : ∀ i j, i < j → Walk.Stays (nextEntry mem) (· < top) p (j + 1) →
        (nextEntry mem)^[i] p < (nextEntry mem)^[j] p := by
      intro i j hij hj
      induction j with
      | zero => exact absurd hij i.not_lt_zero
      | succ j ih =>
        have hprev := hj.mono (Nat.le_succ (j + 1))
        have hplace : (nextEntry mem)^[j] p < top := hprev j j.lt_succ_self
        have hpos : 0 < (mem (add32 ((nextEntry mem)^[j] p) 1)).toNat :=
          Nat.pos_of_ne_zero fun hzero => h j hprev (BitVec.eq_of_toNat_eq hzero)
        have hstep : (nextEntry mem)^[j] p < (nextEntry mem)^[j + 1] p := by
          rw [Function.iterate_succ_apply', hnext _ hplace]
          omega
        rcases Nat.lt_succ_iff_lt_or_eq.mp hij with hij | rfl
        · exact (ih hij hprev).trans hstep
        · exact hstep
    exact fun i j hij hj => Nat.ne_of_lt (hup i j hij hj)

/-- A MADT at 0x1000 whose first entry has the length 0. -/
def memStuck : Memory := fun a => if a = 0x1004 then 60#8 else 0

theorem not_madtBounded_memStuck : ¬ ∀ mem madt, MadtBounded mem madt := by
  intro h
  obtain ⟨fuel, c, hloop, -⟩ := h memStuck 0x1000 ⟨false, 0, 0, 0, 0, fun _ => [], fun _ => [],
    fun _ => []⟩
  have hc : Copied.Bounded ⟨0, 0, 0, ⟨false, 0, 0, 0,
      read32 memStuck (add32 0x1000 sizeofSdtHeader), fun _ => [], fun _ => [], fun _ => []⟩⟩ := by
    rintro t (rfl | rfl | rfl) <;> exact Nat.zero_le _
  obtain ⟨-, n, hleaves, -⟩ := entryLoop_ok hloop hc
  have htop : tableEnd memStuck 0x1000 + 255 ≤ 2 ^ 32 := by decide
  have hlength := (noReturn_iff_length_ne_zero htop).mp hleaves.noReturn 0 fun j hj => by
    obtain rfl : j = 0 := by omega
    decide
  exact hlength (by decide)

end Cantos.Acpi
