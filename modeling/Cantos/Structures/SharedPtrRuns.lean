import Cantos.Structures.SharedPtrRelease

/-!
# Programs with `shared_ptr`s

Every operation keeps the counts exact, with an exception: an assignment reads its source
after it has released the object of its target.  When the source is stored in an object that
only the target owns, as in `node = node->next`, it is destroyed then.

## Main results

* `exact_run`: in every program that makes no such assignment the counts stay exact and no
  operation uses a destroyed `shared_ptr`.
-/

namespace Cantos.SharedPtr

variable {members : ℕ → List ℕ} {h h' : Heap} {l o r : ℕ} {v w e e' : Option ℕ}
  {G D : Finset ℕ} {rank : ℕ → ℕ}

/-! ## What the parts of an operation preserve -/

/-- A `shared_ptr` is written that did not count. -/
theorem Tracks.set (ht : Tracks members h (insert l G) D e) (hl : l ∈ h.live) (hG : l ∉ G)
    (hsplit : ∀ o, extra e o = extra w o + extra e' o) : Tracks members (h.set l w) G D e' := by
  have hmanaged : ∀ o, w = some o ∨ e' = some o → o ∈ h.managed := by
    intro o ho
    refine ht.counted o ?_
    by_contra hne
    have hzero := hsplit o
    rw [extra, if_neg hne] at hzero
    rcases ho with rfl | rfl
    · rw [extra_self] at hzero
      omega
    · rw [extra_self] at hzero
      omega
  refine { ht with counts := ?_, managed := ?_, counted := fun o ho => hmanaged o (.inr ho) }
  · intro o
    have hmem : l ∈ (h.set l w).live := hl
    have hcounts : h.uses o = (h.owners (insert l G) o).card + extra e o := ht.counts o
    rw [card_owners hmem hG, Heap.set_ptr_self, owners_set h w (Finset.mem_insert_self l G),
      Nat.add_assoc, ← hsplit o]
    exact hcounts
  · intro p hp o ho
    by_cases hpl : p = l
    · subst hpl
      rw [Heap.set_ptr_self] at ho
      exact hmanaged o (.inl ho)
    · rw [Heap.set_ptr_of_ne hpl] at ho
      exact ht.managed p hp o ho

theorem Tracks.set_extra (ht : Tracks members h {l} ∅ e) (hl : l ∈ h.live) :
    (h.set l e).Inv members := by
  rw [← LawfulSingleton.insert_empty_eq] at ht
  exact ht.set hl (Finset.notMem_empty l) fun _ => rfl

/-- A `shared_ptr` does not count while its use is passed on. -/
theorem Tracks.take (ht : Tracks members h G D none) (hr : r ∈ h.live) (hG : r ∉ G) :
    Tracks members h (insert r G) D (h.ptr r) := by
  refine { ht with counts := ?_, counted := fun o ho => ht.managed r hr o ho }
  intro o
  have hcounts := ht.counts o
  rw [card_owners hr hG, Nat.add_assoc] at hcounts
  exact hcounts

/-- The use of `r` is passed on. -/
theorem Tracks.take_clear (ht : Tracks members h G D none) (hr : r ∈ h.live) (hG : r ∉ G) :
    Tracks members (h.set r none) G D (h.ptr r) :=
  (ht.take hr hG).set hr hG fun _ => (Nat.zero_add _).symm

theorem Tracks.construct (ht : Tracks members h ∅ ∅ v) (hl : l ∉ h.live) :
    (h.construct l v).Inv members := by
  refine { ht with
    counts := Heap.Counts.construct ht.counts hl
    managed := ?_
    counted := ?_
    live := fun o ho hD m hm => Finset.mem_insert_of_mem (ht.live o ho hD m hm) }
  · intro p hp o ho
    by_cases hpl : p = l
    · subst hpl
      rw [Heap.construct_ptr_self] at ho
      exact ht.counted o ho
    · rw [Heap.construct_ptr_of_ne hpl] at ho
      exact ht.managed p (Finset.mem_of_mem_insert_of_ne hp hpl) o ho
  · intro o ho
    cases ho

/-- A variable whose use has been taken away ends. -/
theorem Tracks.remove (ht : Tracks members h {l} ∅ none) (hfree : h.Free members l) :
    (h.remove l).Inv members := by
  rw [← LawfulSingleton.insert_empty_eq] at ht
  refine { ht with
    counts := fun o => (ht.counts o).trans (by rw [owners_remove])
    managed := fun p hp => ht.managed p (Finset.mem_of_mem_erase hp)
    live := ?_ }
  intro o ho hD m hm
  have hne : m ≠ l := fun heq => hfree o ho.1 ho.2 (heq ▸ hm)
  exact Finset.mem_erase_of_ne_of_mem hne (ht.live o ho hD m hm)

/-- A new object comes with the use of the `shared_ptr` that it is made for. -/
theorem Tracks.manage (ht : Tracks members h G ∅ none) (hf : h.Fresh members o) :
    Tracks members (h.manage o) G ∅ (some o) := by
  obtain ⟨hnew, hnodup, hmembers⟩ := hf
  have hold : ∀ o', (h.manage o).Has o' → o' ≠ o → h.Has o' := fun o' ho' hne =>
    ⟨Finset.mem_of_mem_insert_of_ne ho'.1 hne, ho'.2⟩
  have hfree : ∀ o', (h.manage o).Has o' → o' ≠ o → ∀ m ∈ members o, m ∉ members o' :=
    fun o' ho' hne m hm => (hmembers m hm).2 o' (hold o' ho' hne).1 (hold o' ho' hne).2
  constructor
  · intro o'
    have hcounts : h.uses o' = (h.owners G o').card + extra none o' := ht.counts o'
    have hsame : (h.manage o).owners G o' = h.owners G o' := rfl
    rw [extra_none, Nat.add_zero] at hcounts
    rw [hsame, ← hcounts]
    by_cases ho : o' = o
    · subst ho
      rw [Heap.manage_uses_self, ht.uses_unmanaged hnew, extra_self]
    · rw [Heap.manage_uses_of_ne ho, extra_of_ne ho, Nat.add_zero]
  · exact fun p hp o' ho' => Finset.mem_insert_of_mem (ht.managed p hp o' ho')
  · intro o' ho'
    exact Option.some.inj ho' ▸ Finset.mem_insert_self o h.managed
  · intro o' ho' hD
    by_cases ho : o' = o
    · subst ho
      rw [Heap.manage_uses_self]
      exact ht.unmanaged o' hnew
    · rw [Heap.manage_uses_of_ne ho]
      exact ht.deleted o' (Finset.mem_of_mem_insert_of_ne ho' ho) hD
  · exact fun o' ho' => ht.unmanaged o' fun hmem => ho' (Finset.mem_insert_of_mem hmem)
  · exact fun o' ho' => absurd ho' (Finset.notMem_empty o')
  · intro o' ho' hD m hm
    by_cases ho : o' = o
    · subst ho
      exact (hmembers m hm).1
    · exact ht.live o' (hold o' ho' ho) hD m hm
  · intro o' ho'
    by_cases ho : o' = o
    · subst ho
      exact hnodup
    · exact ht.nodup o' (hold o' ho' ho)
  · intro a b ha hb m hma hmb
    by_cases ha' : a = o
    · subst ha'
      by_contra hne
      exact hfree b hb (fun heq => hne heq.symm) m hma hmb
    · by_cases hb' : b = o
      · subst hb'
        exact absurd hma (hfree a ha ha' m hmb)
      · exact ht.apart a b (hold a ha ha') (hold b hb hb') m hma hmb

/-- Another use of an object that is in use. -/
theorem Heap.Inv.acquire (hi : h.Inv members) (hv : ∀ o, v = some o → 0 < h.uses o) :
    Tracks members (h.acquire v) ∅ ∅ v := by
  have hcounts := Heap.Counts.acquire hi.counts v
  cases v with
  | none => exact hi
  | some a =>
    have hpos := hv a rfl
    have hmanaged : a ∈ h.managed := by
      by_contra hnot
      exact hpos.ne' (hi.uses_unmanaged hnot)
    refine { hi with counts := hcounts, counted := ?_, deleted := ?_, dying := ?_ }
    · intro o ho
      exact Option.some.inj ho ▸ hmanaged
    · intro o ho hD
      by_cases heq : o = a
      · subst heq
        have huses : (h.acquire (some o)).uses o = h.uses o + 1 := Heap.setUses_uses_self
        rw [huses, if_neg (Nat.succ_ne_zero _)]
        exact (hi.deleted o ho hD).trans (if_neg hpos.ne')
      · have huses : (h.acquire (some a)).uses o = h.uses o := Heap.setUses_uses_of_ne heq
        rw [huses]
        exact hi.deleted o ho hD
    · exact fun o ho => absurd ho (Finset.notMem_empty o)

/-- The counts when two `shared_ptr`s have been swapped. -/
theorem Heap.Inv.swap (hi : h.Inv members) (hl : l ∈ h.live) (hr : r ∈ h.live) :
    ((h.set r (h.ptr l)).set l (h.ptr r)).Inv members := by
  by_cases hlr : l = r
  · subst hlr
    have hsame : (h.set l (h.ptr l)).set l (h.ptr l) = h := by
      simp only [Heap.set, Function.update_eq_self]
    rwa [hsame]
  · have hptr : ((h.set r (h.ptr l)).set l (h.ptr r)).ptr r = h.ptr l := by
      rw [Heap.set_ptr_of_ne (Ne.symm hlr), Heap.set_ptr_self]
    have hnot : r ∉ ({l} : Finset ℕ) := fun hmem => hlr (Finset.mem_singleton.mp hmem).symm
    refine { hi with counts := ?_, managed := ?_ }
    · intro o
      have hcounts : h.uses o = (h.owners ∅ o).card + extra none o := hi.counts o
      have hl' : l ∈ ((h.set r (h.ptr l)).set l (h.ptr r)).live := hl
      have hr' : r ∈ ((h.set r (h.ptr l)).set l (h.ptr r)).live := hr
      rw [card_owners hl (Finset.notMem_empty l), LawfulSingleton.insert_empty_eq,
        card_owners hr hnot] at hcounts
      rw [card_owners hl' (Finset.notMem_empty l), LawfulSingleton.insert_empty_eq,
        card_owners hr' hnot, hptr, Heap.set_ptr_self,
        owners_set _ _ (Finset.mem_insert_of_mem (Finset.mem_singleton_self l)),
        owners_set _ _ (Finset.mem_insert_self r {l})]
      refine Eq.trans hcounts ?_
      omega
    · intro p hp o ho
      by_cases hpl : p = l
      · subst hpl
        rw [Heap.set_ptr_self] at ho
        exact hi.managed r hr o ho
      · rw [Heap.set_ptr_of_ne hpl] at ho
        by_cases hpr : p = r
        · subst hpr
          rw [Heap.set_ptr_self] at ho
          exact hi.managed l hl o ho
        · rw [Heap.set_ptr_of_ne hpr] at ho
          exact hi.managed p hp o ho

/-! ## The release inside an operation -/

/-- The release of the object of `l`, with a use counted already. -/
theorem Heap.Inv.drop (hi : h.Inv members) (hrank : h.Ranked members rank) (hl : l ∈ h.live)
    (hv : ∀ o, v = some o → 0 < h.uses o) :
    ∃ h', (h.acquire v).drop members l = some h' ∧ Releases members h l rank h' {l} ∅ v := by
  have ht := hi.acquire hv
  have hrel : Releases members h l rank (h.acquire v) ∅ ∅ v := by
    have hsame : (h.acquire v).ptr = h.ptr ∧ (h.acquire v).managed = h.managed ∧
        (h.acquire v).live = h.live ∧ (h.acquire v).deleted = h.deleted := by
      cases v <;> exact ⟨rfl, rfl, rfl, rfl⟩
    refine { ht with
      ptr := hsame.1
      managed_eq := hsame.2.1
      sub := hsame.2.2.1.subset
      has := ?_
      target := hsame.2.2.1 ▸ hl
      pending := fun g hg => absurd hg (Finset.notMem_empty g)
      gone := ?_
      below := fun o ho => absurd ho (Finset.notMem_empty o)
      lost := fun o ho => absurd ho (Finset.notMem_empty o) }
    · intro o ho
      rwa [Heap.Has, hsame.2.1, hsame.2.2.2] at ho
    · intro p hp hgone
      rw [hsame.2.2.1] at hgone
      rcases hgone with hnot | hmem
      · exact absurd hp hnot
      · exact absurd hmem (Finset.notMem_empty p)
  have hfuel : (h.acquire v).used.card < (h.acquire v).managed.card + 1 :=
    Nat.lt_succ_of_le (Finset.card_filter_le _ _)
  obtain ⟨h', hdrop, hr', -⟩ := drops hrank hi.apart _ _ l ∅ ∅ hrel hrel.target
    (Finset.notMem_empty l) (.inl rfl) hfuel
  rw [LawfulSingleton.insert_empty_eq] at hr'
  exact ⟨h', hdrop, hr'⟩

theorem Heap.Inv.drop_none (hi : h.Inv members) (hrank : h.Ranked members rank)
    (hl : l ∈ h.live) :
    ∃ h', h.drop members l = some h' ∧ Releases members h l rank h' {l} ∅ none := by
  refine hi.drop (v := none) hrank hl fun o ho => ?_
  cases ho

/-- The release keeps a `shared_ptr` that is in no object that only the target owns. -/
theorem Releases.live_of_kept {h₀ : Heap} (hr : Releases members h₀ l rank h {l} ∅ e)
    (hlive : r ∈ h₀.live)
    (hkeep : r = l ∨ ∀ y, h₀.Has y → r ∈ members y → h₀.Kept members l y) : r ∈ h.live := by
  by_contra hnot
  have hne : r ≠ l := fun heq => hnot (heq ▸ hr.target)
  obtain ⟨y, hy, hlost, hmem⟩ := (hr.gone r hlive (.inl hnot)).resolve_left hne
  exact hlost (hkeep.resolve_left hne y hy hmem)

theorem Releases.fresh {h₀ : Heap} (hr : Releases members h₀ l rank h {l} ∅ e)
    (hf : h₀.Fresh members o) : h.Fresh members o := by
  obtain ⟨hnew, hnodup, hmembers⟩ := hf
  refine ⟨hr.managed_eq ▸ hnew, hnodup, fun m hm => ⟨?_, fun y hy hzero => ?_⟩⟩
  · refine hr.live_of_kept (hmembers m hm).1 (.inr fun y hy hmem => ?_)
    exact absurd hmem ((hmembers m hm).2 y hy.1 hy.2)
  · have hhas := hr.has y ⟨hy, hzero⟩
    exact (hmembers m hm).2 y hhas.1 hhas.2

theorem Heap.write_of_mem (hl : l ∈ h.live) (v : Option ℕ) : h.write l v = some (h.set l v) :=
  if_pos hl

theorem Heap.read_of_mem (hl : l ∈ h.live) : h.read l = some (h.ptr l) := if_pos hl

/-! ## The operations -/

section Step
variable (hi : h.Inv members) (hac : h.Acyclic members)

include hi hac

theorem Heap.Inv.copyAssign (hl : l ∈ h.live) (hr : r ∈ h.live)
    (hkeep : (Op.copyAssign l r).KeepsSource members h) :
    ∃ h', step members h (.copyAssign l r) = some h' ∧ h'.Inv members := by
  obtain ⟨rank, hrank⟩ := hac
  obtain ⟨h', hdrop, hrel⟩ := hi.drop hrank hl (v := h.ptr r)
    fun o ho => hi.uses_pos hr (Finset.notMem_empty r) ho
  have hr' := hrel.live_of_kept hr (hkeep l r rfl)
  refine ⟨h'.set l (h.ptr r), ?_, hrel.toTracks.set_extra hrel.target⟩
  rw [step, Heap.read_of_mem hr, Option.bind_some, hdrop, Option.bind_some, Heap.read_of_mem hr',
    Option.bind_some, Heap.write_of_mem hrel.target, hrel.ptr]

theorem Heap.Inv.moveAssign (hl : l ∈ h.live) (hr : r ∈ h.live)
    (hkeep : (Op.moveAssign l r).KeepsSource members h) :
    ∃ h', step members h (.moveAssign l r) = some h' ∧ h'.Inv members := by
  obtain ⟨rank, hrank⟩ := hac
  obtain ⟨h', hdrop, hrel⟩ := hi.drop_none hrank hl
  have hr' := hrel.live_of_kept hr (hkeep l r rfl)
  have hr'' : r ∈ (h'.set l (h'.ptr r)).live := hr'
  refine ⟨(h'.set l (h'.ptr r)).set r none, ?_, ?_⟩
  · rw [step, hdrop, Option.bind_some, Heap.read_of_mem hr', Option.bind_some,
      Heap.write_of_mem hrel.target, Option.bind_some, Heap.write_of_mem hr'']
  · by_cases hlr : l = r
    · -- A `shared_ptr` that is moved to itself is empty afterwards.
      subst hlr
      have hsame : (h'.set l (h'.ptr l)).set l none = h'.set l none := by
        simp only [Heap.set, Function.update_idem]
      rw [hsame]
      exact hrel.toTracks.set_extra hrel.target
    · have hnot : r ∉ ({l} : Finset ℕ) := fun hmem => hlr (Finset.mem_singleton.mp hmem).symm
      have hcomm : (h'.set l (h'.ptr r)).set r none = (h'.set r none).set l (h'.ptr r) := by
        simp only [Heap.set, Function.update_comm hlr]
      rw [hcomm]
      exact (hrel.toTracks.take_clear hr' hnot).set_extra hrel.target

theorem Heap.Inv.assignNull (hl : l ∈ h.live) :
    ∃ h', step members h (.assignNull l) = some h' ∧ h'.Inv members := by
  obtain ⟨rank, hrank⟩ := hac
  obtain ⟨h', hdrop, hrel⟩ := hi.drop_none hrank hl
  refine ⟨h'.set l none, ?_, hrel.toTracks.set_extra hrel.target⟩
  rw [step, hdrop, Option.bind_some, Heap.write_of_mem hrel.target]

theorem Heap.Inv.reset (hl : l ∈ h.live) (hf : h.Fresh members o) :
    ∃ h', step members h (.reset l o) = some h' ∧ h'.Inv members := by
  obtain ⟨rank, hrank⟩ := hac
  obtain ⟨h', hdrop, hrel⟩ := hi.drop_none hrank hl
  have hl' : l ∈ (h'.manage o).live := hrel.target
  refine ⟨(h'.manage o).set l (some o), ?_, (hrel.toTracks.manage (hrel.fresh hf)).set_extra hl'⟩
  rw [step, hdrop, Option.bind_some, Heap.write_of_mem hl']

theorem Heap.Inv.destroy (hl : l ∈ h.live) (hfree : h.Free members l) :
    ∃ h', step members h (.destroy l) = some h' ∧ h'.Inv members := by
  obtain ⟨rank, hrank⟩ := hac
  obtain ⟨h', hdrop, hrel⟩ := hi.drop_none hrank hl
  refine ⟨h'.remove l, by rw [step, hdrop, Option.map_some], hrel.toTracks.remove ?_⟩
  intro y hy hzero
  have hhas := hrel.has y ⟨hy, hzero⟩
  exact hfree y hhas.1 hhas.2

/-- An operation that keeps its source is possible and keeps the invariant. -/
theorem Heap.Inv.step {op : Op} (hvalid : op.Valid members h)
    (hkeep : op.KeepsSource members h) : ∃ h', step members h op = some h' ∧ h'.Inv members := by
  cases op with
  | construct l => exact ⟨_, rfl, Tracks.construct hi hvalid⟩
  | own l o => exact ⟨_, rfl, (Tracks.manage hi hvalid.2).construct hvalid.1⟩
  | copyConstruct l r =>
    have ht := hi.acquire fun o ho => hi.uses_pos hvalid.2 (Finset.notMem_empty r) ho
    have hl : l ∉ (h.acquire (h.ptr r)).live := by
      cases h.ptr r <;> exact hvalid.1
    refine ⟨_, ?_, ht.construct hl⟩
    rw [SharedPtr.step, Heap.read_of_mem hvalid.2, Option.map_some]
  | moveConstruct l r =>
    have hne : l ≠ r := fun heq => hvalid.1 (heq ▸ hvalid.2)
    have hr : r ∈ (h.construct l (h.ptr r)).live := Finset.mem_insert_of_mem hvalid.2
    have hcomm : (h.construct l (h.ptr r)).set r none = (h.set r none).construct l (h.ptr r) := by
      simp only [Heap.set, Heap.construct, Function.update_comm hne]
    refine ⟨_, ?_, (Tracks.take_clear hi hvalid.2 (Finset.notMem_empty r)).construct hvalid.1⟩
    rw [SharedPtr.step, Heap.read_of_mem hvalid.2, Option.bind_some, Heap.write_of_mem hr, hcomm]
  | copyAssign l r => exact hi.copyAssign hac hvalid.1 hvalid.2 hkeep
  | moveAssign l r => exact hi.moveAssign hac hvalid.1 hvalid.2 hkeep
  | assignNull l => exact hi.assignNull hac hvalid
  | reset l o => exact hi.reset hac hvalid.1 hvalid.2
  | swap l r =>
    have hl : l ∈ (h.set r (h.ptr l)).live := hvalid.1
    refine ⟨_, ?_, hi.swap hvalid.1 hvalid.2⟩
    rw [SharedPtr.step, Heap.read_of_mem hvalid.2, Option.bind_some, Heap.read_of_mem hvalid.1,
      Option.bind_some, Heap.write_of_mem hvalid.2, Option.bind_some, Heap.write_of_mem hl]
  | destroy l => exact hi.destroy hac hvalid.1 hvalid.2

end Step

theorem Heap.inv_empty : Heap.empty.Inv members where
  counts _ := rfl
  managed p hp := absurd hp (Finset.notMem_empty p)
  counted _ ho := nomatch ho
  deleted o ho := absurd ho (Finset.notMem_empty o)
  unmanaged _ _ := rfl
  dying o ho := absurd ho (Finset.notMem_empty o)
  live o ho := absurd ho.1 (Finset.notMem_empty o)
  nodup o ho := absurd ho.1 (Finset.notMem_empty o)
  apart o _ ho := absurd ho.1 (Finset.notMem_empty o)

/-- In every program whose assignments keep their source, the counts stay exact. -/
theorem exact_run {ops : List Op}
    (hops : Steps.Along (step members)
      (fun h op => op.Allowed members h ∧ op.KeepsSource members h) Heap.empty ops) :
    CountsExactly members ops := by
  rintro ops' ⟨rest, rfl⟩
  have hstep : ∀ (h : Heap) op, h.Inv members →
      op.Allowed members h ∧ op.KeepsSource members h →
        ∃ h', step members h op = some h' ∧ h'.Inv members := by
    intro h op hi hallowed
    exact hi.step hallowed.1.1 hallowed.1.2 hallowed.2
  obtain ⟨h, hrun, hi⟩ := Steps.exists_run hstep Heap.inv_empty hops.left
  exact ⟨h, hrun, hi.exact⟩

/-! ## A list -/

/-- The object 0 has a member, its successor. -/
def node (o : ℕ) : List ℕ := if o = 0 then [10] else []

/-- A variable 0 with a list of two objects. -/
def makeList : List Op := [.construct 10, .own 20 1, .moveAssign 10 20, .own 0 0]

/-- A variable other than the target owns the object that holds the source. -/
def Op.RootKeeps (members : ℕ → List ℕ) (h : Heap) (op : Op) : Prop :=
  ∀ a ∈ op.assignment, ∀ y ∈ h.managed, h.deleted y = 0 → a.2 ∈ members y →
    ∃ p ∈ h.live, p ≠ a.1 ∧ h.ptr p = some y ∧ h.Free members p

instance (h : Heap) (op : Op) : Decidable (op.RootKeeps members h) :=
  inferInstanceAs (Decidable (∀ a ∈ op.assignment, ∀ y ∈ h.managed, h.deleted y = 0 →
    a.2 ∈ members y → ∃ p ∈ h.live, p ≠ a.1 ∧ h.ptr p = some y ∧ h.Free members p))

theorem Op.RootKeeps.keepsSource {op : Op} (hroot : op.RootKeeps members h) :
    op.KeepsSource members h := by
  intro l r hop
  refine .inr fun y hy hmem => ?_
  obtain ⟨p, hp, hne, hptr, hfree⟩ := hroot (l, r) hop y hy.1 hy.2 hmem
  exact .root hp hne hptr hfree

/-- The variable goes on to the successor while another one keeps the list. -/
theorem exact_run_list :
    CountsExactly node (makeList ++ [.copyConstruct 1 0, .copyAssign 0 10, .destroy 1]) := by
  refine exact_run ?_
  have hops : Steps.Along (step node)
      (fun h op => (h.Ranked node (1 - ·) ∧ op.Valid node h) ∧ op.RootKeeps node h) Heap.empty
      (makeList ++ [.copyConstruct 1 0, .copyAssign 0 10, .destroy 1]) := by
    decide
  exact hops.mono fun h op hop => ⟨⟨⟨_, hop.1.1⟩, hop.1.2⟩, hop.2.keepsSource⟩

/-- `node = node->next` with the last pointer to the node. -/
theorem not_countsExactly_next : ¬ ∀ members ops,
    Steps.Along (step members) (Op.Allowed members) Heap.empty ops → CountsExactly members ops := by
  intro hall
  have hops : Steps.Along (step node) (fun h op => h.Ranked node (1 - ·) ∧ op.Valid node h)
      Heap.empty (makeList ++ [.copyAssign 0 10]) := by
    decide
  obtain ⟨h, hrun, -⟩ := hall node _ (hops.mono fun h op hop => ⟨⟨_, hop.1⟩, hop.2⟩) _
    (List.prefix_refl _)
  have hnone : (Steps.run (step node) Heap.empty (makeList ++ [.copyAssign 0 10])).isSome = false := by
    decide
  rw [hrun] at hnone
  exact Bool.noConfusion hnone

end Cantos.SharedPtr
