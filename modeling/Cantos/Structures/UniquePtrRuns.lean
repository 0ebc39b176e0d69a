import Cantos.Structures.UniquePtr

/-!
# Programs with `unique_ptr`s

While an object is deleted, the `unique_ptr`s on the way to it do not own any more what they
still point to.  The rank of an object, which ownership makes smaller, bounds the recursion and
keeps the target of an operation out of what is destroyed.

## Main results

* `delete_spec`: `delete` returns and keeps the invariant.
* `sound_iff`: a program is sound exactly when it moves no `unique_ptr` with an object to itself.
* `deleted_once`: at the end of such a program every object has been deleted once.
-/

namespace Cantos.UniquePtr

variable {members : ℕ → List ℕ} {h h' h₁ : Heap} {l m o p r x y : ℕ} {v w : Option ℕ}
  {G D : Finset ℕ} {rank : ℕ → ℕ} {fuel n : ℕ} {ops : List Op}

section Fields

@[simp] theorem set_ptr_self : (h.set l v).ptr l = v := Function.update_self ..

theorem set_ptr_of_ne (hp : p ≠ l) : (h.set l v).ptr p = h.ptr p := Function.update_of_ne hp ..

@[simp] theorem construct_ptr_self : (h.construct l v).ptr l = v := Function.update_self ..

theorem construct_ptr_of_ne (hp : p ≠ l) : (h.construct l v).ptr p = h.ptr p :=
  Function.update_of_ne hp ..

theorem free_deleted_of_ne (hx : x ≠ o) : (h.free o).deleted x = h.deleted x :=
  Function.update_of_ne hx ..

theorem read_of_mem (hl : l ∈ h.live) : h.read l = some (h.ptr l) := if_pos hl

theorem write_of_mem (hl : l ∈ h.live) : h.write l v = some (h.set l v) := if_pos hl

end Fields

/-! ## The invariant -/

/-- No `unique_ptr` owns the object, up to some that do not count. -/
def Heap.Lone (h : Heap) (G : Finset ℕ) (o : ℕ) : Prop := ∀ p ∈ h.live, p ∉ G → h.ptr p ≠ some o

/-- The invariant of the heap, while `G` do not own what they point to and `D` are being
deleted. -/
structure Tracks (members : ℕ → List ℕ) (h : Heap) (G D : Finset ℕ) : Prop where
  has : ∀ p ∈ h.live, p ∉ G → ∀ o, h.ptr p = some o → h.Has o
  unique : ∀ p ∈ h.live, p ∉ G → ∀ p' ∈ h.live, p' ∉ G → ∀ o, h.ptr p = some o →
    h.ptr p' = some o → p = p'
  live : ∀ o, h.Has o → o ∉ D → ∀ m ∈ members o, m ∈ h.live
  nodup : ∀ o, h.Has o → (members o).Nodup
  apart : ∀ o o', h.Has o → h.Has o' → ∀ m ∈ members o, m ∈ members o' → o = o'
  deleted : ∀ o, h.deleted o ≤ if o ∈ h.objects then 1 else 0

/-- The invariant between two operations. -/
def Heap.Inv (members : ℕ → List ℕ) (h : Heap) : Prop := Tracks members h ∅ ∅

theorem inv_empty : Heap.empty.Inv members := by
  constructor
  · intro p hp
    cases hp
  · intro p hp
    cases hp
  · intro o ho
    cases ho.1
  · intro o ho
    cases ho.1
  · intro o o' ho
    cases ho.1
  · intro o
    exact Nat.zero_le _

theorem Heap.Inv.sound (hi : h.Inv members) : h.Sound where
  exists_of_owned l hl o ho := hi.has l hl (Finset.notMem_empty l) o ho
  unique l hl l' hl' o ho ho' :=
    hi.unique l hl (Finset.notMem_empty l) l' hl' (Finset.notMem_empty l') o ho ho'
  deleted_le o := (hi.deleted o).trans (by split_ifs <;> simp)

theorem Tracks.mono (ht : Tracks members h G D) {G' : Finset ℕ} (hG : G ⊆ G') :
    Tracks members h G' D where
  has p hp hp' := ht.has p hp fun hmem => hp' (hG hmem)
  unique p hp hp' q hq hq' :=
    ht.unique p hp (fun hmem => hp' (hG hmem)) q hq fun hmem => hq' (hG hmem)
  live := ht.live
  nodup := ht.nodup
  apart := ht.apart
  deleted := ht.deleted

theorem Heap.Lone.mono (hlone : h.Lone G o) {G' : Finset ℕ} (hG : G ⊆ G') : h.Lone G' o :=
  fun p hp hp' => hlone p hp fun hmem => hp' (hG hmem)

/-- The object of a `unique_ptr` has no other owner. -/
theorem Tracks.lone (ht : Tracks members h G D) (hl : l ∈ h.live) (hG : l ∉ G)
    (ho : h.ptr l = some o) : h.Lone (insert l G) o := by
  intro p hp hp' hpo
  rw [Finset.mem_insert, not_or] at hp'
  exact hp'.1 (ht.unique p hp hp'.2 l hl hG o hpo ho)

/-- A `unique_ptr` owns again what it points to. -/
theorem Tracks.count (ht : Tracks members h (insert l G) D)
    (ho : ∀ o, h.ptr l = some o → h.Has o ∧ h.Lone (insert l G) o) : Tracks members h G D := by
  have hmem : ∀ p, p ∉ G → p ≠ l → p ∉ insert l G := by
    intro p hp hne
    simp [hp, hne]
  refine { ht with has := ?_, unique := ?_ }
  · intro p hp hG o hpo
    by_cases hpl : p = l
    · subst hpl
      exact (ho o hpo).1
    · exact ht.has p hp (hmem p hG hpl) o hpo
  · intro p hp hG q hq hG' o hpo hqo
    by_cases hpl : p = l
    · subst hpl
      by_contra hne
      exact (ho o hpo).2 q hq (hmem q hG' (Ne.symm hne)) hqo
    · by_cases hql : q = l
      · subst hql
        exact absurd hpo ((ho o hqo).2 p hp (hmem p hG hpl))
      · exact ht.unique p hp (hmem p hG hpl) q hq (hmem q hG' hql) o hpo hqo

/-- What is written to a `unique_ptr` that owns nothing makes no difference. -/
theorem Tracks.set_mem (ht : Tracks members h G D) (hl : l ∈ G) :
    Tracks members (h.set l v) G D := by
  have hptr : ∀ p, p ∉ G → (h.set l v).ptr p = h.ptr p := by
    intro p hp
    exact set_ptr_of_ne fun heq => hp (heq ▸ hl)
  refine { ht with has := ?_, unique := ?_ }
  · intro p hp hG o hpo
    rw [hptr p hG] at hpo
    exact ht.has p hp hG o hpo
  · intro p hp hG q hq hG' o hpo hqo
    rw [hptr p hG] at hpo
    rw [hptr q hG'] at hqo
    exact ht.unique p hp hG q hq hG' o hpo hqo

/-- A `unique_ptr` that owned nothing is given an object without an owner. -/
theorem Tracks.set (ht : Tracks members h (insert l G) D)
    (ho : ∀ o, v = some o → h.Has o ∧ h.Lone (insert l G) o) : Tracks members (h.set l v) G D := by
  refine (ht.set_mem (Finset.mem_insert_self l G)).count fun o hptr => ?_
  rw [set_ptr_self] at hptr
  refine ⟨(ho o hptr).1, fun p hp hG => ?_⟩
  have hne : p ≠ l := fun heq => hG (heq ▸ Finset.mem_insert_self l G)
  rw [set_ptr_of_ne hne]
  exact (ho o hptr).2 p hp hG

/-- A `unique_ptr` that owned nothing ends. -/
theorem Tracks.remove (ht : Tracks members h (insert m G) D)
    (hm : ∀ y, h.Has y → y ∉ D → m ∉ members y) : Tracks members (h.remove m) G D := by
  have hmem : ∀ p ∈ (h.remove m).live, p ∉ G → p ∈ h.live ∧ p ∉ insert m G := by
    intro p hp hG
    have hp' := Finset.mem_erase.mp hp
    exact ⟨hp'.2, by simp [hp'.1, hG]⟩
  refine { ht with has := ?_, unique := ?_, live := ?_ }
  · intro p hp hG o hpo
    exact ht.has p (hmem p hp hG).1 (hmem p hp hG).2 o hpo
  · intro p hp hG q hq hG'
    exact ht.unique p (hmem p hp hG).1 (hmem p hp hG).2 q (hmem q hq hG').1 (hmem q hq hG').2
  · intro y hy hD x hx
    refine Finset.mem_erase.mpr ⟨fun heq => ?_, ht.live y hy hD x hx⟩
    exact hm y hy hD (heq ▸ hx)

/-- The end of an object without an owner. -/
theorem Tracks.free (ht : Tracks members h G (insert o D)) (ho : h.Has o) (hlone : h.Lone G o) :
    Tracks members (h.free o) G D := by
  have hhas : ∀ y, (h.free o).Has y → h.Has y ∧ y ≠ o := by
    intro y hy
    have hne : y ≠ o := by
      rintro rfl
      have hdeleted : (h.free y).deleted y = 0 := hy.2
      simp [Heap.free] at hdeleted
    exact ⟨⟨hy.1, (free_deleted_of_ne hne).symm.trans hy.2⟩, hne⟩
  constructor
  · intro p hp hG y hpy
    have hne : y ≠ o := fun heq => hlone p hp hG (heq ▸ hpy)
    have hy := ht.has p hp hG y hpy
    exact ⟨hy.1, (free_deleted_of_ne hne).trans hy.2⟩
  · exact ht.unique
  · intro y hy hD
    obtain ⟨hy', hne⟩ := hhas y hy
    exact ht.live y hy' (by simp [hne, hD])
  · intro y hy
    exact ht.nodup y (hhas y hy).1
  · intro y y' hy hy'
    exact ht.apart y y' (hhas y hy).1 (hhas y' hy').1
  · intro y
    by_cases heq : y = o
    · subst heq
      have hobjects : y ∈ (h.free y).objects := ho.1
      rw [if_pos hobjects]
      simp [Heap.free, ho.2]
    · rw [free_deleted_of_ne heq]
      exact ht.deleted y

/-! ## `delete` -/

/-- Ownership makes the rank smaller, up to the `unique_ptr`s that do not own. -/
def RankedBut (members : ℕ → List ℕ) (h : Heap) (G : Finset ℕ) (rank : ℕ → ℕ) : Prop :=
  ∀ o, h.Has o → ∀ m ∈ members o, m ∉ G → ∀ o', h.ptr m = some o' → rank o' < rank o

/-- No object of a rank of at most `n` has the member. -/
def Outside (members : ℕ → List ℕ) (h : Heap) (rank : ℕ → ℕ) (n l : ℕ) : Prop :=
  ∀ y, h.Has y → rank y ≤ n → l ∉ members y

/-- What stays as it is when objects below a rank are deleted, together with their members and
those of one object of that rank. -/
structure Lowers (members : ℕ → List ℕ) (rank : ℕ → ℕ) (n : ℕ) (G : Finset ℕ) (h h' : Heap) :
    Prop where
  ptr : h'.ptr = h.ptr
  objects : h'.objects = h.objects
  sub : h'.live ⊆ h.live
  has : ∀ y, h'.Has y → h.Has y
  keeps : ∀ l ∈ h.live, Outside members h rank n l → l ∈ h'.live
  above : ∀ y, h.Has y → n ≤ rank y → h'.Has y
  unowned : ∀ y, h.Has y → h.Lone G y → h'.Has y

/-- What stays as it is when an object is deleted. -/
structure Deletes (members : ℕ → List ℕ) (rank : ℕ → ℕ) (o : ℕ) (G : Finset ℕ) (h h' : Heap) :
    Prop where
  ptr : h'.ptr = h.ptr
  objects : h'.objects = h.objects
  sub : h'.live ⊆ h.live
  has : ∀ y, h'.Has y → h.Has y
  keeps : ∀ l ∈ h.live, Outside members h rank (rank o) l → l ∈ h'.live
  above : ∀ y, h.Has y → rank o < rank y → h'.Has y
  unowned : ∀ y, h.Has y → y ≠ o → h.Lone G y → h'.Has y
  deleted : h'.deleted o = 1

theorem RankedBut.mono (hr : RankedBut members h G rank) {G' : Finset ℕ} (hG : G ⊆ G')
    (hhas : ∀ y, h'.Has y → h.Has y) (hptr : h'.ptr = h.ptr) : RankedBut members h' G' rank := by
  intro o ho m hm hG' o' ho'
  rw [hptr] at ho'
  exact hr o (hhas o ho) m hm (fun hmem => hG' (hG hmem)) o' ho'

theorem Outside.mono (hout : Outside members h rank n l) {n' : ℕ} (hn : n' ≤ n)
    (hhas : ∀ y, h'.Has y → h.Has y) : Outside members h' rank n' l :=
  fun y hy hle => hout y (hhas y hy) (hle.trans hn)

theorem Heap.Lone.sub (hlone : h.Lone G o) (hsub : h'.live ⊆ h.live) (hptr : h'.ptr = h.ptr) :
    h'.Lone G o := by
  intro p hp hG
  rw [hptr]
  exact hlone p (hsub hp) hG

theorem Lowers.refl : Lowers members rank n G h h :=
  ⟨rfl, rfl, Finset.Subset.refl _, fun _ hy => hy, fun _ hl _ => hl, fun _ hy _ => hy,
    fun _ hy _ => hy⟩

theorem Lowers.trans (hl : Lowers members rank n G h h₁) (hl' : Lowers members rank n G h₁ h') :
    Lowers members rank n G h h' where
  ptr := hl'.ptr.trans hl.ptr
  objects := hl'.objects.trans hl.objects
  sub := hl'.sub.trans hl.sub
  has y hy := hl.has y (hl'.has y hy)
  keeps l hmem hout := hl'.keeps l (hl.keeps l hmem hout) (hout.mono le_rfl hl.has)
  above y hy hn := hl'.above y (hl.above y hy hn) hn
  unowned y hy hlone :=
    hl'.unowned y (hl.unowned y hy hlone) (hlone.sub hl.sub hl.ptr)

/-- A member of an object of rank `n` ends. -/
theorem Lowers.remove (hl : Lowers members rank n G h h') (ho : h.Has o) (hrank : rank o = n)
    (hm : m ∈ members o) : Lowers members rank n G h (h'.remove m) where
  ptr := hl.ptr
  objects := hl.objects
  sub := (Finset.erase_subset m h'.live).trans hl.sub
  has := hl.has
  keeps l hmem hout := by
    refine Finset.mem_erase.mpr ⟨fun heq => ?_, hl.keeps l hmem hout⟩
    exact hout o ho hrank.le (heq ▸ hm)
  above := hl.above
  unowned := hl.unowned

/-- An object that a member owns is deleted. -/
theorem Deletes.lowers (hd : Deletes members rank x (insert m G) h h') (hm : m ∈ h.live)
    (hG : m ∉ G) (hx : h.ptr m = some x) (hn : rank x < n) : Lowers members rank n G h h' where
  ptr := hd.ptr
  objects := hd.objects
  sub := hd.sub
  has := hd.has
  keeps l hl hout := hd.keeps l hl (hout.mono hn.le fun _ hy => hy)
  above y hy hle := hd.above y hy (hn.trans_le hle)
  unowned y hy hlone := by
    have hne : y ≠ x := by
      rintro rfl
      exact hlone m hm hG hx
    exact hd.unowned y hy hne (hlone.mono (Finset.subset_insert m G))

/-- The destructor has destroyed the members. -/
theorem Lowers.free (hl : Lowers members rank (rank o) G h h') (ho : h.Has o) :
    Deletes members rank o G h (h'.free o) where
  ptr := hl.ptr
  objects := hl.objects
  sub := hl.sub
  has y hy := by
    by_cases heq : y = o
    · exact heq ▸ ho
    · exact hl.has y ⟨hy.1, (free_deleted_of_ne heq).symm.trans hy.2⟩
  keeps := hl.keeps
  above y hy hlt := by
    have hne : y ≠ o := by
      rintro rfl
      exact lt_irrefl _ hlt
    have hy' := hl.above y hy hlt.le
    exact ⟨hy'.1, (free_deleted_of_ne hne).trans hy'.2⟩
  unowned y hy hne hlone := by
    have hy' := hl.unowned y hy hlone
    exact ⟨hy'.1, (free_deleted_of_ne hne).trans hy'.2⟩
  deleted := by
    have ho' := hl.above o ho le_rfl
    simp [Heap.free, ho'.2]

/-- The objects that `delete` can reach. -/
def reach (h : Heap) (rank : ℕ → ℕ) (o : ℕ) : Finset ℕ := h.objects.filter fun y => rank y ≤ rank o

theorem card_reach_lt (ho : h.Has o) (hlt : rank x < rank o) :
    (reach h rank x).card < (reach h rank o).card := by
  refine Finset.card_lt_card ⟨?_, fun hsub => ?_⟩
  · intro y hy
    rw [reach, Finset.mem_filter] at hy ⊢
    exact ⟨hy.1, hy.2.trans hlt.le⟩
  · have hmem : o ∈ reach h rank o := Finset.mem_filter.mpr ⟨ho.1, le_rfl⟩
    have hle := (Finset.mem_filter.mp (hsub hmem)).2
    omega

/-- What `delete` of an object with a rank needs. -/
structure Deletable (members : ℕ → List ℕ) (rank : ℕ → ℕ) (o : ℕ) (G D : Finset ℕ) (h : Heap) :
    Prop where
  tracks : Tracks members h G D
  ranked : RankedBut members h G rank
  has : h.Has o
  lone : h.Lone G o
  outside : ∀ g ∈ G, Outside members h rank (rank o) g
  dying : ∀ d ∈ D, rank o < rank d

/-- One member: what it owns can be deleted. -/
theorem Deletable.member (hd : Tracks members h G (insert o D)) (hr : RankedBut members h G rank)
    (ho : h.Has o) (hout : ∀ g ∈ G, Outside members h rank (rank o) g)
    (hdying : ∀ d ∈ D, rank o < rank d) (hm : m ∈ members o) (hlive : m ∈ h.live)
    (hx : h.ptr m = some x) :
    rank x < rank o ∧ Deletable members rank x (insert m G) (insert o D) h := by
  have hG : m ∉ G := fun hmem => hout m hmem o ho le_rfl hm
  have hlt : rank x < rank o := hr o ho m hm hG x hx
  refine ⟨hlt, hd.mono (Finset.subset_insert m G), ?_, hd.has m hlive hG x hx,
    hd.lone hlive hG hx, ?_, ?_⟩
  · exact hr.mono (Finset.subset_insert m G) (fun _ hy => hy) rfl
  · intro g hg
    rcases Finset.mem_insert.mp hg with rfl | hg
    · intro y hy hle hmem
      have heq : y = o := hd.apart y o hy ho g hmem hm
      subst heq
      omega
    · exact (hout g hg).mono hlt.le fun _ hy => hy
  · intro d hd'
    rcases Finset.mem_insert.mp hd' with rfl | hd'
    · exact hlt
    · exact hlt.trans (hdying d hd')

/-- What has been shown of `delete` with less fuel. -/
def DeletesWith (members : ℕ → List ℕ) (rank : ℕ → ℕ) (fuel : ℕ) : Prop :=
  ∀ h o G D, Deletable members rank o G D h → (reach h rank o).card ≤ fuel →
    ∃ h', h.delete members fuel o = some h' ∧ Tracks members h' G D ∧ Deletes members rank o G h h'

/-- `~unique_ptr` of a member. -/
theorem destroyMember (hfuel : DeletesWith members rank fuel)
    (ht : Tracks members h G (insert o D)) (hr : RankedBut members h G rank) (ho : h.Has o)
    (hout : ∀ g ∈ G, Outside members h rank (rank o) g) (hdying : ∀ d ∈ D, rank o < rank d)
    (hcard : (reach h rank o).card ≤ fuel + 1) (hm : m ∈ members o) (hlive : m ∈ h.live) :
    ∃ h', h.destructor (Heap.delete members fuel) m = some (h'.remove m) ∧
      Tracks members (h'.remove m) G (insert o D) ∧ Lowers members rank (rank o) G h h' ∧
      ∀ p ∈ members o, p ∈ h.live → p ∈ h'.live := by
  have hremove : ∀ h' : Heap, (∀ y, h'.Has y → h.Has y) →
      Tracks members h' (insert m G) (insert o D) →
      Tracks members (h'.remove m) G (insert o D) := by
    intro h' hhas ht'
    refine ht'.remove fun y hy hD hmem => hD ?_
    have heq : y = o := ht.apart y o (hhas y hy) ho m hmem hm
    exact heq ▸ Finset.mem_insert_self y D
  rw [Heap.destructor, read_of_mem hlive]
  rcases hx : h.ptr m with _ | x
  · exact ⟨h, rfl, hremove h (fun _ hy => hy) (ht.mono (Finset.subset_insert m G)), .refl,
      fun _ _ hp => hp⟩
  · obtain ⟨hlt, hd⟩ := Deletable.member ht hr ho hout hdying hm hlive hx
    have hless : (reach h rank x).card < (reach h rank o).card := card_reach_lt ho hlt
    obtain ⟨h', hrun, ht', hdel⟩ := hfuel h x (insert m G) (insert o D) hd (by omega)
    have hG : m ∉ G := fun hmem => hout m hmem o ho le_rfl hm
    refine ⟨h', ?_, hremove h' hdel.has ht', hdel.lowers hlive hG hx hlt, fun p hp hplive => ?_⟩
    · simp [hrun]
    · refine hdel.keeps p hplive fun y hy hle hmem => ?_
      have heq : y = o := ht.apart y o hy ho p hmem hp
      subst heq
      omega

/-- The destructor of an object. -/
theorem destroyMembers (hfuel : DeletesWith members rank fuel) {ms : List ℕ}
    (ht : Tracks members h G (insert o D)) (hr : RankedBut members h G rank) (ho : h.Has o)
    (hout : ∀ g ∈ G, Outside members h rank (rank o) g) (hdying : ∀ d ∈ D, rank o < rank d)
    (hcard : (reach h rank o).card ≤ fuel + 1) (hms : ∀ m ∈ ms, m ∈ members o ∧ m ∈ h.live)
    (hnodup : ms.Nodup) :
    ∃ h', ms.foldlM (Heap.destructor (Heap.delete members fuel)) h = some h' ∧
      Tracks members h' G (insert o D) ∧ Lowers members rank (rank o) G h h' := by
  induction ms generalizing h with
  | nil => exact ⟨h, rfl, ht, .refl⟩
  | cons m ms ih =>
    obtain ⟨hm, hlive⟩ := hms m List.mem_cons_self
    obtain ⟨hnew, hnodup'⟩ := List.nodup_cons.mp hnodup
    obtain ⟨h', hrun, ht', hlow, hstays⟩ := destroyMember hfuel ht hr ho hout hdying hcard hm hlive
    have hlow' := hlow.remove ho rfl hm
    have hcard' : (reach (h'.remove m) rank o).card ≤ fuel + 1 := by
      rw [reach, hlow'.objects]
      exact hcard
    have hms' : ∀ x ∈ ms, x ∈ members o ∧ x ∈ (h'.remove m).live := by
      intro x hx
      obtain ⟨hxo, hxlive⟩ := hms x (List.mem_cons_of_mem m hx)
      have hne : x ≠ m := fun heq => hnew (heq ▸ hx)
      exact ⟨hxo, Finset.mem_erase.mpr ⟨hne, hstays x hxo hxlive⟩⟩
    obtain ⟨h'', hrun', ht'', hlow''⟩ := ih ht' (hr.mono (Finset.Subset.refl G) hlow'.has hlow'.ptr)
      (hlow'.above o ho le_rfl) (fun g hg => (hout g hg).mono le_rfl hlow'.has) hcard' hms' hnodup'
    refine ⟨h'', ?_, ht'', hlow'.trans hlow''⟩
    rw [List.foldlM_cons, hrun]
    exact hrun'

theorem delete_spec (fuel : ℕ) : DeletesWith members rank fuel := by
  induction fuel with
  | zero =>
    intro h o G D hd hcard
    have hmem : o ∈ reach h rank o := Finset.mem_filter.mpr ⟨hd.has.1, le_rfl⟩
    have hpos := Finset.card_pos.mpr ⟨o, hmem⟩
    omega
  | succ fuel ih =>
    intro h o G D hd hcard
    have hD : o ∉ D := fun hmem => lt_irrefl _ (hd.dying o hmem)
    have ht : Tracks members h G (insert o D) := by
      refine { hd.tracks with live := fun y hy hy' => hd.tracks.live y hy fun hmem => hy' ?_ }
      exact Finset.mem_insert_of_mem hmem
    have hms : ∀ m ∈ (members o).reverse, m ∈ members o ∧ m ∈ h.live := by
      intro m hm
      have hm' := List.mem_reverse.mp hm
      exact ⟨hm', hd.tracks.live o hd.has hD m hm'⟩
    obtain ⟨h', hrun, ht', hlow⟩ := destroyMembers ih ht hd.ranked hd.has hd.outside hd.dying hcard
      hms (List.nodup_reverse.mpr (hd.tracks.nodup o hd.has))
    refine ⟨h'.free o, ?_, ht'.free (hlow.above o hd.has le_rfl) (hd.lone.sub hlow.sub hlow.ptr),
      hlow.free hd.has⟩
    rw [Heap.delete, hrun, Option.map_some]

/-! ## The operations -/

/-- `if(ref) delete ref` in an operation on `l`, which does not own any more what is deleted. -/
structure Cleared (members : ℕ → List ℕ) (l : ℕ) (v : Option ℕ) (h h' : Heap) : Prop where
  tracks : Tracks members h' {l} ∅
  ptr : h'.ptr = h.ptr
  sub : h'.live ⊆ h.live
  mem : l ∈ h'.live
  has : ∀ y, h'.Has y → h.Has y
  unowned : ∀ y, h.Has y → v ≠ some y → h.Lone {l} y → h'.Has y
  deleted : ∀ o, v = some o → h'.deleted o = 1

theorem exists_cleared (ht : Tracks members h {l} ∅) (hr : RankedBut members h {l} rank)
    (hl : l ∈ h.live)
    (hv : ∀ o, v = some o → h.Has o ∧ h.Lone {l} o ∧ Outside members h rank (rank o) l) :
    ∃ h', h.deleteRef members v = some h' ∧ Cleared members l v h h' := by
  rcases v with _ | o
  · refine ⟨h, rfl, ht, rfl, Finset.Subset.refl _, hl, fun _ hy => hy, fun _ hy _ _ => hy, ?_⟩
    intro o ho
    cases ho
  · obtain ⟨ho, hlone, hout⟩ := hv o rfl
    have hcard : (reach h rank o).card ≤ h.objects.card :=
      Finset.card_le_card (Finset.filter_subset _ _)
    have hd : Deletable members rank o {l} ∅ h := by
      refine ⟨ht, hr, ho, hlone, ?_, ?_⟩
      · intro g hg
        exact Finset.mem_singleton.mp hg ▸ hout
      · intro d hd
        cases hd
    obtain ⟨h', hrun, ht', hdel⟩ := delete_spec h.objects.card h o {l} ∅ hd hcard
    refine ⟨h', hrun, ht', hdel.ptr, hdel.sub, hdel.keeps l hl hout, hdel.has, ?_, ?_⟩
    · intro y hy hne hlone'
      exact hdel.unowned y hy (fun heq => hne (heq ▸ rfl)) hlone'
    · intro o' ho'
      exact Option.some.inj ho' ▸ hdel.deleted

theorem insert_empty (l : ℕ) : insert l (∅ : Finset ℕ) = {l} := LawfulSingleton.insert_empty_eq l

theorem Heap.Inv.but (hi : h.Inv members) (l : ℕ) : Tracks members h {l} ∅ :=
  hi.mono (Finset.empty_subset {l})

theorem Heap.Ranked.but (hr : h.Ranked members rank) (G : Finset ℕ) : RankedBut members h G rank :=
  fun o ho m hm _ o' ho' => hr o ho.1 ho.2 m hm o' ho'

/-- A `unique_ptr` is not stored below the object that it owns. -/
theorem Heap.Ranked.outside (hr : h.Ranked members rank) (ho : h.ptr l = some o) :
    Outside members h rank (rank o) l := by
  intro y hy hle hmem
  have hlt := hr y hy.1 hy.2 l hmem o ho
  omega

theorem Heap.Inv.lone (hi : h.Inv members) (hl : l ∈ h.live) (ho : h.ptr l = some o) :
    h.Lone {l} o := insert_empty l ▸ Tracks.lone hi hl (Finset.notMem_empty l) ho

/-- What `l` owns is deleted. -/
theorem Heap.Inv.exists_deleteRef (hi : h.Inv members) (hr : h.Ranked members rank)
    (hl : l ∈ h.live) :
    ∃ h', h.deleteRef members (h.ptr l) = some h' ∧ Cleared members l (h.ptr l) h h' := by
  refine exists_cleared (hi.but l) (hr.but {l}) hl fun o ho => ?_
  exact ⟨hi.has l hl (Finset.notMem_empty l) o ho, hi.lone hl ho, hr.outside ho⟩

theorem Cleared.set (hc : Cleared members l v h h')
    (hw : ∀ o, w = some o → h'.Has o ∧ h'.Lone {l} o) : (h'.set l w).Inv members := by
  refine Tracks.set (insert_empty l ▸ hc.tracks) fun o ho => ?_
  rw [insert_empty]
  exact hw o ho

/-- The operations that give `l` another object after they have deleted the one it had. -/
theorem Heap.Inv.replace (hi : h.Inv members) (hr : h.Ranked members rank) (hl : l ∈ h.live)
    (hw : ∀ o, w = some o → h.Unowned o) :
    ∃ h', (h.read l).bind (fun v => (h.deleteRef members v).bind fun h => h.write l w) = some h' ∧
      h'.Inv members := by
  obtain ⟨h', hrun, hc⟩ := hi.exists_deleteRef hr hl
  refine ⟨h'.set l w, ?_, hc.set fun o ho => ?_⟩
  · rw [read_of_mem hl, Option.bind_some, hrun, Option.bind_some, write_of_mem hc.mem]
  · obtain ⟨hhas, hno⟩ := hw o ho
    have hlone : h.Lone {l} o := fun p hp _ => hno p hp
    exact ⟨hc.unowned o hhas (hno l hl) hlone, hlone.sub hc.sub hc.ptr⟩

theorem Heap.Inv.construct (hi : h.Inv members) (hl : l ∉ h.live)
    (hv : ∀ o, v = some o → h.Unowned o) : (h.construct l v).Inv members := by
  have hne : ∀ p ∈ h.live, p ≠ l := fun p hp heq => hl (heq ▸ hp)
  refine Tracks.count (l := l) ?_ fun o ho => ?_
  · rw [insert_empty]
    refine { hi with has := ?_, unique := ?_, live := ?_ }
    · intro p hp hG o ho
      have hpl : p ≠ l := fun heq => hG (Finset.mem_singleton.mpr heq)
      rw [construct_ptr_of_ne hpl] at ho
      exact hi.has p (Finset.mem_of_mem_insert_of_ne hp hpl) (Finset.notMem_empty p) o ho
    · intro p hp hG q hq hG' o ho ho'
      have hpl : p ≠ l := fun heq => hG (Finset.mem_singleton.mpr heq)
      have hql : q ≠ l := fun heq => hG' (Finset.mem_singleton.mpr heq)
      rw [construct_ptr_of_ne hpl] at ho
      rw [construct_ptr_of_ne hql] at ho'
      exact hi.unique p (Finset.mem_of_mem_insert_of_ne hp hpl) (Finset.notMem_empty p) q
        (Finset.mem_of_mem_insert_of_ne hq hql) (Finset.notMem_empty q) o ho ho'
    · intro o ho hD m hm
      exact Finset.mem_insert_of_mem (hi.live o ho hD m hm)
  · rw [construct_ptr_self] at ho
    refine ⟨(hv o ho).1, fun p hp hG => ?_⟩
    have hpl : p ≠ l := fun heq => hG (heq ▸ Finset.mem_insert_self l ∅)
    rw [construct_ptr_of_ne hpl]
    exact (hv o ho).2 p (Finset.mem_of_mem_insert_of_ne hp hpl)

theorem make_ptr_of_mem (hm : m ∈ members o) : (h.make members o).ptr m = none := if_pos hm

theorem make_ptr_of_notMem (hm : m ∉ members o) : (h.make members o).ptr m = h.ptr m := if_neg hm

theorem Heap.Inv.make (hi : h.Inv members) (hf : h.Fresh members o) :
    (h.make members o).Inv members := by
  obtain ⟨hnew, hnodup, hplaces⟩ := hf
  have hptr : ∀ p ∈ (h.make members o).live, ∀ x, (h.make members o).ptr p = some x →
      p ∈ h.live ∧ h.ptr p = some x := by
    intro p hp x hx
    by_cases hmem : p ∈ members o
    · rw [make_ptr_of_mem hmem] at hx
      cases hx
    · rw [make_ptr_of_notMem hmem] at hx
      have hp' := Finset.mem_union.mp hp
      rw [List.mem_toFinset] at hp'
      exact ⟨hp'.resolve_right hmem, hx⟩
  have hhas : ∀ y, (h.make members o).Has y → y ≠ o → h.Has y := fun y hy hne =>
    ⟨Finset.mem_of_mem_insert_of_ne hy.1 hne, hy.2⟩
  have hdisjoint : ∀ y, h.Has y → ∀ m ∈ members o, m ∉ members y := fun y hy m hm hmem =>
    hplaces m hm (hi.live y hy (Finset.notMem_empty y) m hmem)
  constructor
  · intro p hp hG x hx
    obtain ⟨hp', hx'⟩ := hptr p hp x hx
    have hold := hi.has p hp' hG x hx'
    exact ⟨Finset.mem_insert_of_mem hold.1, hold.2⟩
  · intro p hp hG q hq hG' x hx hx'
    obtain ⟨hp', hpx⟩ := hptr p hp x hx
    obtain ⟨hq', hqx⟩ := hptr q hq x hx'
    exact hi.unique p hp' hG q hq' hG' x hpx hqx
  · intro y hy hD m hm
    by_cases heq : y = o
    · subst heq
      exact Finset.mem_union_right _ (List.mem_toFinset.mpr hm)
    · exact Finset.mem_union_left _ (hi.live y (hhas y hy heq) hD m hm)
  · intro y hy
    by_cases heq : y = o
    · exact heq ▸ hnodup
    · exact hi.nodup y (hhas y hy heq)
  · intro y y' hy hy' m hm hm'
    by_cases heq : y = o
    · by_cases heq' : y' = o
      · exact heq.trans heq'.symm
      · exact absurd hm' (hdisjoint y' (hhas y' hy' heq') m (heq ▸ hm))
    · by_cases heq' : y' = o
      · exact absurd hm (hdisjoint y (hhas y hy heq) m (heq' ▸ hm'))
      · exact hi.apart y y' (hhas y hy heq) (hhas y' hy' heq') m hm hm'
  · intro y
    have hdeleted := hi.deleted y
    by_cases hy : y ∈ h.objects
    · have hmem : y ∈ (h.make members o).objects := Finset.mem_insert_of_mem hy
      rw [if_pos hy] at hdeleted
      rw [if_pos hmem]
      exact hdeleted
    · rw [if_neg hy] at hdeleted
      exact hdeleted.trans (Nat.zero_le _)

/-- A new object has no owner. -/
theorem Heap.Inv.unowned_make (hi : h.Inv members) (hf : h.Fresh members o) :
    (h.make members o).Unowned o := by
  have hzero := hi.deleted o
  rw [if_neg hf.1] at hzero
  refine ⟨⟨Finset.mem_insert_self o h.objects, Nat.le_zero.mp hzero⟩, fun l hl hptr => ?_⟩
  by_cases hmem : l ∈ members o
  · rw [make_ptr_of_mem hmem] at hptr
    cases hptr
  · rw [make_ptr_of_notMem hmem] at hptr
    have hl' := Finset.mem_union.mp hl
    rw [List.mem_toFinset] at hl'
    exact hf.1 (hi.has l (hl'.resolve_right hmem) (Finset.notMem_empty l) o hptr).1

/-- `release` -/
theorem Heap.Inv.clear (hi : h.Inv members) (l : ℕ) : (h.set l none).Inv members := by
  refine Tracks.set (insert_empty l ▸ hi.but l) fun o ho => ?_
  cases ho

theorem Heap.Inv.moveConstruct (hi : h.Inv members) (hl : l ∉ h.live) (hr : r ∈ h.live) :
    ∃ h', step members h (.moveConstruct l r) = some h' ∧ h'.Inv members := by
  have hne : r ≠ l := fun heq => hl (heq ▸ hr)
  have hempty : ((h.set r none).construct l (h.ptr r)).Inv members := by
    refine (hi.clear r).construct hl fun o ho => ⟨hi.has r hr (Finset.notMem_empty r) o ho, ?_⟩
    intro p hp hpo
    by_cases hpr : p = r
    · subst hpr
      rw [set_ptr_self] at hpo
      cases hpo
    · rw [set_ptr_of_ne hpr] at hpo
      exact hi.lone hr ho p hp (by simpa using hpr) hpo
  have hlive : r ∈ (h.construct l (h.ptr r)).live := Finset.mem_insert_of_mem hr
  have heq : (h.construct l (h.ptr r)).set r none = (h.set r none).construct l (h.ptr r) := by
    simp only [Heap.construct, Heap.set, Function.update_comm hne]
  refine ⟨_, ?_, heq ▸ hempty⟩
  rw [step, read_of_mem hr, Option.bind_some, write_of_mem hlive]

theorem Heap.Inv.swap (hi : h.Inv members) (hl : l ∈ h.live) (hr : r ∈ h.live) :
    ∃ h', step members h (.swap l r) = some h' ∧ h'.Inv members := by
  have hl' : l ∈ (h.set r (h.ptr l)).live := hl
  refine ⟨(h.set r (h.ptr l)).set l (h.ptr r), ?_, ?_⟩
  · rw [step, read_of_mem hr, Option.bind_some, read_of_mem hl, Option.bind_some, write_of_mem hr,
      Option.bind_some, write_of_mem hl']
  · by_cases hlr : l = r
    · subst hlr
      have hsame : (h.set l (h.ptr l)).set l (h.ptr l) = h := by simp [Heap.set]
      rw [hsame]
      exact hi
    · have htwo : Tracks members h (insert r {l}) ∅ := hi.mono (Finset.empty_subset _)
      have hlone : ∀ o, h.ptr l = some o ∨ h.ptr r = some o →
          h.Has o ∧ h.Lone (insert r {l}) o := by
        intro o ho
        rcases ho with ho | ho
        · exact ⟨hi.has l hl (Finset.notMem_empty l) o ho,
            (hi.lone hl ho).mono (Finset.subset_insert r {l})⟩
        · exact ⟨hi.has r hr (Finset.notMem_empty r) o ho,
            (hi.lone hr ho).mono (by simp)⟩
      refine Tracks.set (insert_empty l ▸ htwo.set fun o ho => hlone o (.inl ho)) fun o ho => ?_
      rw [insert_empty]
      refine ⟨(hlone o (.inr ho)).1, fun p hp hG hpo => ?_⟩
      by_cases hpr : p = r
      · -- the object that `l` had is another one
        subst hpr
        rw [set_ptr_self] at hpo
        exact hlr (hi.unique l hl (Finset.notMem_empty l) p hr (Finset.notMem_empty p) o hpo ho)
      · rw [set_ptr_of_ne hpr] at hpo
        exact (hlone o (.inr ho)).2 p hp (by simpa [hpr] using hG) hpo

/-- `operator=`: the source has been emptied before the object of the target is deleted. -/
theorem Heap.Inv.moveAssign (hi : h.Inv members) (hrank : h.Ranked members rank) (hl : l ∈ h.live)
    (hr : r ∈ h.live) (hne : l ≠ r) :
    ∃ h', step members h (.moveAssign l r) = some h' ∧ h'.Inv members := by
  have hl' : l ∈ (h.set r none).live := hl
  have hmoved : Tracks members ((h.set r none).set l (h.ptr r)) {l} ∅ :=
    ((hi.clear r).but l).set_mem (Finset.mem_singleton_self l)
  have hptr : ∀ p, p ∉ ({l} : Finset ℕ) → ∀ o,
      ((h.set r none).set l (h.ptr r)).ptr p = some o → p ≠ r ∧ h.ptr p = some o := by
    intro p hp o ho
    rw [set_ptr_of_ne (by simpa using hp)] at ho
    by_cases hpr : p = r
    · subst hpr
      rw [set_ptr_self] at ho
      cases ho
    · rw [set_ptr_of_ne hpr] at ho
      exact ⟨hpr, ho⟩
  obtain ⟨h', hrun, hc⟩ := exists_cleared (v := h.ptr l) hmoved
    (fun o ho m hm hG o' ho' => hrank o ho.1 ho.2 m hm o' (hptr m hG o' ho').2) hl
    (fun o ho => ⟨hi.has l hl (Finset.notMem_empty l) o ho,
      fun p hp hG hpo => hi.lone hl ho p hp hG (hptr p hG o hpo).2, hrank.outside ho⟩)
  refine ⟨h', ?_, ?_⟩
  · rw [step, read_of_mem hl, Option.bind_some, read_of_mem hr, Option.bind_some, write_of_mem hr,
      Option.bind_some, write_of_mem hl', Option.bind_some, hrun]
  · refine Tracks.count (insert_empty l ▸ hc.tracks) fun o ho => ?_
    rw [hc.ptr, set_ptr_self] at ho
    have hlone : ((h.set r none).set l (h.ptr r)).Lone {l} o := by
      intro p hp hG hpo
      obtain ⟨hpr, hpo'⟩ := hptr p hG o hpo
      exact hi.lone hr ho p hp (by simpa using hpr) hpo'
    have hold : h.ptr l ≠ some o := fun hlo =>
      hne (hi.unique l hl (Finset.notMem_empty l) r hr (Finset.notMem_empty r) o hlo ho)
    rw [insert_empty]
    exact ⟨hc.unowned o (hi.has r hr (Finset.notMem_empty r) o ho) hold hlone,
      hlone.sub hc.sub hc.ptr⟩

/-- `operator=` of a `unique_ptr` and itself: its object is deleted, and it keeps the pointer. -/
theorem moveAssign_self (hi : h.Inv members) (hrank : h.Ranked members rank) (hl : l ∈ h.live)
    (ho : h.ptr l = some o) :
    ∃ h', step members h (.moveAssign l l) = some h' ∧ l ∈ h'.live ∧ h'.ptr l = some o ∧
      h'.deleted o = 1 := by
  have hl' : l ∈ (h.set l none).live := hl
  have hsame : (h.set l none).set l (h.ptr l) = h := by simp [Heap.set]
  obtain ⟨h', hrun, hc⟩ := hi.exists_deleteRef hrank hl
  refine ⟨h', ?_, hc.mem, (congrFun hc.ptr l).trans ho, hc.deleted o ho⟩
  rw [step, read_of_mem hl, Option.bind_some, Option.bind_some, write_of_mem hl, Option.bind_some,
    write_of_mem hl', Option.bind_some, hsame, hrun]

theorem moveAssign_self_empty (hi : h.Inv members) (hl : l ∈ h.live) (ho : h.ptr l = none) :
    ∃ h', step members h (.moveAssign l l) = some h' ∧ h'.Inv members := by
  have hl' : l ∈ (h.set l none).live := hl
  have hsame : (h.set l none).set l (h.ptr l) = h := by simp [Heap.set]
  refine ⟨h, ?_, hi⟩
  rw [step, read_of_mem hl, Option.bind_some, Option.bind_some, write_of_mem hl, Option.bind_some,
    write_of_mem hl', Option.bind_some, hsame, ho, Heap.deleteRef]

theorem Heap.Inv.destroy (hi : h.Inv members) (hrank : h.Ranked members rank) (hl : l ∈ h.live)
    (hfree : h.Free members l) :
    ∃ h', step members h (.destroy l) = some h' ∧ h'.Inv members := by
  obtain ⟨h', hrun, hc⟩ := hi.exists_deleteRef hrank hl
  refine ⟨h'.remove l, ?_, ?_⟩
  · rw [step, Heap.destructor, read_of_mem hl]
    rcases ho : h.ptr l with _ | o
    · rw [ho, Heap.deleteRef] at hrun
      exact congrArg (fun h => some (h.remove l)) (Option.some.inj hrun)
    · rw [ho, Heap.deleteRef] at hrun
      simp [hrun]
  · refine Tracks.remove (insert_empty l ▸ hc.tracks) fun y hy _ => ?_
    have hy' := hc.has y hy
    exact hfree y hy'.1 hy'.2

/-- Every operation that a program can make, but one, keeps the invariant. -/
theorem inv_step {op : Op} (hi : h.Inv members) (hop : op.Allowed members h)
    (hself : ¬ op.MovesToSelf h) : ∃ h', step members h op = some h' ∧ h'.Inv members := by
  obtain ⟨⟨rank, hrank⟩, hvalid⟩ := hop
  cases op with
  | new o => exact ⟨_, rfl, hi.make hvalid⟩
  | construct l => exact ⟨_, rfl, hi.construct hvalid fun o ho => by cases ho⟩
  | own l o =>
    exact ⟨_, rfl, hi.construct hvalid.1 fun o' ho' => Option.some.inj ho' ▸ hvalid.2⟩
  | makeUnique l o =>
    obtain ⟨hl, hmem, hfresh⟩ := hvalid
    have hl' : l ∉ (h.make members o).live := by simp [Heap.make, hl, hmem]
    exact ⟨_, rfl, (hi.make hfresh).construct hl' fun o' ho' =>
      Option.some.inj ho' ▸ hi.unowned_make hfresh⟩
  | moveConstruct l r => exact hi.moveConstruct hvalid.1 hvalid.2
  | moveAssign l r =>
    by_cases hlr : l = r
    · subst hlr
      have hempty : h.ptr l = none := by
        by_contra hne
        exact hself ⟨rfl, hne⟩
      exact moveAssign_self_empty hi hvalid.1 hempty
    · exact hi.moveAssign hrank hvalid.1 hvalid.2 hlr
  | assignNull l => exact hi.replace hrank hvalid fun o ho => by cases ho
  | release l => exact ⟨_, write_of_mem hvalid, hi.clear l⟩
  | reset l o => exact hi.replace hrank hvalid.1 fun o' ho' => hvalid.2 o' ho'
  | swap l r => exact hi.swap hvalid.1 hvalid.2
  | destroy l => exact hi.destroy hrank hvalid.1 hvalid.2

theorem not_sound_step {op : Op} (hi : h.Inv members) (hop : op.Allowed members h)
    (hself : op.MovesToSelf h) (hstep : step members h op = some h') : ¬ h'.Sound := by
  obtain ⟨⟨rank, hrank⟩, hvalid⟩ := hop
  cases op with
  | moveAssign l r => ?_
  | _ => exact hself.elim
  obtain ⟨rfl, hne⟩ := hself
  obtain ⟨o, ho⟩ := Option.ne_none_iff_exists'.mp hne
  obtain ⟨h'', hstep', hl, hptr, hdeleted⟩ := moveAssign_self hi hrank hvalid.1 ho
  obtain rfl := Option.some.inj (hstep.symm.trans hstep')
  intro hs
  have hzero := (hs.exists_of_owned l hl o hptr).2
  omega

/-- In a program without ownership cycles, which gives a raw pointer to one `unique_ptr` only: no
operation uses a destroyed `unique_ptr`, no object has two owners, is still owned when it
has been deleted, or is deleted twice, exactly when no `unique_ptr` with an object is ever moved to
itself. -/
theorem sound_iff (hops : Steps.Along (step members) (Op.Allowed members) Heap.empty ops) :
    (∀ ops', ops' <+: ops → ∃ h, Steps.run (step members) Heap.empty ops' = some h ∧ h.Sound) ↔
      Steps.Along (step members) (fun h op => ¬ op.MovesToSelf h) Heap.empty ops :=
  Steps.prefixes_iff (fun _ hi => hi.sound) (fun _ _ hi hop hself => inv_step hi hop hself)
    (fun _ _ _ hi hop hself hstep => not_sound_step hi hop (not_not.mp hself) hstep) inv_empty hops

/-- An object has a member, its successor. -/
def node (o : ℕ) : List ℕ := [o + 10]

/-- The variable of a list of two objects goes on to the second one, and ends. -/
def walk : List Op :=
  [.makeUnique 0 0, .makeUnique 1 1, .moveAssign 10 1, .moveAssign 0 10, .destroy 0, .destroy 1]

theorem allowed_walk : Steps.Along (step node) (Op.Allowed node) Heap.empty walk := by
  have hops : Steps.Along (step node) (fun h op => h.Ranked node (1 - ·) ∧ op.Valid node h)
      Heap.empty walk := by
    decide
  exact hops.mono fun h op hop => ⟨⟨_, hop.1⟩, hop.2⟩

theorem sound_walk : ∃ h, Steps.run (step node) Heap.empty walk = some h ∧ h.Sound :=
  (sound_iff allowed_walk).mpr (by decide) walk (List.prefix_refl walk)

theorem inv_run (hops : Steps.Along (step members) (Op.Allowed members) Heap.empty ops)
    (hself : Steps.Along (step members) (fun h op => ¬ op.MovesToSelf h) Heap.empty ops)
    (hrun : Steps.run (step members) Heap.empty ops = some h) : h.Inv members := by
  have hboth := Steps.along_and hops hself
  refine Steps.invariant (fun s op s' hi hop hstep => ?_) inv_empty hboth hrun
  obtain ⟨t, ht, hi'⟩ := inv_step hi hop.1 hop.2
  exact Option.some.inj (ht.symm.trans hstep) ▸ hi'

/-- When such a program has ended, with no variable left and no object that it has kept a raw
pointer to, every object that it has made has been deleted, once. -/
theorem deleted_once (hops : Steps.Along (step members) (Op.Allowed members) Heap.empty ops)
    (hself : Steps.Along (step members) (fun h op => ¬ op.MovesToSelf h) Heap.empty ops)
    (hrun : Steps.run (step members) Heap.empty ops = some h) (hacyclic : h.Acyclic members)
    (hvariables : ∀ l ∈ h.live, ¬ h.Free members l) (hraw : ∀ o, ¬ h.Unowned o) :
    ∀ o ∈ h.objects, h.deleted o = 1 := by
  have hi := inv_run hops hself hrun
  obtain ⟨rank, hrank⟩ := hacyclic
  intro o ho
  by_contra hne
  have hle := hi.sound.deleted_le o
  have hhas : h.Has o := ⟨ho, by omega⟩
  -- an object of the greatest rank has no owner
  obtain ⟨x, hx, hmax⟩ := Finset.exists_max_image (h.objects.filter fun y => h.deleted y = 0) rank
    ⟨o, Finset.mem_filter.mpr hhas⟩
  have hx' : h.Has x := Finset.mem_filter.mp hx
  have howned : ∃ l ∈ h.live, h.ptr l = some x := by
    by_contra hno
    exact hraw x ⟨hx', fun l hl hptr => hno ⟨l, hl, hptr⟩⟩
  obtain ⟨l, hl, hptr⟩ := howned
  have hmember : ∃ y, h.Has y ∧ l ∈ members y := by
    by_contra hno
    exact hvariables l hl fun y hy hdeleted hmem => hno ⟨y, ⟨hy, hdeleted⟩, hmem⟩
  obtain ⟨y, hy, hmem⟩ := hmember
  have hlt := hrank y hy.1 hy.2 l hmem x hptr
  have hle' := hmax y (Finset.mem_filter.mpr hy)
  omega

theorem deleted_walk : ∃ h, Steps.run (step node) Heap.empty walk = some h ∧
    ∀ o ∈ h.objects, h.deleted o = 1 := by
  have hend : ∃ h, Steps.run (step node) Heap.empty walk = some h ∧
      h.live = ∅ ∧ ∀ o ∈ h.objects, h.deleted o ≠ 0 := by
    refine ⟨_, rfl, ?_⟩
    decide
  obtain ⟨h, hrun, hlive, hgone⟩ := hend
  refine ⟨h, hrun, deleted_once allowed_walk (by decide) hrun ⟨id, ?_⟩ ?_ ?_⟩
  · intro o ho hzero
    exact absurd hzero (hgone o ho)
  · intro l hl
    rw [hlive] at hl
    cases hl
  · intro o ho
    exact hgone o ho.1.1 ho.1.2

end Cantos.UniquePtr
