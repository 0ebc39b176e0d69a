import Cantos.Hw.Enumeration

/-!
# The machines that cannot be enumerated

What the code adds to the vector is a list that depends on the machine alone.  When it has
every function once, the machine is one of those that the code can enumerate.

## Main definitions

* `found`: what `_search_bus` adds to the vector.
* `findsAll_iff`: the machines that are enumerated.
-/

namespace Cantos.Pci

variable {space : Space} {a x y : Address} {b c i j n fuel : ℕ} {ds ds' ds₁ ds₂ : Devices}
  {l m m' pre suf : List Address} {slots : List ℕ}

/-! ## What the search adds -/

section
variable (space : Space) (found : ℕ → List Address) (b i : ℕ)

/-- What is added behind each function of a slot. -/
def behind : List Address :=
  if (Address.registers space ⟨b, i, 0⟩).isBridge then found (Address.secondary space ⟨b, i, 0⟩)
  else []

/-- What is added for a slot. -/
def foundSlot : List Address :=
  if Present space ⟨b, i, 0⟩ then
    ⟨b, i, 0⟩ :: behind space found b i ++
      if Multifunction space b i then
        (List.range' 1 7).flatMap fun j => ⟨b, i, j⟩ :: behind space found b i
      else []
  else []

end

/-- What `_search_bus` adds to the vector. -/
def found (space : Space) : (fuel : ℕ) → (b : ℕ) → List Address
  | 0, _ => []
  | fuel + 1, b => (List.range 32).flatMap (foundSlot space (found space fuel) b)

/-- The devices that the constructor makes at some places. -/
structure Devices.Made (space : Space) (ds : Devices) (l : List Address) : Prop where
  address : ds.entries.map Device.address = l
  new : ∀ d ∈ ds.entries, d = Device.new space d.bus d.slot d.function
  buffSize : ds.buffSize = capacity l.length

/-- The buffer is not replaced while the functions behind a bridge are added. -/
def Stays (space : Space) (l m : List Address) : Prop :=
  ∀ x ∈ m, x.function = 0 → IsBridge space x → ∃ pre suf f,
    l ++ m = pre ++ x :: found space f (x.secondary space) ++ suf ∧
    Enough space f (x.secondary space) ∧
    capacity (pre.length + 1 + (found space f (x.secondary space)).length) =
      capacity (pre.length + 1)

/-- Some steps add a list to the vector. -/
def Adds (space : Space) (ds ds' : Devices) (m : List Address) : Prop :=
  ∀ l, ds.Made space l → ds'.Made space (l ++ m) ∧ Stays space l m

theorem Stays.append (h : Stays space l m) (h' : Stays space (l ++ m) m') :
    Stays space l (m ++ m') := by
  intro x hx hzero hbridge
  rcases List.mem_append.mp hx with hx | hx
  · obtain ⟨pre, suf, f, heq, hf, hcap⟩ := h x hx hzero hbridge
    refine ⟨pre, suf ++ m', f, ?_, hf, hcap⟩
    rw [← List.append_assoc, heq, List.append_assoc]
  · rw [← List.append_assoc]
    exact h' x hx hzero hbridge

theorem Adds.refl (ds : Devices) : Adds space ds ds [] := by
  intro l hl
  rw [List.append_nil]
  exact ⟨hl, fun x hx => absurd hx List.not_mem_nil⟩

theorem Adds.trans (h : Adds space ds ds₁ m) (h' : Adds space ds₁ ds₂ m') :
    Adds space ds ds₂ (m ++ m') := by
  intro l hl
  obtain ⟨hl₁, hs₁⟩ := h l hl
  obtain ⟨hl₂, hs₂⟩ := h' _ hl₁
  exact ⟨by rwa [← List.append_assoc], hs₁.append hs₂⟩

theorem foldlM_adds {α : Type} {xs : List α} {g : Devices → α → Option Devices}
    {f : α → List Address}
    (hstep : ∀ x ∈ xs, ∀ ds ds', g ds x = some ds' → Adds space ds ds' (f x))
    (h : xs.foldlM g ds = some ds') : Adds space ds ds' (xs.flatMap f) := by
  induction xs generalizing ds with
  | nil => exact Option.some.inj h ▸ Adds.refl ds
  | cons x xs ih =>
    rw [List.foldlM_cons] at h
    obtain ⟨ds₁, hx, hrest⟩ := Option.bind_eq_some_iff.mp h
    exact (hstep x List.mem_cons_self ds ds₁ hx).trans
      (ih (fun y hy => hstep y (List.mem_cons_of_mem x hy)) hrest)

theorem Devices.Made.emplaceBack (h : ds.Made space l) (b i j : ℕ) :
    (ds.emplaceBack (Device.new space b i j)).Made space (l ++ [⟨b, i, j⟩]) := by
  have hlen : ds.entries.length = l.length := by rw [← h.address, List.length_map]
  constructor
  · rw [Devices.emplaceBack, List.map_append, h.address, List.map_singleton]
    rfl
  · intro d hd
    rcases List.mem_append.mp hd with hd | hd
    · exact h.new d hd
    · rw [List.mem_singleton.mp hd]
      rfl
  · rw [Devices.emplaceBack, List.length_append, List.length_singleton, capacity, hlen, h.buffSize]

section Slot
variable {search : ℕ → Devices → Option Devices} (ht : IsTree space)
  (hreach : Reachable space b) (hfuel : Enough space (fuel + 1) b)
  (hsearch : ∀ b', Reachable space b' → Enough space fuel b' → ∀ ds ds',
    search b' ds = some ds' → Adds space ds ds' (found space fuel b'))

include ht hreach hfuel hsearch

theorem behind_adds (hfun : IsFunction space ⟨b, i, 0⟩) {d : Device}
    (hd : d.toRegisters = Address.registers space ⟨b, i, 0⟩)
    (h : (if d.isBridge then search (secondaryBus space b i 0) ds else some ds) = some ds') :
    Adds space ds ds' (behind space (found space fuel) b i) := by
  rw [behind, ← hd]
  by_cases hbridge : d.isBridge = true
  · rw [if_pos hbridge] at h ⊢
    have hedge : IsBridge space ⟨b, i, 0⟩ := ⟨hfun, by rw [← hd]; exact hbridge⟩
    have hbus : Reachable space (Address.mk b i 0).bus := hreach
    exact hsearch _ (hbus.step hedge) (hfuel.bridge ht hedge hbus) ds ds' h
  · rw [if_neg hbridge] at h ⊢
    exact Option.some.inj h ▸ Adds.refl ds

theorem searchFunction_adds (hfun : IsFunction space ⟨b, i, 0⟩) (hj : 0 < j)
    (h : searchFunction space search b i ds j = some ds') :
    Adds space ds ds' (⟨b, i, j⟩ :: behind space (found space fuel) b i) := by
  have hfirst : readDeviceVendor space b i 0 ≠ 0xffffffff#32 := hfun.present
  rw [searchFunction, if_pos hfirst] at h
  have hbehind := behind_adds ht hreach hfuel hsearch hfun rfl h
  refine Adds.trans (m := [⟨b, i, j⟩]) ?_ hbehind
  intro l hl
  refine ⟨hl.emplaceBack b i j, fun x hx hzero => ?_⟩
  rw [List.mem_singleton.mp hx] at hzero
  exact absurd hzero hj.ne'

/-- The device that is read after the search behind it is where it was. -/
theorem searchSlot_adds (hi : i < 32) (h : searchSlot space search b i ds = some ds') :
    Adds space ds ds' (foundSlot space (found space fuel) b i) := by
  rw [foundSlot]
  by_cases hpresent : Present space ⟨b, i, 0⟩
  · have hfun := isFunction_zero hi hpresent
    have hfirst : readDeviceVendor space b i 0 ≠ 0xffffffff#32 := hpresent
    rw [searchSlot, if_pos hfirst] at h
    rw [if_pos hpresent]
    obtain ⟨ds₂, hrun, hrest⟩ := Option.bind_eq_some_iff.mp h
    have hbehind := behind_adds ht hreach hfuel hsearch hfun rfl hrun
    by_cases hsize : ds₂.buffSize = (ds.emplaceBack (Device.new space b i 0)).buffSize
    · rw [if_neg (not_not.mpr hsize)] at hrest
      have hhead : Adds space ds ds₂ (⟨b, i, 0⟩ :: behind space (found space fuel) b i) := by
        intro l hl
        have hl₁ := hl.emplaceBack b i 0
        obtain ⟨hl₂, hs₂⟩ := hbehind _ hl₁
        have hcap := hl₂.buffSize.symm.trans (hsize.trans hl₁.buffSize)
        rw [List.length_append, List.length_append, List.length_singleton] at hcap
        rw [List.append_assoc, List.singleton_append] at hl₂
        refine ⟨hl₂, fun x hx hzero hbridge => ?_⟩
        rcases List.mem_cons.mp hx with rfl | hx
        · have hsub : behind space (found space fuel) b i =
              found space fuel (Address.secondary space ⟨b, i, 0⟩) := if_pos hbridge.2
          have hbus : Reachable space (Address.mk b i 0).bus := hreach
          refine ⟨l, [], fuel, ?_, hfuel.bridge ht hbridge hbus, ?_⟩
          · rw [hsub, List.append_nil]
          · rw [← hsub]
            exact hcap
        · obtain ⟨pre, suf, f, heq, hf⟩ := hs₂ x hx hzero hbridge
          refine ⟨pre, suf, f, ?_, hf⟩
          rw [← heq, List.append_assoc, List.singleton_append]
      by_cases hmulti : Multifunction space b i
      · have hmulti' : (Device.new space b i 0).multifunction ≠ 0 := hmulti
        rw [if_pos hmulti'] at hrest
        rw [if_pos hmulti]
        refine hhead.trans (foldlM_adds (fun j hj ds ds' hj' => ?_) hrest)
        rw [List.mem_range'_1] at hj
        exact searchFunction_adds ht hreach hfuel hsearch hfun hj.1 hj'
      · have hmulti' : ¬ (Device.new space b i 0).multifunction ≠ 0 := hmulti
        rw [if_neg hmulti'] at hrest
        rw [if_neg hmulti, List.append_nil]
        exact Option.some.inj hrest ▸ hhead
    · rw [if_pos hsize] at hrest
      cases hrest
  · have hfirst : ¬ readDeviceVendor space b i 0 ≠ 0xffffffff#32 := hpresent
    rw [searchSlot, if_neg hfirst] at h
    rw [if_neg hpresent]
    exact Option.some.inj h ▸ Adds.refl ds

end Slot

theorem mem_foundSlot {f : ℕ → List Address} (hy : y ∈ foundSlot space f b i) :
    Present space ⟨b, i, 0⟩ ∧ (y.bus = b ∧ y.slot = i ∨ y ∈ behind space f b i) := by
  rw [foundSlot] at hy
  split_ifs at hy with hpresent hmulti
  · refine ⟨hpresent, ?_⟩
    rcases List.mem_append.mp hy with hy | hy
    · rcases List.mem_cons.mp hy with rfl | hy
      · exact .inl ⟨rfl, rfl⟩
      · exact .inr hy
    · obtain ⟨j, hj, hy⟩ := List.mem_flatMap.mp hy
      rcases List.mem_cons.mp hy with rfl | hy
      · exact .inl ⟨rfl, rfl⟩
      · exact .inr hy
  · rw [List.append_nil] at hy
    rcases List.mem_cons.mp hy with rfl | hy
    · exact ⟨hpresent, .inl ⟨rfl, rfl⟩⟩
    · exact ⟨hpresent, .inr hy⟩
  · exact absurd hy List.not_mem_nil

theorem cons_behind_sublist {f : ℕ → List Address} (hpresent : Present space ⟨b, i, 0⟩) :
    (⟨b, i, 0⟩ :: behind space f b i).Sublist (foundSlot space f b i) := by
  rw [foundSlot, if_pos hpresent]
  exact List.sublist_append_left _ _

theorem foundSlot_sublist {f : ℕ → List Address} (hi : i ∈ slots) :
    (foundSlot space f b i).Sublist (slots.flatMap (foundSlot space f b)) :=
  List.sublist_flatten_of_mem (List.mem_map_of_mem hi)

section Bus
variable (ht : IsTree space)

include ht

theorem searchBus_adds (hreach : Reachable space b) (hfuel : Enough space fuel b)
    (h : searchBus space fuel b 0 ds = some ds') : Adds space ds ds' (found space fuel b) := by
  induction fuel generalizing b ds ds' with
  | zero => exact absurd hfuel.pos (Nat.lt_irrefl 0)
  | succ fuel ih =>
    rw [searchBus, ← List.range_eq_range'] at h
    refine foldlM_adds (fun i hi ds ds' hi' => ?_) h
    exact searchSlot_adds ht hreach hfuel (fun b' hb' hfuel' ds ds' h' => ih hb' hfuel' h')
      (List.mem_range.mp hi) hi'

/-- What is found comes with its slot, and is on the bus or on one behind a function 0 that is
found. -/
theorem slot_of_mem_found (hreach : Reachable space b) (hfuel : Enough space (fuel + 1) b)
    (hslots : ∀ i ∈ slots, i < 32)
    (hy : y ∈ slots.flatMap (foundSlot space (found space fuel) b)) :
    (∃ f, Enough space (f + 1) y.bus ∧ (foundSlot space (found space f) y.bus y.slot).Sublist
      (slots.flatMap (foundSlot space (found space fuel) b))) ∧
    (y.bus = b ∨ ∃ z ∈ slots.flatMap (foundSlot space (found space fuel) b),
      z.function = 0 ∧ IsBridge space z ∧ Reachable space z.bus ∧ z.secondary space = y.bus) := by
  induction fuel generalizing b slots with
  | zero =>
    obtain ⟨i, hi, hmem⟩ := List.mem_flatMap.mp hy
    obtain ⟨-, ⟨rfl, rfl⟩ | hbehind⟩ := mem_foundSlot hmem
    · exact ⟨⟨0, hfuel, foundSlot_sublist hi⟩, .inl rfl⟩
    · rw [behind] at hbehind
      split_ifs at hbehind
      · exact absurd hbehind List.not_mem_nil
      · exact absurd hbehind List.not_mem_nil
  | succ fuel ih =>
    obtain ⟨i, hi, hmem⟩ := List.mem_flatMap.mp hy
    obtain ⟨hpresent, ⟨rfl, rfl⟩ | hbehind⟩ := mem_foundSlot hmem
    · exact ⟨⟨fuel + 1, hfuel, foundSlot_sublist hi⟩, .inl rfl⟩
    · have hsub := (cons_behind_sublist (f := found space (fuel + 1)) hpresent).trans
        (foundSlot_sublist hi)
      have hx := hsub.subset List.mem_cons_self
      have hsub' := (List.sublist_cons_self _ _).trans hsub
      by_cases hbridge : (Address.registers space ⟨b, i, 0⟩).isBridge = true
      · have heq : behind space (found space (fuel + 1)) b i =
            found space (fuel + 1) (Address.secondary space ⟨b, i, 0⟩) := if_pos hbridge
        rw [heq] at hbehind hsub'
        have hfun := isFunction_zero (hslots i hi) hpresent
        have hedge : IsBridge space ⟨b, i, 0⟩ := ⟨hfun, hbridge⟩
        have hbus : Reachable space (Address.mk b i 0).bus := hreach
        obtain ⟨⟨f, hf, hslot⟩, hcase⟩ := ih (hbus.step hedge) (hfuel.bridge ht hedge hbus)
          (fun i hi => List.mem_range.mp hi) hbehind
        refine ⟨⟨f, hf, hslot.trans hsub'⟩, .inr ?_⟩
        rcases hcase with hsec | ⟨z, hz, hrest⟩
        · exact ⟨_, hx, rfl, hedge, hreach, hsec.symm⟩
        · exact ⟨z, hsub'.subset hz, hrest⟩
      · rw [behind, if_neg hbridge] at hbehind
        exact absurd hbehind List.not_mem_nil

end Bus

/-! ## A machine that has been enumerated -/

/-- What is found behind the host bridge. -/
def foundRest (space : Space) : List Address :=
  (List.range' 1 31).flatMap (foundSlot space (found space 255) 0)

/-- The host bridge and what is found behind it is every function once, and the registers of
function 0 are those of every function. -/
structure Complete (space : Space) : Prop where
  nodup : (host :: foundRest space).Nodup
  mem : ∀ a, a ∈ host :: foundRest space ↔ Reachable space a.bus ∧ IsFunction space a
  own : ∀ a ∈ host :: foundRest space,
    a.registers space = Address.registers space ⟨a.bus, a.slot, 0⟩
  stays : Stays space [host] (foundRest space)

theorem slot_lt (hi : i ∈ List.range' 1 31) : i < 32 := by
  rw [List.mem_range'_1] at hi
  omega

section Complete
variable (ht : IsTree space) (hc : Complete space)

theorem functions_nil_of_found (hfuel : 0 < fuel) (h : found space fuel b = []) :
    functions space b = [] := by
  cases fuel with
  | zero => exact absurd hfuel (Nat.lt_irrefl 0)
  | succ fuel =>
    rw [found, List.flatMap_eq_nil_iff] at h
    rw [functions, List.flatMap_eq_nil_iff]
    intro i hi
    refine if_neg fun hpresent => ?_
    have hmem := (cons_behind_sublist (f := found space fuel) hpresent).subset List.mem_cons_self
    rw [h i hi] at hmem
    exact List.not_mem_nil hmem

include ht hc

/-- Behind a bridge that is not searched there is nothing. -/
theorem Complete.functions_nil (hreach : Reachable space x.bus) (hedge : IsBridge space x)
    (hx : x ∉ foundRest space ∨ x.function ≠ 0) : functions space (x.secondary space) = [] := by
  rw [List.eq_nil_iff_forall_not_mem]
  intro y hy
  obtain ⟨hbus, hfun⟩ := mem_functions.mp hy
  have hsec := ht.root x hreach hedge
  have hyreach : Reachable space y.bus := hbus ▸ hreach.step hedge
  have hmem := (hc.mem y).mpr ⟨hyreach, hfun⟩
  have hne : y ≠ host := by
    rintro rfl
    exact hsec hbus.symm
  have hrest := (List.mem_cons.mp hmem).resolve_left hne
  have hzero : Reachable space 0 := .refl
  rcases (slot_of_mem_found ht hzero enough_root (fun i hi => slot_lt hi) hrest).2 with
    hroot | ⟨z, hz, hzfun, hzedge, hzreach, hzsec⟩
  · exact hsec (hbus.symm.trans hroot)
  · have heq := ht.unique z x hzreach hreach hzedge hedge (hzsec.trans hbus)
    subst heq
    rcases hx with hx | hx
    · exact hx hz
    · exact hx hzfun

theorem Complete.uniform (hmulti : ¬ Multifunction space 0 0) (hreach : Reachable space b)
    (hi : i < 32) (hpresent : Present space ⟨b, i, 0⟩) : Uniform space b i := by
  intro hmulti'
  have hfun := isFunction_zero hi hpresent
  have hne : (⟨b, i, 0⟩ : Address) ≠ host := by
    intro heq
    obtain ⟨rfl, rfl, -⟩ := Address.mk.inj heq
    exact hmulti hmulti'
  have hmem := (List.mem_cons.mp ((hc.mem ⟨b, i, 0⟩).mpr ⟨hreach, hfun⟩)).resolve_left hne
  have hzero : Reachable space 0 := .refl
  obtain ⟨f, hf, hslot⟩ :=
    (slot_of_mem_found ht hzero enough_root (fun i hi => slot_lt hi) hmem).1
  have heq : foundSlot space (found space f) b i =
      ⟨b, i, 0⟩ :: behind space (found space f) b i ++
        (List.range' 1 7).flatMap fun j => ⟨b, i, j⟩ :: behind space (found space f) b i := by
    rw [foundSlot, if_pos hpresent, if_pos hmulti']
  have hsame : ∀ j, 0 < j → j < 8 → IsFunction space ⟨b, i, j⟩ ∧
      Address.registers space ⟨b, i, j⟩ = Address.registers space ⟨b, i, 0⟩ := by
    intro j hpos hlt
    have hj : j ∈ List.range' 1 7 := List.mem_range'_1.mpr ⟨hpos, hlt⟩
    have hmem : (⟨b, i, j⟩ : Address) ∈ foundSlot space (found space f) b i := by
      rw [heq]
      exact List.mem_append_right _ (List.mem_flatMap.mpr ⟨j, hj, List.mem_cons_self⟩)
    have htotal := List.mem_cons_of_mem host (hslot.subset hmem)
    exact ⟨((hc.mem _).mp htotal).2, hc.own _ htotal⟩
  refine ⟨fun j hpos hlt => ⟨(hsame j hpos hlt).1.present, (hsame j hpos hlt).2⟩, ?_⟩
  intro hbridge j hj
  rcases Nat.eq_zero_or_pos j with rfl | hpos
  · have hnil : behind space (found space f) b i = [] := by
      have hnodup := hslot.nodup (List.nodup_cons.mp hc.nodup).2
      rw [heq, List.nodup_append] at hnodup
      rw [List.eq_nil_iff_forall_not_mem]
      intro y hy
      have hone : (1 : ℕ) ∈ List.range' 1 7 := List.mem_range'_1.mpr ⟨le_rfl, by decide⟩
      exact hnodup.2.2 y (List.mem_cons_of_mem _ hy) y
        (List.mem_flatMap.mpr ⟨1, hone, List.mem_cons_of_mem _ hy⟩) rfl
    have hedge : IsBridge space ⟨b, i, 0⟩ := ⟨hfun, hbridge⟩
    have hbus : Reachable space (Address.mk b i 0).bus := hreach
    rw [behind, if_pos hbridge] at hnil
    exact functions_nil_of_found (hf.bridge ht hedge hbus).pos hnil
  · obtain ⟨hfunj, hregs⟩ := hsame j hpos hj
    have hedge : IsBridge space ⟨b, i, j⟩ := ⟨hfunj, by rw [hregs]; exact hbridge⟩
    exact hc.functions_nil ht hreach hedge (.inr hpos.ne')

theorem Complete.behind (hbridge : (host.registers space).isBridge = true) :
    functions space (host.secondary space) = [] := by
  have hhost := (hc.mem host).mp List.mem_cons_self
  exact hc.functions_nil ht hhost.1 ⟨hhost.2, hbridge⟩ (.inl (List.nodup_cons.mp hc.nodup).1)

end Complete

/-! ## The order of the listing -/

theorem foundSlot_eq (hi : i < 32) (huniform : Present space ⟨b, i, 0⟩ → Uniform space b i)
    (hfound : IsBridge space ⟨b, i, 0⟩ → found space fuel (Address.secondary space ⟨b, i, 0⟩) =
      listing space fuel (Address.secondary space ⟨b, i, 0⟩)) :
    foundSlot space (found space fuel) b i = (slotFunctions space b i).flatMap (visit space fuel) := by
  by_cases hpresent : Present space ⟨b, i, 0⟩
  · have hfun := isFunction_zero hi hpresent
    have hbehind : behind space (found space fuel) b i =
        if (Address.registers space ⟨b, i, 0⟩).isBridge then
          listing space fuel (Address.secondary space ⟨b, i, 0⟩) else [] := by
      rw [behind]
      split_ifs with hbridge
      · exact hfound ⟨hfun, hbridge⟩
      · rfl
    rw [foundSlot, if_pos hpresent, hbehind]
    by_cases hmulti : Multifunction space b i
    · rw [if_pos hmulti, (huniform hpresent).behind_nil hmulti, flatMap_visit_uniform hfun hmulti (huniform hpresent),
        List.map_eq_flatMap]
      rfl
    · rw [if_neg hmulti, slotFunctions_single hpresent hmulti, List.flatMap_singleton, visit,
        List.append_nil]
  · have hslot : slotFunctions space b i = [] := if_neg hpresent
    rw [foundSlot, if_neg hpresent, hslot, List.flatMap_nil]

theorem found_eq_listing (huniform : ∀ b, Reachable space b → ∀ i < 32,
    Present space ⟨b, i, 0⟩ → Uniform space b i) (hreach : Reachable space b) :
    found space fuel b = listing space fuel b := by
  induction fuel generalizing b with
  | zero => rfl
  | succ fuel ih =>
    rw [found, listing_slots]
    refine List.flatMap_congr fun i hi => ?_
    have hi' := List.mem_range.mp hi
    have hbus : Reachable space (Address.mk b i 0).bus := hreach
    exact foundSlot_eq hi' (huniform b hreach i hi') fun hedge => ih (hbus.step hedge)

theorem capacity_mono {k : ℕ} (h : n ≤ k) : capacity n ≤ capacity k := by
  refine monotone_nat_of_le_succ (fun n => ?_) h
  rw [capacity]
  split_ifs <;> omega

theorem Complete.steady (ht : IsTree space) (hc : Complete space)
    (hmulti : ¬ Multifunction space 0 0) : Steady space := by
  have huniform : ∀ b, Reachable space b → ∀ i < 32, Present space ⟨b, i, 0⟩ →
      Uniform space b i := fun b hreach i hi hpresent => hc.uniform ht hmulti hreach hi hpresent
  have hhost := (hc.mem host).mp List.mem_cons_self
  have hzero : Reachable space 0 := .refl
  have hlisting : listing space 256 0 = host :: foundRest space := by
    rw [listing_host hhost.2.present hmulti (hc.behind ht), List.singleton_append, foundRest]
    congr 1
    refine List.flatMap_congr fun i hi => ?_
    have hbus : Reachable space (Address.mk 0 i 0).bus := hzero
    exact (foundSlot_eq (slot_lt hi) (huniform 0 hzero i (slot_lt hi)) fun hedge =>
      found_eq_listing huniform (hbus.step hedge)).symm
  intro pre x sub suf htotal hne hfun hedge hsub
  rw [hlisting] at htotal
  have hmem : x ∈ host :: foundRest space := by
    rw [htotal]
    simp
  have hreach := ((hc.mem x).mp hmem).1
  obtain ⟨pre', suf', f, htotal', hf, hcap⟩ :=
    hc.stays x ((List.mem_cons.mp hmem).resolve_left hne) hfun hedge
  rw [List.singleton_append] at htotal'
  -- `x` is there once, so the two ways to split the list agree.
  have hnodup := hc.nodup
  rw [htotal, List.append_assoc, List.cons_append] at hnodup htotal'
  rw [List.append_assoc, List.cons_append] at htotal'
  have hpre : x ∉ pre := fun hmem =>
    List.disjoint_of_nodup_append hnodup hmem List.mem_cons_self
  have hpost : x ∉ sub ++ suf := (List.nodup_cons.mp hnodup.of_append_right).1
  obtain ⟨rfl, -, hrest⟩ := (List.append_cons_inj_of_notMem hpre hpost).mp htotal'
  have hle : sub.length ≤ (found space f (x.secondary space)).length := by
    rcases List.append_eq_append_iff.mp hrest with ⟨l, hl, -⟩ | ⟨l, hl, -⟩
    · rw [hl, List.length_append]
      exact Nat.le_add_right _ _
    · -- What is left over of `sub` is behind the bridge, too, and has been found already.
      have hnil : l = [] := by
        rw [List.eq_nil_iff_forall_not_mem]
        intro y hy
        have hysub : y ∈ sub := hl ▸ List.mem_append_right _ hy
        have hytotal : y ∈ host :: foundRest space := by
          rw [htotal]
          exact List.mem_append_left _ (List.mem_append_right _ (List.mem_cons_of_mem x hysub))
        have hsecreach : Reachable space (x.secondary space) := hreach.step hedge
        have hfound : y ∈ found space f (x.secondary space) := by
          rw [found_eq_listing huniform hsecreach, mem_listing ht hsecreach hf]
          exact ⟨hsub y hysub, ((hc.mem y).mp hytotal).2⟩
        have hnodup' : sub.Nodup := (List.nodup_cons.mp hnodup.of_append_right).2.of_append_left
        rw [hl] at hnodup'
        exact List.disjoint_of_nodup_append hnodup' hfound hy
      rw [hl, hnil, List.append_nil]
  refine le_antisymm ?_ (capacity_mono (Nat.le_add_right _ _))
  rw [← hcap]
  exact capacity_mono (Nat.add_le_add_left hle _)

/-! ## The host bridge is always added -/

section Invariant
variable {P : Devices → Prop} (hpush : ∀ ds d, P ds → P (ds.emplaceBack d))

theorem foldlM_invariant {α : Type} {xs : List α} {g : Devices → α → Option Devices}
    (hstep : ∀ x ds ds', P ds → g ds x = some ds' → P ds') (hP : P ds)
    (h : xs.foldlM g ds = some ds') : P ds' := by
  induction xs generalizing ds with
  | nil => exact Option.some.inj h ▸ hP
  | cons x xs ih =>
    rw [List.foldlM_cons] at h
    obtain ⟨ds₁, hx, hrest⟩ := Option.bind_eq_some_iff.mp h
    exact ih (hstep x ds ds₁ hP hx) hrest

include hpush

theorem searchSlot_invariant {search : ℕ → Devices → Option Devices}
    (hsearch : ∀ b ds ds', P ds → search b ds = some ds' → P ds') (hP : P ds)
    (h : searchSlot space search b i ds = some ds') : P ds' := by
  have hbehind : ∀ {d : Device} {ds ds'}, P ds → (if d.isBridge then
      search (secondaryBus space b i 0) ds else some ds) = some ds' → P ds' := by
    intro d ds ds' hP h
    split_ifs at h with hbridge
    · exact hsearch _ ds ds' hP h
    · exact Option.some.inj h ▸ hP
  rw [searchSlot] at h
  split_ifs at h with hpresent
  · obtain ⟨ds₂, hrun, hrest⟩ := Option.bind_eq_some_iff.mp h
    have hP₂ := hbehind (hpush _ _ hP) hrun
    split_ifs at hrest with hsize hmulti
    · refine foldlM_invariant (fun j ds ds' hP h => ?_) hP₂ hrest
      rw [searchFunction, if_pos hpresent] at h
      exact hbehind (hpush _ _ hP) h
    · exact Option.some.inj hrest ▸ hP₂
  · exact Option.some.inj h ▸ hP

theorem searchBus_invariant {start : ℕ} (hP : P ds)
    (h : searchBus space fuel b start ds = some ds') : P ds' := by
  induction fuel generalizing b start ds ds' with
  | zero => cases h
  | succ fuel ih =>
    rw [searchBus] at h
    refine foldlM_invariant (fun i ds ds' hP h => ?_) hP h
    exact searchSlot_invariant hpush (fun b ds ds' hP h => ih hP h) hP h

theorem searchHosts_invariant {fns : List ℕ} (hP : P ds)
    (h : searchHosts space fuel fns ds = some ds') : P ds' := by
  induction fns generalizing ds with
  | nil => exact Option.some.inj h ▸ hP
  | cons fn fns ih =>
    rw [searchHosts] at h
    by_cases hpresent : readDeviceVendor space 0 0 fn ≠ 0xffffffff#32
    · rw [if_pos hpresent] at h
      exact Option.some.inj h ▸ hP
    · rw [if_neg hpresent] at h
      obtain ⟨ds₁, hrun, hrest⟩ := Option.bind_eq_some_iff.mp h
      exact ih (searchBus_invariant hpush hP hrun) hrest

end Invariant

theorem host_mem_of_init (h : init space = some ds) : host ∈ ds.entries.map Device.address := by
  have hpush : ∀ (ds : Devices) d, host ∈ ds.entries.map Device.address →
      host ∈ (ds.emplaceBack d).entries.map Device.address := by
    intro ds d hmem
    rw [Devices.emplaceBack, List.map_append]
    exact List.mem_append_left _ hmem
  have hfirst : host ∈
      (Devices.empty.emplaceBack (Device.new space 0 0 0)).entries.map Device.address := by
    rw [holds_host.address]
    exact List.mem_singleton_self host
  rw [init] at h
  split_ifs at h with hmulti
  · exact searchHosts_invariant hpush hfirst h
  · exact searchBus_invariant hpush hfirst h

/-! ## The machines that are enumerated -/

theorem complete_of_findsAll (ht : IsTree space) (h : FindsAll space)
    (hmulti : ¬ Multifunction space 0 0) : Complete space := by
  obtain ⟨ds, hrun, hnodup, hmem, hown⟩ := h
  have hmulti' : ¬ (Device.new space 0 0 0).multifunction ≠ 0 := hmulti
  rw [init, if_neg hmulti', searchBus] at hrun
  have hzero : Reachable space 0 := .refl
  have hadds : Adds space (Devices.empty.emplaceBack (Device.new space 0 0 0)) ds
      (foundRest space) := by
    refine foldlM_adds (fun i hi ds ds' hi' => ?_) hrun
    exact searchSlot_adds ht hzero enough_root
      (fun b' hb' hfuel' ds ds' h' => searchBus_adds ht hb' hfuel' h') (slot_lt hi) hi'
  have hempty : Devices.empty.Made space [] :=
    ⟨rfl, fun d hd => absurd hd List.not_mem_nil, rfl⟩
  obtain ⟨hmade, hstays⟩ := hadds _ (hempty.emplaceBack 0 0 0)
  have haddress : ds.entries.map Device.address = host :: foundRest space := hmade.address
  rw [haddress] at hnodup hmem
  refine ⟨hnodup, hmem, fun a ha => ?_, hstays⟩
  rw [← haddress] at ha
  obtain ⟨d, hd, rfl⟩ := List.mem_map.mp ha
  have hregs := hown d hd
  rw [hmade.new d hd] at hregs
  exact hregs.symm

/-- The enumeration finds every function once, with its own registers, on exactly the machines
that the code can enumerate. -/
theorem findsAll_iff (ht : IsTree space) : FindsAll space ↔ Searchable space := by
  refine ⟨fun h => ?_, findsAll_of_searchable ht⟩
  have hhost : Present space host := by
    obtain ⟨ds, hrun, -, hmem, -⟩ := h
    exact ((hmem host).mp (host_mem_of_init hrun)).2.present
  refine ⟨hhost, fun hmulti a hreach hfun => ?_, fun hmulti => ?_, fun hmulti b hreach i hi => ?_,
    fun hmulti => ?_⟩
  · obtain ⟨ds, hrun, -, hmem, -⟩ := h
    have hmulti' : (Device.new space 0 0 0).multifunction ≠ 0 := hmulti
    have hfirst : readDeviceVendor space 0 0 0 ≠ 0xffffffff#32 := hhost
    rw [init, if_pos hmulti', List.range_succ_eq_map, searchHosts, if_pos hfirst] at hrun
    have ha := (hmem a).mpr ⟨hreach, hfun⟩
    rw [← Option.some.inj hrun, holds_host.address] at ha
    exact List.mem_singleton.mp ha
  · exact (complete_of_findsAll ht h hmulti).behind ht
  · exact (complete_of_findsAll ht h hmulti).uniform ht hmulti hreach hi
  · exact (complete_of_findsAll ht h hmulti).steady ht hmulti

/-! ## Machines -/

/-- Machines are given by the buses that they have. -/
theorem mem_of_reachable {buses : List ℕ} (hzero : 0 ∈ buses)
    (hclosed : ∀ b ∈ buses, ∀ a ∈ functions space b, (a.registers space).isBridge = true →
      a.secondary space ∈ buses) (h : Reachable space b) : b ∈ buses := by
  induction h with
  | refl => exact hzero
  | @step x _ hedge ih =>
    exact hclosed x.bus ih x (mem_functions.mpr ⟨rfl, hedge.1⟩) hedge.2

theorem isTree_of_buses {buses : List ℕ} (hzero : 0 ∈ buses)
    (hclosed : ∀ b ∈ buses, ∀ a ∈ functions space b, (a.registers space).isBridge = true →
      a.secondary space ∈ buses)
    (hroot : ∀ b ∈ buses, ∀ a ∈ functions space b, (a.registers space).isBridge = true →
      a.secondary space ≠ 0)
    (hunique : ∀ b ∈ buses, ∀ x ∈ functions space b, (x.registers space).isBridge = true →
      ∀ c ∈ buses, ∀ y ∈ functions space c, (y.registers space).isBridge = true →
        x.secondary space = y.secondary space → x = y) : IsTree space := by
  have hmem : ∀ b, Reachable space b → b ∈ buses := fun b => mem_of_reachable hzero hclosed
  constructor
  · intro x y hx hy hxedge hyedge heq
    exact hunique x.bus (hmem _ hx) x (mem_functions.mpr ⟨rfl, hxedge.1⟩) hxedge.2
      y.bus (hmem _ hy) y (mem_functions.mpr ⟨rfl, hyedge.1⟩) hyedge.2 heq
  · intro x hx hedge
    exact hroot x.bus (hmem _ hx) x (mem_functions.mpr ⟨rfl, hedge.1⟩) hedge.2

/-- The first buffer is never replaced. -/
theorem steady_of_length (h : (listing space 256 0).length ≤ 4) : Steady space := by
  have hcap : ∀ n ≤ 4, capacity n = 4 := by decide
  intro pre x sub suf htotal _ _ _ _
  rw [htotal, List.length_append, List.length_append, List.length_cons] at h
  rw [hcap _ (by omega), hcap _ (by omega)]

/-- A space with some registers. -/
def spaceOf (registers : List (ℕ × BitVec 32)) : Space :=
  fun addr => (registers.lookup addr).getD 0xffffffff#32

/-- A host bridge, a bridge to the bus 1, and a network card there. -/
def bridgedMachine : Space := spaceOf
  [(0x80000000, 0x12378086#32), (0x80000008, 0x06000002#32), (0x8000000c, 0#32),
    (0x80000800, 0x00011b36#32), (0x80000808, 0x06040000#32), (0x8000080c, 0x00010000#32),
    (0x80000818, 0x00010100#32),
    (0x80010000, 0x100e8086#32), (0x80010008, 0x02000003#32), (0x8001000c, 0#32)]

/-- A host bridge, and a device with two functions. -/
def twoFunctions : Space := spaceOf
  [(0x80000000, 0x12378086#32), (0x80000008, 0x06000002#32), (0x8000000c, 0#32),
    (0x80000800, 0x70008086#32), (0x80000808, 0x06010000#32), (0x8000080c, 0x00800000#32),
    (0x80000900, 0x70108086#32), (0x80000908, 0x01018000#32), (0x8000090c, 0#32)]

theorem findsAll_bridgedMachine : FindsAll bridgedMachine := by
  have hclosed : ∀ b ∈ [0, 1], ∀ a ∈ functions bridgedMachine b,
      (a.registers bridgedMachine).isBridge = true → a.secondary bridgedMachine ∈ [0, 1] := by
    decide
  have htree : IsTree bridgedMachine :=
    isTree_of_buses (by decide) hclosed (by decide) (by decide)
  have hmulti : ¬ Multifunction bridgedMachine 0 0 := by decide
  have hsingle : ∀ b ∈ [0, 1], ∀ i < 32, Present bridgedMachine ⟨b, i, 0⟩ →
      ¬ Multifunction bridgedMachine b i := by
    decide
  refine (findsAll_iff htree).mpr ⟨by decide, fun h => absurd h hmulti, fun _ h => ?_,
    fun _ b hreach i hi hpresent h => ?_, fun _ => steady_of_length (by decide)⟩
  · revert h
    decide
  · exact absurd h (hsingle b (mem_of_reachable (by decide) hclosed hreach) i hi hpresent)

/-- The functions 2 to 7 of the device are not there. -/
theorem not_findsAll_twoFunctions : ¬ ∀ space, IsTree space → FindsAll space := by
  intro hall
  have hclosed : ∀ b ∈ [0], ∀ a ∈ functions twoFunctions b,
      (a.registers twoFunctions).isBridge = true → a.secondary twoFunctions ∈ [0] := by
    decide
  have htree : IsTree twoFunctions :=
    isTree_of_buses (by decide) hclosed (by decide) (by decide)
  obtain ⟨ds, hrun, -, hmem, -⟩ := hall twoFunctions htree
  have hfound : ((init twoFunctions).map fun ds => ds.entries.map Device.address) =
      some (host :: (List.range 8).map (Address.mk 0 1)) := by
    decide
  rw [hrun, Option.map_some, Option.some.injEq] at hfound
  rw [hfound] at hmem
  have habsent := ((hmem ⟨0, 1, 2⟩).mp (by decide)).2.present
  revert habsent
  decide

end Cantos.Pci
