import Cantos.Hw.Functions

/-!
# What the enumeration finds

`init` finds every function of the machine once, with its own registers, where the machine
keeps it from the places in which the code goes wrong: every register is read from function
0, all of the functions 1 to 7 are taken to be there, the host bridge is not looked at as a
bridge, its other functions are not searched, and a device is read after the search behind it
may have moved it.

## Main definitions

* `FindsAll`: what the enumeration is for.
* `Searchable`: the machines on which it does this.
-/

namespace Cantos.Pci

variable {space : Space} {a : Address} {b i j n fuel : ℕ} {ds : Devices}
  {l pre suf total : List Address}

def Device.address (d : Device) : Address := ⟨d.bus, d.slot, d.function⟩

/-- A device has the registers of its own function. -/
def Device.Own (space : Space) (d : Device) : Prop := d.toRegisters = d.address.registers space

/-- `init` finds every function once, with its own registers, and nothing else. -/
def FindsAll (space : Space) : Prop :=
  ∃ ds, init space = some ds ∧ (ds.entries.map Device.address).Nodup ∧
    (∀ a, a ∈ ds.entries.map Device.address ↔ Reachable space a.bus ∧ IsFunction space a) ∧
    ∀ d ∈ ds.entries, d.Own space

/-! ## The condition -/

/-- The size of the buffer of a vector with some elements. -/
def capacity : ℕ → ℕ
  | 0 => 4
  | n + 1 => if n = capacity n then 2 * capacity n else capacity n

/-- The other functions of a multifunction device are all there and have the registers of
function 0; behind a multifunction bridge there is nothing. -/
def Uniform (space : Space) (b i : ℕ) : Prop :=
  Multifunction space b i →
    (∀ j, 0 < j → j < 8 →
      Present space ⟨b, i, j⟩ ∧ Address.registers space ⟨b, i, j⟩ = Address.registers space ⟨b, i, 0⟩) ∧
    ((Address.registers space ⟨b, i, 0⟩).isBridge = true →
      ∀ j < 8, functions space (Address.secondary space ⟨b, i, j⟩) = [])

/-- The buffer of the vector is not replaced while the functions behind a bridge are added. -/
def Steady (space : Space) : Prop :=
  ∀ pre a sub suf, listing space 256 0 = pre ++ a :: sub ++ suf → a ≠ host → a.function = 0 →
    IsBridge space a → (∀ x ∈ sub, Under space (a.secondary space) x.bus) →
    capacity (pre.length + 1 + sub.length) = capacity (pre.length + 1)

/-- The machines that the code can enumerate. -/
structure Searchable (space : Space) : Prop where
  host : Present space host
  alone : Multifunction space 0 0 → ∀ a, Reachable space a.bus → IsFunction space a → a = Pci.host
  behind : ¬ Multifunction space 0 0 → (Pci.host.registers space).isBridge = true →
    functions space (Pci.host.secondary space) = []
  uniform : ¬ Multifunction space 0 0 → ∀ b, Reachable space b → ∀ i < 32,
    Present space ⟨b, i, 0⟩ → Uniform space b i
  steady : ¬ Multifunction space 0 0 → Steady space

/-! ## The vector -/

/-- The devices at some places, each with its own registers. -/
structure Devices.Holds (space : Space) (ds : Devices) (l : List Address) : Prop where
  address : ds.entries.map Device.address = l
  own : ∀ d ∈ ds.entries, d.Own space
  buffSize : ds.buffSize = capacity l.length

theorem Devices.Holds.emplaceBack (h : ds.Holds space l) {d : Device} (hd : d.address = a)
    (hown : d.Own space) : (ds.emplaceBack d).Holds space (l ++ [a]) := by
  have hlen : ds.entries.length = l.length := by rw [← h.address, List.length_map]
  constructor
  · rw [Devices.emplaceBack, List.map_append, h.address, List.map_singleton, hd]
  · intro d' hd'
    rcases List.mem_append.mp hd' with hd' | hd'
    · exact h.own d' hd'
    · exact List.mem_singleton.mp hd' ▸ hown
  · rw [Devices.emplaceBack, List.length_append, List.length_singleton, capacity, hlen, h.buffSize]

/-- A loop whose rounds append to a list appends all that its rounds do. -/
theorem foldlM_holds {α : Type} {xs : List α} {g : Devices → α → Option Devices}
    {f : α → List Address}
    (hstep : ∀ x ∈ xs, ∀ ds pre suf, total = pre ++ f x ++ suf → Devices.Holds space ds pre →
      ∃ ds', g ds x = some ds' ∧ ds'.Holds space (pre ++ f x))
    (htotal : total = pre ++ xs.flatMap f ++ suf) (hds : ds.Holds space pre) :
    ∃ ds', xs.foldlM g ds = some ds' ∧ ds'.Holds space (pre ++ xs.flatMap f) := by
  induction xs generalizing ds pre with
  | nil =>
    rw [List.flatMap_nil, List.append_nil]
    exact ⟨ds, rfl, hds⟩
  | cons x xs ih =>
    rw [List.flatMap_cons, ← List.append_assoc] at htotal ⊢
    obtain ⟨ds₁, hx, hds₁⟩ := hstep x List.mem_cons_self ds pre (xs.flatMap f ++ suf)
      (by rw [htotal, List.append_assoc]) hds
    obtain ⟨ds', hxs, hds'⟩ := ih (fun y hy => hstep y (List.mem_cons_of_mem x hy)) htotal hds₁
    refine ⟨ds', ?_, hds'⟩
    rw [List.foldlM_cons, hx]
    exact hxs

/-! ## The search -/

/-- The search from a bus appends the listing of the bus. -/
def Searches (space : Space) (fuel b : ℕ) (search : Devices → Option Devices) : Prop :=
  ∀ ds pre suf, listing space 256 0 = pre ++ listing space fuel b ++ suf → ds.Holds space pre →
    ∃ ds', search ds = some ds' ∧ ds'.Holds space (pre ++ listing space fuel b)

theorem listing_nil (h : functions space b = []) : listing space fuel b = [] := by
  cases fuel with
  | zero => rfl
  | succ fuel => rw [listing_succ, h, List.flatMap_nil]

/-- Nothing is listed behind a multifunction bridge. -/
theorem Uniform.behind_nil (huniform : Uniform space b i) (hmulti : Multifunction space b i) :
    (if (Address.registers space ⟨b, i, 0⟩).isBridge then
      listing space fuel (Address.secondary space ⟨b, i, 0⟩) else []) = [] := by
  split_ifs with hbridge
  · exact listing_nil ((huniform hmulti).2 hbridge 0 (by decide))
  · rfl

section Search
variable {search : ℕ → Devices → Option Devices} (ht : IsTree space)
  (hreach : Reachable space b) (hfuel : Enough space (fuel + 1) b)
  (hsearch : ∀ b', Reachable space b' → b' ≠ 0 → Enough space fuel b' →
    Searches space fuel b' (search b'))

include ht hreach hfuel hsearch in
/-- The search behind function 0 of a slot. -/
theorem searches_secondary (hfun : IsFunction space ⟨b, i, 0⟩) {d : Device}
    (hd : d.toRegisters = Address.registers space ⟨b, i, 0⟩)
    (htotal : listing space 256 0 = pre ++ (if d.isBridge then
      listing space fuel (Address.secondary space ⟨b, i, 0⟩) else []) ++ suf)
    (hds : ds.Holds space pre) :
    ∃ ds', (if d.isBridge then search (secondaryBus space b i 0) ds else some ds) = some ds' ∧
      ds'.Holds space (pre ++ if d.isBridge then
        listing space fuel (Address.secondary space ⟨b, i, 0⟩) else []) := by
  by_cases hbridge : d.isBridge = true
  · rw [if_pos hbridge] at htotal
    rw [if_pos hbridge, if_pos hbridge]
    have hedge : IsBridge space ⟨b, i, 0⟩ := ⟨hfun, by rw [← hd]; exact hbridge⟩
    have hbus : Reachable space (Address.mk b i 0).bus := hreach
    exact hsearch _ (hbus.step hedge) (ht.root _ hbus hedge) (hfuel.bridge ht hedge hbus) ds pre suf
      htotal hds
  · rw [if_neg hbridge, if_neg hbridge, List.append_nil]
    exact ⟨ds, rfl, hds⟩

include ht hreach hfuel hsearch in
/-- The other functions of a slot. -/
theorem searchFunctions_holds (hfun : IsFunction space ⟨b, i, 0⟩) (hmulti : Multifunction space b i)
    (huniform : Uniform space b i)
    (htotal : listing space 256 0 = pre ++ (List.range' 1 7).map (Address.mk b i) ++ suf)
    (hds : ds.Holds space pre) :
    ∃ ds', (List.range' 1 7).foldlM (searchFunction space search b i) ds = some ds' ∧
      ds'.Holds space (pre ++ (List.range' 1 7).map (Address.mk b i)) := by
  obtain ⟨hsame, -⟩ := huniform hmulti
  rw [List.map_eq_flatMap] at htotal ⊢
  refine foldlM_holds ?_ htotal hds
  intro j hj ds pre suf htotal hds
  rw [List.mem_range'_1] at hj
  have hown : (Device.new space b i j).Own space := (hsame j hj.1 hj.2).2.symm
  have hds' : (ds.emplaceBack (Device.new space b i j)).Holds space (pre ++ [⟨b, i, j⟩]) :=
    hds.emplaceBack rfl hown
  have hempty : (if (Device.new space b i j).isBridge then
      listing space fuel (Address.secondary space ⟨b, i, 0⟩) else []) = [] :=
    huniform.behind_nil hmulti
  have hsub : listing space 256 0 = pre ++ [⟨b, i, j⟩] ++ (if (Device.new space b i j).isBridge then
      listing space fuel (Address.secondary space ⟨b, i, 0⟩) else []) ++ suf := by
    rw [hempty, List.append_nil]
    exact htotal
  obtain ⟨ds', hrun, hheld⟩ := searches_secondary ht hreach hfuel hsearch hfun rfl hsub hds'
  rw [hempty, List.append_nil] at hheld
  refine ⟨ds', ?_, hheld⟩
  have hfirst : readDeviceVendor space b i 0 ≠ 0xffffffff#32 := hfun.present
  rw [searchFunction, if_pos hfirst]
  exact hrun

/-- The functions of a slot with those behind them, when the other functions are as the code
takes them to be. -/
theorem flatMap_visit_uniform (hfun : IsFunction space ⟨b, i, 0⟩) (hmulti : Multifunction space b i)
    (huniform : Uniform space b i) :
    (slotFunctions space b i).flatMap (visit space fuel) =
      ⟨b, i, 0⟩ :: (List.range' 1 7).map (Address.mk b i) := by
  obtain ⟨hsame, hnone⟩ := huniform hmulti
  have hfilter : ((List.range' 1 7).map (Address.mk b i)).filter
      (fun a => Multifunction space b i ∧ Present space a) = (List.range' 1 7).map (Address.mk b i) := by
    refine List.filter_eq_self.mpr fun a ha => ?_
    obtain ⟨j, hj, rfl⟩ := List.mem_map.mp ha
    rw [List.mem_range'_1] at hj
    exact decide_eq_true ⟨hmulti, (hsame j hj.1 hj.2).1⟩
  have hvisit : ∀ j < 8, visit space fuel ⟨b, i, j⟩ = [⟨b, i, j⟩] := by
    intro j hj
    have hregs : Address.registers space ⟨b, i, j⟩ = Address.registers space ⟨b, i, 0⟩ := by
      rcases Nat.eq_zero_or_pos j with rfl | hpos
      · rfl
      · exact (hsame j hpos hj).2
    rw [visit, hregs]
    split_ifs with hbridge
    · rw [listing_nil (hnone hbridge j hj)]
    · rfl
  rw [slotFunctions, if_pos hfun.present, hfilter, List.flatMap_cons, hvisit 0 (by decide),
    List.flatMap_map]
  have hrest : (List.range' 1 7).flatMap (fun j => visit space fuel (Address.mk b i j)) =
      (List.range' 1 7).map (Address.mk b i) := by
    rw [List.map_eq_flatMap]
    refine List.flatMap_congr fun j hj => ?_
    rw [List.mem_range'_1] at hj
    exact hvisit j hj.2
  rw [hrest]
  rfl

include ht hreach hfuel hsearch in
/-- One slot. -/
theorem searchSlot_holds (hi : i < 32) (huniform : Present space ⟨b, i, 0⟩ → Uniform space b i)
    (hhost : (⟨b, i, 0⟩ : Address) ≠ host) (hsteady : Steady space)
    (htotal : listing space 256 0 =
      pre ++ (slotFunctions space b i).flatMap (visit space fuel) ++ suf)
    (hds : ds.Holds space pre) :
    ∃ ds', searchSlot space search b i ds = some ds' ∧
      ds'.Holds space (pre ++ (slotFunctions space b i).flatMap (visit space fuel)) := by
  by_cases hpresent : Present space ⟨b, i, 0⟩
  · have hfun := isFunction_zero hi hpresent
    have hds₁ : (ds.emplaceBack (Device.new space b i 0)).Holds space (pre ++ [⟨b, i, 0⟩]) :=
      hds.emplaceBack rfl rfl
    have hfirst : readDeviceVendor space b i 0 ≠ 0xffffffff#32 := hpresent
    rw [searchSlot, if_pos hfirst]
    by_cases hmulti : Multifunction space b i
    · -- The bus behind a multifunction bridge is empty.
      have hempty : (if (Device.new space b i 0).isBridge then
          listing space fuel (Address.secondary space ⟨b, i, 0⟩) else []) = [] :=
        (huniform hpresent).behind_nil hmulti
      rw [flatMap_visit_uniform hfun hmulti (huniform hpresent)] at htotal ⊢
      rw [List.append_cons] at htotal ⊢
      have hsub : listing space 256 0 = pre ++ [⟨b, i, 0⟩] ++
          (if (Device.new space b i 0).isBridge then
            listing space fuel (Address.secondary space ⟨b, i, 0⟩) else []) ++
          ((List.range' 1 7).map (Address.mk b i) ++ suf) := by
        rw [hempty, List.append_nil, ← List.append_assoc]
        exact htotal
      obtain ⟨ds₂, hrun, hds₂⟩ := searches_secondary ht hreach hfuel hsearch hfun rfl hsub hds₁
      rw [hempty, List.append_nil] at hds₂
      obtain ⟨ds₃, hrest, hds₃⟩ := searchFunctions_holds ht hreach hfuel hsearch hfun hmulti
        (huniform hpresent) htotal hds₂
      refine ⟨ds₃, ?_, hds₃⟩
      have hsize : ds₂.buffSize = (ds.emplaceBack (Device.new space b i 0)).buffSize :=
        hds₂.buffSize.trans hds₁.buffSize.symm
      have hmulti' : (Device.new space b i 0).multifunction ≠ 0 := hmulti
      dsimp only
      rw [hrun, Option.bind_some, if_neg (not_not.mpr hsize), if_pos hmulti']
      exact hrest
    · rw [slotFunctions_single hpresent hmulti, List.flatMap_singleton, visit,
        List.append_cons] at htotal ⊢
      have hsub : listing space 256 0 = pre ++ [⟨b, i, 0⟩] ++
          (if (Device.new space b i 0).isBridge then
            listing space fuel (Address.secondary space ⟨b, i, 0⟩) else []) ++ suf := htotal
      obtain ⟨ds₂, hrun, hds₂⟩ := searches_secondary ht hreach hfuel hsearch hfun rfl hsub hds₁
      refine ⟨ds₂, ?_, hds₂⟩
      have hsize : ds₂.buffSize = (ds.emplaceBack (Device.new space b i 0)).buffSize := by
        rw [hds₂.buffSize, hds₁.buffSize, List.length_append, List.length_append,
          List.length_singleton]
        split_ifs at hsub ⊢ with hbridge
        · have hedge : IsBridge space ⟨b, i, 0⟩ := ⟨hfun, hbridge⟩
          have hbus : Reachable space (Address.mk b i 0).bus := hreach
          refine hsteady pre _ _ suf (by rw [hsub, List.append_assoc pre, List.singleton_append])
            hhost rfl hedge fun x hx => ?_
          exact ((mem_listing ht (hbus.step hedge) (hfuel.bridge ht hedge hbus)).mp hx).1
        · rfl
      have hmulti' : ¬ (Device.new space b i 0).multifunction ≠ 0 := hmulti
      dsimp only
      rw [hrun, Option.bind_some, if_neg (not_not.mpr hsize), if_neg hmulti']
  · have hslot : slotFunctions space b i = [] := if_neg hpresent
    have hfirst : ¬ readDeviceVendor space b i 0 ≠ 0xffffffff#32 := hpresent
    rw [hslot, List.flatMap_nil, List.append_nil, searchSlot, if_neg hfirst]
    exact ⟨ds, rfl, hds⟩

end Search

/-! ## The machine -/

section Machine
variable (ht : IsTree space) (huniform : ∀ b, Reachable space b → ∀ i < 32,
  Present space ⟨b, i, 0⟩ → Uniform space b i) (hsteady : Steady space)

include ht huniform hsteady

theorem searches_searchBus (hreach : Reachable space b) (hne : b ≠ 0)
    (hfuel : Enough space fuel b) : Searches space fuel b (searchBus space fuel b 0) := by
  induction fuel generalizing b with
  | zero => exact absurd hfuel.pos (Nat.lt_irrefl 0)
  | succ fuel ih =>
    intro ds pre suf htotal hds
    rw [listing_slots fuel b] at htotal ⊢
    rw [searchBus, ← List.range_eq_range']
    refine foldlM_holds ?_ htotal hds
    intro i hi ds pre suf htotal hds
    have hi' := List.mem_range.mp hi
    exact searchSlot_holds ht hreach hfuel (fun b' hb' hne' hf' => ih hb' hne' hf') hi'
      (huniform b hreach i hi') (fun heq => hne (Address.mk.inj heq).1) hsteady htotal hds

end Machine

theorem Devices.holds_empty : Devices.empty.Holds space [] :=
  ⟨rfl, fun _ hd => absurd hd List.not_mem_nil, rfl⟩

/-- The host bridge is the first device, with the right registers. -/
theorem holds_host : (Devices.empty.emplaceBack (Device.new space 0 0 0)).Holds space [host] :=
  Devices.holds_empty.emplaceBack rfl rfl

/-- The host bridge is the first function, with nothing behind it. -/
theorem listing_host (hhost : Present space host) (hmulti : ¬ Multifunction space 0 0)
    (hbehind : (host.registers space).isBridge = true →
      functions space (host.secondary space) = []) :
    listing space 256 0 = [host] ++ (List.range' 1 31).flatMap fun i =>
      (slotFunctions space 0 i).flatMap (visit space 255) := by
  have hslot : slotFunctions space 0 0 = [host] := slotFunctions_single hhost hmulti
  have hvisit : visit space 255 host = [host] := by
    rw [visit]
    split_ifs with hbridge
    · rw [listing_nil (hbehind hbridge)]
    · rfl
  rw [listing_slots, List.range_eq_range', List.range'_succ, List.flatMap_cons, hslot,
    List.flatMap_singleton, hvisit]

/-- The slots behind the host bridge. -/
theorem init_holds (ht : IsTree space) (hs : Searchable space) (hmulti : ¬ Multifunction space 0 0) :
    ∃ ds, init space = some ds ∧ ds.Holds space (listing space 256 0) := by
  have hlisting := listing_host hs.host hmulti (hs.behind hmulti)
  have hstep : ∀ i ∈ List.range' 1 31, ∀ ds pre suf, listing space 256 0 =
      pre ++ (slotFunctions space 0 i).flatMap (visit space 255) ++ suf → ds.Holds space pre →
      ∃ ds', searchSlot space (fun bus => searchBus space 255 bus 0) 0 i ds = some ds' ∧
        ds'.Holds space (pre ++ (slotFunctions space 0 i).flatMap (visit space 255)) := by
    intro i hi ds pre suf htotal hds
    rw [List.mem_range'_1] at hi
    have hi' : i < 32 := by omega
    have hfuel : Enough space (255 + 1) 0 := enough_root
    refine searchSlot_holds ht .refl hfuel ?_ hi' (hs.uniform hmulti 0 .refl i hi') ?_
      (hs.steady hmulti) htotal hds
    · intro b' hb' hne' hfuel'
      exact searches_searchBus ht (hs.uniform hmulti) (hs.steady hmulti) hb' hne' hfuel'
    · intro heq
      exact absurd (Address.mk.inj heq).2.1 (Nat.pos_iff_ne_zero.mp hi.1)
  obtain ⟨ds, hrun, hds⟩ := foldlM_holds hstep (hlisting.trans (List.append_nil _).symm) holds_host
  have hmulti' : ¬ (Device.new space 0 0 0).multifunction ≠ 0 := hmulti
  refine ⟨ds, ?_, ?_⟩
  · rw [init, if_neg hmulti', searchBus]
    exact hrun
  · rw [hlisting]
    exact hds

theorem findsAll_of_searchable (ht : IsTree space) (hs : Searchable space) : FindsAll space := by
  by_cases hmulti : Multifunction space 0 0
  · have hmulti' : (Device.new space 0 0 0).multifunction ≠ 0 := hmulti
    have hfirst : readDeviceVendor space 0 0 0 ≠ 0xffffffff#32 := hs.host
    refine ⟨Devices.empty.emplaceBack (Device.new space 0 0 0), ?_, ?_⟩
    · rw [init, if_pos hmulti', List.range_succ_eq_map, searchHosts, if_pos hfirst]
    · have hheld : (Devices.empty.emplaceBack (Device.new space 0 0 0)).Holds space [host] :=
        holds_host
      rw [hheld.address]
      refine ⟨List.nodup_singleton host, fun a => ?_, hheld.own⟩
      rw [List.mem_singleton]
      constructor
      · rintro rfl
        exact ⟨.refl, by decide, by decide, hs.host, fun hne => absurd rfl hne, hs.host⟩
      · intro ha
        exact hs.alone hmulti a ha.1 ha.2
  · obtain ⟨ds, hrun, hds⟩ := init_holds ht hs hmulti
    refine ⟨ds, hrun, ?_, fun a => ?_, hds.own⟩
    · rw [hds.address]
      exact nodup_listing ht .refl enough_root
    · rw [hds.address]
      exact mem_listing ht .refl enough_root

end Cantos.Pci
