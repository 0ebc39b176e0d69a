import Cantos.Hw.Pci
import Cantos.Lib.Tree
import Mathlib.Data.List.Nodup
import Mathlib.Data.Finset.Card
import Mathlib.Tactic.SplitIfs

/-!
# The functions of a machine

What there is to be found on the PCI bus: the functions of the buses that can be reached from
the bus 0 over bridges, where these form a tree.

## Main definitions

* `IsFunction`: a function that is there.
* `Reachable`, `Tree`
* `listing`: all functions, bus by bus in the order of the tree.
-/

namespace Cantos.Pci

/-- The place of a function. -/
structure Address where
  bus : ℕ
  slot : ℕ
  function : ℕ
  deriving DecidableEq, Repr

/-- The host bridge. -/
def host : Address := ⟨0, 0, 0⟩

section
variable (space : Space)

/-- The vendor register is there. -/
def Present (a : Address) : Prop :=
  readDeviceVendor space a.bus a.slot a.function ≠ 0xffffffff#32

instance (a : Address) : Decidable (Present space a) := inferInstanceAs (Decidable (_ ≠ _))

/-- The function 0 of a slot reports more functions. -/
def Multifunction (bus slot : ℕ) : Prop := get8 space bus slot 0 0x0e &&& 0x80#8 ≠ 0

instance (bus slot : ℕ) : Decidable (Multifunction space bus slot) :=
  inferInstanceAs (Decidable (_ ≠ _))

/-- A function that is there; other functions than 0 are only where function 0 reports them. -/
structure IsFunction (a : Address) : Prop where
  slot : a.slot < 32
  function : a.function < 8
  first : Present space ⟨a.bus, a.slot, 0⟩
  reported : a.function ≠ 0 → Multifunction space a.bus a.slot
  present : Present space a

def Address.registers (a : Address) : Registers := Pci.registers space a.bus a.slot a.function

/-- The bus behind a bridge. -/
def Address.secondary (a : Address) : ℕ := secondaryBus space a.bus a.slot a.function

/-- A function that is a bridge. -/
def IsBridge (a : Address) : Prop := IsFunction space a ∧ (a.registers space).isBridge = true

/-- The buses that can be reached from a bus over bridges. -/
def Under (b : ℕ) : ℕ → Prop :=
  Tree.Under Address.bus (Address.secondary space) (IsBridge space) b

def Reachable (b : ℕ) : Prop := Under space 0 b

/-- The bridges form a tree: no bus is behind two of them, and the bus 0 behind none. -/
def IsTree : Prop :=
  Tree.IsTree Address.bus (Address.secondary space) (IsBridge space) 0

/-- The functions in a slot. -/
def slotFunctions (b i : ℕ) : List Address :=
  if Present space ⟨b, i, 0⟩ then
    ⟨b, i, 0⟩ :: ((List.range' 1 7).map (Address.mk b i)).filter fun a =>
      Multifunction space b i ∧ Present space a
  else []

/-- The functions on a bus. -/
def functions (b : ℕ) : List Address := (List.range 32).flatMap (slotFunctions space b)

/-- The functions on a bus, each bridge followed by those behind it. -/
def listing : (fuel : ℕ) → (b : ℕ) → List Address
  | 0, _ => []
  | fuel + 1, b => (functions space b).flatMap fun a =>
      a :: if (a.registers space).isBridge then listing fuel (a.secondary space) else []

/-- A function followed by those behind it. -/
def visit (fuel : ℕ) (a : Address) : List Address :=
  a :: if (a.registers space).isBridge then listing space fuel (a.secondary space) else []

end

variable {space : Space} {a a' : Address} {b c i fuel : ℕ}

theorem listing_succ (fuel b : ℕ) :
    listing space (fuel + 1) b = (functions space b).flatMap (visit space fuel) := rfl

theorem listing_slots (fuel b : ℕ) : listing space (fuel + 1) b =
    (List.range 32).flatMap fun i => (slotFunctions space b i).flatMap (visit space fuel) :=
  List.flatMap_assoc

theorem mem_slotFunctions : a ∈ slotFunctions space b i ↔
    a.bus = b ∧ a.slot = i ∧ a.function < 8 ∧ Present space ⟨b, i, 0⟩ ∧
      (a.function ≠ 0 → Multifunction space b i) ∧ Present space a := by
  obtain ⟨bus, slot, function⟩ := a
  rw [slotFunctions]
  split_ifs with hfirst
  · rw [List.mem_cons, List.mem_filter, List.mem_map, decide_eq_true_eq]
    constructor
    · rintro (heq | ⟨⟨j, hj, heq⟩, hmulti, hpresent⟩)
      · obtain ⟨rfl, rfl, rfl⟩ := Address.mk.inj heq
        exact ⟨rfl, rfl, Nat.succ_pos 7, hfirst, fun h => absurd rfl h, hfirst⟩
      · obtain ⟨rfl, rfl, rfl⟩ := Address.mk.inj heq
        rw [List.mem_range'_1] at hj
        exact ⟨rfl, rfl, hj.2, hfirst, fun _ => hmulti, hpresent⟩
    · rintro ⟨rfl, rfl, hlt, -, hmulti, hpresent⟩
      by_cases hzero : function = 0
      · exact .inl (by rw [hzero])
      · have hj : function ∈ List.range' 1 7 := by
          rw [List.mem_range'_1]
          exact ⟨Nat.pos_of_ne_zero hzero, hlt⟩
        exact .inr ⟨⟨function, hj, rfl⟩, hmulti hzero, hpresent⟩
  · exact iff_of_false List.not_mem_nil fun h => hfirst h.2.2.2.1

/-- A slot with one function. -/
theorem slotFunctions_single (hpresent : Present space ⟨b, i, 0⟩)
    (hmulti : ¬ Multifunction space b i) : slotFunctions space b i = [⟨b, i, 0⟩] := by
  rw [slotFunctions, if_pos hpresent]
  simp [hmulti]

theorem isFunction_zero (hi : i < 32) (hpresent : Present space ⟨b, i, 0⟩) :
    IsFunction space ⟨b, i, 0⟩ :=
  ⟨hi, Nat.succ_pos 7, hpresent, fun hne => absurd rfl hne, hpresent⟩

theorem mem_functions : a ∈ functions space b ↔ a.bus = b ∧ IsFunction space a := by
  rw [functions, List.mem_flatMap]
  constructor
  · rintro ⟨i, hi, hmem⟩
    obtain ⟨rfl, rfl, hlt, hfirst, hmulti, hpresent⟩ := mem_slotFunctions.mp hmem
    exact ⟨rfl, List.mem_range.mp hi, hlt, hfirst, hmulti, hpresent⟩
  · rintro ⟨rfl, h⟩
    exact ⟨a.slot, List.mem_range.mpr h.slot,
      mem_slotFunctions.mpr ⟨rfl, rfl, h.function, h.first, h.reported, h.present⟩⟩

theorem nodup_slotFunctions (space : Space) (b i : ℕ) : (slotFunctions space b i).Nodup := by
  rw [slotFunctions]
  split_ifs
  · have hmap : ((List.range' 1 7).map (Address.mk b i)).Nodup :=
      List.Nodup.map (fun j j' h => (Address.mk.inj h).2.2) List.nodup_range'
    refine List.nodup_cons.mpr ⟨fun hmem => ?_, hmap.filter _⟩
    obtain ⟨j, hj, heq⟩ := List.mem_map.mp (List.mem_of_mem_filter hmem)
    rw [(Address.mk.inj heq).2.2, List.mem_range'_1] at hj
    exact absurd hj.1 (by decide)
  · exact List.nodup_nil

theorem nodup_functions (space : Space) (b : ℕ) : (functions space b).Nodup := by
  rw [functions, List.nodup_flatMap]
  refine ⟨fun i _ => nodup_slotFunctions space b i, ?_⟩
  refine List.nodup_range.imp fun {i i'} hne a hi hi' => hne ?_
  exact (mem_slotFunctions.mp hi).2.1.symm.trans (mem_slotFunctions.mp hi').2.1

/-! ## The buses of a tree -/

theorem secondary_lt (a : Address) : a.secondary space < 256 := BitVec.isLt _

/-- There is fuel for every bus that is not on the way to `b`. -/
def Enough (space : Space) (fuel b : ℕ) : Prop :=
  ∃ path : List ℕ, path.Nodup ∧ (∀ p ∈ path, p < 256 ∧ Under space p b) ∧ 256 < fuel + path.length

theorem enough_root : Enough space 256 0 := by
  refine ⟨[0], List.nodup_singleton 0, fun p hp => ?_, by simp⟩
  rw [List.mem_singleton.mp hp]
  exact ⟨by decide, .refl⟩

theorem Enough.pos (h : Enough space fuel b) : 0 < fuel := by
  obtain ⟨path, hnodup, hpath, hlt⟩ := h
  have hsub : path.toFinset ⊆ Finset.range 256 := by
    intro p hp
    exact Finset.mem_range.mpr (hpath p (List.mem_toFinset.mp hp)).1
  have hcard := Finset.card_le_card hsub
  rw [List.toFinset_card_of_nodup hnodup, Finset.card_range] at hcard
  omega

section Tree
variable (ht : IsTree space)

include ht

/-- The bus behind a bridge is not on the way to the bridge. -/
theorem Enough.bridge (h : Enough space (fuel + 1) a.bus) (ha : IsBridge space a)
    (hreach : Reachable space a.bus) : Enough space fuel (a.secondary space) := by
  obtain ⟨path, hnodup, hpath, hlt⟩ := h
  refine ⟨a.secondary space :: path, List.nodup_cons.mpr ⟨fun hmem => ?_, hnodup⟩, ?_, ?_⟩
  · exact ht.not_under_src ha hreach (hpath _ hmem).2
  · intro p hp
    rcases List.mem_cons.mp hp with rfl | hp
    · exact ⟨secondary_lt a, .refl⟩
    · exact ⟨(hpath p hp).1, (hpath p hp).2.step ha⟩
  · rw [List.length_cons]
    omega

/-- The listing has the functions on all buses behind the bus. -/
theorem mem_listing (hreach : Reachable space b) (hfuel : Enough space fuel b) :
    a ∈ listing space fuel b ↔ Under space b a.bus ∧ IsFunction space a := by
  induction fuel generalizing b with
  | zero => exact absurd hfuel.pos (Nat.lt_irrefl 0)
  | succ fuel ih =>
    rw [listing_succ, List.mem_flatMap]
    constructor
    · rintro ⟨x, hx, hmem⟩
      obtain ⟨rfl, hfun⟩ := mem_functions.mp hx
      rw [visit, List.mem_cons] at hmem
      rcases hmem with rfl | hmem
      · exact ⟨.refl, hfun⟩
      · split_ifs at hmem with hbridge
        · have hedge : IsBridge space x := ⟨hfun, hbridge⟩
          have hsub := (ih (hreach.step hedge) (hfuel.bridge ht hedge hreach)).mp hmem
          exact ⟨(Tree.Under.refl.step hedge).trans hsub.1, hsub.2⟩
        · exact absurd hmem List.not_mem_nil
    · rintro ⟨hunder, hfun⟩
      rcases Tree.Under.head hunder with hbus | ⟨x, rfl, hedge, hsub⟩
      · exact ⟨a, mem_functions.mpr ⟨hbus, hfun⟩, List.mem_cons_self⟩
      · refine ⟨x, mem_functions.mpr ⟨rfl, hedge.1⟩, ?_⟩
        rw [visit, if_pos hedge.2]
        refine List.mem_cons_of_mem x ?_
        exact (ih (hreach.step hedge) (hfuel.bridge ht hedge hreach)).mpr ⟨hsub, hfun⟩

/-- What is visited from a function is the function or behind it. -/
theorem mem_visit {x : Address} (hreach : Reachable space x.bus)
    (hfuel : Enough space (fuel + 1) x.bus) (hx : IsFunction space x)
    (hmem : a ∈ visit space fuel x) :
    a = x ∨ IsBridge space x ∧ Under space (x.secondary space) a.bus := by
  rw [visit, List.mem_cons] at hmem
  rcases hmem with rfl | hmem
  · exact .inl rfl
  · split_ifs at hmem with hbridge
    · have hedge : IsBridge space x := ⟨hx, hbridge⟩
      exact .inr ⟨hedge,
        ((mem_listing ht (hreach.step hedge) (hfuel.bridge ht hedge hreach)).mp hmem).1⟩
    · exact absurd hmem List.not_mem_nil

/-- The listing has every function once. -/
theorem nodup_listing (hreach : Reachable space b) (hfuel : Enough space fuel b) :
    (listing space fuel b).Nodup := by
  induction fuel generalizing b with
  | zero => exact List.nodup_nil
  | succ fuel ih =>
    rw [listing_succ, List.nodup_flatMap]
    constructor
    · intro x hx
      obtain ⟨rfl, hfun⟩ := mem_functions.mp hx
      rw [visit]
      split_ifs with hbridge
      · have hedge : IsBridge space x := ⟨hfun, hbridge⟩
        have hreach' : Reachable space (x.secondary space) := hreach.step hedge
        have hfuel' := hfuel.bridge ht hedge hreach
        refine List.nodup_cons.mpr ⟨fun hmem => ?_, ih hreach' hfuel'⟩
        exact ht.not_under_src hedge hreach ((mem_listing ht hreach' hfuel').mp hmem).1
      · exact List.nodup_singleton x
    · -- What is behind two functions of one bus is separate.
      refine List.Pairwise.imp_of_mem ?_ (nodup_functions space b)
      intro x y hx hy hne a hax hay
      obtain ⟨rfl, hfunx⟩ := mem_functions.mp hx
      obtain ⟨hbus, hfuny⟩ := mem_functions.mp hy
      have hreachy : Reachable space y.bus := hbus.symm ▸ hreach
      rcases mem_visit ht hreach hfuel hfunx hax with rfl | ⟨hedgex, hunderx⟩
      · rcases mem_visit ht hreachy (hbus.symm ▸ hfuel) hfuny hay with rfl | ⟨hedgey, hundery⟩
        · exact hne rfl
        · exact ht.not_under_src hedgey hreachy (hbus.symm ▸ hundery)
      · rcases mem_visit ht hreachy (hbus.symm ▸ hfuel) hfuny hay with rfl | ⟨hedgey, hundery⟩
        · exact ht.not_under_src hedgex hreach (hbus ▸ hunderx)
        · exact hne (ht.eq_of_under hedgex hedgey hreach hbus.symm hunderx hundery)

end Tree

end Cantos.Pci
