import Cantos.Hw.Pci
import Cantos.Lib.Depth
import Mathlib.Data.Finset.Prod
import Mathlib.Tactic.SplitIfs

/-!
# The recursion of the enumeration

`_search_bus` calls itself for the bus behind every bridge, however often it has been searched
or is being searched.  So it ends exactly where no bus is behind itself.

A device that is read after the search behind it may have been moved.  Here it is read
nonetheless: `stale` is what the read returns, from memory that was given back.

## Main definitions

* `visitBus`, `enumerate`: the search, up to a depth.
* `Calls`: the calls that a call makes.
* `Ends`: the recursion that `pci::init` starts ends.

## Main results

* `enumerate_eq_of_init`: where no device is moved, the search is that of `init`.
-/

namespace Cantos.Pci

open Relation

section Visit
variable (space : Space) (stale : ℕ → ℕ → Devices → BitVec 8)
  (search : ℕ → Devices → Option Devices) (bus i : ℕ)

/-- The body of the loop over the slots; without a result when `search` has none. -/
def visitSlot (ds : Devices) : Option Devices :=
  if readDeviceVendor space bus i 0 ≠ 0xffffffff#32 then
    let device := Device.new space bus i 0
    let ds := ds.emplaceBack device
    let buffSize := ds.buffSize
    (if device.isBridge then search (secondaryBus space bus i 0) ds else some ds).bind fun ds =>
      -- `device` is a reference into the buffer of the time of its `emplace_back`.
      let multifunction := if ds.buffSize ≠ buffSize then stale bus i ds else device.multifunction
      if multifunction ≠ 0 then (List.range' 1 7).foldlM (searchFunction space search bus i) ds
      else some ds
  else some ds

/-- `_search_bus`, without a result when more than `depth` calls are nested. -/
def visitBus : (depth : ℕ) → (bus start : ℕ) → Devices → Option Devices
  | 0, _, _, _ => none
  | depth + 1, bus, start, ds =>
      (List.range' start (32 - start)).foldlM
        (fun ds i => visitSlot space stale (fun bus => visitBus depth bus 0) bus i ds) ds

/-- The loop of `init` over the functions of the host bridge. -/
def visitHosts (depth : ℕ) : (fns : List ℕ) → Devices → Option Devices
  | [], ds => some ds
  | fn :: fns, ds =>
      if readDeviceVendor space 0 0 fn ≠ 0xffffffff#32 then some ds
      else (visitBus space stale depth fn (if fn = 0 then 1 else 0) ds).bind (visitHosts depth fns)

/-- The search of `init`. -/
def enumerate (depth : ℕ) : Option Devices :=
  let device := Device.new space 0 0 0
  let ds := Devices.empty.emplaceBack device
  if device.multifunction ≠ 0 then visitHosts space stale depth (List.range 8) ds
  else visitBus space stale depth 0 1 ds

/-- The recursion ends: the calls are nested to some depth only. -/
def Ends : Prop := ∃ depth, (enumerate space stale depth).isSome

/-- There is a bridge in a slot. -/
def SlotBridge (bus i : ℕ) : Prop :=
  readDeviceVendor space bus i 0 ≠ 0xffffffff#32 ∧ (registers space bus i 0).isBridge = true

instance (bus i : ℕ) : Decidable (SlotBridge space bus i) := inferInstanceAs (Decidable (_ ∧ _))

/-- The calls that a call for a bus and a slot to start at makes. -/
def Calls (x y : ℕ × ℕ) : Prop :=
  ∃ i, x.2 ≤ i ∧ i < 32 ∧ SlotBridge space x.1 i ∧ y = (secondaryBus space x.1 i 0, 0)

/-- The calls that the loop over the functions of the host bridge makes. -/
def hostStarts (fns : List ℕ) : List (ℕ × ℕ) :=
  (fns.takeWhile fun fn => readDeviceVendor space 0 0 fn = 0xffffffff#32).map fun fn =>
    (fn, if fn = 0 then 1 else 0)

/-- The calls that `init` makes. -/
def starts : List (ℕ × ℕ) :=
  if (Device.new space 0 0 0).multifunction ≠ 0 then hostStarts space (List.range 8) else [(0, 1)]

end Visit

variable {space : Space} {stale : ℕ → ℕ → Devices → BitVec 8}
  {search : ℕ → Devices → Option Devices} {bus start i depth : ℕ} {ds : Devices} {P : ℕ → Prop}

/-- A loop gets through when every round does, whatever the devices are. -/
theorem isSome_foldlM_iff {l : List ℕ} {g : Devices → ℕ → Option Devices}
    (h : ∀ x ∈ l, ∀ ds, (g ds x).isSome ↔ P x) (ds : Devices) :
    (l.foldlM g ds).isSome ↔ ∀ x ∈ l, P x := by
  induction l generalizing ds with
  | nil => simp
  | cons x l ih =>
    rw [List.foldlM_cons, List.forall_mem_cons, ← h x List.mem_cons_self ds]
    cases hx : g ds x with
    | none => simp
    | some ds' => simpa using ih (fun y hy => h y (List.mem_cons_of_mem x hy)) ds'

theorem isSome_bind_iff {x : Option Devices} {f : Devices → Option Devices} {Q : Prop}
    (hx : x.isSome ↔ Q) (hf : Q → ∀ ds, (f ds).isSome) : (x.bind f).isSome ↔ Q := by
  cases x with
  | none => exact hx
  | some ds => exact ⟨fun _ => hx.mp rfl, fun hQ => hf hQ ds⟩

section Search
variable (h : ∀ c ds, (search c ds).isSome ↔ P c)

include h

theorem isSome_searchFunction_iff (j : ℕ) (ds : Devices) :
    (searchFunction space search bus i ds j).isSome ↔
      (SlotBridge space bus i → P (secondaryBus space bus i 0)) := by
  rw [searchFunction]
  by_cases hpresent : readDeviceVendor space bus i 0 = 0xffffffff#32
  · simp [SlotBridge, hpresent]
  · by_cases hbridge : (registers space bus i 0).isBridge = true
    · simp [SlotBridge, hpresent, hbridge, Device.new, h]
    · simp [SlotBridge, hpresent, hbridge, Device.new]

/-- The calls from a slot are all for the bus behind its function 0. -/
theorem isSome_visitSlot_iff (ds : Devices) :
    (visitSlot space stale search bus i ds).isSome ↔
      (SlotBridge space bus i → P (secondaryBus space bus i 0)) := by
  rw [visitSlot]
  by_cases hpresent : readDeviceVendor space bus i 0 = 0xffffffff#32
  · simp [SlotBridge, hpresent]
  · rw [if_pos hpresent]
    refine isSome_bind_iff ?_ fun hP ds => ?_
    · by_cases hbridge : (registers space bus i 0).isBridge = true
      · simp [SlotBridge, hpresent, hbridge, Device.new, h]
      · simp [SlotBridge, hpresent, hbridge, Device.new]
    · -- Whether there are more functions makes no difference.
      have hmore := (isSome_foldlM_iff (fun j _ => isSome_searchFunction_iff h j) ds).mpr
        fun j (_ : j ∈ List.range' 1 7) => hP
      simp only
      split_ifs
      all_goals first | exact hmore | rfl

end Search

/-- A search ends when the calls it makes are nested deep enough. -/
theorem isSome_visitBus_iff : (visitBus space stale depth bus start ds).isSome ↔
    Depth.Within (Calls space) depth (bus, start) := by
  induction depth generalizing bus start ds with
  | zero => simp [visitBus, Depth.Within]
  | succ depth ih =>
    have hround : ∀ i ∈ List.range' start (32 - start), ∀ ds,
        (visitSlot space stale (fun bus => visitBus space stale depth bus 0) bus i ds).isSome ↔
          (SlotBridge space bus i →
            Depth.Within (Calls space) depth (secondaryBus space bus i 0, 0)) :=
      fun i _ ds => @isSome_visitSlot_iff _ _ _ _ _
        (fun c => Depth.Within (Calls space) depth (c, 0)) (fun c ds => ih) ds
    rw [visitBus, Depth.Within, isSome_foldlM_iff hround]
    constructor
    · rintro h y ⟨i, hstart, hi, hbridge, rfl⟩
      exact h i (List.mem_range'_1.mpr ⟨hstart, by omega⟩) hbridge
    · intro h i hi hbridge
      rw [List.mem_range'_1] at hi
      exact h _ ⟨i, hi.1, by omega, hbridge, rfl⟩

theorem isSome_visitHosts_iff {fns : List ℕ} : (visitHosts space stale depth fns ds).isSome ↔
    ∀ x ∈ hostStarts space fns, Depth.Within (Calls space) depth x := by
  induction fns generalizing ds with
  | nil => simp [visitHosts, hostStarts]
  | cons fn fns ih =>
    rw [visitHosts, hostStarts]
    by_cases hpresent : readDeviceVendor space 0 0 fn = 0xffffffff#32
    · rw [if_neg (not_not.mpr hpresent), List.takeWhile_cons_of_pos (by simpa using hpresent),
        List.map_cons, List.forall_mem_cons, ← isSome_visitBus_iff]
      cases hvisit : visitBus space stale depth fn (if fn = 0 then 1 else 0) ds with
      | none => simp
      | some ds' => simpa [hostStarts] using ih
    · rw [if_pos hpresent, List.takeWhile_cons_of_neg (by simpa using hpresent)]
      simp

theorem isSome_enumerate_iff : (enumerate space stale depth).isSome ↔
    ∀ x ∈ starts space, Depth.Within (Calls space) depth x := by
  rw [enumerate, starts]
  split_ifs
  · exact isSome_visitHosts_iff
  · rw [isSome_visitBus_iff, List.forall_mem_singleton]

theorem Calls.snd {x y : ℕ × ℕ} (h : Calls space x y) : y.1 < 2 ^ 8 ∧ y.2 = 0 := by
  obtain ⟨i, -, -, -, rfl⟩ := h
  exact ⟨BitVec.isLt _, rfl⟩

/-- There is a call for every bus only. -/
theorem exists_calls_mem (space : Space) :
    ∃ S : Finset (ℕ × ℕ), ∀ x y, Calls space x y → y ∈ S := by
  refine ⟨Finset.range (2 ^ 8) ×ˢ {0}, fun x y h => ?_⟩
  rw [Finset.mem_product, Finset.mem_range, Finset.mem_singleton]
  exact h.snd

/-- **The recursion ends** exactly when no call that `init` leads to leads to itself. -/
theorem ends_iff (space : Space) (stale : ℕ → ℕ → Devices → BitVec 8) :
    Ends space stale ↔ ∀ x ∈ starts space, Depth.Acyclic (Calls space) x := by
  constructor
  · rintro ⟨depth, h⟩ x hx
    exact (isSome_enumerate_iff.mp h x hx).acyclic
  · intro h
    obtain ⟨S, hS⟩ := exists_calls_mem space
    exact ⟨S.card + 2, isSome_enumerate_iff.mpr fun x hx => Depth.within_of_acyclic hS (h x hx)⟩

/-! ## The search that stops at a moved device -/

section Moved
variable {search' : ℕ → Devices → Option Devices} {ds' : Devices}

/-- Rounds with the same results make loops with the same result. -/
theorem foldlM_mono {l : List ℕ} {f g : Devices → ℕ → Option Devices}
    (h : ∀ ds x ds', f ds x = some ds' → g ds x = some ds') (hf : l.foldlM f ds = some ds') :
    l.foldlM g ds = some ds' := by
  induction l generalizing ds with
  | nil => exact hf
  | cons x l ih =>
    rw [List.foldlM_cons] at hf ⊢
    obtain ⟨ds₁, hx, hl⟩ := Option.bind_eq_some_iff.mp hf
    rw [h ds x ds₁ hx]
    exact ih hl

theorem searchFunction_mono (h : ∀ c ds ds', search c ds = some ds' → search' c ds = some ds')
    (j : ℕ) (hf : searchFunction space search bus i ds j = some ds') :
    searchFunction space search' bus i ds j = some ds' := by
  rw [searchFunction] at hf ⊢
  split_ifs at hf ⊢ with hpresent
  · simp only at hf ⊢
    split_ifs at hf ⊢
    · exact h _ _ _ hf
    · exact hf
  · exact hf

/-- Where no device is moved before it is read, what is read does not depend on `stale`. -/
theorem visitSlot_eq_of_searchSlot
    (h : ∀ c ds ds', search c ds = some ds' → search' c ds = some ds')
    (hs : searchSlot space search bus i ds = some ds') :
    visitSlot space stale search' bus i ds = some ds' := by
  rw [searchSlot] at hs
  rw [visitSlot]
  split_ifs at hs ⊢ with hpresent
  · simp only at hs ⊢
    obtain ⟨ds₁, hfirst, hrest⟩ := Option.bind_eq_some_iff.mp hs
    refine Option.bind_eq_some_iff.mpr ⟨ds₁, ?_, ?_⟩
    · split_ifs at hfirst ⊢
      · exact h _ _ _ hfirst
      · exact hfirst
    · split_ifs at hrest ⊢ with hmoved
      · exact foldlM_mono (fun ds j ds' hj => searchFunction_mono h j hj) hrest
      · exact hrest
  · exact hs

theorem visitBus_eq_of_searchBus (hs : searchBus space depth bus start ds = some ds') :
    visitBus space stale depth bus start ds = some ds' := by
  induction depth generalizing bus start ds ds' with
  | zero => cases hs
  | succ depth ih =>
    rw [searchBus] at hs
    rw [visitBus]
    exact foldlM_mono (fun ds i ds' hi => visitSlot_eq_of_searchSlot (fun c ds ds' => ih) hi) hs

theorem visitHosts_eq_of_searchHosts {fns : List ℕ}
    (hs : searchHosts space depth fns ds = some ds') :
    visitHosts space stale depth fns ds = some ds' := by
  induction fns generalizing ds with
  | nil => exact hs
  | cons fn fns ih =>
    rw [searchHosts] at hs
    rw [visitHosts]
    by_cases hpresent : readDeviceVendor space 0 0 fn = 0xffffffff#32
    · rw [if_neg (not_not.mpr hpresent)] at hs ⊢
      obtain ⟨ds₁, hbus, hrest⟩ := Option.bind_eq_some_iff.mp hs
      exact Option.bind_eq_some_iff.mpr ⟨ds₁, visitBus_eq_of_searchBus hbus, ih hrest⟩
    · rw [if_pos hpresent] at hs ⊢
      exact hs

/-- An enumeration that reads no moved device ends, with the same devices. -/
theorem enumerate_eq_of_init (h : init space = some ds) :
    enumerate space stale 256 = some ds := by
  unfold init at h
  unfold enumerate
  by_cases hmulti : (Device.new space 0 0 0).multifunction = 0
  · simp only [hmulti, ne_eq, not_true_eq_false, if_false] at h ⊢
    exact visitBus_eq_of_searchBus h
  · simp only [hmulti, ne_eq, not_false_eq_true, if_true] at h ⊢
    exact visitHosts_eq_of_searchHosts h

end Moved

/-! ## A bridge to its own bus -/

/-- The host bridge, and a bridge in the slot 1 whose secondary bus is not set. -/
def unconfigured : Space := fun a =>
  if a / 0x800 = 0x80000000 / 0x800 ∨ a / 0x800 = 0x80000800 / 0x800 then
    if a % 0x100 = 0 then 0x29c08086#32 else if a = 0x80000808 then 0x06040000#32 else 0
  else 0xffffffff#32

theorem not_ends_unconfigured : ¬ ∀ space stale, Ends space stale := by
  intro hall
  obtain ⟨depth, h⟩ := hall unconfigured fun _ _ _ => 0
  have hstart : (0, 1) ∈ starts unconfigured := by decide
  have hbridge : SlotBridge unconfigured 0 1 := by decide
  have hsecondary : secondaryBus unconfigured 0 1 0 = 0 := by decide
  have hfirst : Calls unconfigured (0, 1) (0, 0) :=
    ⟨1, Nat.le_refl 1, by decide, hbridge, by rw [hsecondary]⟩
  have hagain : Calls unconfigured (0, 0) (0, 0) :=
    ⟨1, Nat.zero_le 1, by decide, hbridge, by rw [hsecondary]⟩
  exact (isSome_enumerate_iff.mp h _ hstart).acyclic (0, 0) (.single hfirst) (.single hagain)

end Cantos.Pci
