import Cantos.Hw.Acpi
import Mathlib.Tactic.SplitIfs

/-!
# The search for the RSDP

The second word of the signature is compared in the wrong place by the search through the
EBDA: with the first word plus one.  So this search finds nothing, and `low_setup` finds the
RSDP where it is in the BIOS area.

## Main definitions

* `HasSignature`, `InEbda`, `InBios`
* `FindsRsdp`: what the two searches are for.
-/

namespace Cantos.Acpi

variable (mem : Memory)

/-- The signature of the RSDP is at an address. -/
def HasSignature (a : ℕ) : Prop := read32 mem a = rsdpSigA ∧ read32 mem (add32 a 4) = rsdpSigB

/-- The segment of the EBDA, in paragraphs of 16 bytes. -/
def ebdaSegment : BitVec 16 := read16 mem 0x40e

/-- A place for an RSDP in the first KiB of the EBDA. -/
def InEbda (a : ℕ) : Prop :=
  a % 16 = 0 ∧ 16 * (ebdaSegment mem).toNat ≤ a ∧ a < 16 * (ebdaSegment mem).toNat + 1024

/-- A place for an RSDP in the BIOS area. -/
def InBios (a : ℕ) : Prop := a % 16 = 0 ∧ 0xe0000 ≤ a ∧ a ≤ 0xfffff

/-- An RSDP is selected where there is one, and else ACPI is not found. -/
def FindsRsdp : Prop :=
  ((∃ a, (InEbda mem a ∨ InBios a) ∧ HasSignature mem a) →
      findRsdp mem ≠ 0 ∧ (InEbda mem (findRsdp mem) ∨ InBios (findRsdp mem)) ∧
        HasSignature mem (findRsdp mem)) ∧
    ((¬ ∃ a, (InEbda mem a ∨ InBios a) ∧ HasSignature mem a) →
      ∀ fuel low, lowSetup mem fuel low = .ok low.notFound)

instance (a : ℕ) : Decidable (HasSignature mem a) := inferInstanceAs (Decidable (_ ∧ _))

instance (a : ℕ) : Decidable (InEbda mem a) := inferInstanceAs (Decidable (_ ∧ _))

variable {mem} {test : ℕ → Bool} {top ptr rsdp fuel : ℕ}

/-- The loop goes over the addresses below `top` and ends with one of them that passes, if
there is one. -/
theorem searchRsdp_spec (htop : top + 16 ≤ 2 ^ 32) (hfuel : top ≤ ptr + 16 * fuel) :
    (∃ k, ptr + 16 * k < top ∧ test (ptr + 16 * k) = true ∧
        searchRsdp test top fuel ptr rsdp = ptr + 16 * k) ∨
      searchRsdp test top fuel ptr rsdp = rsdp ∧
        ∀ k, ptr + 16 * k < top → test (ptr + 16 * k) = false := by
  induction fuel generalizing ptr rsdp with
  | zero => exact .inr ⟨rfl, fun k hk => absurd hk (by omega)⟩
  | succ fuel ih =>
    rw [searchRsdp]
    by_cases hlt : ptr < top
    · have hadd : add32 ptr 16 = ptr + 16 := Nat.mod_eq_of_lt (by omega)
      rw [if_pos hlt, hadd]
      rcases @ih (ptr + 16) (if test ptr then ptr else rsdp) (by omega) with
        ⟨k, hk, htest, heq⟩ | ⟨heq, hnone⟩
      · have hnext : ptr + 16 + 16 * k = ptr + 16 * (k + 1) := by omega
        rw [hnext] at hk htest heq
        exact .inl ⟨k + 1, hk, htest, heq⟩
      · rw [heq]
        cases htest : test ptr with
        | true => exact .inl ⟨0, hlt, htest, rfl⟩
        | false =>
          refine .inr ⟨rfl, fun k hk => ?_⟩
          cases k with
          | zero => exact htest
          | succ k =>
            have hnext : ptr + 16 * (k + 1) = ptr + 16 + 16 * k := by omega
            rw [hnext] at hk ⊢
            exact hnone k hk
    · rw [if_neg hlt]
      exact .inr ⟨rfl, fun k hk => absurd hk (by omega)⟩

/-- The first byte of a word in memory. -/
theorem setWidth_read32 (mem : Memory) (a : ℕ) : (read32 mem a).setWidth 8 = mem a := by
  have hbyte := (mem a).isLt
  apply BitVec.eq_of_toNat_eq
  rw [BitVec.toNat_setWidth, toNat_read32, toNat_read16 mem a]
  omega

/-- The search through the EBDA finds nothing. -/
theorem searchRsdp_ebda (mem : Memory) (top fuel ptr : ℕ) :
    searchRsdp (fun ptr => read32 mem ptr = rsdpSigA ∧ read32 mem ptr + 1 = rsdpSigB)
      top fuel ptr 0 = 0 := by
  have htest : ∀ ptr,
      decide (read32 mem ptr = rsdpSigA ∧ read32 mem ptr + 1 = rsdpSigB) = false := by
    intro ptr
    refine decide_eq_false ?_
    rintro ⟨ha, hb⟩
    rw [ha] at hb
    exact absurd hb (by decide)
  induction fuel generalizing ptr with
  | zero => rfl
  | succ fuel ih =>
    rw [searchRsdp, htest, if_neg Bool.false_ne_true, ih, ite_self]

/-- `rsdp` is in the BIOS area, or null when there is no signature. -/
theorem findRsdp_cases (mem : Memory) :
    (InBios (findRsdp mem) ∧ HasSignature mem (findRsdp mem)) ∨
      findRsdp mem = 0 ∧ ¬ ∃ a, InBios a ∧ HasSignature mem a := by
  rw [findRsdp]
  simp only [searchRsdp_ebda]
  have htop : 0x000fffff + 16 ≤ 2 ^ 32 := by decide
  have hfuel : 0x000fffff ≤ 0x000e0000 + 16 * 0x1ffff := by decide
  rcases @searchRsdp_spec (fun ptr => read32 mem ptr = rsdpSigA ∧
      read32 mem (add32 ptr 4) = rsdpSigB) 0x000fffff 0x000e0000 0 0x1ffff htop hfuel with
    ⟨k, hk, htest, heq⟩ | ⟨heq, hnone⟩
  · rw [heq]
    exact .inl ⟨⟨by omega, by omega, by omega⟩, of_decide_eq_true htest⟩
  · refine .inr ⟨heq, ?_⟩
    rintro ⟨a, ⟨halign, hlo, hhi⟩, hsig⟩
    have hk : 0x000e0000 + 16 * ((a - 0xe0000) / 16) = a := by omega
    have hfalse := hnone ((a - 0xe0000) / 16) (by omega)
    rw [hk] at hfalse
    exact absurd hsig (of_decide_eq_false hfalse)

/-- **The search finds the RSDP** exactly where there is one in the BIOS area or none in the
EBDA. -/
theorem findsRsdp_iff (mem : Memory) :
    FindsRsdp mem ↔ (∃ a, InBios a ∧ HasSignature mem a) ∨
      ¬ ∃ a, InEbda mem a ∧ HasSignature mem a := by
  rcases findRsdp_cases mem with ⟨hbios, hsig⟩ | ⟨hnull, hnone⟩
  · refine iff_of_true ⟨fun _ => ⟨?_, .inr hbios, hsig⟩, fun hnot => ?_⟩ (.inl ⟨_, hbios, hsig⟩)
    · exact Nat.ne_of_gt (Nat.lt_of_lt_of_le (by decide) hbios.2.1)
    · exact absurd ⟨_, .inr hbios, hsig⟩ hnot
  · have hno : (¬ ∃ a, InEbda mem a ∧ HasSignature mem a) ↔
        ¬ ∃ a, (InEbda mem a ∨ InBios a) ∧ HasSignature mem a := by
      refine not_congr ⟨fun ⟨a, ha, hsig⟩ => ⟨a, .inl ha, hsig⟩, ?_⟩
      rintro ⟨a, ha | ha, hsig⟩
      · exact ⟨a, ha, hsig⟩
      · exact absurd ⟨a, ha, hsig⟩ hnone
    rw [or_iff_right hnone, hno]
    constructor
    · exact fun h hex => (h.1 hex).1 hnull
    · exact fun h => ⟨fun hex => absurd hex h, fun _ fuel low => if_pos hnull⟩

/-! ## An RSDP in the EBDA -/

/-- A memory with a signature at 0x9fc00, which is the beginning of the EBDA. -/
def memEbda : Memory := fun a =>
  if a = 0x40e then 0xc0#8
  else if a = 0x40f then 0x9f#8
  else if 0x9fc00 ≤ a ∧ a < 0x9fc04 then ((rsdpSigA >>> (8 * (a - 0x9fc00))).setWidth 8)
  else if 0x9fc04 ≤ a ∧ a < 0x9fc08 then ((rsdpSigB >>> (8 * (a - 0x9fc04))).setWidth 8)
  else 0

theorem memEbda_of_le {a : ℕ} (h : 0xe0000 ≤ a) : memEbda a = 0 := by
  rw [memEbda, if_neg (by omega), if_neg (by omega), if_neg (by omega), if_neg (by omega)]

theorem not_findsRsdp_memEbda : ¬ ∀ mem, FindsRsdp mem := by
  intro h
  have hebda : InEbda memEbda 0x9fc00 ∧ HasSignature memEbda 0x9fc00 := by decide
  obtain ⟨hnull, -⟩ := (h memEbda).1 ⟨_, .inl hebda.1, hebda.2⟩
  rcases findRsdp_cases memEbda with ⟨hbios, hsig, -⟩ | ⟨heq, -⟩
  · -- The lowest byte of the signature is not 0.
    have hbyte : memEbda (findRsdp memEbda) = rsdpSigA.setWidth 8 := by
      rw [← hsig, setWidth_read32]
    rw [memEbda_of_le hbios.2.1] at hbyte
    exact absurd hbyte (by decide)
  · exact hnull heq

end Cantos.Acpi
