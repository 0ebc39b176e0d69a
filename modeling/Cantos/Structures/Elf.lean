import Mathlib.Data.BitVec
import Mathlib.Data.List.Basic

/-!
# The section headers of the kernel

`load_kernel_elf` copies the section headers that the boot loader passes on, and a panic looks
the names of functions up with them.

Headers are named by their indices.  What lies in memory behind the copied table can be read
as headers too, and memory at an address as a symbol.

## Main definitions

* `Header`, `SectionTable.load`: the copied table.
* `Header.sectionByType`, with the headers that it reads.
* `Header.runtimeFindSymbolName`
* `SectionTable.Inside`: lookups stay inside of the table, and return.
-/

namespace Cantos.Elf

/-- `word_t`, `addr_t` and `off_t` -/
abbrev Word := BitVec 32

/-- `SHT_SYMTAB` -/
def shtSymtab : Word := 2

/-- The fields of a `SectionHeader` that are looked at. -/
structure SectionHeader where
  type : Word
  addr : Word
  size : Word
  link : Word
  entsize : Word
  deriving DecidableEq, Repr

/-- The fields of a `Symbol` that are looked at. -/
structure Symbol where
  name : Word
  value : Word
  info : BitVec 8
  deriving DecidableEq, Repr

/-- Why a lookup does not return. -/
inductive Fault
  | divideByZero
  | nullSymbol
  deriving DecidableEq, Repr

/-- `Header`: `section i` is what `sectionHeader(i)` points to. -/
structure Header where
  shnum : BitVec 16
  sections : ℕ → SectionHeader

/-- `SectionHeader::entries` -/
def SectionHeader.entries (sect : SectionHeader) : Except Fault Word :=
  if sect.entsize = 0 then .error .divideByZero else .ok (sect.size / sect.entsize)

namespace Header

variable (h : Header)

/-- The loop of `sectionByType`: where it stops, and the headers that it reads. -/
def scan (type : Word) (base : ℕ) : ℕ × List ℕ :=
  if (h.sections base).type ≠ type ∧ base < h.shnum.toNat then
    let (stop, reads) := scan type (base + 1)
    (stop, base :: reads)
  else (base, [base])
termination_by h.shnum.toNat - base
decreasing_by omega

/-- `Header::sectionByType`, with the indices of the headers that it reads. -/
def sectionByType (type : Word) (base : ℕ) : ℕ × List ℕ :=
  let (stop, reads) := h.scan type base
  (if (h.sections stop).type = type then stop else 0, reads ++ [stop])

/-- `Header::runtimeSymbol`; the null pointer is 0. -/
def runtimeSymbol (sect : ℕ) (offset : Word) : Except Fault Word := do
  let entries ← (h.sections sect).entries
  if offset ≥ entries then .ok 0
  else .ok ((h.sections sect).addr + offset * (h.sections sect).entsize)

/-- `Header::runtimeLookupString` -/
def runtimeLookupString (sect offset : Word) : Word := (h.sections sect.toNat).addr + offset

variable (symbolAt : Word → Symbol)

/-- Follow a pointer to a symbol. -/
def deref (symbol : Word) : Except Fault Symbol :=
  if symbol = 0 then .error .nullSymbol else .ok (symbolAt symbol)

/-- `Header::runtimeSymbolName` -/
def runtimeSymbolName (sect : ℕ) (offset : Word) : Except Fault Word := do
  let symbol ← deref symbolAt (← h.runtimeSymbol sect offset)
  .ok (h.runtimeLookupString (h.sections sect).link symbol.name)

/-- The last `k` turns of the loop of `runtimeFindSymbolId`, the next one being for `i`. -/
def findLoop (sect : ℕ) (addr : Word) (type : BitVec 8) :
    (k i : ℕ) → (bestId delta : Word) → Except Fault Word
  | 0, _, bestId, _ => .ok bestId
  | k + 1, i, bestId, delta => do
      let curr ← deref symbolAt (← h.runtimeSymbol sect (BitVec.ofNat 32 i))
      if curr.info ≠ type then findLoop sect addr type k (i + 1) bestId delta
      else if curr.value ≤ addr ∧ addr - curr.value < delta then
        findLoop sect addr type k (i + 1) (BitVec.ofNat 32 i) (addr - curr.value)
      else findLoop sect addr type k (i + 1) bestId delta

/-- `Header::runtimeFindSymbolId` -/
def runtimeFindSymbolId (addr : Word) (type : BitVec 8) : Except Fault Word := do
  let sect := (h.sectionByType shtSymtab 0).1
  let entries ← (h.sections sect).entries
  h.findLoop symbolAt sect addr type entries.toNat 0 0 0xffffffff

/-- `Header::runtimeFindSymbolName` -/
def runtimeFindSymbolName (addr : Word) (type : BitVec 8) : Except Fault Word := do
  let sect := (h.sectionByType shtSymtab 0).1
  h.runtimeSymbolName symbolAt sect (← h.runtimeFindSymbolId symbolAt addr type)

end Header

/-! ## Loading the table -/

/-- `KERNEL_VM_BASE` -/
def kernelVmBase : Word := 0xc0000000

/-- The address of a section that is not in the kernel's part of memory is updated. -/
def SectionHeader.relocate (sect : SectionHeader) : SectionHeader :=
  if sect.addr ≠ 0 ∧ sect.addr < kernelVmBase then { sect with addr := sect.addr + kernelVmBase }
  else sect

/-- A section table, and what will lie behind its copy. -/
structure SectionTable where
  headers : List SectionHeader
  behind : ℕ → SectionHeader
  length_lt : headers.length < 2 ^ 16

namespace SectionTable

variable (t : SectionTable)

/-- `load_kernel_elf` -/
def load : Header where
  shnum := BitVec.ofNat 16 t.headers.length
  sections i := (t.headers[i]?.map SectionHeader.relocate).getD (t.behind i)

/-- A section of a type, from an index on. -/
def HasType (type : Word) (base : ℕ) : Prop := ∃ sect ∈ t.headers.drop base, sect.type = type

instance (type : Word) (base : ℕ) : Decidable (t.HasType type base) :=
  inferInstanceAs (Decidable (∃ _ ∈ _, _))

/-- The result of `sectionByType`: the first section of a type from an index on, or 0. -/
def IsFound (type : Word) (base i : ℕ) : Prop :=
  (base ≤ i ∧ (∃ sect ∈ t.headers[i]?, sect.type = type) ∧
    ∀ j, base ≤ j → j < i → ∀ sect ∈ t.headers[j]?, sect.type ≠ type) ∨
  ¬ t.HasType type base ∧ i = 0

/-- A lookup by type reads headers of the table only and finds the right one, and a lookup of a
name returns. -/
structure Inside (symbolAt : Word → Symbol) (type : Word) (base : ℕ) (addr : Word)
    (info : BitVec 8) : Prop where
  reads : ∀ i ∈ (t.load.sectionByType type base).2, i < t.headers.length
  found : t.IsFound type base (t.load.sectionByType type base).1
  returns : ∃ name, t.load.runtimeFindSymbolName symbolAt addr info = .ok name

end SectionTable

/-! ## The scan -/

variable {h : Header} {type : Word} {base i : ℕ}

/-- Where the scan stops, and what it reads on the way. -/
structure Scanned (h : Header) (type : Word) (base stop : ℕ) (reads : List ℕ) : Prop where
  le : base ≤ stop
  before : ∀ i, base ≤ i → i < stop → (h.sections i).type ≠ type
  stops : (h.sections stop).type = type ∨ h.shnum.toNat ≤ stop
  stop_le : stop ≤ max base h.shnum.toNat
  reads_le : ∀ i ∈ reads, i ≤ stop

theorem scan_spec (h : Header) (type : Word) (base : ℕ) :
    Scanned h type base (h.scan type base).1 (h.scan type base).2 := by
  induction base using Header.scan.induct h type with
  | case1 base hgo stop reads heq ih =>
    rw [Header.scan, if_pos hgo]
    rw [heq] at ih
    simp only [heq]
    exact
      { le := by have := ih.le; omega
        before := fun i hge hlt => by
          rcases hge.eq_or_lt with rfl | hgt
          · exact hgo.1
          · exact ih.before i hgt hlt
        stops := ih.stops
        stop_le := by have := ih.stop_le; omega
        reads_le := fun i hi => by
          rcases List.mem_cons.mp hi with rfl | hi
          · have := ih.le
            omega
          · exact ih.reads_le i hi }
  | case2 base hstop =>
    rw [Header.scan, if_neg hstop]
    rw [not_and_or, not_not, Nat.not_lt] at hstop
    exact
      { le := le_rfl
        before := fun i hge hlt => absurd hlt (by simpa using hge)
        stops := hstop
        stop_le := le_max_left _ _
        reads_le := fun i hi => (List.mem_singleton.mp hi).le }

namespace SectionTable

variable {t : SectionTable}

theorem shnum_load : t.load.shnum.toNat = t.headers.length := by
  rw [load, BitVec.toNat_ofNat, Nat.mod_eq_of_lt t.length_lt]

theorem sections_load {sect : SectionHeader} (hsect : t.headers[i]? = some sect) :
    t.load.sections i = sect.relocate := by
  simp [load, hsect]

@[simp] theorem relocate_type (sect : SectionHeader) : sect.relocate.type = sect.type := by
  unfold SectionHeader.relocate
  split_ifs <;> rfl

theorem hasType_iff : t.HasType type base ↔
    ∃ i, base ≤ i ∧ i < t.headers.length ∧ (t.load.sections i).type = type := by
  constructor
  · rintro ⟨sect, hsect, rfl⟩
    obtain ⟨k, hk⟩ := List.getElem?_of_mem hsect
    rw [List.getElem?_drop] at hk
    refine ⟨base + k, Nat.le_add_right _ _, (List.getElem?_eq_some_iff.mp hk).1, ?_⟩
    rw [sections_load hk, relocate_type]
  · rintro ⟨i, hge, hlt, htype⟩
    have hget := List.getElem?_eq_getElem hlt
    rw [sections_load hget, relocate_type] at htype
    have hdrop : (t.headers.drop base)[i - base]? = some t.headers[i] := by
      rw [List.getElem?_drop, Nat.add_sub_cancel' hge, hget]
    exact ⟨t.headers[i], List.mem_of_getElem? hdrop, htype⟩

theorem scan_load (t : SectionTable) (type : Word) (base : ℕ) :
    Scanned t.load type base (t.load.scan type base).1 (t.load.scan type base).2 :=
  scan_spec _ _ _

/-- The scan stops in the table when there is a section of the type. -/
theorem stop_lt (hhas : t.HasType type base) : (t.load.scan type base).1 < t.headers.length := by
  obtain ⟨i, hge, hlt, htype⟩ := hasType_iff.mp hhas
  have hstop : (t.load.scan type base).1 ≤ i := by
    by_contra hnot
    exact (scan_load t type base).before i hge (Nat.lt_of_not_le hnot) htype
  omega

/-- Only headers of the table are read exactly when there is a section of the type. -/
theorem reads_iff : (∀ i ∈ (t.load.sectionByType type base).2, i < t.headers.length) ↔
    t.HasType type base := by
  have hscan := scan_load t type base
  have hstops := hscan.stops
  rw [shnum_load] at hstops
  constructor
  · intro h
    have hlt : (t.load.scan type base).1 < t.headers.length :=
      h _ (List.mem_append_right _ (List.mem_singleton_self _))
    exact hasType_iff.mpr ⟨_, hscan.le, hlt, hstops.resolve_right (Nat.not_le.mpr hlt)⟩
  · intro hhas i hi
    have hlt := stop_lt hhas
    rcases List.mem_append.mp hi with hread | hstop
    · exact (hscan.reads_le i hread).trans_lt hlt
    · rwa [List.mem_singleton.mp hstop]

/-- Then it is the first one. -/
theorem isFound_sectionByType (hhas : t.HasType type base) :
    t.IsFound type base (t.load.sectionByType type base).1 := by
  have hscan := scan_load t type base
  have hlt := stop_lt hhas
  have hstops := hscan.stops
  rw [shnum_load] at hstops
  have htype := hstops.resolve_right (Nat.not_le.mpr hlt)
  have hget := List.getElem?_eq_getElem hlt
  have hfound : (t.load.sectionByType type base).1 = (t.load.scan type base).1 := if_pos htype
  rw [hfound]
  refine .inl ⟨hscan.le, ⟨_, hget, ?_⟩, fun j hge hj sect hsect => ?_⟩
  · rwa [sections_load hget, relocate_type] at htype
  · have hne := hscan.before j hge hj
    rwa [sections_load hsect, relocate_type] at hne

variable (t)

/-- The header that is taken for the one of the symbol table: the first of its type in the table
or right behind it, or else the first of all. -/
def TakenAsSymtab (i : ℕ) : Prop :=
  (i ≤ t.headers.length ∧ (t.load.sections i).type = shtSymtab ∧
    ∀ j < i, (t.load.sections j).type ≠ shtSymtab) ∨
  (∀ j ≤ t.headers.length, (t.load.sections j).type ≠ shtSymtab) ∧ i = 0

variable {t}

theorem takenAsSymtab_iff : t.TakenAsSymtab i ↔ i = (t.load.sectionByType shtSymtab 0).1 := by
  have hscan := scan_load t shtSymtab 0
  have hstops := hscan.stops
  have hle := hscan.stop_le
  rw [shnum_load] at hstops hle
  have htaken : t.TakenAsSymtab (t.load.sectionByType shtSymtab 0).1 := by
    by_cases htype : (t.load.sections (t.load.scan shtSymtab 0).1).type = shtSymtab
    · have hfound : (t.load.sectionByType shtSymtab 0).1 = (t.load.scan shtSymtab 0).1 :=
        if_pos htype
      rw [hfound]
      exact .inl ⟨by omega, htype, fun j => hscan.before j (Nat.zero_le j)⟩
    · have hfound : (t.load.sectionByType shtSymtab 0).1 = 0 := if_neg htype
      rw [hfound]
      refine .inr ⟨fun j hj => ?_, rfl⟩
      have hend := hstops.resolve_left htype
      rcases hj.eq_or_lt with rfl | hlt
      · have hstop : (t.load.scan shtSymtab 0).1 = t.headers.length := by omega
        rwa [hstop] at htype
      · exact hscan.before j (Nat.zero_le j) (by omega)
  constructor
  · -- There is only one such header.
    rintro (⟨hi, htype, hfirst⟩ | ⟨hnone, rfl⟩)
    · rcases htaken with ⟨hi', htype', hfirst'⟩ | ⟨hnone, -⟩
      · rcases Nat.lt_trichotomy i (t.load.sectionByType shtSymtab 0).1 with hlt | heq | hgt
        · exact absurd htype (hfirst' i hlt)
        · exact heq
        · exact absurd htype' (hfirst _ hgt)
      · exact absurd htype (hnone i hi)
    · rcases htaken with ⟨hi', htype', -⟩ | ⟨-, heq⟩
      · exact absurd htype' (hnone _ hi')
      · exact heq.symm
  · rintro rfl
    exact htaken

end SectionTable

end Cantos.Elf
