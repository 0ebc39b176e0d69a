import Cantos.Lib.Exec
import Cantos.Structures.Elf

/-!
# Looking up the name of a function

`runtimeFindSymbolName` goes through the symbol table for the symbol that is the nearest one
in front of an address.  The search begins with symbol 0 at the distance `0xffffffff`, so that
symbol 0 is the answer when it finds none that is nearer.

## Main definitions

* `SectionHeader.Usable`: every access to a symbol table is possible.
* `Lookup`: a search.
* `Lookup.Near`, `Lookup.Best`: the invariant of the loop.
-/

namespace Cantos.Elf

open Exec

/-- The number of symbols of a section. -/
def SectionHeader.count (sect : SectionHeader) : ℕ := (sect.size / sect.entsize).toNat

/-- The address of a symbol. -/
def SectionHeader.symbol (sect : SectionHeader) (i : ℕ) : Word :=
  sect.addr + BitVec.ofNat 32 i * sect.entsize

/-- There is a symbol, and none has a null pointer. -/
structure SectionHeader.Usable (sect : SectionHeader) : Prop where
  entsize : sect.entsize ≠ 0
  count : sect.count ≠ 0
  symbol : ∀ i < sect.count, sect.symbol i ≠ 0

/-- A search for a symbol of a type in a section. -/
structure Lookup where
  header : Header
  sect : ℕ
  symbolAt : Word → Symbol
  addr : Word
  info : BitVec 8

namespace Lookup

variable (l : Lookup)

/-- The section of the symbols. -/
def table : SectionHeader := l.header.sections l.sect

/-- The `i`-th symbol. -/
def symbol (i : ℕ) : Symbol := l.symbolAt (l.table.symbol i)

/-- The name of the `i`-th symbol. -/
def name (i : ℕ) : Word := l.header.runtimeLookupString l.table.link (l.symbol i).name

/-- A symbol of the type that is not behind the address. -/
def Matches (i : ℕ) : Prop := (l.symbol i).info = l.info ∧ (l.symbol i).value ≤ l.addr

/-- It is nearer than the distance that the search begins with. -/
def Near (i : ℕ) : Prop := l.Matches i ∧ l.addr - (l.symbol i).value ≠ 0xffffffff

/-- The first one of those with the greatest value. -/
def IsNearest (p : ℕ → Prop) (n b : ℕ) : Prop :=
  b < n ∧ p b ∧ ∀ j < n, p j →
    (l.symbol j).value ≤ (l.symbol b).value ∧ ((l.symbol j).value = (l.symbol b).value → b ≤ j)

/-- The variables of the loop after `i` turns. -/
def Best (i : ℕ) (bestId delta : Word) : Prop :=
  (∀ j < i, ¬ l.Near j) ∧ bestId = 0 ∧ delta = 0xffffffff ∨
    ∃ b, l.IsNearest l.Near i b ∧ bestId = BitVec.ofNat 32 b ∧ delta = l.addr - (l.symbol b).value

/-! ## The loop -/

variable {l} {i k : ℕ} {bestId delta id : Word}

theorem Best.zero : l.Best 0 0 0xffffffff :=
  .inl ⟨fun j hj => absurd hj (Nat.not_lt_zero j), rfl, rfl⟩

/-- A symbol that is nearer is the best one now. -/
theorem Best.better (h : l.Best i bestId delta) (hm : l.Matches i)
    (hlt : l.addr - (l.symbol i).value < delta) :
    l.Best (i + 1) (BitVec.ofNat 32 i) (l.addr - (l.symbol i).value) := by
  have hle := hm.2
  refine .inr ⟨i, ⟨Nat.lt_succ_self i, ⟨hm, ?_⟩, fun j hj hnear => ?_⟩, rfl, rfl⟩
  · intro heq
    rw [heq] at hlt
    bv_omega
  · rcases Nat.lt_succ_iff_lt_or_eq.mp hj with hj | rfl
    · rcases h with ⟨hnone, -, -⟩ | ⟨b, ⟨hb, hnearb, hbest⟩, -, rfl⟩
      · exact absurd hnear (hnone j hj)
      · have hj' := (hbest j hj hnear).1
        have hb' := hnearb.1.2
        have hgreater : (l.symbol b).value < (l.symbol i).value := by bv_omega
        refine ⟨by bv_omega, fun heq => ?_⟩
        bv_omega
    · exact ⟨BitVec.le_refl _, fun _ => le_rfl⟩

/-- A symbol that is not nearer changes nothing. -/
theorem Best.keep (h : l.Best i bestId delta)
    (hnot : ¬ (l.Matches i ∧ l.addr - (l.symbol i).value < delta)) :
    l.Best (i + 1) bestId delta := by
  rcases h with ⟨hnone, rfl, rfl⟩ | ⟨b, ⟨hb, hnearb, hbest⟩, rfl, rfl⟩
  · refine .inl ⟨fun j hj hnear => ?_, rfl, rfl⟩
    rcases Nat.lt_succ_iff_lt_or_eq.mp hj with hj | rfl
    · exact hnone j hj hnear
    · refine hnot ⟨hnear.1, ?_⟩
      have hne := hnear.2
      bv_omega
  · refine .inr ⟨b, ⟨by omega, hnearb, fun j hj hnear => ?_⟩, rfl, rfl⟩
    rcases Nat.lt_succ_iff_lt_or_eq.mp hj with hj | rfl
    · exact hbest j hj hnear
    · have hfar : ¬ l.addr - (l.symbol j).value < l.addr - (l.symbol b).value := fun hlt =>
        hnot ⟨hnear.1, hlt⟩
      have hj' := hnear.1.2
      have hb' := hnearb.1.2
      exact ⟨by bv_omega, fun _ => hb.le⟩

theorem entries_eq {sect : SectionHeader} (h : sect.entsize ≠ 0) :
    sect.entries = .ok (sect.size / sect.entsize) := if_neg h

theorem entsize_ne {sect : SectionHeader} {n : Word} (h : sect.entries = .ok n) :
    sect.entsize ≠ 0 := by
  intro hzero
  rw [SectionHeader.entries, if_pos hzero] at h
  cases h

theorem runtimeSymbol_lt (hent : l.table.entsize ≠ 0) (hi : i < l.table.count) :
    l.header.runtimeSymbol l.sect (BitVec.ofNat 32 i) = .ok (l.table.symbol i) := by
  have hlt : ¬ BitVec.ofNat 32 i ≥ l.table.size / l.table.entsize := by
    unfold SectionHeader.count at hi
    bv_omega
  simp only [Header.runtimeSymbol, show l.header.sections l.sect = l.table from rfl,
    entries_eq hent, bind, Except.bind, if_neg hlt]
  rfl

/-- One turn of the loop. -/
theorem findLoop_succ (hent : l.table.entsize ≠ 0) (hi : i < l.table.count)
    (hsymbol : l.table.symbol i ≠ 0) :
    l.header.findLoop l.symbolAt l.sect l.addr l.info (k + 1) i bestId delta =
      if (l.symbol i).info ≠ l.info then
        l.header.findLoop l.symbolAt l.sect l.addr l.info k (i + 1) bestId delta
      else if (l.symbol i).value ≤ l.addr ∧ l.addr - (l.symbol i).value < delta then
        l.header.findLoop l.symbolAt l.sect l.addr l.info k (i + 1) (BitVec.ofNat 32 i)
          (l.addr - (l.symbol i).value)
      else l.header.findLoop l.symbolAt l.sect l.addr l.info k (i + 1) bestId delta := by
  simp only [Header.findLoop, runtimeSymbol_lt hent hi, Header.deref, if_neg hsymbol, bind,
    Except.bind]
  rfl

/-- The loop over the symbols, when none has a null pointer. -/
theorem findLoop_spec (hu : l.table.Usable) (hk : i + k ≤ l.table.count)
    (hbest : l.Best i bestId delta) :
    ∃ id delta', l.header.findLoop l.symbolAt l.sect l.addr l.info k i bestId delta = .ok id ∧
      l.Best (i + k) id delta' := by
  induction k generalizing i bestId delta with
  | zero => exact ⟨bestId, delta, rfl, hbest⟩
  | succ k ih =>
    have hi : i < l.table.count := by omega
    rw [findLoop_succ hu.entsize hi (hu.symbol i hi)]
    have hplace : i + (k + 1) = i + 1 + k := by omega
    rw [hplace]
    split_ifs with hinfo hnearer
    · exact ih (by omega) (hbest.keep fun h => hinfo h.1.1)
    · exact ih (by omega) (hbest.better ⟨not_not.mp hinfo, hnearer.1⟩ hnearer.2)
    · exact ih (by omega) (hbest.keep fun h => hnearer ⟨h.1.2, h.2⟩)

/-- Where the loop returns, no symbol had a null pointer. -/
theorem symbol_ne_of_findLoop (hent : l.table.entsize ≠ 0) (hk : i + k ≤ l.table.count)
    (hok : l.header.findLoop l.symbolAt l.sect l.addr l.info k i bestId delta = .ok id) {j : ℕ}
    (hge : i ≤ j) (hlt : j < i + k) : l.table.symbol j ≠ 0 := by
  induction k generalizing i bestId delta with
  | zero => omega
  | succ k ih =>
    have hi : i < l.table.count := by omega
    have hsymbol : l.table.symbol i ≠ 0 := by
      intro hzero
      simp only [Header.findLoop, runtimeSymbol_lt hent hi, Header.deref, if_pos hzero, bind,
        Except.bind] at hok
      cases hok
    rw [findLoop_succ hent hi hsymbol] at hok
    rcases hge.eq_or_lt with rfl | hgt
    · exact hsymbol
    · split_ifs at hok <;> exact ih (by omega) hok (by omega) (by omega)

/-! ## The whole search -/

/-- The section is the one that `sectionByType` finds. -/
def Found (l : Lookup) : Prop := l.sect = (l.header.sectionByType shtSymtab 0).1

theorem runtimeFindSymbolName_eq (hl : l.Found) :
    l.header.runtimeFindSymbolName l.symbolAt l.addr l.info = (do
      let entries ← l.table.entries
      let id ← l.header.findLoop l.symbolAt l.sect l.addr l.info entries.toNat 0 0 0xffffffff
      l.header.runtimeSymbolName l.symbolAt l.sect id) := by
  simp only [Header.runtimeFindSymbolName, Header.runtimeFindSymbolId, ← hl.symm, table, bind_assoc]

theorem Best.lt (h : l.Best l.table.count id delta) (hcount : l.table.count ≠ 0) :
    id.toNat < l.table.count := by
  rcases h with ⟨-, rfl, -⟩ | ⟨b, ⟨hb, -, -⟩, rfl, -⟩
  · exact Nat.pos_of_ne_zero hcount
  · rw [BitVec.toNat_ofNat]
    exact (Nat.mod_le _ _).trans_lt hb

/-- The name of a symbol of the table is returned. -/
theorem runtimeSymbolName_eq (hu : l.table.Usable) (hid : id.toNat < l.table.count) :
    l.header.runtimeSymbolName l.symbolAt l.sect id = .ok (l.name id.toNat) := by
  have hsymbol := runtimeSymbol_lt hu.entsize hid
  rw [BitVec.ofNat_toNat, BitVec.setWidth_eq] at hsymbol
  simp only [Header.runtimeSymbolName, hsymbol, Header.deref, if_neg (hu.symbol _ hid), bind,
    Except.bind]
  rfl

/-- The name of the symbol that the loop ends with. -/
theorem runtimeFindSymbolName_spec (hl : l.Found) (hu : l.table.Usable) :
    ∃ id delta, l.Best l.table.count id delta ∧
      l.header.runtimeFindSymbolName l.symbolAt l.addr l.info = .ok (l.name id.toNat) := by
  obtain ⟨id, delta, hloop, hbest⟩ := findLoop_spec hu (Nat.zero_add l.table.count).le Best.zero
  rw [Nat.zero_add] at hbest
  refine ⟨id, delta, hbest, ?_⟩
  rw [runtimeFindSymbolName_eq hl, entries_eq hu.entsize]
  refine bind_eq_ok.mpr ⟨_, rfl, bind_eq_ok.mpr ⟨id, hloop, ?_⟩⟩
  exact runtimeSymbolName_eq hu (hbest.lt hu.count)

/-- A search returns exactly when the section is usable. -/
theorem returns_iff (hl : l.Found) :
    (∃ name, l.header.runtimeFindSymbolName l.symbolAt l.addr l.info = .ok name) ↔
      l.table.Usable := by
  constructor
  · rintro ⟨name, hok⟩
    rw [runtimeFindSymbolName_eq hl] at hok
    obtain ⟨entries, hentries, hok⟩ := bind_eq_ok.mp hok
    obtain ⟨id, hloop, hname⟩ := bind_eq_ok.mp hok
    have hent := entsize_ne hentries
    obtain rfl : l.table.size / l.table.entsize = entries :=
      Except.ok.inj ((entries_eq hent).symm.trans hentries)
    refine ⟨hent, fun hzero => ?_, fun j hj => ?_⟩
    · -- Symbol 0 is looked up in a table without symbols.
      have hzero' : l.table.size / l.table.entsize = 0 := BitVec.eq_of_toNat_eq hzero
      rw [hzero'] at hloop hentries
      obtain rfl : 0 = id := Except.ok.inj hloop
      simp [Header.runtimeSymbolName, Header.runtimeSymbol, Header.deref, bind, Except.bind,
        show l.header.sections l.sect = l.table from rfl, hentries] at hname
    · exact symbol_ne_of_findLoop hent (Nat.zero_add l.table.count).le hloop (Nat.zero_le j)
        (by rwa [Nat.zero_add])
  · intro hu
    obtain ⟨id, -, -, hok⟩ := runtimeFindSymbolName_spec hl hu
    exact ⟨_, hok⟩

/-! ## The nearest symbol -/

variable {n b b' : ℕ} {p : ℕ → Prop}

theorem IsNearest.unique (h : l.IsNearest p n b) (h' : l.IsNearest p n b') : b = b' := by
  obtain ⟨hb, hp, hbest⟩ := h
  obtain ⟨hb', hp', hbest'⟩ := h'
  have hvalue : (l.symbol b).value = (l.symbol b').value :=
    BitVec.le_antisymm (hbest' b hb hp).1 (hbest b' hb' hp').1
  exact le_antisymm ((hbest b' hb' hp').2 hvalue.symm) ((hbest' b hb hp).2 hvalue)

/-- The greatest distance is not that of the nearest symbol when there is a nearer one. -/
theorem IsNearest.of_near (h : l.IsNearest l.Near n b) : l.IsNearest l.Matches n b := by
  obtain ⟨hb, hnear, hbest⟩ := h
  refine ⟨hb, hnear.1, fun j hj hmatches => ?_⟩
  by_cases hfar : l.addr - (l.symbol j).value = 0xffffffff
  · have hle := hmatches.2
    have hle' := hnear.1.2
    have hne := hnear.2
    refine ⟨by bv_omega, fun heq => absurd (heq ▸ hfar) hne⟩
  · exact hbest j hj ⟨hmatches, hfar⟩

/-- What the loop ends with. -/
theorem Best.cases (h : l.Best n id delta) (hn : n ≤ l.table.count) :
    (∀ i < n, ¬ l.Near i) ∧ id.toNat = 0 ∨ l.IsNearest l.Matches n id.toNat := by
  rcases h with ⟨hnone, rfl, -⟩ | ⟨b, hb, rfl, -⟩
  · exact .inl ⟨hnone, rfl⟩
  · have hlt : b < 2 ^ 32 := (hb.1.trans_le hn).trans (BitVec.isLt _)
    rw [BitVec.toNat_ofNat, Nat.mod_eq_of_lt hlt]
    exact .inr hb.of_near

variable (l)

/-- The name of the nearest symbol is returned, or a null pointer when there is none. -/
def NamesNearest : Prop :=
  ∃ name, l.header.runtimeFindSymbolName l.symbolAt l.addr l.info = .ok name ∧
    (∀ b, l.IsNearest l.Matches l.table.count b → name = l.name b) ∧
    ((∀ i < l.table.count, ¬ l.Matches i) → name = 0)

/-- Symbol 0 has the name that is wanted. -/
def ZeroNamed : Prop :=
  (∀ b, l.IsNearest l.Matches l.table.count b → l.name 0 = l.name b) ∧
    ((∀ i < l.table.count, ¬ l.Matches i) → l.name 0 = 0)

variable {l}

theorem namesNearest_iff (hl : l.Found) :
    l.NamesNearest ↔ l.table.Usable ∧ ((∃ i < l.table.count, l.Near i) ∨ l.ZeroNamed) := by
  constructor
  · rintro ⟨name, hok, hnearest, hnone⟩
    have hu := (returns_iff hl).mp ⟨name, hok⟩
    refine ⟨hu, ?_⟩
    obtain ⟨id, delta, hbest, hspec⟩ := runtimeFindSymbolName_spec hl hu
    obtain rfl : l.name id.toNat = name := Except.ok.inj (hspec.symm.trans hok)
    rcases hbest.cases le_rfl with ⟨-, hid⟩ | hb
    · right
      rw [hid] at hnearest hnone
      exact ⟨hnearest, hnone⟩
    · rcases hbest with ⟨hnear, rfl, -⟩ | ⟨b, ⟨hlt, hnear, -⟩, -, -⟩
      · exact .inr ⟨hnearest, hnone⟩
      · exact .inl ⟨b, hlt, hnear⟩
  · rintro ⟨hu, hcond⟩
    obtain ⟨id, delta, hbest, hok⟩ := runtimeFindSymbolName_spec hl hu
    refine ⟨_, hok, ?_⟩
    rcases hbest.cases le_rfl with ⟨hnear, hid⟩ | hb
    · rw [hid]
      exact hcond.resolve_left fun ⟨i, hi, h⟩ => hnear i hi h
    · exact ⟨fun b hb' => congrArg l.name (hb.unique hb'), fun hnone =>
        absurd hb.2.1 (hnone _ hb.1)⟩

end Lookup

/-! ## The kernel's table -/

namespace SectionTable

variable (t : SectionTable) (symbolAt : Word → Symbol) (type : Word) (base : ℕ) (addr : Word)
  (info : BitVec 8)

/-- Lookups stay inside of the table exactly when there is a section of the type that is asked
for, and the header that is taken for the one of the symbol table has usable symbols. -/
theorem inside_iff : t.Inside symbolAt type base addr info ↔
    t.HasType type base ∧ ∃ i, t.TakenAsSymtab i ∧ (t.load.sections i).Usable := by
  let l : Lookup := ⟨t.load, (t.load.sectionByType shtSymtab 0).1, symbolAt, addr, info⟩
  have hreturns := Lookup.returns_iff (show l.Found from rfl)
  constructor
  · intro h
    exact ⟨reads_iff.mp h.reads, _, takenAsSymtab_iff.mpr rfl, hreturns.mp h.returns⟩
  · rintro ⟨hhas, i, htaken, hu⟩
    rw [takenAsSymtab_iff.mp htaken] at hu
    exact ⟨reads_iff.mpr hhas, isFound_sectionByType hhas, hreturns.mpr hu⟩

/-- A table with the null header only. -/
def nullTable : SectionTable := ⟨[⟨0, 0, 0, 0, 0⟩], fun _ => ⟨0, 0, 0, 0, 0⟩, by decide⟩

theorem not_inside_nullTable :
    ¬ nullTable.Inside (fun _ => ⟨0, 0, 0⟩) shtSymtab 0 0xc0100000 0x12 := by
  intro h
  exact absurd (reads_iff.mp h.reads) (by decide)

end SectionTable

/-- A section table with a symbol table, which is the first one of its type. -/
structure SymbolTable extends SectionTable where
  symtab : ℕ
  symtab_type : ∃ sect ∈ headers[symtab]?, sect.type = shtSymtab
  symtab_first : ∀ j < symtab, ∀ sect ∈ headers[j]?, sect.type ≠ shtSymtab

namespace SymbolTable

variable (t : SymbolTable) (symbolAt : Word → Symbol) (addr : Word) (info : BitVec 8)

/-- A search in the symbol table. -/
def lookup : Lookup := ⟨t.load, t.symtab, symbolAt, addr, info⟩

theorem found_lookup : (t.lookup symbolAt addr info).Found := by
  obtain ⟨sect, hsect, htype⟩ := t.symtab_type
  have hlt := (List.getElem?_eq_some_iff.mp hsect).1
  refine SectionTable.takenAsSymtab_iff.mp (.inl ⟨hlt.le, ?_, fun j hj => ?_⟩)
  · show (t.load.sections t.symtab).type = shtSymtab
    rw [SectionTable.sections_load hsect, SectionTable.relocate_type, htype]
  · have hget := List.getElem?_eq_getElem (hj.trans hlt)
    rw [SectionTable.sections_load hget, SectionTable.relocate_type]
    exact t.symtab_first j hj _ hget

/-- The name of the nearest function is found exactly when the symbols are usable and one of them
is nearer than the distance that the search begins with, or symbol 0 has the name that is
wanted. -/
theorem finds_iff : (t.lookup symbolAt addr info).NamesNearest ↔
    (t.lookup symbolAt addr info).table.Usable ∧
      ((∃ i < (t.lookup symbolAt addr info).table.count, (t.lookup symbolAt addr info).Near i) ∨
        (t.lookup symbolAt addr info).ZeroNamed) :=
  Lookup.namesNearest_iff (t.found_lookup symbolAt addr info)

/-- A table with one symbol, the names being in section 2. -/
def oneSymbol : SymbolTable where
  headers := [⟨0, 0, 0, 0, 0⟩, ⟨shtSymtab, 0xc0200000, 16, 2, 16⟩, ⟨3, 0xc0300000, 32, 0, 0⟩]
  behind _ := ⟨0, 0, 0, 0, 0⟩
  length_lt := by decide
  symtab := 1
  symtab_type := ⟨_, rfl, rfl⟩
  symtab_first := by decide

/-- The symbol is a function at `0xc0100000`. -/
def oneFunction (_ : Word) : Symbol := ⟨1, 0xc0100000, 0x12⟩

/-- Its name is the one of an address in front of it. -/
theorem not_finds_oneSymbol : ¬ (oneSymbol.lookup oneFunction 0x1000 0x12).NamesNearest := by
  intro h
  have hnone : ∀ i, ¬ (oneSymbol.lookup oneFunction 0x1000 0x12).Matches i := fun i hm =>
    absurd (show (0xc0100000 : Word) ≤ 0x1000 from hm.2) (by decide)
  obtain ⟨-, ⟨i, -, hnear⟩ | hzero⟩ :=
    (Lookup.namesNearest_iff (oneSymbol.found_lookup oneFunction 0x1000 0x12)).mp h
  · exact hnone i hnear.1
  · exact absurd (hzero.2 fun i _ => hnone i) (by decide)

end SymbolTable

end Cantos.Elf
