import Cantos.Hw.Madt
import Mathlib.Tactic.Tauto

/-!
# The layout of the MADT

The entries of the MADT are packed, and the structs they are copied to are not: their words
begin two bytes behind those of the entry.  So every half word is decoded from the one behind
it, and the last one from what follows the entry.

## Main definitions

* `MadtRecord.encode`: an entry in the format of ACPI.
* `LaidOut`: a MADT with some entries lies in memory.
* `Decodes`: the arrays hold what was encoded.
* `Uniform`: the half words of every entry are all as the one behind it.
-/

namespace Cantos.Acpi

/-- An entry of the MADT. -/
inductive MadtRecord
  | proc (uid apicId : BitVec 8) (flags : BitVec 32)
  | ioapic (id reserved : BitVec 8) (address interruptBase : BitVec 32)
  | iso (bus source : BitVec 8) (globalInterrupt : BitVec 32) (flags : BitVec 16)
  deriving DecidableEq, Repr

section Encode

/-- The halves of a word. -/
def lo (v : BitVec 32) : BitVec 16 := v.setWidth 16
def hi (v : BitVec 32) : BitVec 16 := (v >>> 16).setWidth 16

/-- A word in memory. -/
def encode16 (v : BitVec 16) : List (BitVec 8) := [v.setWidth 8, (v >>> 8).setWidth 8]
def encode32 (v : BitVec 32) : List (BitVec 8) := encode16 (lo v) ++ encode16 (hi v)

namespace MadtRecord

def type : MadtRecord → BitVec 8
  | proc .. => 0x0#8
  | ioapic .. => 0x1#8
  | iso .. => 0x2#8

/-- The length byte. -/
def length : MadtRecord → ℕ
  | proc .. => 8
  | ioapic .. => 12
  | iso .. => 10

/-- The half words of an entry, which are behind its first two bytes. -/
def halves : MadtRecord → List (BitVec 16)
  | proc _ _ flags => [lo flags, hi flags]
  | ioapic _ _ address interruptBase =>
      [lo address, hi address, lo interruptBase, hi interruptBase]
  | iso _ _ globalInterrupt flags => [lo globalInterrupt, hi globalInterrupt, flags]

/-- The first two bytes of an entry. -/
def head : MadtRecord → List (BitVec 8)
  | proc uid apicId _ => [uid, apicId]
  | ioapic id reserved _ _ => [id, reserved]
  | iso bus source _ _ => [bus, source]

/-- An entry in the format of ACPI, packed. -/
def encode (r : MadtRecord) : List (BitVec 8) :=
  [r.type, BitVec.ofNat 8 r.length] ++ r.head ++ r.halves.flatMap encode16

/-! The struct an entry is to be decoded to. -/

def toProc : MadtRecord → Option MadtProc
  | proc uid apicId flags => some ⟨uid, apicId, flags⟩
  | _ => none

def toIoapic : MadtRecord → Option MadtIoapic
  | ioapic id reserved address interruptBase => some ⟨id, reserved, address, interruptBase⟩
  | _ => none

def toIso : MadtRecord → Option MadtIso
  | iso bus source globalInterrupt flags => some ⟨bus, source, globalInterrupt, flags⟩
  | _ => none

end MadtRecord

example (uid apicId : BitVec 8) (flags : BitVec 32) :
    (MadtRecord.proc uid apicId flags).encode = [0, 8, uid, apicId] ++ encode32 flags := rfl

end Encode

/-- Some bytes lie at an address. -/
def BytesAt (mem : Memory) (p : ℕ) (l : List (BitVec 8)) : Prop :=
  ∀ i, ∀ b ∈ l[i]?, mem (p + i) = b

/-- A MADT with some entries. -/
structure LaidOut (mem : Memory) (madt : ℕ) (records : List MadtRecord) : Prop where
  fits : madt + sizeofMadt + (records.flatMap MadtRecord.encode).length < 2 ^ 32
  length : (read32 mem (add32 madt 4)).toNat =
    sizeofMadt + (records.flatMap MadtRecord.encode).length
  entries : BytesAt mem (madt + sizeofMadt) (records.flatMap MadtRecord.encode)

/-- There are entries of a kind, and the array has room for them. -/
def Fills {α : Type} (f : MadtRecord → Option α) (records : List MadtRecord) : Prop :=
  1 ≤ (records.filterMap f).length ∧ (records.filterMap f).length ≤ madtCopy

instance {α : Type} (f : MadtRecord → Option α) (records : List MadtRecord) :
    Decidable (Fills f records) := inferInstanceAs (Decidable (_ ∧ _))

/-- The first elements of an array. -/
def listed (array : ℕ → List (BitVec 8)) (n : ℕ) : List (List (BitVec 8)) :=
  (List.range n).map array

/-- The setup leaves what was encoded in the arrays. -/
def Decodes (mem : Memory) (madt : ℕ) (records : List MadtRecord) : Prop :=
  ∀ low, ∃ fuel low', readMadt mem fuel madt low = .ok low' ∧
    (listed low'.procs low'.procCount).map MadtProc.ofBytes = records.filterMap MadtRecord.toProc ∧
    (listed low'.ioapics low'.ioapicCount).map MadtIoapic.ofBytes =
      records.filterMap MadtRecord.toIoapic ∧
    (listed low'.isos low'.isoCount).map MadtIso.ofBytes = records.filterMap MadtRecord.toIso

/-- The half words of every entry, the first one of which is at `p`, are those behind it. -/
def Uniform (mem : Memory) : (p : ℕ) → List MadtRecord → Prop
  | _, [] => True
  | p, r :: records =>
      (∀ h ∈ r.halves, h = read16 mem (p + r.length)) ∧ Uniform mem (p + r.length) records

/-! ## The copies -/

/-- `sizeof` the struct of a kind. -/
def sizeofKind (t : BitVec 8) : ℕ :=
  if t = 0x0#8 then sizeofProc else if t = 0x1#8 then sizeofIoapic else sizeofIso

/-- The elements of a kind that have been copied. -/
def Copied.elements (c : Copied) (t : BitVec 8) : List (List (BitVec 8)) :=
  if t = 0x0#8 then listed c.low.procs c.pc
  else if t = 0x1#8 then listed c.low.ioapics c.ic
  else listed c.low.isos c.sc

/-- What is copied of the entries of a kind from `p` on. -/
def copies (mem : Memory) (t : BitVec 8) : (p n : ℕ) → List (List (BitVec 8))
  | _, 0 => []
  | p, n + 1 => (if mem p = t then [memcpy mem (add32 p 2) (sizeofKind t)] else []) ++
      copies mem t (nextEntry mem p) n

variable {mem : Memory} {madt top p n fuel : ℕ} {c c' : Copied} {t : BitVec 8} {low : Low}
  {r : MadtRecord} {records : List MadtRecord}

@[simp] theorem length_listed (array : ℕ → List (BitVec 8)) (n : ℕ) :
    (listed array n).length = n := by
  rw [listed, List.length_map, List.length_range]

theorem listed_update (array : ℕ → List (BitVec 8)) (n : ℕ) (x : List (BitVec 8)) :
    listed (Function.update array n x) (n + 1) = listed array n ++ [x] := by
  rw [listed, List.range_succ, List.map_append, List.map_singleton, Function.update_self, listed]
  congr 1
  refine List.map_congr_left fun i hi => ?_
  exact Function.update_of_ne (Nat.ne_of_lt (List.mem_range.mp hi)) _ _

theorem copyEntry_elements (h : copyEntry mem p c = .ok c') (ht : IsKind t) :
    c'.elements t = c.elements t ++
      if mem p = t then [memcpy mem (add32 p 2) (sizeofKind t)] else [] := by
  unfold copyEntry at h
  simp only at h
  split_ifs at h with h₀ hlt₀ h₁ hlt₁ h₂ hlt₂ <;> cases h
  · rcases ht with rfl | rfl | rfl <;> simp [Copied.elements, sizeofKind, h₀, listed_update]
  · rcases ht with rfl | rfl | rfl <;> simp [Copied.elements, sizeofKind, h₁, listed_update]
  · rcases ht with rfl | rfl | rfl <;> simp [Copied.elements, sizeofKind, h₂, listed_update]
  · rcases ht with rfl | rfl | rfl <;> simp [h₀, h₁, h₂]

/-- What the loop has copied at its end. -/
theorem entryLoop_elements (h : entryLoop mem top fuel p c = .ok c')
    (hleaves : Walk.Leaves (nextEntry mem) (· < top) p n) (ht : IsKind t) :
    c'.elements t = c.elements t ++ copies mem t p n := by
  induction n generalizing p c fuel with
  | zero =>
    cases fuel with
    | zero => cases h
    | succ fuel =>
      have hout : ¬ p < top := hleaves.2
      rw [entryLoop, if_neg hout] at h
      cases h
      rw [copies, List.append_nil]
  | succ n ih =>
    obtain ⟨hlt, hleaves⟩ := Walk.leaves_succ.mp hleaves
    cases fuel with
    | zero => cases h
    | succ fuel =>
      rw [entryLoop, if_pos hlt] at h
      obtain ⟨c₁, hcopy, h⟩ := bind_eq_ok.mp h
      rw [ih h hleaves, copyEntry_elements hcopy ht, copies, List.append_assoc]

theorem count_types_eq (p n : ℕ) (t : BitVec 8) :
    (types mem p n).count t = (copies mem t p n).length := by
  induction n generalizing p with
  | zero => rfl
  | succ n ih =>
    rw [count_types_succ, copies, List.length_append, ih]
    split_ifs <;> rfl

/-! ## The entries in memory -/

theorem bytesAt_append {a b : List (BitVec 8)} :
    BytesAt mem p (a ++ b) ↔ BytesAt mem p a ∧ BytesAt mem (p + a.length) b := by
  constructor
  · intro h
    refine ⟨fun i x hx => h i x ?_, fun i x hx => ?_⟩
    · obtain ⟨hlt, -⟩ := List.getElem?_eq_some_iff.mp hx
      rw [List.getElem?_append_left hlt]
      exact hx
    · rw [Nat.add_assoc]
      refine h _ x ?_
      rw [List.getElem?_append_right (Nat.le_add_right _ _), Nat.add_sub_cancel_left]
      exact hx
  · rintro ⟨ha, hb⟩ i x hx
    rcases Nat.lt_or_ge i a.length with hlt | hge
    · rw [List.getElem?_append_left hlt] at hx
      exact ha i x hx
    · rw [List.getElem?_append_right hge] at hx
      have hplace := hb _ x hx
      rwa [Nat.add_assoc, Nat.add_sub_cancel' hge] at hplace

theorem le_length (r : MadtRecord) : 8 ≤ r.length := by cases r <;> simp [MadtRecord.length]

theorem length_encode (r : MadtRecord) : r.encode.length = r.length := by cases r <;> rfl

theorem byteAt_memcpy {source num i : ℕ} (h : i < num) :
    byteAt (memcpy mem source num) i = mem (add32 source i) := by
  rw [byteAt, memcpy, List.getD_eq_getElem?_getD, List.getElem?_map, List.getElem?_range h]
  rfl

theorem append_eq_iff {a b : BitVec 16} {v : BitVec 32} : a ++ b = v ↔ a = hi v ∧ b = lo v := by
  have ha := a.isLt
  have hb := b.isLt
  have hv := v.isLt
  have hsum : (a ++ b).toNat = a.toNat * 2 ^ 16 + b.toNat := by
    rw [BitVec.toNat_append, ← Nat.shiftLeft_add_eq_or_of_lt hb, Nat.shiftLeft_eq]
  have hhi : (hi v).toNat = v.toNat / 2 ^ 16 := by
    rw [hi, BitVec.toNat_setWidth, BitVec.toNat_ushiftRight, Nat.shiftRight_eq_div_pow]
    omega
  have hlo : (lo v).toNat = v.toNat % 2 ^ 16 := by rw [lo, BitVec.toNat_setWidth]
  rw [← BitVec.toNat_inj, ← BitVec.toNat_inj, ← BitVec.toNat_inj, hsum, hhi, hlo]
  omega

/-- A half word that lies in memory is read back. -/
theorem BytesAt.read16 {v : BitVec 16} (h : BytesAt mem p (encode16 v)) (hp : p + 1 < 2 ^ 32) :
    read16 mem p = v := by
  have h₀ : mem p = v.setWidth 8 := h 0 _ rfl
  have h₁ : mem (add32 p 1) = (v >>> 8).setWidth 8 := by
    rw [add32, Nat.mod_eq_of_lt hp]
    exact h 1 _ rfl
  have hv := v.isLt
  apply BitVec.eq_of_toNat_eq
  rw [toNat_read16, h₀, h₁, BitVec.toNat_setWidth, BitVec.toNat_setWidth, BitVec.toNat_ushiftRight,
    Nat.shiftRight_eq_div_pow]
  omega

theorem BytesAt.half {l : List (BitVec 16)} (h : BytesAt mem p (l.flatMap encode16)) {i : ℕ}
    {v : BitVec 16} (hi : l[i]? = some v) : BytesAt mem (p + 2 * i) (encode16 v) := by
  induction l generalizing p i with
  | nil => cases hi
  | cons w l ih =>
    rw [List.flatMap_cons] at h
    obtain ⟨hw, hl⟩ := bytesAt_append.mp h
    cases i with
    | zero =>
      obtain rfl := Option.some.inj hi
      exact hw
    | succ i =>
      have hplace : p + 2 * (i + 1) = p + (encode16 w).length + 2 * i := by
        rw [encode16, List.length_cons, List.length_singleton]
        omega
      rw [hplace]
      exact ih hl hi

/-- A word of a copy of the `dat` of an entry. -/
theorem wordAt_memcpy {offset num : ℕ} (h : offset + 1 < num) :
    wordAt (memcpy mem (add32 p 2) num) offset = read16 mem (add32 p (offset + 2)) := by
  have hplace : ∀ i, add32 (add32 p 2) i = add32 p (i + 2) := by
    intro i
    rw [add32, add32, add32]
    omega
  have hnext : add32 p (offset + 1 + 2) = add32 (add32 p (offset + 2)) 1 := by
    rw [add32, add32, add32]
    omega
  rw [wordAt, byteAt_memcpy h, byteAt_memcpy (Nat.lt_of_succ_lt h), hplace, hplace, hnext]
  rfl

section Entry
variable (hbytes : BytesAt mem p r.encode) (hfits : p + r.length < 2 ^ 32)

include hbytes hfits

theorem entry_type : mem p = r.type := by cases r <;> exact hbytes 0 _ rfl

theorem entry_next : nextEntry mem p = p + r.length := by
  have hlength : mem (add32 p 1) = BitVec.ofNat 8 r.length := by
    have hlen := le_length r
    have hp : add32 p 1 = p + 1 := Nat.mod_eq_of_lt (by omega)
    rw [hp]
    cases r <;> exact hbytes 1 _ rfl
  have hnat : (BitVec.ofNat 8 r.length).toNat = r.length := by cases r <;> rfl
  rw [nextEntry, hlength, hnat, add32, Nat.mod_eq_of_lt hfits]

/-- The half words of an entry begin in its fifth byte. -/
theorem entry_half {i : ℕ} {h : BitVec 16} (hi : r.halves[i]? = some h) :
    read16 mem (add32 p (4 + 2 * i)) = h := by
  have hlen : 4 + 2 * r.halves.length = r.length := by cases r <;> rfl
  have hlt : i < r.halves.length := (List.getElem?_eq_some_iff.mp hi).1
  have hplace : add32 p (4 + 2 * i) = p + 4 + 2 * i := by
    rw [add32, Nat.mod_eq_of_lt (by omega), Nat.add_assoc]
  have hhalves : BytesAt mem (p + 4) (r.halves.flatMap encode16) := by
    have hsplit := (bytesAt_append.mp hbytes).2
    have hhead : ([r.type, BitVec.ofNat 8 r.length] ++ r.head).length = 4 := by cases r <;> rfl
    rwa [hhead] at hsplit
  rw [hplace]
  exact (hhalves.half hi).read16 (by omega)

/-- A word of the struct is a half word of the entry further on. -/
theorem entry_word {i num : ℕ} {h : BitVec 16} (hi : r.halves[i]? = some h)
    (hnum : 2 * i + 3 < num) : wordAt (memcpy mem (add32 p 2) num) (2 * i + 2) = h := by
  rw [wordAt_memcpy hnum, ← entry_half hbytes hfits hi]
  congr 2
  omega

omit hbytes in
/-- The last word of the struct is behind the entry. -/
theorem entry_word_last {num : ℕ} {next : BitVec 16} (hnext : read16 mem (p + r.length) = next)
    (hnum : r.length ≤ num) : wordAt (memcpy mem (add32 p 2) num) (r.length - 2) = next := by
  have hlen := le_length r
  have hplace : add32 p (r.length - 2 + 2) = p + r.length := by
    rw [Nat.sub_add_cancel (by omega), add32, Nat.mod_eq_of_lt hfits]
  rw [wordAt_memcpy (by omega), hplace, hnext]

/-- The first two bytes of the struct are those of the entry. -/
theorem entry_byte {i num : ℕ} {b : BitVec 8} (hi : r.head[i]? = some b) (hnum : 2 ≤ num) :
    byteAt (memcpy mem (add32 p 2) num) i = b := by
  have hlen := le_length r
  have hlt : i < 2 := by
    obtain ⟨hlt, -⟩ := List.getElem?_eq_some_iff.mp hi
    cases r <;> exact hlt
  have hplace : add32 (add32 p 2) i = p + (2 + i) := by
    rw [add32, add32]
    omega
  rw [byteAt_memcpy (hlt.trans_le hnum), hplace]
  refine hbytes (2 + i) b ?_
  rw [MadtRecord.encode, List.append_assoc, List.getElem?_append_right (Nat.le_add_right 2 i),
    List.length_cons, List.length_singleton, Nat.add_sub_cancel_left, List.getElem?_append_left]
  · exact hi
  · exact (List.getElem?_eq_some_iff.mp hi).1

end Entry

/-! ## One entry and its struct -/

theorem proc_ofBytes_iff {uid apicId : BitVec 8} {flags : BitVec 32} {next : BitVec 16}
    (hbytes : BytesAt mem p (MadtRecord.proc uid apicId flags).encode)
    (hfits : p + (MadtRecord.proc uid apicId flags).length < 2 ^ 32)
    (hnext : read16 mem (p + (MadtRecord.proc uid apicId flags).length) = next) :
    MadtProc.ofBytes (memcpy mem (add32 p 2) sizeofProc) = ⟨uid, apicId, flags⟩ ↔
      ∀ h ∈ (MadtRecord.proc uid apicId flags).halves, h = next := by
  have hid : byteAt (memcpy mem (add32 p 2) sizeofProc) 0 = uid :=
    entry_byte hbytes hfits rfl (by decide)
  have hapic : byteAt (memcpy mem (add32 p 2) sizeofProc) 1 = apicId :=
    entry_byte hbytes hfits rfl (by decide)
  have hlow : wordAt (memcpy mem (add32 p 2) sizeofProc) 4 = hi flags :=
    @entry_word _ _ _ hbytes hfits 1 _ _ rfl (by decide)
  have hlast : wordAt (memcpy mem (add32 p 2) sizeofProc) 6 = next :=
    entry_word_last hfits hnext (by simp [MadtRecord.length, sizeofProc])
  rw [MadtProc.ofBytes, hid, hapic, dwordAt, hlow, hlast, MadtProc.mk.injEq, append_eq_iff]
  simp only [MadtRecord.halves, List.mem_cons, List.not_mem_nil, or_false, forall_eq_or_imp,
    forall_eq, true_and]
  constructor
  · rintro ⟨h₁, h₂⟩
    exact ⟨h₂ ▸ h₁.symm, h₁.symm⟩
  · rintro ⟨h₁, h₂⟩
    exact ⟨h₂.symm, h₂.trans h₁.symm⟩

theorem ioapic_ofBytes_iff {id reserved : BitVec 8} {address interruptBase : BitVec 32}
    {next : BitVec 16}
    (hbytes : BytesAt mem p (MadtRecord.ioapic id reserved address interruptBase).encode)
    (hfits : p + (MadtRecord.ioapic id reserved address interruptBase).length < 2 ^ 32)
    (hnext : read16 mem (p + (MadtRecord.ioapic id reserved address interruptBase).length) = next) :
    MadtIoapic.ofBytes (memcpy mem (add32 p 2) sizeofIoapic) =
        ⟨id, reserved, address, interruptBase⟩ ↔
      ∀ h ∈ (MadtRecord.ioapic id reserved address interruptBase).halves,
        h = next := by
  have hid : byteAt (memcpy mem (add32 p 2) sizeofIoapic) 0 = id :=
    entry_byte hbytes hfits rfl (by decide)
  have hreserved : byteAt (memcpy mem (add32 p 2) sizeofIoapic) 1 = reserved :=
    entry_byte hbytes hfits rfl (by decide)
  have h₁ : wordAt (memcpy mem (add32 p 2) sizeofIoapic) 4 = hi address :=
    @entry_word _ _ _ hbytes hfits 1 _ _ rfl (by decide)
  have h₂ : wordAt (memcpy mem (add32 p 2) sizeofIoapic) 6 = lo interruptBase :=
    @entry_word _ _ _ hbytes hfits 2 _ _ rfl (by decide)
  have h₃ : wordAt (memcpy mem (add32 p 2) sizeofIoapic) 8 = hi interruptBase :=
    @entry_word _ _ _ hbytes hfits 3 _ _ rfl (by decide)
  have hlast : wordAt (memcpy mem (add32 p 2) sizeofIoapic) 10 = next :=
    entry_word_last hfits hnext (by simp [MadtRecord.length, sizeofIoapic])
  rw [MadtIoapic.ofBytes, hid, hreserved, dwordAt, dwordAt, h₁, h₂, h₃, hlast,
    MadtIoapic.mk.injEq, append_eq_iff, append_eq_iff]
  simp only [MadtRecord.halves, List.mem_cons, List.not_mem_nil, or_false, forall_eq_or_imp,
    forall_eq, true_and]
  constructor
  · rintro ⟨⟨h₁, h₂⟩, h₃, h₄⟩
    have hbase : lo interruptBase = next := h₄ ▸ h₃.symm
    have haddr : hi address = next := h₁ ▸ hbase
    exact ⟨h₂ ▸ haddr, haddr, hbase, h₃.symm⟩
  · rintro ⟨h₁, h₂, h₃, h₄⟩
    exact ⟨⟨h₃.trans h₂.symm, h₂.trans h₁.symm⟩, h₄.symm, h₄.trans h₃.symm⟩

theorem iso_ofBytes_iff {bus source : BitVec 8} {globalInterrupt : BitVec 32}
    {flags next : BitVec 16}
    (hbytes : BytesAt mem p (MadtRecord.iso bus source globalInterrupt flags).encode)
    (hfits : p + (MadtRecord.iso bus source globalInterrupt flags).length < 2 ^ 32)
    (hnext : read16 mem (p + (MadtRecord.iso bus source globalInterrupt flags).length) = next) :
    MadtIso.ofBytes (memcpy mem (add32 p 2) sizeofIso) = ⟨bus, source, globalInterrupt, flags⟩ ↔
      ∀ h ∈ (MadtRecord.iso bus source globalInterrupt flags).halves, h = next := by
  have hbus : byteAt (memcpy mem (add32 p 2) sizeofIso) 0 = bus :=
    entry_byte hbytes hfits rfl (by decide)
  have hsource : byteAt (memcpy mem (add32 p 2) sizeofIso) 1 = source :=
    entry_byte hbytes hfits rfl (by decide)
  have h₁ : wordAt (memcpy mem (add32 p 2) sizeofIso) 4 = hi globalInterrupt :=
    @entry_word _ _ _ hbytes hfits 1 _ _ rfl (by decide)
  have h₂ : wordAt (memcpy mem (add32 p 2) sizeofIso) 6 = flags :=
    @entry_word _ _ _ hbytes hfits 2 _ _ rfl (by decide)
  have hlast : wordAt (memcpy mem (add32 p 2) sizeofIso) 8 = next :=
    entry_word_last hfits hnext (by simp [MadtRecord.length, sizeofIso])
  rw [MadtIso.ofBytes, hbus, hsource, dwordAt, h₁, h₂, hlast, MadtIso.mk.injEq, append_eq_iff]
  simp only [MadtRecord.halves, List.mem_cons, List.not_mem_nil, or_false, forall_eq_or_imp,
    forall_eq, true_and]
  constructor
  · rintro ⟨⟨h₁, h₂⟩, h₃⟩
    have hglobal : hi globalInterrupt = next := h₁ ▸ h₃.symm
    exact ⟨h₂ ▸ hglobal, hglobal, h₃.symm⟩
  · rintro ⟨h₁, h₂, h₃⟩
    exact ⟨⟨h₃.trans h₂.symm, h₂.trans h₁.symm⟩, h₃.symm⟩

/-! ## All entries -/

section Entries
variable (hbytes : BytesAt mem p (records.flatMap MadtRecord.encode))
  (hfits : p + (records.flatMap MadtRecord.encode).length < 2 ^ 32)

include hbytes hfits

/-- The loop goes from entry to entry to the end of the table. -/
theorem leaves_records : Walk.Leaves (nextEntry mem)
    (· < p + (records.flatMap MadtRecord.encode).length) p records.length := by
  induction records generalizing p with
  | nil => exact Walk.leaves_zero.mpr (Nat.lt_irrefl p)
  | cons r records ih =>
    rw [List.flatMap_cons] at hbytes hfits ⊢
    obtain ⟨hr, hrecords⟩ := bytesAt_append.mp hbytes
    have hlen := le_length r
    rw [List.length_append, length_encode] at hfits ⊢
    rw [length_encode] at hrecords
    rw [List.length_cons, Walk.leaves_succ, entry_next hr (by omega), ← Nat.add_assoc]
    exact ⟨by omega, ih hrecords (by omega)⟩

/-- There is a copy for every entry. -/
theorem length_copies_records :
    (copies mem 0x0#8 p records.length).length =
        (records.filterMap MadtRecord.toProc).length ∧
      (copies mem 0x1#8 p records.length).length =
        (records.filterMap MadtRecord.toIoapic).length ∧
      (copies mem 0x2#8 p records.length).length =
        (records.filterMap MadtRecord.toIso).length := by
  induction records generalizing p with
  | nil => exact ⟨rfl, rfl, rfl⟩
  | cons r records ih =>
    rw [List.flatMap_cons] at hbytes hfits
    obtain ⟨hr, hrecords⟩ := bytesAt_append.mp hbytes
    rw [List.length_append, length_encode] at hfits
    rw [length_encode] at hrecords
    obtain ⟨hproc, hio, hiso⟩ := ih hrecords (by omega)
    rw [List.length_cons, copies, copies, copies, entry_next hr (by omega),
      entry_type hr (by omega), List.length_append, List.length_append, List.length_append, hproc,
      hio, hiso]
    cases r <;> simp [List.filterMap_cons, MadtRecord.type, MadtRecord.toProc, MadtRecord.toIoapic,
      MadtRecord.toIso, Nat.add_comm]

/-- The structs are what was encoded when the half words are all as the next one. -/
theorem copies_records_iff :
    ((copies mem 0x0#8 p records.length).map MadtProc.ofBytes =
          records.filterMap MadtRecord.toProc ∧
        (copies mem 0x1#8 p records.length).map MadtIoapic.ofBytes =
          records.filterMap MadtRecord.toIoapic ∧
        (copies mem 0x2#8 p records.length).map MadtIso.ofBytes =
          records.filterMap MadtRecord.toIso) ↔ Uniform mem p records := by
  induction records generalizing p with
  | nil => exact iff_of_true ⟨rfl, rfl, rfl⟩ trivial
  | cons r records ih =>
    rw [List.flatMap_cons] at hbytes hfits
    obtain ⟨hr, hrecords⟩ := bytesAt_append.mp hbytes
    rw [List.length_append, length_encode] at hfits
    rw [length_encode] at hrecords
    rw [List.length_cons, copies, copies, copies, entry_next hr (by omega),
      entry_type hr (by omega), Uniform, ← ih hrecords (by omega)]
    cases r with
    | proc uid apicId flags =>
      rw [← proc_ofBytes_iff hr (by omega) rfl]
      simp [List.filterMap_cons, MadtRecord.type, MadtRecord.toProc, MadtRecord.toIoapic,
        MadtRecord.toIso, MadtRecord.length, sizeofKind]
      tauto
    | ioapic id reserved address interruptBase =>
      rw [← ioapic_ofBytes_iff hr (by omega) rfl]
      simp [List.filterMap_cons, MadtRecord.type, MadtRecord.toProc, MadtRecord.toIoapic,
        MadtRecord.toIso, MadtRecord.length, sizeofKind]
      tauto
    | iso bus source globalInterrupt flags =>
      rw [← iso_ofBytes_iff hr (by omega) rfl]
      simp [List.filterMap_cons, MadtRecord.type, MadtRecord.toProc, MadtRecord.toIoapic,
        MadtRecord.toIso, MadtRecord.length, sizeofKind]
      tauto

end Entries

/-- The arrays behind a run are what the loop has copied. -/
theorem listed_readMadt {low' : Low} (h : readMadt mem fuel madt low = .ok low')
    (hleaves : Walk.Leaves (nextEntry mem) (· < tableEnd mem madt) (firstEntry madt) n) :
    listed low'.procs low'.procCount = copies mem 0x0#8 (firstEntry madt) n ∧
      listed low'.ioapics low'.ioapicCount = copies mem 0x1#8 (firstEntry madt) n ∧
      listed low'.isos low'.isoCount = copies mem 0x2#8 (firstEntry madt) n := by
  rw [readMadt] at h
  obtain ⟨c, hloop, h⟩ := bind_eq_ok.mp h
  split_ifs at h
  cases h
  exact ⟨entryLoop_elements hloop hleaves (.inl rfl),
    entryLoop_elements hloop hleaves (.inr (.inl rfl)),
    entryLoop_elements hloop hleaves (.inr (.inr rfl))⟩

/-- The setup returns where there are entries of each kind and room for them. -/
theorem exists_readMadt
    (hleaves : Walk.Leaves (nextEntry mem) (· < tableEnd mem madt) (firstEntry madt) n)
    (hroom : ∀ t, IsKind t → 1 ≤ (copies mem t (firstEntry madt) n).length ∧
      (copies mem t (firstEntry madt) n).length ≤ madtCopy) (low : Low) :
    ∃ low', readMadt mem (n + 1) madt low = .ok low' := by
  obtain ⟨c, hloop⟩ := @exists_entryLoop mem _ _ _
    ⟨0, 0, 0, { low with lapicBase := read32 mem (add32 madt sizeofSdtHeader) }⟩ hleaves
    fun t ht => by
      rw [count_types_eq]
      rcases ht with rfl | rfl | rfl
      · exact (Nat.zero_add _).le.trans (hroom _ (.inl rfl)).2
      · exact (Nat.zero_add _).le.trans (hroom _ (.inr (.inl rfl))).2
      · exact (Nat.zero_add _).le.trans (hroom _ (.inr (.inr rfl))).2
  have hlen : ∀ t, IsKind t → 0 < (c.elements t).length := by
    intro t ht
    rw [entryLoop_elements hloop hleaves ht, List.length_append]
    exact (hroom t ht).1.trans (Nat.le_add_left _ _)
  have hpc : c.pc ≠ 0 := Nat.ne_of_gt (by simpa [Copied.elements] using hlen _ (.inl rfl))
  have hic : c.ic ≠ 0 := Nat.ne_of_gt (by simpa [Copied.elements] using hlen _ (.inr (.inl rfl)))
  have hsc : c.sc ≠ 0 := Nat.ne_of_gt (by simpa [Copied.elements] using hlen _ (.inr (.inr rfl)))
  refine ⟨{ c.low with
    procCount := c.pc, ioapicCount := c.ic, isoCount := c.sc, acpiFound := true }, ?_⟩
  rw [readMadt]
  simp only [hloop, bind, Except.bind, if_neg hpc, if_neg hic, if_neg hsc]

/-- **The MADT is decoded as encoded** exactly when all half words of every entry are the one
that follows the entry. -/
theorem decodes_iff (h : LaidOut mem madt records) (hproc : Fills MadtRecord.toProc records)
    (hio : Fills MadtRecord.toIoapic records) (hiso : Fills MadtRecord.toIso records) :
    Decodes mem madt records ↔ Uniform mem (madt + sizeofMadt) records := by
  have hfits := h.fits
  have hfirst : firstEntry madt = madt + sizeofMadt := by
    rw [firstEntry, add32]
    omega
  have hend : tableEnd mem madt =
      madt + sizeofMadt + (records.flatMap MadtRecord.encode).length := by
    rw [tableEnd, h.length, add32]
    omega
  have hleaves : Walk.Leaves (nextEntry mem) (· < tableEnd mem madt) (firstEntry madt)
      records.length := by
    rw [hfirst, hend]
    exact leaves_records h.entries hfits
  have hcopies := copies_records_iff h.entries hfits
  obtain ⟨hlen₀, hlen₁, hlen₂⟩ := length_copies_records h.entries hfits
  rw [← hfirst] at hcopies hlen₀ hlen₁ hlen₂ ⊢
  rw [← hcopies]
  constructor
  · intro hdecodes
    obtain ⟨fuel, low', hread, h₀, h₁, h₂⟩ :=
      hdecodes ⟨false, 0, 0, 0, 0, fun _ => [], fun _ => [], fun _ => []⟩
    obtain ⟨hl₀, hl₁, hl₂⟩ := listed_readMadt hread hleaves
    rw [hl₀] at h₀
    rw [hl₁] at h₁
    rw [hl₂] at h₂
    exact ⟨h₀, h₁, h₂⟩
  · rintro ⟨h₀, h₁, h₂⟩ low
    have hroom : ∀ t, IsKind t → 1 ≤ (copies mem t (firstEntry madt) records.length).length ∧
        (copies mem t (firstEntry madt) records.length).length ≤ madtCopy := by
      rintro t (rfl | rfl | rfl)
      · exact hlen₀.symm ▸ hproc
      · exact hlen₁.symm ▸ hio
      · exact hlen₂.symm ▸ hiso
    obtain ⟨low', hread⟩ := exists_readMadt hleaves hroom low
    obtain ⟨hl₀, hl₁, hl₂⟩ := listed_readMadt hread hleaves
    exact ⟨_, low', hread, hl₀.symm ▸ h₀, hl₁.symm ▸ h₁, hl₂.symm ▸ h₂⟩

/-! ## A machine with one CPU -/

/-- The MADT of a machine with one CPU, one I/O APIC and one override. -/
def oneOfEach : List MadtRecord :=
  [.proc 0 0 1, .ioapic 0 0 0xfec00000 0, .iso 0 0 2 0]

/-- It lies at 0x1000, in front of zeros. -/
def memOneOfEach : Memory := fun a =>
  if a = 0x1004 then 74
  else if 0x102c ≤ a then (oneOfEach.flatMap MadtRecord.encode).getD (a - 0x102c) 0
  else 0

theorem laidOut_memOneOfEach : LaidOut memOneOfEach 0x1000 oneOfEach where
  fits := by decide
  length := by decide
  entries := by
    intro i b hb
    have hlt : i < (oneOfEach.flatMap MadtRecord.encode).length :=
      (List.getElem?_eq_some_iff.mp hb).1
    rw [memOneOfEach, if_neg (by rw [sizeofMadt]; omega), if_pos (by rw [sizeofMadt]; omega),
      show 0x1000 + sizeofMadt + i - 0x102c = i by rw [sizeofMadt]; omega,
      List.getD_eq_getElem?_getD, Option.mem_def.mp hb, Option.getD_some]

theorem decodes_iff_oneOfEach : LaidOut memOneOfEach 0x1000 oneOfEach ∧
    (Decodes memOneOfEach 0x1000 oneOfEach ↔
      Uniform memOneOfEach (0x1000 + sizeofMadt) oneOfEach) :=
  ⟨laidOut_memOneOfEach, decodes_iff laidOut_memOneOfEach (by decide) (by decide) (by decide)⟩

/-- The flags of the CPU are read from the address of the I/O APIC. -/
theorem not_decodes_oneOfEach : LaidOut memOneOfEach 0x1000 oneOfEach ∧
    Fills MadtRecord.toProc oneOfEach ∧ Fills MadtRecord.toIoapic oneOfEach ∧
    Fills MadtRecord.toIso oneOfEach ∧ ¬ Decodes memOneOfEach 0x1000 oneOfEach := by
  refine ⟨laidOut_memOneOfEach, by decide, by decide, by decide, fun h => ?_⟩
  obtain ⟨fuel, low', hread, hprocs, -⟩ :=
    h ⟨false, 0, 0, 0, 0, fun _ => [], fun _ => [], fun _ => []⟩
  have hfirst : firstEntry 0x1000 = 0x1000 + sizeofMadt := by decide
  have hend : tableEnd memOneOfEach 0x1000 =
      0x1000 + sizeofMadt + (oneOfEach.flatMap MadtRecord.encode).length := by decide
  have hleaves := leaves_records laidOut_memOneOfEach.entries laidOut_memOneOfEach.fits
  rw [← hend, ← hfirst] at hleaves
  rw [(listed_readMadt hread hleaves).1] at hprocs
  exact absurd hprocs (by decide)

end Cantos.Acpi
