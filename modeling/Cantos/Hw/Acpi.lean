import Cantos.Mem.State
import Mathlib.Data.BitVec

/-!
# The ACPI tables

`low_setup` looks for the RSDP in low memory, follows it to the other tables, and copies the
entries of the MADT to the arrays of the kernel, where `cpu::init` counts them.

Memory is a function of the address.  The tables do not lie where the arrays are.

## Main definitions

* `findRsdp`: the two searches for the RSDP.
* `MadtProc.ofBytes`, `MadtIoapic.ofBytes`, `MadtIso.ofBytes`: the structs in memory.
* `entryLoop`, `readMadt`: the `switch` case for a MADT.
* `lowSetup`
-/

namespace Cantos.Acpi

/-- The byte at every address. -/
abbrev Memory := ℕ → BitVec 8

/-- A little-endian `uint16_t`. -/
def read16 (mem : Memory) (a : ℕ) : BitVec 16 := mem (add32 a 1) ++ mem a

/-- A little-endian `uint32_t`. -/
def read32 (mem : Memory) (a : ℕ) : BitVec 32 := read16 mem (add32 a 2) ++ read16 mem a

theorem toNat_read16 (mem : Memory) (a : ℕ) :
    (read16 mem a).toNat = (mem (add32 a 1)).toNat * 2 ^ 8 + (mem a).toNat := by
  rw [read16, BitVec.toNat_append, ← Nat.shiftLeft_add_eq_or_of_lt (mem a).isLt, Nat.shiftLeft_eq]

theorem toNat_read32 (mem : Memory) (a : ℕ) :
    (read32 mem a).toNat = (read16 mem (add32 a 2)).toNat * 2 ^ 16 + (read16 mem a).toNat := by
  rw [read32, BitVec.toNat_append, ← Nat.shiftLeft_add_eq_or_of_lt (read16 mem a).isLt,
    Nat.shiftLeft_eq]

/-- The bytes that `_memcpy` takes from `source`. -/
def memcpy (mem : Memory) (source num : ℕ) : List (BitVec 8) :=
  (List.range num).map fun i => mem (add32 source i)

/-- `RSDP_SIG_A` -/
def rsdpSigA : BitVec 32 := 0x20445352#32
/-- `RSDP_SIG_B` -/
def rsdpSigB : BitVec 32 := 0x20525450#32
/-- `MADT_SIG` -/
def madtSig : BitVec 32 := 0x43495041#32
/-- `MAX_CORES` -/
def maxCores : ℕ := 32
/-- `MADT_COPY` -/
def madtCopy : ℕ := maxCores

/-- `sizeof(SdtHeader)` -/
def sizeofSdtHeader : ℕ := 36
/-- `sizeof(Madt)` -/
def sizeofMadt : ℕ := 44
/-- `sizeof(MadtProc)` -/
def sizeofProc : ℕ := 8
/-- `sizeof(MadtIoapic)` -/
def sizeofIoapic : ℕ := 12
/-- `sizeof(MadtIso)` -/
def sizeofIso : ℕ := 12

/-! ## The structs -/

section Structs

/-- The byte at an offset of a struct. -/
def byteAt (l : List (BitVec 8)) (offset : ℕ) : BitVec 8 := l.getD offset 0

/-- The `uint16_t` at an offset. -/
def wordAt (l : List (BitVec 8)) (offset : ℕ) : BitVec 16 :=
  byteAt l (offset + 1) ++ byteAt l offset

/-- The `uint32_t` at an offset. -/
def dwordAt (l : List (BitVec 8)) (offset : ℕ) : BitVec 32 :=
  wordAt l (offset + 2) ++ wordAt l offset

structure MadtProc where
  id : BitVec 8
  apicId : BitVec 8
  flags : BitVec 32
  deriving DecidableEq, Repr

structure MadtIoapic where
  id : BitVec 8
  reserved : BitVec 8
  addr : BitVec 32
  intBase : BitVec 32
  deriving DecidableEq, Repr

structure MadtIso where
  busSource : BitVec 8
  irqSource : BitVec 8
  globalInt : BitVec 32
  flags : BitVec 16
  deriving DecidableEq, Repr

/-- The struct in some bytes: a `uint32_t` is aligned to 4. -/
def MadtProc.ofBytes (l : List (BitVec 8)) : MadtProc := ⟨byteAt l 0, byteAt l 1, dwordAt l 4⟩

def MadtIoapic.ofBytes (l : List (BitVec 8)) : MadtIoapic :=
  ⟨byteAt l 0, byteAt l 1, dwordAt l 4, dwordAt l 8⟩

def MadtIso.ofBytes (l : List (BitVec 8)) : MadtIso :=
  ⟨byteAt l 0, byteAt l 1, dwordAt l 4, wordAt l 8⟩

end Structs

/-- Why the setup does not return. -/
inductive LowStuck
  /-- `low_error` was called with this text. -/
  | error (msg : String)
  /-- An array is written behind its end. -/
  | outOfBounds
  | diverge
  deriving DecidableEq, Repr

/-- The variables that `low_setup` writes. The arrays are given by the bytes of their
elements. -/
structure Low where
  acpiFound : Bool
  procCount : ℕ
  ioapicCount : ℕ
  isoCount : ℕ
  lapicBase : BitVec 32
  procs : ℕ → List (BitVec 8)
  ioapics : ℕ → List (BitVec 8)
  isos : ℕ → List (BitVec 8)

/-! ## The search for the RSDP -/

/-- A `for` loop over the addresses from `ptr` below `top`, in steps of 16; the last one that
passes the test is `rsdp`. -/
def searchRsdp (test : ℕ → Bool) (top : ℕ) : (fuel ptr rsdp : ℕ) → ℕ
  | 0, _, rsdp => rsdp
  | fuel + 1, ptr, rsdp =>
      if ptr < top then searchRsdp test top fuel (add32 ptr 16) (if test ptr then ptr else rsdp)
      else rsdp

/-- Where the EBDA begins. -/
def ebda (mem : Memory) : ℕ :=
  let ptr := ((read32 mem 0x40e <<< 4) &&& 0x000fffff#32).toNat
  add32 ptr (ptr % 16)

/-- `rsdp` after both searches; a null pointer is 0. -/
def findRsdp (mem : Memory) : ℕ :=
  let ptr := ebda mem
  let rsdp := searchRsdp (fun ptr => read32 mem ptr = rsdpSigA ∧ read32 mem ptr + 1 = rsdpSigB)
    (add32 ptr 1024) 1024 ptr 0
  searchRsdp (fun ptr => read32 mem ptr = rsdpSigA ∧ read32 mem (add32 ptr 4) = rsdpSigB)
    0x000fffff 0x1ffff 0x000e0000 rsdp

/-! ## The MADT -/

/-- The variables of the loop over the entries. -/
structure Copied where
  pc : ℕ
  ic : ℕ
  sc : ℕ
  low : Low

/-- The `switch` on the type of the entry at `p`, whose `dat` is behind the type and the
length. -/
def copyEntry (mem : Memory) (p : ℕ) (c : Copied) : Except LowStuck Copied :=
  let type := mem p
  let dat := add32 p 2
  if type = 0x0#8 then
    if c.pc < madtCopy then .ok { c with
      pc := c.pc + 1
      low.procs := Function.update c.low.procs c.pc (memcpy mem dat sizeofProc) }
    else .error .outOfBounds
  else if type = 0x1#8 then
    if c.ic < madtCopy then .ok { c with
      ic := c.ic + 1
      low.ioapics := Function.update c.low.ioapics c.ic (memcpy mem dat sizeofIoapic) }
    else .error .outOfBounds
  else if type = 0x2#8 then
    if c.sc < madtCopy then .ok { c with
      sc := c.sc + 1
      low.isos := Function.update c.low.isos c.sc (memcpy mem dat sizeofIso) }
    else .error .outOfBounds
  else .ok c

/-- `p += entry->length` -/
def nextEntry (mem : Memory) (p : ℕ) : ℕ := add32 p (mem (add32 p 1)).toNat

/-- The loop over the entries below `top`. -/
def entryLoop (mem : Memory) (top : ℕ) : (fuel p : ℕ) → Copied → Except LowStuck Copied
  | 0, _, _ => .error .diverge
  | fuel + 1, p, c =>
      if p < top then do
        let c ← copyEntry mem p c
        entryLoop mem top fuel (nextEntry mem p) c
      else .ok c

/-- The first entry of a MADT. -/
def firstEntry (madt : ℕ) : ℕ := add32 madt sizeofMadt

/-- The end of a table. -/
def tableEnd (mem : Memory) (table : ℕ) : ℕ := add32 table (read32 mem (add32 table 4)).toNat

/-- `case MADT_SIG` -/
def readMadt (mem : Memory) (fuel madt : ℕ) (low : Low) : Except LowStuck Low := do
  let low := { low with lapicBase := read32 mem (add32 madt sizeofSdtHeader) }
  let c ← entryLoop mem (tableEnd mem madt) fuel (firstEntry madt) ⟨0, 0, 0, low⟩
  if c.pc = 0 then .error (.error "ACPI: MADT table doesn't specify any processors")
  else if c.ic = 0 then .error (.error "ACPI: MADT table doesn't specify any ioapics")
  else if c.sc = 0 then
    .error (.error "ACPI: MADT table doesn't specify any interrupt source overrides")
  else
    .ok { c.low with procCount := c.pc, ioapicCount := c.ic, isoCount := c.sc, acpiFound := true }

/-! ## `low_setup` -/

/-- The loop over the pointers of the RSDT, which are `size` bytes apart. -/
def tableLoop (mem : Memory) (size top : ℕ) :
    (fuel hdr : ℕ) → (foundMadt : Bool) → Low → Except LowStuck (Bool × Low)
  | 0, _, _, _ => .error .diverge
  | fuel + 1, hdr, foundMadt, low =>
      if hdr < top then
        let hdata := (read32 mem hdr).toNat
        if read32 mem hdata = madtSig then do
          let low ← readMadt mem fuel hdata low
          tableLoop mem size top fuel (add32 hdr size) true low
        else tableLoop mem size top fuel (add32 hdr size) foundMadt low
      else .ok (foundMadt, low)

/-- The variables when no RSDP is found. -/
def Low.notFound (low : Low) : Low :=
  { low with acpiFound := false, procCount := 1, ioapicCount := 1, isoCount := 0 }

/-- `low_setup` behind the searches, with the RSDP at an address. -/
def readTables (mem : Memory) (fuel rsdp : ℕ) (low : Low) : Except LowStuck Low := do
  let usingXsdt : Bool := 2 ≤ (mem (add32 rsdp 15)).toNat
  -- `xsdt_addr` has 64 bits, of which a pointer takes the lower ones.
  let rsdt := (read32 mem (add32 rsdp (if usingXsdt then 24 else 16))).toNat
  let r ← tableLoop mem (if usingXsdt then 8 else 4) (tableEnd mem rsdt) fuel
    (add32 rsdt sizeofSdtHeader) false low
  if r.1 then .ok r.2 else .error (.error "ACPI: Didn't find a MADT table")

def lowSetup (mem : Memory) (fuel : ℕ) (low : Low) : Except LowStuck Low :=
  if findRsdp mem = 0 then .ok low.notFound else readTables mem fuel (findRsdp mem) low

/-! ## `cpu::init` -/

/-- What `cpu::init` sets of a `Status`. -/
structure Status where
  cpuId : ℕ
  stack : ℕ
  awoken : Bool
  deriving DecidableEq

/-- The `Status` of every CPU, which are also the indices of `stacks`; `kinstall` returns
`stack i` for the CPU `i`. -/
def cpuInit (stack : ℕ → ℕ) (procCount : ℕ) : Except LowStuck (List Status) :=
  (List.range procCount).mapM fun i =>
    if i < maxCores then .ok ⟨i, stack i, false⟩ else .error .outOfBounds

end Cantos.Acpi
