import Cantos.Vm.Map

/-!
# The page tables that the kernel boots with

`low_kernel_main` writes a page directory at `vm_start` and the page tables of the kernel
behind it.  Memory is the dword at every address, and a page is looked up as the CPU does it,
through the directory.

## Main definitions

* `KernelMap`: the fields of `map_low`.
* `setupPages`: the nested loops.
* `translate`: the page that a logical address leads to.
* `Layout`: the maps of kernels.
* `KernelMap.Documented`: every page has the rights that the documentation gives it.
-/

namespace Cantos.Boot

/-- The dword at every address. -/
abbrev Dwords := ℕ → ℕ

/-- `PAGE_DIR_SIZE` -/
def pageDirSize : ℕ := 0x400000
/-- `KERNEL_VM_PAGE_TABLES` -/
def kernelVmPageTables : ℕ := kernelVmSize / pageSize / pageTableLength
/-- `PAGE_TABLE_SIZE` -/
def pageTableSize : ℕ := 0x80

/-- The sizes as numbers, for `simp only`. -/
theorem tableSizes : pageDirSize = 4194304 ∧ pageTableLength = 1024 ∧ kernelVmBase = 3221225472 ∧
    pageTablePresent = 1 ∧ pageTableRw = 2 ∧ pageTableSize = 128 := by
  decide

/-- The fields of `map_low` that `low_kernel_main` fills. -/
structure KernelMap where
  kernelRoStart : ℕ
  kernelRoEnd : ℕ
  kernelRwStart : ℕ
  kernelRwEnd : ℕ
  kernelInfoStart : ℕ
  kernelInfoEnd : ℕ
  vmStart : ℕ
  vmEnd : ℕ
  memoryStart : ℕ
  deriving DecidableEq, Repr

/-- "Fill in kernel map" -/
def fillMap (lowestInfo lowRoEnd lowRwEnd infoEnd : ℕ) : KernelMap :=
  let vmEnd := add32 (add32 infoEnd (4 * pageTableLength))
    (4 * pageTableLength * kernelVmPageTables)
  { kernelRoStart := lowestInfo
    kernelRoEnd := lowRoEnd
    kernelRwStart := lowRoEnd
    kernelRwEnd := lowRwEnd
    kernelInfoStart := lowRwEnd
    kernelInfoEnd := infoEnd
    vmStart := infoEnd
    vmEnd := vmEnd
    memoryStart := vmEnd }

variable (map : KernelMap)

/-- `addr` in the inner loop. -/
def pageAddr (i j : ℕ) : ℕ :=
  sub32 (add32 (mul32 i pageDirSize) (mul32 j pageSize)) kernelVmBase

/-- The entry for the page at `addr`. -/
def pageEntry (addr : ℕ) : ℕ :=
  if addr ≥ map.kernelRoStart ∧ addr < add32 map.kernelRoEnd pageSize then
    addr ||| pageTablePresent
  else if addr ≥ map.kernelRwStart ∧ addr < add32 map.vmEnd pageSize then
    addr ||| pageTableRw ||| pageTablePresent
  else 0

/-- The last `k` turns of the inner loop, the next one being for `j`. -/
def fillTable (i : ℕ) : (k j entry : ℕ) → Dwords → Dwords
  | 0, _, _, mem => mem
  | k + 1, j, entry, mem =>
      fillTable i k (j + 1) (add32 entry 4)
        (Function.update mem entry (pageEntry map (pageAddr i j)))

/-- The last `k` turns of the outer loop, the next one being for `i`. -/
def fillDirectory (dir : ℕ) : (k i table : ℕ) → Dwords → Dwords
  | 0, _, _, mem => mem
  | k + 1, i, table, mem =>
      let entry := add32 dir (4 * i)
      if i ≥ kernelVmBase / pageDirSize then
        let mem := Function.update mem entry (table ||| pageTableRw ||| pageTablePresent)
        fillDirectory dir k (i + 1) (add32 table pageSize)
          (fillTable map i pageTableLength 0 table mem)
      else
        fillDirectory dir k (i + 1) table (Function.update mem entry (pageTableRw ||| pageTableSize))

/-- `low_kernel_main` from "Set up page mapping for the first 1MB" on. -/
def setupPages (mem : Dwords) : Dwords :=
  let dir := map.vmStart
  let table := add32 map.vmStart (4 * pageTableLength)
  fillDirectory map dir (pageTableLength - 1) 1 table
    (Function.update mem dir (pageTableRw ||| pageTablePresent ||| pageTableSize))

/-! ## Looking a page up -/

/-- The physical address that the logical address `v` leads to, and whether it can be written,
when it is present. -/
def translate (mem : Dwords) (dir v : ℕ) : Option (ℕ × Bool) :=
  let directoryEntry := mem (add32 dir (4 * (v / pageDirSize)))
  if ¬ directoryEntry.testBit 0 then none
  else if directoryEntry.testBit 7 then
    some (directoryEntry / pageDirSize * pageDirSize + v % pageDirSize, directoryEntry.testBit 1)
  else
    let entry := mem (add32 (directoryEntry / pageSize * pageSize)
      (4 * (v / pageSize % pageTableLength)))
    if ¬ entry.testBit 0 then none
    else some (entry / pageSize * pageSize + v % pageSize,
      directoryEntry.testBit 1 && entry.testBit 1)

/-- The rights of the page at the physical address `p` in the kernel's part of memory are as
documented; the page behind `vm_end` may have any. -/
structure KernelMap.DocumentedAt (mem : Dwords) (p : ℕ) : Prop where
  readonly : map.kernelRoStart ≤ p → p < map.kernelRoEnd →
    translate mem map.vmStart (kernelVmBase + p) = some (p, false)
  readWrite : map.kernelRwStart ≤ p → p < map.vmEnd →
    translate mem map.vmStart (kernelVmBase + p) = some (p, true)
  absent : ¬ (map.kernelRoStart ≤ p ∧ p < map.kernelRoEnd) →
    ¬ (map.kernelRwStart ≤ p ∧ p < map.vmEnd) → p ≠ map.vmEnd →
      translate mem map.vmStart (kernelVmBase + p) = none

/-- Every page has its documented rights. -/
def KernelMap.Documented (mem : Dwords) : Prop :=
  ∀ p, p % pageSize = 0 → p < kernelVmSize → map.DocumentedAt mem p

/-- A map of a kernel: its parts are pages, and follow each other. -/
structure Layout extends KernelMap where
  page_roStart : kernelRoStart % pageSize = 0
  page_roEnd : kernelRoEnd % pageSize = 0
  page_rwEnd : kernelRwEnd % pageSize = 0
  page_vmStart : vmStart % pageSize = 0
  page_vmEnd : vmEnd % pageSize = 0
  roStart_le : kernelRoStart ≤ kernelRoEnd
  roEnd_eq : kernelRoEnd = kernelRwStart
  rwStart_le : kernelRwStart ≤ kernelRwEnd
  rwEnd_le : kernelRwEnd ≤ vmStart
  vmStart_lt : vmStart < vmEnd
  vmEnd_lt : vmEnd < kernelVmSize - pageSize

/-! ## What is written -/

variable {map} {i j k d dir entry table a : ℕ} {mem : Dwords}

/-- The loop over a table keeps what is below it, and what is behind it. -/
theorem fillTable_of_notMem (hfit : entry + 4 * k < 2 ^ 32) (ha : a < entry ∨ entry + 4 * k ≤ a) :
    fillTable map i k j entry mem a = mem a := by
  induction k generalizing j entry mem with
  | zero => rfl
  | succ k ih =>
    have hadd : add32 entry 4 = entry + 4 := Nat.mod_eq_of_lt (by omega)
    rw [fillTable, hadd, ih (by omega) (by omega), Function.update_of_ne (by omega)]

theorem fillTable_at (hfit : entry + 4 * k < 2 ^ 32) (hd : d < k) :
    fillTable map i k j entry mem (entry + 4 * d) = pageEntry map (pageAddr i (j + d)) := by
  induction k generalizing j d entry mem with
  | zero => omega
  | succ k ih =>
    have hadd : add32 entry 4 = entry + 4 := Nat.mod_eq_of_lt (by omega)
    rw [fillTable, hadd]
    cases d with
    | zero => rw [fillTable_of_notMem (by omega) (by omega), Nat.mul_zero, Nat.add_zero,
        Function.update_self, Nat.add_zero]
    | succ d =>
      rw [show entry + 4 * (d + 1) = entry + 4 + 4 * d by omega, ih (by omega) (by omega),
        Nat.add_right_comm, Nat.add_assoc]

/-- The first entry of the directory that is the kernel's. -/
theorem first_eq : kernelVmBase / pageDirSize = 768 := by rw [tableSizes.1, tableSizes.2.2.1]

theorem fillDirectory_lower (hi : i < 768) (hfit : dir + 4 * i < 2 ^ 32) :
    fillDirectory map dir (k + 1) i table mem = fillDirectory map dir k (i + 1) table
      (Function.update mem (dir + 4 * i) (pageTableRw ||| pageTableSize)) := by
  have hentry : add32 dir (4 * i) = dir + 4 * i := Nat.mod_eq_of_lt hfit
  simp only [fillDirectory, hentry, first_eq, if_neg (Nat.not_le.mpr hi)]

theorem fillDirectory_kernel (hi : 768 ≤ i) (hfit : dir + 4 * i < 2 ^ 32)
    (htable : table + 4096 < 2 ^ 32) :
    fillDirectory map dir (k + 1) i table mem = fillDirectory map dir k (i + 1) (table + 4096)
      (fillTable map i 1024 0 table
        (Function.update mem (dir + 4 * i) (table ||| pageTableRw ||| pageTablePresent))) := by
  have hentry : add32 dir (4 * i) = dir + 4 * i := Nat.mod_eq_of_lt hfit
  have hadd : add32 table 4096 = table + 4096 := Nat.mod_eq_of_lt htable
  simp only [fillDirectory, hentry, first_eq, if_pos hi, sizes.1, hadd, tableSizes.2.1]

/-- The table that the loop writes in turn `i`, where the first one is at `table`. -/
def tableOf (table i : ℕ) : ℕ := table + (i - 768) * 4096

theorem tableOf_lower (table : ℕ) (hi : i < 768) : tableOf table (i + 1) = tableOf table i := by
  unfold tableOf
  omega

theorem tableOf_kernel (table : ℕ) (hi : 768 ≤ i) :
    tableOf table i + 4096 = tableOf table (i + 1) := by
  unfold tableOf
  omega

theorem tableOf_bounds (table : ℕ) (hi : i < 1024) :
    table ≤ tableOf table i ∧ tableOf table i + 4096 ≤ table + 256 * 4096 := by
  unfold tableOf
  omega

/-- The loop over the directory keeps the entries before its first one, and the tables before
the first one that it fills. -/
theorem fillDirectory_of_notMem (hk : i + k = 1024) (hdir : dir + 4096 ≤ table)
    (hfit : table + 256 * 4096 < 2 ^ 32)
    (ha : a < dir + 4 * i ∨ dir + 4096 ≤ a ∧ a < tableOf table i) :
    fillDirectory map dir k i (tableOf table i) mem a = mem a := by
  induction k generalizing i mem with
  | zero => rfl
  | succ k ih =>
    obtain ⟨hle, hbound⟩ := tableOf_bounds table (show i < 1024 by omega)
    rcases Nat.lt_or_ge i 768 with hi | hi
    · have hsame := tableOf_lower table hi
      rw [fillDirectory_lower hi (by omega), ← hsame, ih (by omega) (by omega),
        Function.update_of_ne (by omega)]
    · have hnext := tableOf_kernel table hi
      rw [fillDirectory_kernel hi (by omega) (by omega), hnext, ih (by omega) (by omega),
        fillTable_of_notMem (by omega) (by omega), Function.update_of_ne (by omega)]

/-- An entry of the directory, and the table that it leads to. -/
theorem fillDirectory_at (hk : i + k = 1024) (hdir : dir + 4096 ≤ table)
    (hfit : table + 256 * 4096 < 2 ^ 32) (hd768 : 768 ≤ d) (hid : i ≤ d) (hd : d < 1024) :
    fillDirectory map dir k i (tableOf table i) mem (dir + 4 * d) =
        (tableOf table d ||| pageTableRw ||| pageTablePresent) ∧
      ∀ j < 1024, fillDirectory map dir k i (tableOf table i) mem (tableOf table d + 4 * j) =
        pageEntry map (pageAddr d j) := by
  induction k generalizing i mem with
  | zero => omega
  | succ k ih =>
    obtain ⟨hle, hbound⟩ := tableOf_bounds table (show i < 1024 by omega)
    rcases Nat.lt_or_ge i 768 with hi | hi
    · rw [fillDirectory_lower hi (by omega), ← tableOf_lower table hi]
      exact ih (by omega) (by omega)
    · have hnext := tableOf_kernel table hi
      rw [fillDirectory_kernel hi (by omega) (by omega), hnext]
      rcases hid.eq_or_lt with rfl | hlt
      · refine ⟨?_, fun j hj => ?_⟩
        · rw [fillDirectory_of_notMem (by omega) hdir hfit (by omega),
            fillTable_of_notMem (by omega) (by omega), Function.update_self]
        · rw [fillDirectory_of_notMem (by omega) hdir hfit (by omega),
            fillTable_at (by omega) hj, Nat.zero_add]
      · exact ih (by omega) (by omega)

/-! ## What is looked up -/

variable {p : ℕ}

/-- Flags of a page are its lower bits. -/
theorem or_flags {flags : ℕ} (hp : p % 4096 = 0) (hflags : flags < 4096) :
    p ||| flags = p + flags := by
  have hshift : p = (p / 4096) <<< 12 := by rw [Nat.shiftLeft_eq]; omega
  rw [hshift]
  exact (Nat.shiftLeft_add_eq_or_of_lt hflags _).symm

theorem testBit_add_flags {flags : ℕ} (hp : p % 4096 = 0) (hk : k < 12) :
    (p + flags).testBit k = flags.testBit k := by
  have hmod : (p + flags) % 2 ^ 12 = flags % 2 ^ 12 := by omega
  have hleft := Nat.testBit_mod_two_pow (p + flags) 12 k
  have hright := Nat.testBit_mod_two_pow flags 12 k
  rw [hmod, hright] at hleft
  simpa [hk] using hleft.symm

theorem add_flags_div {flags : ℕ} (hp : p % 4096 = 0) (hflags : flags < 4096) :
    (p + flags) / 4096 * 4096 = p := by
  omega

/-- The indices of a page in the kernel's part of memory. -/
theorem indices (hp : p % 4096 = 0) (hlt : p < kernelVmSize) :
    (kernelVmBase + p) / pageDirSize = 768 + p / 4194304 ∧
      (kernelVmBase + p) / 4096 % pageTableLength = p / 4096 % 1024 ∧
      (kernelVmBase + p) % 4096 = 0 ∧
      pageAddr (768 + p / 4194304) (p / 4096 % 1024) = p := by
  simp only [sizes] at hlt
  simp only [pageAddr, add32, sub32, mul32, sizes, tableSizes]
  omega

/-- A page is looked up in the table at `table` when the directory says so. -/
theorem translate_eq (hp : p % 4096 = 0) (hlt : p < kernelVmSize) (hdir : dir + 4096 < 2 ^ 32)
    (hpage : table % 4096 = 0) (hfit : table + 4096 < 2 ^ 32)
    (hentry : mem (dir + 4 * (768 + p / 4194304)) = (table ||| pageTableRw ||| pageTablePresent)) :
    translate mem dir (kernelVmBase + p) =
      let entry := mem (table + 4 * (p / 4096 % 1024))
      if entry.testBit 0 then some (entry / 4096 * 4096, entry.testBit 1) else none := by
  obtain ⟨hd, hj, hmod, -⟩ := indices hp hlt
  have hflags : (table ||| pageTableRw ||| pageTablePresent) = table + 3 := by
    rw [Nat.or_assoc, or_flags hpage (by decide)]
    rfl
  have hplace : add32 dir (4 * (768 + p / 4194304)) = dir + 4 * (768 + p / 4194304) := by
    simp only [sizes] at hlt
    exact Nat.mod_eq_of_lt (by omega)
  have hbase : (table + 3) / 4096 * 4096 = table := add_flags_div hpage (by decide)
  have hadd : add32 table (4 * (p / 4096 % 1024)) = table + 4 * (p / 4096 % 1024) :=
    Nat.mod_eq_of_lt (by omega)
  have hbits : (table + 3).testBit 0 = true ∧ (table + 3).testBit 1 = true ∧
      (table + 3).testBit 7 = false := by
    refine ⟨?_, ?_, ?_⟩ <;> rw [testBit_add_flags hpage (by decide)] <;> decide
  obtain ⟨h0, h1, h7⟩ := hbits
  simp only [translate, hd, hj, hmod, hplace, hentry, hflags, h0, h1, h7, sizes.1, hbase, hadd,
    Nat.add_zero, Bool.true_and, not_true_eq_false, if_false, Bool.false_eq_true]
  split_ifs <;> rfl

theorem pageEntry_flags (hp : p % 4096 = 0) : pageEntry map p =
    if p ≥ map.kernelRoStart ∧ p < add32 map.kernelRoEnd pageSize then p + 1
    else if p ≥ map.kernelRwStart ∧ p < add32 map.vmEnd pageSize then p + 3 else 0 := by
  have hro : p ||| pageTablePresent = p + 1 := or_flags hp (by decide)
  have hrw : (p ||| pageTableRw ||| pageTablePresent) = p + 3 := by
    rw [Nat.or_assoc, or_flags hp (by decide)]
    rfl
  rw [pageEntry, hro, hrw]

/-- Everything is below the end of the kernel's part of memory. -/
theorem Layout.bounds (l : Layout) : l.kernelRoEnd ≤ l.vmStart ∧ l.vmStart < l.vmEnd ∧
    l.vmEnd < 1073737728 := by
  refine ⟨?_, l.vmStart_lt, by simpa only [sizes] using l.vmEnd_lt⟩
  rw [l.roEnd_eq]
  exact l.rwStart_le.trans l.rwEnd_le

theorem setupPages_eq (l : Layout) (mem : Dwords) :
    setupPages l.toKernelMap mem = fillDirectory l.toKernelMap l.vmStart 1023 1
      (tableOf (l.vmStart + 4096) 1) (Function.update mem l.vmStart
        (pageTableRw ||| pageTablePresent ||| pageTableSize)) := by
  obtain ⟨-, hlt, hend⟩ := l.bounds
  have hadd : add32 l.vmStart 4096 = l.vmStart + 4096 := Nat.mod_eq_of_lt (by omega)
  have hmul : 4 * pageTableLength = 4096 := rfl
  have hlen : pageTableLength - 1 = 1023 := rfl
  have htable : tableOf (l.vmStart + 4096) 1 = l.vmStart + 4096 := by
    unfold tableOf
    omega
  rw [setupPages, hmul, hadd, hlen, htable]

/-- The entry of the directory for an address, and its table. -/
theorem setupPages_at (l : Layout) (mem : Dwords) (hd768 : 768 ≤ d) (hd : d < 1024) :
    setupPages l.toKernelMap mem (l.vmStart + 4 * d) =
        (tableOf (l.vmStart + 4096) d ||| pageTableRw ||| pageTablePresent) ∧
      ∀ j < 1024, setupPages l.toKernelMap mem (tableOf (l.vmStart + 4096) d + 4 * j) =
        pageEntry l.toKernelMap (pageAddr d j) := by
  obtain ⟨-, hlt, hend⟩ := l.bounds
  rw [setupPages_eq]
  exact fillDirectory_at rfl le_rfl (by omega) hd768 (by omega) hd

/-- The rights that the tables give: one more page than `kernel_ro_end` says cannot be
written. -/
theorem translate_setupPages (l : Layout) (mem : Dwords) (hp : p % 4096 = 0)
    (hlt : p < kernelVmSize) :
    translate (setupPages l.toKernelMap mem) l.vmStart (kernelVmBase + p) =
      if l.kernelRoStart ≤ p ∧ p < l.kernelRoEnd + 4096 then some (p, false)
      else if l.kernelRwStart ≤ p ∧ p < l.vmEnd + 4096 then some (p, true) else none := by
  obtain ⟨hroLe, hle, hend⟩ := l.bounds
  have hpage : l.vmStart % 4096 = 0 := l.page_vmStart
  have hro : add32 l.kernelRoEnd 4096 = l.kernelRoEnd + 4096 := Nat.mod_eq_of_lt (by omega)
  have hrw : add32 l.vmEnd 4096 = l.vmEnd + 4096 := Nat.mod_eq_of_lt (by omega)
  have hbound : 768 + p / 4194304 < 1024 := by
    simp only [sizes] at hlt
    omega
  obtain ⟨hge, hfit⟩ := tableOf_bounds (l.vmStart + 4096) hbound
  have htable : tableOf (l.vmStart + 4096) (768 + p / 4194304) % 4096 = 0 := by
    unfold tableOf
    omega
  obtain ⟨hentry, hentries⟩ := setupPages_at l mem (Nat.le_add_right _ _) hbound
  rw [translate_eq hp hlt (by omega) htable (by omega) hentry]
  simp only [hentries _ (Nat.mod_lt _ (by decide)), (indices hp hlt).2.2.2, pageEntry_flags hp,
    sizes.1, hro, hrw, ge_iff_le]
  have hbits : (p + 1).testBit 0 = true ∧ (p + 1).testBit 1 = false ∧
      (p + 3).testBit 0 = true ∧ (p + 3).testBit 1 = true := by
    refine ⟨?_, ?_, ?_, ?_⟩ <;> rw [testBit_add_flags hp (by decide)] <;> decide
  obtain ⟨h10, h11, h30, h31⟩ := hbits
  have hbase : ∀ flags < 4096, (p + flags) / 4096 * 4096 = p := fun flags => add_flags_div hp
  split_ifs <;> simp_all

/-! ## The documented rights -/

/-- The rights are the documented ones for every page but the first one that can be written. -/
theorem documentedAt_iff (l : Layout) (mem : Dwords) (hp : p % pageSize = 0)
    (hlt : p < kernelVmSize) :
    l.DocumentedAt (setupPages l.toKernelMap mem) p ↔ p ≠ l.kernelRwStart := by
  have hrights := translate_setupPages l mem hp hlt
  have hro : l.kernelRoEnd % 4096 = 0 := l.page_roEnd
  have hvm : l.vmEnd % 4096 = 0 := l.page_vmEnd
  have heq := l.roEnd_eq
  have hle := l.roStart_le
  have hend : l.kernelRwStart < l.vmEnd :=
    (l.rwStart_le.trans l.rwEnd_le).trans_lt l.vmStart_lt
  simp only [sizes] at hp
  constructor
  · rintro h rfl
    have hdocumented := h.readWrite le_rfl hend
    rw [hrights, if_pos (by omega)] at hdocumented
    cases hdocumented
  · intro hne
    exact
      { readonly := fun hge hlt => by rw [hrights, if_pos (by omega)]
        readWrite := fun hge hlt => by rw [hrights, if_neg (by omega), if_pos (by omega)]
        absent := fun hnot hnot' hne' => by rw [hrights, if_neg (by omega), if_neg (by omega)] }

theorem rwStart_lt (l : Layout) : l.kernelRwStart < kernelVmSize := by
  have hle := l.rwStart_le.trans l.rwEnd_le
  have hlt := l.vmStart_lt
  have hend := l.vmEnd_lt
  omega

theorem page_rwStart (l : Layout) : l.kernelRwStart % pageSize = 0 := l.roEnd_eq ▸ l.page_roEnd

/-- The first page of the read/write part cannot be written, in any kernel. -/
theorem not_documented (l : Layout) (mem : Dwords) :
    ¬ l.Documented (setupPages l.toKernelMap mem) := fun h =>
  (documentedAt_iff l mem (page_rwStart l) (rwStart_lt l)).mp
    (h l.kernelRwStart (page_rwStart l) (rwStart_lt l)) rfl

/-- A kernel of 132 KiB. -/
def smallKernel : Layout where
  toKernelMap := fillMap 0x100000 0x110000 0x120000 0x121000
  page_roStart := by decide
  page_roEnd := by decide
  page_rwEnd := by decide
  page_vmStart := by decide
  page_vmEnd := by decide
  roStart_le := by decide
  roEnd_eq := by decide
  rwStart_le := by decide
  rwEnd_le := by decide
  vmStart_lt := by decide
  vmEnd_lt := by decide

theorem not_documented_smallKernel :
    ¬ (fillMap 0x100000 0x110000 0x120000 0x121000).Documented
      (setupPages (fillMap 0x100000 0x110000 0x120000 0x121000) fun _ => 0) := fun h =>
  (documentedAt_iff smallKernel (fun _ => 0) (page_rwStart smallKernel)
    (rwStart_lt smallKernel)).mp (h 0x110000 (by decide) (by decide)) rfl

end Cantos.Boot
