import Cantos.Hw.MadtLayout
import Cantos.Lib.Patch

/-!
# The strings of the boot loader

`low_kernel_main` copies the command line and the name of the boot loader to two arrays in low
memory, and means to end each with a null byte.  The macro `LOW` takes an array for a variable
of the type it is given: the null byte goes to where the first four bytes of the array point.

The boot loader puts its strings and its header outside of the kernel.

## Main definitions

* `strncpy`, `terminate`, `loadStrings`: the code.
* `BootStrings`: what the boot loader leaves.
* `BootStrings.Truncated`: both arrays hold what fits of their strings, and nothing else was
  written.
-/

namespace Cantos.Boot

open Acpi Patch

/-- `LOCAL_CMDLINE_LENGTH` -/
def localCmdlineLength : ℕ := 256
/-- `LOCAL_BOOT_LOADER_NAME_LENGTH` -/
def localBootLoaderNameLength : ℕ := 16

/-- Memory, and the addresses that were written. -/
structure Written where
  mem : Memory
  written : List ℕ

/-- Write a byte. -/
def Written.store (s : Written) (a : ℕ) (b : BitVec 8) : Written :=
  ⟨Function.update s.mem a b, a :: s.written⟩

/-- The address of `LOW(t, x)`, for a variable at `x`. -/
def low (x : ℕ) : ℕ := sub32 x kernelVmBase

/-- The last `k` turns of `_strncpy`, the next one being for `i`. -/
def strncpy (destination source : ℕ) : (k i : ℕ) → Written → Written
  | 0, _, s => s
  | k + 1, i, s =>
      let s := s.store (add32 destination i) (s.mem (add32 source i))
      if s.mem (add32 destination i) = 0 then s else strncpy destination source k (i + 1) s

/-- `LOW(char *, x)[n - 1] = '\0'`, for an array at `x`. -/
def terminate (x n : ℕ) (s : Written) : Written :=
  s.store (add32 (read32 s.mem (low x)).toNat (n - 1)) 0

/-- "Load multiboot information", as far as the strings; the fields of `mbi` are at their
offsets. -/
def loadStrings (mbi cmdline bootLoaderName : ℕ) (s : Written) : Written :=
  let s := strncpy (low cmdline) (read32 s.mem (add32 mbi 16)).toNat localCmdlineLength 0 s
  let s := terminate cmdline localCmdlineLength s
  let s := strncpy (low bootLoaderName) (read32 s.mem (add32 mbi 64)).toNat
    localBootLoaderNameLength 0 s
  terminate bootLoaderName localBootLoaderNameLength s

/-! ## The two arrays -/

/-- Two ranges of memory do not overlap. -/
def Apart (a k b l : ℕ) : Prop := a + k ≤ b ∨ b + l ≤ a

/-- What the boot loader leaves: a header at `mbi` with pointers to two strings, which are
outside of the two arrays. -/
structure BootStrings where
  mem : Memory
  mbi : ℕ
  /-- `&multiboot::cmdline` -/
  cmdline : ℕ
  /-- `&multiboot::boot_loader_name` -/
  bootLoaderName : ℕ
  /-- `mbi->cmdline`, without its null byte. -/
  line : List (BitVec 8)
  /-- `mbi->boot_loader_name`, without its null byte. -/
  name : List (BitVec 8)
  line_ne : 0 ∉ line
  name_ne : 0 ∉ name
  line_at : BytesAt mem (read32 mem (add32 mbi 16)).toNat (line ++ [0])
  name_at : BytesAt mem (read32 mem (add32 mbi 64)).toNat (name ++ [0])
  line_fits : (read32 mem (add32 mbi 16)).toNat + (line.length + 1) ≤ 2 ^ 32
  name_fits : (read32 mem (add32 mbi 64)).toNat + (name.length + 1) ≤ 2 ^ 32
  mbi_fits : mbi + 68 ≤ 2 ^ 32
  cmdline_fits : low cmdline + localCmdlineLength ≤ 2 ^ 32
  bootLoaderName_fits : low bootLoaderName + localBootLoaderNameLength ≤ 2 ^ 32
  arrays_apart : Apart (low cmdline) localCmdlineLength (low bootLoaderName)
    localBootLoaderNameLength
  line_apart : Apart (read32 mem (add32 mbi 16)).toNat (line.length + 1) (low cmdline)
    localCmdlineLength
  name_apart : Apart (read32 mem (add32 mbi 64)).toNat (name.length + 1) (low cmdline)
    localCmdlineLength
  name_apart' : Apart (read32 mem (add32 mbi 64)).toNat (name.length + 1) (low bootLoaderName)
    localBootLoaderNameLength
  mbi_apart : Apart mbi 68 (low cmdline) localCmdlineLength
  mbi_apart' : Apart mbi 68 (low bootLoaderName) localBootLoaderNameLength

/-- A null byte is written to each of some addresses, which leaves as much of the string `l` in
an array of `n` bytes at `x` as fits: none of them is in what is kept, and the last byte of the
array is one of them where the string is too long. -/
def Keeps (strays : List ℕ) (x n : ℕ) (l : List (BitVec 8)) : Prop :=
  (∀ a ∈ strays, ¬ (x ≤ a ∧ a < x + min l.length (n - 1))) ∧ (n ≤ l.length → x + (n - 1) ∈ strays)

instance (strays : List ℕ) (x n : ℕ) (l : List (BitVec 8)) : Decidable (Keeps strays x n l) :=
  inferInstanceAs (Decidable (_ ∧ _))

namespace BootStrings

variable (b : BootStrings)

/-- After the strings are loaded. -/
def load : Written := loadStrings b.mbi b.cmdline b.bootLoaderName ⟨b.mem, []⟩

/-- An address of one of the two arrays. -/
def InArrays (a : ℕ) : Prop :=
  low b.cmdline ≤ a ∧ a < low b.cmdline + localCmdlineLength ∨
    low b.bootLoaderName ≤ a ∧ a < low b.bootLoaderName + localBootLoaderNameLength

/-- Each array holds as much of its string as fits in front of a null byte, and only the two
arrays were written. -/
structure Truncated : Prop where
  line : BytesAt b.load.mem (low b.cmdline) (b.line.take (localCmdlineLength - 1) ++ [0])
  name : BytesAt b.load.mem (low b.bootLoaderName)
    (b.name.take (localBootLoaderNameLength - 1) ++ [0])
  frame : ∀ a ∈ b.load.written, b.InArrays a

/-- Memory after the command line is copied. -/
def copiedLine : Memory :=
  patch b.mem (low b.cmdline) ((b.line ++ [0]).take localCmdlineLength)

/-- Where the null byte for the command line goes. -/
def lineStray : ℕ :=
  add32 (read32 b.copiedLine (low b.cmdline)).toNat (localCmdlineLength - 1)

/-- Memory after the name is copied as well. -/
def copiedName : Memory :=
  patch (Function.update b.copiedLine b.lineStray 0) (low b.bootLoaderName)
    ((b.name ++ [0]).take localBootLoaderNameLength)

/-- Where the null byte for the name goes. -/
def nameStray : ℕ :=
  add32 (read32 b.copiedName (low b.bootLoaderName)).toNat (localBootLoaderNameLength - 1)

/-- The null bytes go to places in the arrays where they do no harm, and where they are
needed. -/
structure Harmless : Prop where
  lineStray : b.InArrays b.lineStray
  nameStray : b.InArrays b.nameStray
  line : Keeps [b.lineStray, b.nameStray] (low b.cmdline) localCmdlineLength b.line
  name : Keeps [b.nameStray] (low b.bootLoaderName) localBootLoaderNameLength b.name

end BootStrings

/-! ## Copying -/

variable {s : Written} {destination source k i x n a : ℕ} {t l : List (BitVec 8)} {m : Memory}

/-- The loop writes the string and its null byte as far as the count allows. -/
theorem strncpy_eq (hne : 0 ∉ t) (hsource : BytesAt s.mem (source + i) (t ++ [0]))
    (hfit : source + i + (t.length + 1) ≤ 2 ^ 32) (hdest : destination + i + k ≤ 2 ^ 32)
    (hapart : Apart (source + i) (t.length + 1) (destination + i) k) :
    (strncpy destination source k i s).mem =
        patch s.mem (destination + i) ((t ++ [0]).take k) ∧
      ∀ a, a ∈ (strncpy destination source k i s).written ↔
        a ∈ s.written ∨ destination + i ≤ a ∧ a < destination + i + min k (t.length + 1) := by
  induction k generalizing s i t with
  | zero => simp [strncpy]
  | succ k ih =>
    have hread : add32 source i = source + i := Nat.mod_eq_of_lt (by omega)
    have hwrite : add32 destination i = destination + i := Nat.mod_eq_of_lt (by omega)
    cases t with
    | nil =>
      have hzero : s.mem (source + i) = 0 := hsource 0 0 rfl
      have hstop : strncpy destination source (k + 1) i s = s.store (destination + i) 0 := by
        simp only [strncpy, hread, hwrite, hzero, Written.store, Function.update_self, if_true]
      rw [hstop]
      refine ⟨by simp [Written.store, patch_cons], fun a => ?_⟩
      rw [Written.store, List.mem_cons, or_comm]
      refine or_congr_right ?_
      rw [List.length_nil]
      omega
    | cons b t =>
      have hb : s.mem (source + i) = b := hsource 0 b rfl
      have hb0 : b ≠ 0 := fun h => hne (h ▸ List.mem_cons_self)
      have hgo : strncpy destination source (k + 1) i s =
          strncpy destination source k (i + 1) (s.store (destination + i) b) := by
        simp only [strncpy, hread, hwrite, hb, Written.store, Function.update_self, if_neg hb0]
      rw [List.length_cons] at hfit hapart
      have hrest : BytesAt (s.store (destination + i) b).mem (source + (i + 1)) (t ++ [0]) := by
        intro j c hc
        have hj : j < t.length + 1 := by
          simpa using (List.getElem?_eq_some_iff.mp hc).1
        have hkeep : s.mem (source + i + (j + 1)) = c := hsource (j + 1) c hc
        unfold Apart at hapart
        have hplace : source + (i + 1) + j = source + i + (j + 1) := by omega
        simp only [Written.store, hplace]
        rw [Function.update_of_ne (by omega), hkeep]
      obtain ⟨hmem, hwritten⟩ := ih (fun h => hne (List.mem_cons_of_mem b h)) hrest (by omega)
        (by omega) (by unfold Apart at *; omega)
      rw [hgo]
      refine ⟨?_, fun a => ?_⟩
      · rw [hmem, List.cons_append, List.take_succ_cons, patch_cons]
        rfl
      · rw [hwritten, Written.store, List.mem_cons, @or_comm (a = _), or_assoc]
        refine or_congr_right ?_
        rw [List.length_cons]
        omega

/-- The whole of `_strncpy`. -/
theorem strncpy_start (hne : 0 ∉ t) (hsource : BytesAt s.mem source (t ++ [0]))
    (hfit : source + (t.length + 1) ≤ 2 ^ 32) (hdest : destination + k ≤ 2 ^ 32)
    (hapart : Apart source (t.length + 1) destination k) :
    (strncpy destination source k 0 s).mem = patch s.mem destination ((t ++ [0]).take k) ∧
      ∀ a, a ∈ (strncpy destination source k 0 s).written ↔
        a ∈ s.written ∨ destination ≤ a ∧ a < destination + min k (t.length + 1) :=
  @strncpy_eq s destination source k 0 t hne hsource hfit hdest hapart

/-! ## The null bytes -/

/-- A byte that is kept: where it is in what should be in the array, and where it was copied. -/
theorem kept (m₀ : Memory) (x : ℕ) (hi : i < min l.length (n - 1)) :
    ∃ c ∈ l, (l.take (n - 1) ++ [0])[i]? = some c ∧
      patch m₀ x ((l ++ [0]).take n) (x + i) = c := by
  have hlen : i < l.length := by omega
  refine ⟨l[i], List.getElem_mem hlen, ?_, patch_add ?_⟩
  · rw [List.getElem?_append_left (by simp; omega), List.getElem?_take_of_lt (by omega),
      List.getElem?_eq_getElem hlen]
  · rw [List.getElem?_take_of_lt (by omega), List.getElem?_append_left hlen,
      List.getElem?_eq_getElem hlen]

/-- The null byte behind what is kept. -/
theorem getElem?_end (l : List (BitVec 8)) (n : ℕ) :
    (l.take (n - 1) ++ [0])[min l.length (n - 1)]? = some 0 := by
  rw [List.getElem?_append_right (by simp), List.length_take, Nat.min_comm, Nat.sub_self]
  rfl

/-- Where the string is too long, its copy has another byte in the last place. -/
theorem patch_last_ne (m₀ : Memory) (x : ℕ) (hn : 0 < n) (hne : 0 ∉ l) (hlong : n ≤ l.length) :
    patch m₀ x ((l ++ [0]).take n) (x + (n - 1)) ≠ 0 := by
  have hlt : n - 1 < l.length := by omega
  have hget : ((l ++ [0]).take n)[n - 1]? = some l[n - 1] := by
    rw [List.getElem?_take_of_lt (by omega), List.getElem?_append_left hlt,
      List.getElem?_eq_getElem hlt]
  rw [patch_add hget]
  exact fun hzero => hne (hzero ▸ List.getElem_mem hlt)

/-- Where the string fits, its null byte is copied. -/
theorem patch_end (m₀ : Memory) (x : ℕ) (hshort : l.length < n) :
    patch m₀ x ((l ++ [0]).take n) (x + l.length) = 0 := by
  apply patch_add
  rw [List.getElem?_take_of_lt hshort, List.getElem?_append_right le_rfl, Nat.sub_self]
  rfl

/-- What an array holds is as much of the string as fits exactly when the null bytes keep it,
where the string was copied and the null bytes went to some addresses after that. -/
theorem bytesAt_iff_keeps (m₀ : Memory) {strays : List ℕ} (hn : 0 < n) (hne : 0 ∉ l)
    (hm : ∀ i < n, m (x + i) =
      if x + i ∈ strays then 0 else patch m₀ x ((l ++ [0]).take n) (x + i)) :
    BytesAt m x (l.take (n - 1) ++ [0]) ↔ Keeps strays x n l := by
  have hend := getElem?_end l n
  constructor
  · intro h
    refine ⟨fun a ha ⟨hge, hlt⟩ => ?_, fun hlong => ?_⟩
    · obtain ⟨i, rfl⟩ := Nat.exists_eq_add_of_le hge
      obtain ⟨c, hc, hget, -⟩ := kept m₀ x (show i < min l.length (n - 1) by omega)
      have hzero := (hm i (by omega)).trans (if_pos ha)
      rw [h i c hget] at hzero
      exact hne (hzero ▸ hc)
    · by_contra hnot
      have hmin : min l.length (n - 1) = n - 1 := by omega
      rw [hmin] at hend
      have hzero := h (n - 1) 0 hend
      rw [hm (n - 1) (by omega), if_neg hnot] at hzero
      exact patch_last_ne m₀ x hn hne hlong hzero
  · rintro ⟨hapart, hlast⟩ i c hc
    have hi : i < min l.length (n - 1) + 1 := by
      have hlt := (List.getElem?_eq_some_iff.mp hc).1
      simp at hlt
      omega
    rcases Nat.lt_succ_iff_lt_or_eq.mp hi with hlt | rfl
    · obtain ⟨d, -, hget, hpatch⟩ := kept m₀ x hlt
      obtain rfl : d = c := Option.some.inj (hget.symm.trans hc)
      rw [hm i (by omega), if_neg fun ha => hapart _ ha ⟨by omega, by omega⟩, hpatch]
    · obtain rfl : c = 0 := Option.some.inj (hc.symm.trans hend)
      rw [hm _ (by omega)]
      split_ifs with ha
      · rfl
      · -- The last byte is no stray, so the string is not too long.
        have hshort : l.length < n := by
          by_contra hlong
          have hmin : min l.length (n - 1) = n - 1 := by omega
          rw [hmin] at ha
          exact ha (hlast (by omega))
        have hmin : min l.length (n - 1) = l.length := by omega
        rw [hmin]
        exact patch_end m₀ x hshort

/-! ## Loading the strings -/

theorem read32_congr {m m' : Memory} (ha : a + 4 ≤ 2 ^ 32) (h : ∀ i < 4, m (a + i) = m' (a + i)) :
    read32 m a = read32 m' a := by
  have h1 : add32 a 1 = a + 1 := Nat.mod_eq_of_lt (by omega)
  have h2 : add32 a 2 = a + 2 := Nat.mod_eq_of_lt (by omega)
  have h3 : add32 (a + 2) 1 = a + 3 := Nat.mod_eq_of_lt (by omega)
  rw [read32, read32, read16, read16, read16, read16, h2, h1, h3, h 1 (by omega), h 2 (by omega),
    h 3 (by omega)]
  exact congrArg _ (congrArg _ (h 0 (by omega)))

theorem terminate_mem : (terminate x n s).mem =
    Function.update s.mem (add32 (read32 s.mem (low x)).toNat (n - 1)) 0 := rfl

theorem terminate_written : (terminate x n s).written =
    add32 (read32 s.mem (low x)).toNat (n - 1) :: s.written := rfl

/-- What was written stays written. -/
theorem strncpy_written (ha : a ∈ s.written) : a ∈ (strncpy destination source k i s).written := by
  induction k generalizing i s with
  | zero => exact ha
  | succ k ih =>
    rw [strncpy]
    split_ifs
    · exact List.mem_cons_of_mem _ ha
    · exact ih (List.mem_cons_of_mem _ ha)

namespace BootStrings

variable {b : BootStrings}

/-- A field of the header is outside of the arrays. -/
theorem read32_mbi {offset : ℕ} (hoffset : offset + 4 ≤ 68)
    (hm : ∀ a, ¬ b.InArrays a → m a = b.mem a) :
    read32 m (add32 b.mbi offset) = read32 b.mem (add32 b.mbi offset) := by
  have hfits := b.mbi_fits
  have hline := b.mbi_apart
  have hname := b.mbi_apart'
  have hadd : add32 b.mbi offset = b.mbi + offset := Nat.mod_eq_of_lt (by omega)
  rw [hadd]
  refine read32_congr (by omega) fun i hi => hm _ ?_
  unfold InArrays
  unfold Apart at hline hname
  omega

theorem length_take_line : ((b.line ++ [0]).take localCmdlineLength).length ≤ localCmdlineLength :=
  List.length_take_le _ _

/-- The command line is copied. -/
theorem strncpy_line :
    (strncpy (low b.cmdline) (read32 b.mem (add32 b.mbi 16)).toNat localCmdlineLength 0
        ⟨b.mem, []⟩).mem = b.copiedLine ∧
      ∀ a, a ∈ (strncpy (low b.cmdline) (read32 b.mem (add32 b.mbi 16)).toNat localCmdlineLength 0
        ⟨b.mem, []⟩).written ↔
        low b.cmdline ≤ a ∧ a < low b.cmdline + min localCmdlineLength (b.line.length + 1) := by
  obtain ⟨hmem, hwritten⟩ := @strncpy_start ⟨b.mem, []⟩ _ _ _ _ b.line_ne b.line_at b.line_fits
    b.cmdline_fits b.line_apart
  refine ⟨hmem, fun a => ?_⟩
  rw [hwritten, or_iff_right List.not_mem_nil]

/-- The null byte for the command line is written. -/
theorem load_eq_name : b.load = terminate b.bootLoaderName localBootLoaderNameLength
    (strncpy (low b.bootLoaderName)
      (read32 (Function.update b.copiedLine b.lineStray 0) (add32 b.mbi 64)).toNat
      localBootLoaderNameLength 0 ⟨Function.update b.copiedLine b.lineStray 0, b.lineStray ::
        (strncpy (low b.cmdline) (read32 b.mem (add32 b.mbi 16)).toNat localCmdlineLength 0
          ⟨b.mem, []⟩).written⟩) := by
  simp only [load, loadStrings, terminate, Written.store, strncpy_line.1, lineStray]

theorem lineStray_mem : b.lineStray ∈ b.load.written := by
  rw [load_eq_name, terminate_written]
  apply List.mem_cons_of_mem
  apply strncpy_written
  exact List.mem_cons_self

/-- What is in memory, and what was written, when the first null byte went to one of the
arrays. -/
theorem load_spec (hstray : b.InArrays b.lineStray) :
    b.load.mem = Function.update b.copiedName b.nameStray 0 ∧
      ∀ a, a ∈ b.load.written ↔ a = b.nameStray ∨ a = b.lineStray ∨
        (low b.cmdline ≤ a ∧ a < low b.cmdline + min localCmdlineLength (b.line.length + 1)) ∨
        low b.bootLoaderName ≤ a ∧
          a < low b.bootLoaderName + min localBootLoaderNameLength (b.name.length + 1) := by
  have hsame : ∀ a, ¬ b.InArrays a → Function.update b.copiedLine b.lineStray 0 a = b.mem a := by
    intro a ha
    have hlen := @length_take_line b
    rw [Function.update_of_ne (by rintro rfl; exact ha hstray), copiedLine]
    rcases Nat.lt_or_ge a (low b.cmdline) with hlt | hge
    · exact patch_of_lt hlt
    · apply patch_of_le
      unfold InArrays at ha
      omega
  have hfield := @read32_mbi _ b 64 (by omega) hsame
  have hname : BytesAt (Function.update b.copiedLine b.lineStray 0)
      (read32 b.mem (add32 b.mbi 64)).toNat (b.name ++ [0]) := by
    intro i c hc
    have hi : i < b.name.length + 1 := by simpa using (List.getElem?_eq_some_iff.mp hc).1
    have hline := b.name_apart
    have hname := b.name_apart'
    rw [hsame]
    · exact b.name_at i c hc
    · unfold InArrays
      unfold Apart at hline hname
      omega
  obtain ⟨hmem, hwritten⟩ := @strncpy_start ⟨Function.update b.copiedLine b.lineStray 0,
    b.lineStray :: (strncpy (low b.cmdline) (read32 b.mem (add32 b.mbi 16)).toNat
      localCmdlineLength 0 ⟨b.mem, []⟩).written⟩ _ _ _ _ b.name_ne hname b.name_fits
    b.bootLoaderName_fits b.name_apart'
  have hcopied : (strncpy (low b.bootLoaderName) (read32 b.mem (add32 b.mbi 64)).toNat
      localBootLoaderNameLength 0 ⟨Function.update b.copiedLine b.lineStray 0, b.lineStray ::
        (strncpy (low b.cmdline) (read32 b.mem (add32 b.mbi 16)).toNat localCmdlineLength 0
          ⟨b.mem, []⟩).written⟩).mem = b.copiedName := hmem
  rw [load_eq_name, hfield, terminate_mem, terminate_written, hcopied]
  refine ⟨rfl, fun a => ?_⟩
  rw [List.mem_cons, hwritten, List.mem_cons, strncpy_line.2, or_assoc, nameStray]

theorem line_iff (hstray : b.InArrays b.lineStray) :
    BytesAt b.load.mem (low b.cmdline) (b.line.take (localCmdlineLength - 1) ++ [0]) ↔
      Keeps [b.lineStray, b.nameStray] (low b.cmdline) localCmdlineLength b.line := by
  obtain ⟨hmem, -⟩ := load_spec hstray
  refine bytesAt_iff_keeps b.mem (by decide) b.line_ne fun i hi => ?_
  have hname : ∀ m : Memory, patch m (low b.bootLoaderName)
      ((b.name ++ [0]).take localBootLoaderNameLength) (low b.cmdline + i) =
        m (low b.cmdline + i) := by
    intro m
    have hapart := b.arrays_apart
    have hlen := List.length_take_le localBootLoaderNameLength (b.name ++ [0])
    unfold Apart at hapart
    rcases hapart with hlt | hge
    · exact patch_of_lt (by omega)
    · exact patch_of_le (by omega)
  rw [hmem, Function.update_apply, copiedName, hname, Function.update_apply]
  simp only [List.mem_cons, List.not_mem_nil, or_false]
  split_ifs <;> simp_all [copiedLine]

theorem name_iff (hstray : b.InArrays b.lineStray) :
    BytesAt b.load.mem (low b.bootLoaderName) (b.name.take (localBootLoaderNameLength - 1) ++ [0]) ↔
      Keeps [b.nameStray] (low b.bootLoaderName) localBootLoaderNameLength b.name := by
  obtain ⟨hmem, -⟩ := load_spec hstray
  refine bytesAt_iff_keeps (Function.update b.copiedLine b.lineStray 0) (by decide) b.name_ne
    fun i hi => ?_
  rw [hmem, Function.update_apply, copiedName]
  simp only [List.mem_singleton]

/-- The strings are truncated as documented exactly when the null bytes go to harmless places. -/
theorem truncated_iff (b : BootStrings) : b.Truncated ↔ b.Harmless := by
  constructor
  · intro h
    have hline := h.frame _ lineStray_mem
    obtain ⟨-, hwritten⟩ := load_spec hline
    exact
      { lineStray := hline
        nameStray := h.frame _ ((hwritten _).mpr (.inl rfl))
        line := (line_iff hline).mp h.line
        name := (name_iff hline).mp h.name }
  · intro h
    obtain ⟨-, hwritten⟩ := load_spec h.lineStray
    refine
      { line := (line_iff h.lineStray).mpr h.line
        name := (name_iff h.lineStray).mpr h.name
        frame := fun a ha => ?_ }
    rcases (hwritten a).mp ha with rfl | rfl | hline | hname
    · exact h.nameStray
    · exact h.lineStray
    · exact .inl ⟨hline.1, by omega⟩
    · exact .inr ⟨hname.1, by omega⟩

end BootStrings

theorem bytesAt_patch : BytesAt (patch m x l) x l := fun _ _ => patch_add

theorem bytesAt_patch_of_le (h : BytesAt m x t) (hle : x + t.length ≤ a) :
    BytesAt (patch m a l) x t := fun i c hc => by
  have hi := (List.getElem?_eq_some_iff.mp hc).1
  rw [patch_of_lt (by omega)]
  exact h i c hc

/-- `quiet` -/
def quietLine : List (BitVec 8) := [0x71, 0x75, 0x69, 0x65, 0x74]
/-- `GRUB` -/
def grubName : List (BitVec 8) := [0x47, 0x52, 0x55, 0x42]

/-- A header at `0x10000`, and the strings at `0x20000` and `0x30000`. -/
def quietMemory : Memory :=
  patch (patch (patch (patch (fun _ => 0) 0x10010 [0, 0, 2, 0]) 0x10040 [0, 0, 3, 0])
    0x20000 (quietLine ++ [0])) 0x30000 (grubName ++ [0])

theorem quietMemory_cmdline : (read32 quietMemory (add32 0x10000 16)).toNat = 0x20000 := by
  decide +kernel

theorem quietMemory_bootLoaderName : (read32 quietMemory (add32 0x10000 64)).toNat = 0x30000 := by
  decide +kernel

/-- A kernel that is booted by `GRUB` with the command line `quiet`. -/
def quietBoot : BootStrings where
  mem := quietMemory
  mbi := 0x10000
  cmdline := 0xc0110000
  bootLoaderName := 0xc0110100
  line := quietLine
  name := grubName
  line_ne := by decide
  name_ne := by decide
  line_at := by
    rw [quietMemory_cmdline]
    exact bytesAt_patch_of_le bytesAt_patch (by decide)
  name_at := by
    rw [quietMemory_bootLoaderName]
    exact bytesAt_patch
  line_fits := by rw [quietMemory_cmdline]; decide
  name_fits := by rw [quietMemory_bootLoaderName]; decide
  mbi_fits := by decide
  cmdline_fits := by decide
  bootLoaderName_fits := by decide
  arrays_apart := .inl (by decide)
  line_apart := by rw [quietMemory_cmdline]; exact .inl (by decide)
  name_apart := by rw [quietMemory_bootLoaderName]; exact .inl (by decide)
  name_apart' := by rw [quietMemory_bootLoaderName]; exact .inl (by decide)
  mbi_apart := .inl (by decide)
  mbi_apart' := .inl (by decide)

theorem quietBoot_lineStray : quietBoot.lineStray = 0x65697670 := by decide +kernel

/-- The null byte for the command line `quiet` goes to `0x65697670`. -/
theorem not_truncated_quietBoot : ¬ quietBoot.Truncated := by
  intro h
  have hin := h.frame _ BootStrings.lineStray_mem
  rw [quietBoot_lineStray] at hin
  revert hin
  unfold BootStrings.InArrays
  decide

end Cantos.Boot
