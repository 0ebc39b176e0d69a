import Cantos.Structures.SharedPtrRuns
import Cantos.Structures.Utf8Slices

/-!
# Strings that share buffers

The `Utf8`s of a program.  Copies of a string point into the same buffer, which their
`string_ptr`s own together; a string of the kernel image has no owner.  The header promises
that none of this can be seen: a `Utf8` has bytes, and the operations compute with them.

A program does not keep the pointer of `to_string`, and makes a `Utf8` without an owner only of
a string of the image.

## Main definitions

* `Memory`, `step`: the fields of the `Utf8`s, and the operations on them.
* `Values`, `values`: the same operations on bytes.

## Main results

* `holds_values`: every string has the bytes that the program computes, its buffer is there,
  and a buffer is deleted once, when no string points to it any more.
-/

namespace Cantos

namespace SharedPtr

/-! ## Objects without members -/

/-- A buffer has no `shared_ptr`s in it. -/
abbrev noMembers : ℕ → List ℕ := fun _ => []

/-- The `shared_ptr`s and the objects, without the counts. -/
structure View where
  live : Finset ℕ
  ptr : ℕ → Option ℕ
  managed : Finset ℕ

def Heap.view (h : Heap) : View := ⟨h.live, h.ptr, h.managed⟩

namespace View

/-- What an operation does apart from counting. -/
def after (w : View) : Op → View
  | .construct l => { w with live := insert l w.live, ptr := Function.update w.ptr l none }
  | .own l o => ⟨insert l w.live, Function.update w.ptr l (some o), insert o w.managed⟩
  | .copyConstruct l r =>
      { w with live := insert l w.live, ptr := Function.update w.ptr l (w.ptr r) }
  | .moveConstruct l r =>
      { w with
        live := insert l w.live
        ptr := Function.update (Function.update w.ptr l (w.ptr r)) r none }
  | .copyAssign l r => { w with ptr := Function.update w.ptr l (w.ptr r) }
  | .moveAssign l r => { w with ptr := Function.update (Function.update w.ptr l (w.ptr r)) r none }
  | .assignNull l => { w with ptr := Function.update w.ptr l none }
  | .reset l o => ⟨w.live, Function.update w.ptr l (some o), insert o w.managed⟩
  | .swap l r => { w with ptr := Function.update (Function.update w.ptr r (w.ptr l)) l (w.ptr r) }
  | .destroy l => { w with live := w.live.erase l }

/-- The operations that a program can make. -/
def Allows (w : View) : Op → Prop
  | .construct l => l ∉ w.live
  | .own l o => l ∉ w.live ∧ o ∉ w.managed
  | .copyConstruct l r | .moveConstruct l r => l ∉ w.live ∧ r ∈ w.live
  | .copyAssign l r | .moveAssign l r | .swap l r => l ∈ w.live ∧ r ∈ w.live
  | .assignNull l | .destroy l => l ∈ w.live
  | .reset l o => l ∈ w.live ∧ o ∉ w.managed

end View

section NoMembers
variable {h : Heap} {l o : ℕ} {op : Op} {ops : List Op}

theorem free_noMembers : h.Free noMembers l := fun _ _ _ => List.not_mem_nil

theorem fresh_noMembers (ho : o ∉ h.managed) : h.Fresh noMembers o :=
  ⟨ho, List.nodup_nil, fun _ hm => absurd hm List.not_mem_nil⟩

theorem acyclic_noMembers : h.Acyclic noMembers :=
  ⟨fun _ => 0, fun _ _ _ _ hm => absurd hm List.not_mem_nil⟩

theorem keepsSource_noMembers : op.KeepsSource noMembers h :=
  fun _ _ _ => .inr fun _ _ hm => absurd hm List.not_mem_nil

theorem View.Allows.valid (hop : h.view.Allows op) : op.Valid noMembers h := by
  cases op with
  | construct l => exact hop
  | own l o => exact ⟨hop.1, fresh_noMembers hop.2⟩
  | copyConstruct l r => exact hop
  | moveConstruct l r => exact hop
  | copyAssign l r => exact hop
  | moveAssign l r => exact hop
  | assignNull l => exact hop
  | reset l o => exact ⟨hop.1, fresh_noMembers hop.2⟩
  | swap l r => exact hop
  | destroy l => exact ⟨hop, free_noMembers⟩

@[simp] theorem view_acquire (v : Option ℕ) : (h.acquire v).view = h.view := by
  cases v <;> rfl

theorem view_construct (v : Option ℕ) : (h.construct l v).view =
    { h.view with live := insert l h.view.live, ptr := Function.update h.view.ptr l v } := rfl

/-- A release changes the counts only. -/
theorem view_drop {h' : Heap} (hd : h.drop noMembers l = some h') : h'.view = h.view := by
  rw [Heap.drop, Heap.decrementUsage] at hd
  obtain ⟨v, -, hd⟩ := Option.bind_eq_some_iff.mp hd
  cases v with
  | none =>
    obtain rfl := Option.some.inj hd
    rfl
  | some o =>
    simp only [List.reverse_nil, List.foldlM_nil] at hd
    split_ifs at hd
    · obtain rfl := Option.some.inj hd
      rfl
    · obtain rfl := Option.some.inj hd
      rfl

theorem view_write {h' : Heap} {v : Option ℕ} (hw : h.write l v = some h') :
    h'.view = { h.view with ptr := Function.update h.view.ptr l v } := by
  rw [Heap.write] at hw
  split_ifs at hw
  obtain rfl := Option.some.inj hw
  rfl

theorem read_eq {v : Option ℕ} (hr : h.read l = some v) : v = h.view.ptr l := by
  rw [Heap.read] at hr
  split_ifs at hr
  exact (Option.some.inj hr).symm

/-- An operation on counted objects does what it does without the counts. -/
theorem view_step {h' : Heap} (hstep : step noMembers h op = some h') :
    h'.view = h.view.after op := by
  cases op with
  | construct l | own l o =>
    obtain rfl := Option.some.inj hstep
    rfl
  | copyConstruct l r =>
    obtain ⟨v, hr, rfl⟩ := Option.map_eq_some_iff.mp hstep
    obtain rfl := read_eq hr
    rw [view_construct, view_acquire]
    rfl
  | moveConstruct l r =>
    obtain ⟨v, hr, hw⟩ := Option.bind_eq_some_iff.mp hstep
    rw [view_write hw, read_eq hr]
    rfl
  | copyAssign l r =>
    obtain ⟨v, -, hstep⟩ := Option.bind_eq_some_iff.mp hstep
    obtain ⟨h₁, hd, hstep⟩ := Option.bind_eq_some_iff.mp hstep
    obtain ⟨v', hr, hw⟩ := Option.bind_eq_some_iff.mp hstep
    rw [view_write hw, read_eq hr, view_drop hd, view_acquire]
    rfl
  | moveAssign l r =>
    obtain ⟨h₁, hd, hstep⟩ := Option.bind_eq_some_iff.mp hstep
    obtain ⟨v, hr, hstep⟩ := Option.bind_eq_some_iff.mp hstep
    obtain ⟨h₂, hw, hw'⟩ := Option.bind_eq_some_iff.mp hstep
    rw [view_write hw', view_write hw, read_eq hr, view_drop hd]
    rfl
  | assignNull l =>
    obtain ⟨h₁, hd, hw⟩ := Option.bind_eq_some_iff.mp hstep
    rw [view_write hw, view_drop hd]
    rfl
  | reset l o =>
    obtain ⟨h₁, hd, hw⟩ := Option.bind_eq_some_iff.mp hstep
    have hmanage : (h₁.manage o).view = { h.view with managed := insert o h.view.managed } := by
      rw [← view_drop hd]
      rfl
    rw [view_write hw, hmanage]
    rfl
  | swap l r =>
    obtain ⟨v', hr, hstep⟩ := Option.bind_eq_some_iff.mp hstep
    obtain ⟨v, hl, hstep⟩ := Option.bind_eq_some_iff.mp hstep
    obtain ⟨h₁, hw, hw'⟩ := Option.bind_eq_some_iff.mp hstep
    rw [view_write hw', view_write hw, read_eq hr, read_eq hl]
    rfl
  | destroy l =>
    obtain ⟨h₁, hd, rfl⟩ := Option.map_eq_some_iff.mp hstep
    have herase : (h₁.remove l).view = { h₁.view with live := h₁.view.live.erase l } := rfl
    rw [herase, view_drop hd]
    rfl

/-- The operations of a program succeed, and the counts stay exact. -/
theorem exists_run (hi : h.Inv noMembers)
    (hops : Steps.Along (fun w op => some (w.after op)) View.Allows h.view ops) :
    ∃ h', Steps.run (step noMembers) h ops = some h' ∧ h'.Inv noMembers ∧
      h'.view = ops.foldl View.after h.view := by
  induction ops generalizing h with
  | nil => exact ⟨h, rfl, hi, rfl⟩
  | cons op ops ih =>
    obtain ⟨h₁, hstep, hi₁⟩ := hi.step acyclic_noMembers hops.1.valid keepsSource_noMembers
    have hview := view_step hstep
    obtain ⟨h', hrun, hi', hview'⟩ := ih hi₁ (hview ▸ hops.2 _ rfl)
    refine ⟨h', Steps.run_cons.mpr ⟨h₁, hstep, hrun⟩, hi', ?_⟩
    rw [hview', hview, List.foldl_cons]

end NoMembers

end SharedPtr

namespace Strings

variable {m m₁ : Buffers} {u : Utf8} {xs ys : List Byte} {junk : ℕ → Byte}
  {l r t i o pos len buffer offset size source target k : ℕ} {cond : ℕ → Bool}

/-! ## Programs -/

/-- The strings of the kernel image; the first one is `_empty_string`. -/
structure Image extends Buffers where
  empty : data 0 = [0]
  pos : 0 < next
  small : ∀ b < next, (data b).length < 2 ^ 32

/-- The `Utf8`s of a program. -/
structure Memory where
  buffers : Buffers
  /-- `string` and `byte_count` of a `Utf8`. -/
  text : ℕ → Utf8
  /-- `string_ptr` of a `Utf8`, and the buffers that are owned. -/
  owners : SharedPtr.Heap

/-- What a program does with its `Utf8`s. -/
inductive Op
  /-- `Utf8()` -/
  | empty (l : ℕ)
  /-- `Utf8(const char *string)` -/
  | literal (l buffer offset : ℕ)
  | copyConstruct (l r : ℕ)
  | moveConstruct (l r : ℕ)
  /-- `operator=(Utf8 &other)` -/
  | copyAssign (l r : ℕ)
  /-- `operator=(Utf8 &&other)` -/
  | moveAssign (l r : ℕ)
  /-- `own(buffer, size)` of a new buffer with these bytes and a null byte -/
  | own (l t : ℕ) (xs : List Byte) (size : ℕ)
  /-- `substr` into a new string, with the unnamed `shared_ptr` `t` of `own` -/
  | substr (l t r pos len : ℕ)
  /-- `operator+(const Utf8 &other)` into a new string -/
  | concat (l t a b : ℕ)
  /-- `operator+(const char *other)` into a new string -/
  | concatChars (l t a buffer offset : ℕ)
  /-- `~Utf8` -/
  | destroy (l : ℕ)
  deriving DecidableEq, Repr

/-- `_empty_string` -/
def emptyString : Utf8 := ⟨0, 0, 0⟩

/-- `string(string), byte_count(strlen(string))` -/
def Utf8.literal (m : Buffers) (buffer offset : ℕ) : Option Utf8 :=
  (((m.data buffer).drop offset).findIdx? (· = 0)).map fun n => ⟨buffer, offset, n⟩

/-- `operator+(const char *other)`: `other` is read as far as `strlen` has read it. -/
def Utf8.concatChars (junk : ℕ → Byte) (m : Buffers) (s : Utf8) (buffer offset : ℕ) :
    Except Fault (Utf8 × Buffers) :=
  match literal m buffer offset with
  | some other => concat junk m s other
  | none => .error .outOfBounds

/-- A buffer that the program has allocated, and filled with a text and its null byte. -/
def Buffers.fill (m : Buffers) (xs : List Byte) : Buffers :=
  ⟨Function.update m.data m.next (xs ++ [0]), m.next + 1⟩

namespace Memory

def start (image : Image) : Memory := ⟨image.toBuffers, fun _ => emptyString, .empty⟩

def set (s : Memory) (l : ℕ) (u : Utf8) : Memory :=
  { s with text := Function.update s.text l u }

/-- Operations on the `string_ptr`s. -/
def share (s : Memory) (ops : List SharedPtr.Op) : Option Memory :=
  (Steps.run (SharedPtr.step SharedPtr.noMembers) s.owners ops).map fun h => { s with owners := h }

/-- A `Utf8` whose bytes are read; without a result where it has been destroyed, or its buffer
deleted. -/
def read (s : Memory) (l : ℕ) : Option Utf8 :=
  if l ∈ s.owners.live ∧ s.owners.deleted (s.text l).buffer = 0 then some (s.text l) else none

/-- `own`, whose `base` is the result `l`. -/
def own (s : Memory) (l t : ℕ) (u : Utf8) : Option Memory :=
  (s.set l u).share [.construct l, .own t u.buffer, .moveAssign l t, .destroy t]

end Memory

/-- An operation; without a result where it reads a destroyed `Utf8` or a deleted buffer. -/
def step (junk : ℕ → Byte) (s : Memory) : Op → Option Memory
  | .empty l => (s.set l emptyString).share [.construct l]
  | .literal l buffer offset =>
      if s.owners.deleted buffer = 0 then
        (Utf8.literal s.buffers buffer offset).bind fun u => (s.set l u).share [.construct l]
      else none
  | .copyConstruct l r => (s.set l (s.text r)).share [.copyConstruct l r]
  | .moveConstruct l r => ((s.set l (s.text r)).set r emptyString).share [.moveConstruct l r]
  | .copyAssign l r => (s.set l (s.text r)).share [.copyAssign l r]
  | .moveAssign l r => ((s.set l (s.text r)).set r emptyString).share [.moveAssign l r]
  | .own l t xs size =>
      (Utf8.own (s.buffers.fill xs) s.buffers.next size).toOption.bind fun u =>
        { s with buffers := s.buffers.fill xs }.own l t u
  | .substr l t r pos len =>
      (s.read r).bind fun u => (Utf8.substr junk s.buffers u pos len).toOption.bind fun p =>
        { s with buffers := p.2 }.own l t p.1
  | .concat l t a b =>
      (s.read a).bind fun u => (s.read b).bind fun w =>
        (Utf8.concat junk s.buffers u w).toOption.bind fun p =>
          { s with buffers := p.2 }.own l t p.1
  | .concatChars l t a buffer offset =>
      if s.owners.deleted buffer = 0 then
        (s.read a).bind fun u =>
          (Utf8.concatChars junk s.buffers u buffer offset).toOption.bind fun p =>
            { s with buffers := p.2 }.own l t p.1
      else none
  | .destroy l => s.share [.destroy l]

/-! ## The bytes -/

/-- The bytes of the strings that are constructed and not destroyed. -/
abbrev Values := ℕ → Option (List Byte)

namespace Values

/-- A new string. -/
def make (v : Values) (l : ℕ) (xs : List Byte) : Option Values :=
  if v l = none then some (Function.update v l (some xs)) else none

def assign (v : Values) (l : ℕ) (xs : List Byte) : Option Values :=
  if v l = none then none else some (Function.update v l (some xs))

end Values

/-- An operation of a program on the bytes of its strings. -/
def values (image : Image) (v : Values) : Op → Option Values
  | .empty l => v.make l []
  | .literal l buffer offset =>
      if buffer < image.next then
        (Utf8.literal image.toBuffers buffer offset).bind fun u =>
          v.make l (u.content image.toBuffers)
      else none
  | .copyConstruct l r => (v r).bind fun xs => v.make l xs
  | .moveConstruct l r => (v r).bind fun xs => (v.make l xs).bind fun v => v.assign r []
  | .copyAssign l r => (v r).bind fun xs => v.assign l xs
  | .moveAssign l r => (v r).bind fun xs => (v.assign l xs).bind fun v => v.assign r []
  | .own l t xs size =>
      if v t = none ∧ t ≠ l ∧ xs.length + 1 < 2 ^ 32 ∧
          (size = xs.length ∨ size = npos ∧ 0 ∉ xs) then
        v.make l xs
      else none
  | .substr l t r pos len =>
      (v r).bind fun xs =>
        if v t = none ∧ t ≠ l ∧ (pos ≤ xs.length ∨ len = 0) ∧
            xs.length ≤ 2 ^ 32 - 13 ∧ pos < 2 ^ 32 then
          v.make l ((xs.drop pos).take len)
        else none
  | .concat l t a b =>
      (v a).bind fun xs => (v b).bind fun ys =>
        if v t = none ∧ t ≠ l ∧ xs.length + ys.length ≤ 2 ^ 32 - 13 then v.make l (xs ++ ys)
        else none
  | .concatChars l t a buffer offset =>
      if buffer < image.next then
        (v a).bind fun xs => (Utf8.literal image.toBuffers buffer offset).bind fun u =>
          if v t = none ∧ t ≠ l ∧ xs.length + u.byteCount ≤ 2 ^ 32 - 13 then
            v.make l (xs ++ u.content image.toBuffers)
          else none
      else none
  | .destroy l => (v l).map fun _ => Function.update v l none

/-! ## Allocating -/

/-- A string in a new buffer. -/
structure Allocates (m : Buffers) (p : Utf8 × Buffers) : Prop where
  buffer : p.1.buffer = m.next
  next : p.2.next = m.next + 1
  data : ∀ j < m.next, p.2.data j = m.data j

/-- Only one buffer differs. -/
def Elsewhere (m m₁ : Buffers) (buffer : ℕ) : Prop :=
  m₁.next = m.next ∧ ∀ j ≠ buffer, m₁.data j = m.data j

namespace Utf8

theorem store_elsewhere {x : Byte} (h : store buffer i x m = .ok m₁) :
    Elsewhere m m₁ buffer := by
  rw [store] at h
  split_ifs at h
  obtain rfl := Except.ok.inj h
  exact ⟨rfl, fun j hj => Function.update_of_ne hj _ _⟩

theorem copyFrom_elsewhere (h : copyFrom u source buffer target cond k i m = .ok m₁) :
    Elsewhere m m₁ buffer := by
  induction k generalizing i m with
  | zero =>
    obtain rfl := Except.ok.inj h
    exact ⟨rfl, fun _ _ => rfl⟩
  | succ k ih =>
    rw [copyFrom] at h
    split_ifs at h
    · obtain ⟨x, -, h⟩ := bind_eq_ok.mp h
      obtain ⟨m', hstore, h⟩ := bind_eq_ok.mp h
      obtain ⟨hnext, hdata⟩ := store_elsewhere hstore
      obtain ⟨hnext', hdata'⟩ := ih h
      exact ⟨hnext'.trans hnext, fun j hj => (hdata' j hj).trans (hdata j hj)⟩
    · obtain rfl := Except.ok.inj h
      exact ⟨rfl, fun _ _ => rfl⟩

theorem own_buffer (h : own m buffer size = .ok u) : u.buffer = buffer := by
  rw [own] at h
  split_ifs at h
  · cases hn : (m.data buffer).findIdx? (· = 0) with
    | none =>
      simp only [hn] at h
      cases h
    | some n =>
      simp only [hn] at h
      obtain rfl := Except.ok.inj h
      rfl
  · obtain rfl := Except.ok.inj h
    rfl

/-- The buffer is allocated and filled before a string points to it. -/
theorem allocates_own {m₂ : Buffers} (h₁ : Elsewhere (kmalloc junk size m).2 m₁ m.next)
    (h₂ : Elsewhere m₁ m₂ m.next) {n : ℕ} (hown : own m₂ m.next n = .ok u) :
    Allocates m (u, m₂) where
  buffer := own_buffer hown
  next := h₂.1.trans h₁.1
  data j hj := by
    have hne := Nat.ne_of_lt hj
    rw [h₂.2 j hne, h₁.2 j hne, kmalloc_data hne]

/-- `own` counts the bytes up to the null byte, or is told their number. -/
theorem own_fill (m : Buffers) (hlen : xs.length + 1 < 2 ^ 32)
    (hsize : size = xs.length ∨ size = npos ∧ 0 ∉ xs) :
    own (m.fill xs) m.next size = .ok ⟨m.next, 0, xs.length⟩ := by
  have hdata : (m.fill xs).data m.next = xs ++ [0] := Function.update_self ..
  rcases hsize with rfl | ⟨rfl, hzero⟩
  · rw [own, if_neg (by rw [npos]; omega)]
  · have hfind : (xs ++ [0]).findIdx? (· = 0) = some xs.length := by
      rw [List.findIdx?_eq_some_iff_getElem]
      refine ⟨by simp, by simp, fun j hj => ?_⟩
      rw [List.getElem_append_left hj]
      have hne : xs[j] ≠ 0 := fun h => hzero (h ▸ List.getElem_mem hj)
      simpa using hne
    rw [own, if_pos rfl, hdata, hfind]

theorem allocates_fill (m : Buffers) (xs : List Byte) :
    Allocates m (⟨m.next, 0, xs.length⟩, m.fill xs) where
  buffer := rfl
  next := rfl
  data _ hj := Function.update_of_ne (Nat.ne_of_lt hj) _ _

theorem substr_allocates {p : Utf8 × Buffers} (h : substr junk m u pos len = .ok p) :
    Allocates m p := by
  simp only [substr, kmalloc_fst] at h
  obtain ⟨m₁, hcopy, h⟩ := bind_eq_ok.mp h
  obtain ⟨m₂, hstore, h⟩ := bind_eq_ok.mp h
  obtain ⟨r, hown, h⟩ := bind_eq_ok.mp h
  obtain rfl := Except.ok.inj h
  exact allocates_own (copyFrom_elsewhere hcopy) (store_elsewhere hstore) hown

theorem concat_allocates {w : Utf8} {p : Utf8 × Buffers} (h : concat junk m u w = .ok p) :
    Allocates m p := by
  simp only [concat, kmalloc_fst] at h
  obtain ⟨m₁, hcopy, h⟩ := bind_eq_ok.mp h
  obtain ⟨m₂, hcopy', h⟩ := bind_eq_ok.mp h
  obtain ⟨m₃, hstore, h⟩ := bind_eq_ok.mp h
  obtain ⟨r, hown, h⟩ := bind_eq_ok.mp h
  obtain rfl := Except.ok.inj h
  obtain ⟨hnext, hdata⟩ := copyFrom_elsewhere hcopy'
  obtain ⟨hnext', hdata'⟩ := store_elsewhere hstore
  exact allocates_own (copyFrom_elsewhere hcopy)
    ⟨hnext'.trans hnext, fun j hj => (hdata' j hj).trans (hdata j hj)⟩ hown

/-- A `Utf8` has these bytes, and its null byte behind them. -/
def Is (m : Buffers) (u : Utf8) (xs : List Byte) : Prop :=
  ∃ a : Text m, a.toUtf8 = u ∧ a.content m = xs

theorem is_fill (m : Buffers) (hlen : xs.length + 1 < 2 ^ 32) :
    Is (m.fill xs) ⟨m.next, 0, xs.length⟩ xs := by
  have hdata : (m.fill xs).data m.next = xs ++ [0] := Function.update_self ..
  refine ⟨⟨⟨m.next, 0, xs.length⟩, Nat.lt_succ_self _, ?_, ?_⟩, rfl, ?_⟩
  · rwa [hdata, List.length_append]
  · rw [hdata, Nat.zero_add]
    exact List.getElem?_concat_length
  · simp only [content, hdata, List.drop_zero, List.take_left]

theorem Is.mono (hu : u.Is m xs) (hnext : m.next ≤ m₁.next)
    (hdata : ∀ j < m.next, m₁.data j = m.data j) : u.Is m₁ xs := by
  obtain ⟨a, rfl, rfl⟩ := hu
  have hbuffer := hdata a.buffer a.allocated
  refine ⟨⟨a.toUtf8, Nat.lt_of_lt_of_le a.allocated hnext, ?_, ?_⟩, rfl, ?_⟩
  · rw [hbuffer]
    exact a.small
  · rw [hbuffer]
    exact a.null
  · simp only [content, hbuffer]

theorem literal_is {image : Image} (hbuffer : buffer < image.next)
    (hu : literal image.toBuffers buffer offset = some u) :
    u.buffer = buffer ∧ u.Is image.toBuffers (u.content image.toBuffers) := by
  obtain ⟨n, hn, rfl⟩ := Option.map_eq_some_iff.mp hu
  refine ⟨rfl, ⟨⟨buffer, offset, n⟩, hbuffer, image.small buffer hbuffer, ?_⟩, rfl, rfl⟩
  obtain ⟨hlt, hzero, -⟩ := List.findIdx?_eq_some_iff_getElem.mp hn
  rw [← List.getElem?_drop, List.getElem?_eq_getElem hlt]
  simpa using hzero

end Utf8

/-! ## What the strings show -/

/-- `string_ptr` of a `Utf8`: the strings of the image have no owner. -/
def owner (image : Image) (u : Utf8) : Option ℕ :=
  if u.buffer < image.next then none else some u.buffer

/-- A `Utf8` has the bytes of its value, and owns its buffer with the others that point there. -/
def Slot (image : Image) (m : Buffers) (text : ℕ → Utf8) (w : SharedPtr.View) (l : ℕ) :
    Option (List Byte) → Prop
  | none => l ∉ w.live
  | some xs => l ∈ w.live ∧ (text l).Is m xs ∧ w.ptr l = owner image (text l)

/-- A `Utf8` that an operation leaves alone. -/
theorem Slot.congr {image : Image} {text text' : ℕ → Utf8} {w w' : SharedPtr.View}
    {x : Option (List Byte)} (hslot : Slot image m text w l x)
    (hlive : l ∈ w'.live ↔ l ∈ w.live) (htext : text' l = text l)
    (hptr : l ∈ w.live → w'.ptr l = w.ptr l)
    (hm : ∀ xs, (text l).Is m xs → (text l).Is m₁ xs) : Slot image m₁ text' w' l x := by
  cases x with
  | none => exact fun hmem => hslot (hlive.mp hmem)
  | some xs =>
    refine ⟨hlive.mpr hslot.1, ?_, ?_⟩
    · rw [htext]
      exact hm xs hslot.2.1
    · rw [htext, hptr hslot.1]
      exact hslot.2.2

/-- All strings have the bytes of their values, and the buffers that are owned are the ones that
the program has allocated. -/
structure Shows (image : Image) (m : Buffers) (text : ℕ → Utf8) (w : SharedPtr.View)
    (v : Values) : Prop where
  slot : ∀ l, Slot image m text w l (v l)
  managed : ∀ o, o ∈ w.managed ↔ image.next ≤ o ∧ o < m.next
  next : image.next ≤ m.next
  image : ∀ o < image.next, m.data o = image.data o

section Shows
variable {image : Image} {text : ℕ → Utf8} {w : SharedPtr.View} {v : Values}
  (hs : Shows image m text w v)
include hs

theorem Shows.live_iff : l ∈ w.live ↔ v l ≠ none := by
  have hslot := hs.slot l
  cases hv : v l with
  | none =>
    rw [hv] at hslot
    exact iff_of_false hslot (fun h => h rfl)
  | some xs =>
    rw [hv] at hslot
    exact iff_of_true hslot.1 (Option.some_ne_none xs)

theorem Shows.notMem (hl : v l = none) : l ∉ w.live := fun hmem => hs.live_iff.mp hmem hl

theorem Shows.of_some (hl : v l = some xs) :
    l ∈ w.live ∧ (text l).Is m xs ∧ w.ptr l = owner image (text l) := by
  have hslot := hs.slot l
  rwa [hl] at hslot

/-- A `Utf8` that is written, or a new one. -/
theorem Shows.put (hu : u.Is m xs) :
    Shows image m (Function.update text l u)
      { w with live := insert l w.live, ptr := Function.update w.ptr l (owner image u) }
      (Function.update v l (some xs)) := by
  refine { hs with slot := fun i => ?_ }
  rcases eq_or_ne i l with rfl | hne
  · rw [Function.update_self]
    refine ⟨Finset.mem_insert_self i _, ?_, ?_⟩
    · rwa [Function.update_self]
    · simp only [Function.update_self]
  · rw [Function.update_of_ne hne]
    refine (hs.slot i).congr ?_ (Function.update_of_ne hne _ _)
      (fun _ => Function.update_of_ne hne _ _) fun _ h => h
    exact ⟨fun hmem => Finset.mem_of_mem_insert_of_ne hmem hne, Finset.mem_insert_of_mem⟩

theorem Shows.remove :
    Shows image m text { w with live := w.live.erase l } (Function.update v l none) := by
  refine { hs with slot := fun i => ?_ }
  rcases eq_or_ne i l with rfl | hne
  · rw [Function.update_self]
    exact Finset.notMem_erase i _
  · rw [Function.update_of_ne hne]
    refine (hs.slot i).congr ?_ rfl (fun _ => rfl) fun _ h => h
    exact ⟨Finset.mem_of_mem_erase, Finset.mem_erase_of_ne_of_mem hne⟩

/-- What is left in a destroyed `shared_ptr` does not matter. -/
theorem Shows.congr_ptr {ptr : ℕ → Option ℕ} (hptr : ∀ i ∈ w.live, ptr i = w.ptr i) :
    Shows image m text { w with ptr := ptr } v := by
  exact { hs with slot := fun i => (hs.slot i).congr Iff.rfl rfl (hptr i) fun _ h => h }

/-- A new buffer does not change the strings that are there. -/
theorem Shows.allocate {p : Utf8 × Buffers} (hp : Allocates m p) :
    Shows image p.2 text { w with managed := insert p.1.buffer w.managed } v where
  slot i := (hs.slot i).congr Iff.rfl rfl (fun _ => rfl) fun _ h =>
    h.mono (hp.next ▸ Nat.le_succ _) hp.data
  managed o := by
    have hnext := hs.next
    rw [Finset.mem_insert, hs.managed o, hp.buffer, hp.next]
    omega
  next := by
    rw [hp.next]
    exact Nat.le_succ_of_le hs.next
  image o ho := (hp.data o (Nat.lt_of_lt_of_le ho hs.next)).trans (hs.image o ho)

theorem Shows.empty_is : emptyString.Is m [] := by
  have hdata := (hs.image 0 image.pos).trans image.empty
  refine ⟨⟨emptyString, Nat.lt_of_lt_of_le image.pos hs.next, ?_, ?_⟩, rfl, rfl⟩
  · rw [emptyString, hdata]
    decide
  · rw [emptyString, hdata]
    rfl

end Shows

theorem owner_empty (image : Image) : owner image emptyString = none := if_pos image.pos

/-! ## Runs -/

/-- The `Utf8`s of a program have these bytes. -/
structure Memory.Holds (image : Image) (s : Memory) (v : Values) : Prop where
  counts : s.owners.Inv SharedPtr.noMembers
  shows : Shows image s.buffers s.text s.owners.view v

section Step
variable {image : Image} {s : Memory} {v v' : Values}

theorem Memory.exists_share (hi : s.owners.Inv SharedPtr.noMembers) {ops : List SharedPtr.Op}
    (hops : Steps.Along (fun w op => some (w.after op)) SharedPtr.View.Allows s.owners.view ops)
    (hshows : Shows image s.buffers s.text (ops.foldl SharedPtr.View.after s.owners.view) v) :
    ∃ s', s.share ops = some s' ∧ s'.Holds image v := by
  obtain ⟨h', hrun, hi', hview⟩ := SharedPtr.exists_run hi hops
  refine ⟨{ s with owners := h' }, ?_, hi', ?_⟩
  · rw [Memory.share, hrun, Option.map_some]
  · show Shows image s.buffers s.text h'.view v
    rwa [hview]

/-- The buffer of a string has not been deleted. -/
theorem Memory.Holds.deleted_eq (hs : s.Holds image v) (hl : v l = some xs) :
    s.owners.deleted (s.text l).buffer = 0 := by
  obtain ⟨hlive, -, hptr⟩ := hs.shows.of_some hl
  rw [owner] at hptr
  split_ifs at hptr with hstatic
  · refine hs.counts.unmanaged _ fun hmem => ?_
    exact Nat.not_le_of_lt hstatic ((hs.shows.managed _).mp hmem).1
  · exact (hs.counts.has hlive (Finset.notMem_empty l) hptr).1.2

theorem Memory.Holds.read_eq (hs : s.Holds image v) (hl : v l = some xs) :
    s.read l = some (s.text l) := if_pos ⟨(hs.shows.of_some hl).1, hs.deleted_eq hl⟩

theorem Values.make_eq_some (h : v.make l xs = some v') :
    v l = none ∧ v' = Function.update v l (some xs) := by
  rw [Values.make] at h
  split_ifs at h with hl
  exact ⟨hl, (Option.some.inj h).symm⟩

theorem Values.assign_eq_some (h : v.assign l xs = some v') :
    v l ≠ none ∧ v' = Function.update v l (some xs) := by
  rw [Values.assign] at h
  split_ifs at h with hl
  exact ⟨hl, (Option.some.inj h).symm⟩

/-- A string that `own` makes of a new buffer. -/
theorem Memory.Holds.own (hs : s.Holds image v) {p : Utf8 × Buffers} (hp : Allocates s.buffers p)
    (hu : p.1.Is p.2 xs) (hl : v l = none) (ht : v t = none) (hne : t ≠ l) :
    ∃ s', Memory.own { s with buffers := p.2 } l t p.1 = some s' ∧
      s'.Holds image (Function.update v l (some xs)) := by
  have hlive := hs.shows.notMem hl
  have htlive := hs.shows.notMem ht
  have hnew : p.1.buffer ∉ s.owners.view.managed := by
    rw [hs.shows.managed, hp.buffer]
    exact fun h => Nat.lt_irrefl _ h.2
  have hdestroyed : (insert t (insert l s.owners.view.live)).erase t =
      insert l s.owners.view.live :=
    Finset.erase_insert fun hmem => htlive (Finset.mem_of_mem_insert_of_ne hmem hne)
  refine Memory.exists_share (s := Memory.set { s with buffers := p.2 } l p.1) hs.counts ?_ ?_
  · change Steps.Along _ _ s.owners.view _
    simp [Steps.Along, SharedPtr.View.Allows, SharedPtr.View.after, hlive, htlive, hne, hnew]
  · have hput := (hs.shows.allocate hp).put (l := l) hu
    simp only [List.foldl_cons, List.foldl_nil, SharedPtr.View.after]
    change Shows image p.2 _ ⟨(insert t (insert l s.owners.view.live)).erase t, _, _⟩ _
    rw [hdestroyed]
    refine hput.congr_ptr fun i hi => ?_
    have hit : i ≠ t := by
      rintro rfl
      exact htlive (Finset.mem_of_mem_insert_of_ne hi hne)
    have howner : owner image p.1 = some p.1.buffer :=
      if_neg (by rw [hp.buffer]; exact Nat.not_lt_of_le hs.shows.next)
    rcases eq_or_ne i l with rfl | hil
    · simp [Function.update_of_ne hit, howner]
    · simp only [Function.update_of_ne hit, Function.update_of_ne hil]
      rfl

theorem Memory.exists_share_one (hi : s.owners.Inv SharedPtr.noMembers) {op : SharedPtr.Op}
    (hop : s.owners.view.Allows op)
    (hshows : Shows image s.buffers s.text (s.owners.view.after op) v) :
    ∃ s', s.share [op] = some s' ∧ s'.Holds image v :=
  Memory.exists_share hi ⟨hop, fun _ _ => trivial⟩ hshows

theorem Memory.Holds.literal_eq (hs : s.Holds image v) (hbuffer : buffer < image.next)
    (offset : ℕ) :
    s.owners.deleted buffer = 0 ∧
      Utf8.literal s.buffers buffer offset = Utf8.literal image.toBuffers buffer offset := by
  constructor
  · refine hs.counts.unmanaged _ fun hmem => ?_
    exact Nat.not_le_of_lt hbuffer ((hs.shows.managed _).mp hmem).1
  · rw [Utf8.literal, Utf8.literal, hs.shows.image buffer hbuffer]

/-- Every operation does with the shared buffers what it does with the bytes. -/
theorem Memory.Holds.step (hs : s.Holds image v) {op : Op} (hv : values image v op = some v') :
    ∃ s', Strings.step junk s op = some s' ∧ s'.Holds image v' := by
  have hshows := hs.shows
  cases op with
  | empty l =>
    obtain ⟨hl, rfl⟩ := Values.make_eq_some hv
    have hput := hshows.put (l := l) hshows.empty_is
    rw [owner_empty] at hput
    exact Memory.exists_share_one (s := s.set l emptyString) hs.counts (hshows.notMem hl) hput
  | literal l buffer offset =>
    rw [values] at hv
    split_ifs at hv with hbuffer
    obtain ⟨u, hu, hv⟩ := Option.bind_eq_some_iff.mp hv
    obtain ⟨hl, rfl⟩ := Values.make_eq_some hv
    obtain ⟨hdeleted, hliteral⟩ := hs.literal_eq hbuffer offset
    obtain ⟨hub, his⟩ := Utf8.literal_is hbuffer hu
    have hput := hshows.put (l := l) (his.mono hshows.next hshows.image)
    rw [owner, if_pos (hub ▸ hbuffer)] at hput
    rw [Strings.step, if_pos hdeleted, hliteral, hu]
    exact Memory.exists_share_one (s := s.set l u) hs.counts (hshows.notMem hl) hput
  | copyConstruct l r =>
    obtain ⟨xs, hr, hv⟩ := Option.bind_eq_some_iff.mp hv
    obtain ⟨hl, rfl⟩ := Values.make_eq_some hv
    obtain ⟨hlive, his, hptr⟩ := hshows.of_some hr
    have hput := hshows.put (l := l) his
    rw [← hptr] at hput
    exact Memory.exists_share_one (s := s.set l (s.text r)) hs.counts
      ⟨hshows.notMem hl, hlive⟩ hput
  | moveConstruct l r =>
    obtain ⟨xs, hr, hv⟩ := Option.bind_eq_some_iff.mp hv
    obtain ⟨v₁, hv₁, hv⟩ := Option.bind_eq_some_iff.mp hv
    obtain ⟨hl, rfl⟩ := Values.make_eq_some hv₁
    obtain ⟨-, rfl⟩ := Values.assign_eq_some hv
    obtain ⟨hlive, his, hptr⟩ := hshows.of_some hr
    have hput := (hshows.put (l := l) his).put (l := r) hshows.empty_is
    rw [← hptr, owner_empty, Finset.insert_eq_of_mem (Finset.mem_insert_of_mem hlive)] at hput
    exact Memory.exists_share_one (s := (s.set l (s.text r)).set r emptyString) hs.counts
      ⟨hshows.notMem hl, hlive⟩ hput
  | copyAssign l r =>
    obtain ⟨xs, hr, hv⟩ := Option.bind_eq_some_iff.mp hv
    obtain ⟨hl, rfl⟩ := Values.assign_eq_some hv
    obtain ⟨hlive, his, hptr⟩ := hshows.of_some hr
    have htarget := hshows.live_iff.mpr hl
    have hput := hshows.put (l := l) his
    rw [← hptr, Finset.insert_eq_of_mem htarget] at hput
    exact Memory.exists_share_one (s := s.set l (s.text r)) hs.counts ⟨htarget, hlive⟩ hput
  | moveAssign l r =>
    obtain ⟨xs, hr, hv⟩ := Option.bind_eq_some_iff.mp hv
    obtain ⟨v₁, hv₁, hv⟩ := Option.bind_eq_some_iff.mp hv
    obtain ⟨hl, rfl⟩ := Values.assign_eq_some hv₁
    obtain ⟨-, rfl⟩ := Values.assign_eq_some hv
    obtain ⟨hlive, his, hptr⟩ := hshows.of_some hr
    have htarget := hshows.live_iff.mpr hl
    have hput := (hshows.put (l := l) his).put (l := r) hshows.empty_is
    rw [← hptr, owner_empty, Finset.insert_eq_of_mem htarget,
      Finset.insert_eq_of_mem hlive] at hput
    exact Memory.exists_share_one (s := (s.set l (s.text r)).set r emptyString) hs.counts
      ⟨htarget, hlive⟩ hput
  | own l t xs size =>
    rw [values] at hv
    split_ifs at hv with hcond
    obtain ⟨ht, hne, hlen, hsize⟩ := hcond
    obtain ⟨hl, rfl⟩ := Values.make_eq_some hv
    rw [Strings.step, Utf8.own_fill s.buffers hlen hsize, Except.toOption, Option.bind_some]
    have hown := hs.own (Utf8.allocates_fill s.buffers xs) (Utf8.is_fill s.buffers hlen) hl ht hne
    exact hown
  | substr l t r pos len =>
    obtain ⟨xs, hr, hv⟩ := Option.bind_eq_some_iff.mp hv
    split_ifs at hv with hcond
    obtain ⟨ht, hne, hin, hle, hpos⟩ := hcond
    obtain ⟨hl, rfl⟩ := Values.make_eq_some hv
    obtain ⟨-, ⟨a, ha, rfl⟩, -⟩ := hshows.of_some hr
    rw [a.length_content] at hin hle
    obtain ⟨m₁, u, hsubstr, hcontent⟩ := Utf8.exists_substr junk a hin hle hpos
    rw [Strings.step, hs.read_eq hr, ← ha, Option.bind_some, hsubstr]
    exact hs.own (Utf8.substr_allocates hsubstr) ⟨u, rfl, hcontent⟩ hl ht hne
  | concat l t a b =>
    obtain ⟨xs, ha, hv⟩ := Option.bind_eq_some_iff.mp hv
    obtain ⟨ys, hb, hv⟩ := Option.bind_eq_some_iff.mp hv
    split_ifs at hv with hcond
    obtain ⟨ht, hne, hle⟩ := hcond
    obtain ⟨hl, rfl⟩ := Values.make_eq_some hv
    obtain ⟨-, ⟨x, hx, rfl⟩, -⟩ := hshows.of_some ha
    obtain ⟨-, ⟨y, hy, rfl⟩, -⟩ := hshows.of_some hb
    rw [x.length_content, y.length_content] at hle
    obtain ⟨m₁, u, hconcat, hcontent⟩ := Utf8.exists_concat junk x y hle
    rw [Strings.step, hs.read_eq ha, hs.read_eq hb, ← hx, ← hy, Option.bind_some,
      Option.bind_some, hconcat]
    exact hs.own (Utf8.concat_allocates hconcat) ⟨u, rfl, hcontent⟩ hl ht hne
  | concatChars l t a buffer offset =>
    rw [values] at hv
    split_ifs at hv with hbuffer
    obtain ⟨xs, ha, hv⟩ := Option.bind_eq_some_iff.mp hv
    obtain ⟨w, hw, hv⟩ := Option.bind_eq_some_iff.mp hv
    split_ifs at hv with hcond
    obtain ⟨ht, hne, hle⟩ := hcond
    obtain ⟨hl, rfl⟩ := Values.make_eq_some hv
    obtain ⟨hdeleted, hliteral⟩ := hs.literal_eq hbuffer offset
    obtain ⟨-, ⟨x, hx, rfl⟩, -⟩ := hshows.of_some ha
    obtain ⟨y, rfl, hy⟩ := (Utf8.literal_is hbuffer hw).2.mono hshows.next hshows.image
    rw [x.length_content] at hle
    obtain ⟨m₁, u, hconcat, hcontent⟩ := Utf8.exists_concat junk x y hle
    rw [Strings.step, if_pos hdeleted, hs.read_eq ha, ← hx, Option.bind_some, Utf8.concatChars,
      hliteral, hw]
    simp only [hconcat]
    exact hs.own (Utf8.concat_allocates hconcat) ⟨u, rfl, hy ▸ hcontent⟩ hl ht hne
  | destroy l =>
    obtain ⟨xs, hl, rfl⟩ := Option.map_eq_some_iff.mp hv
    exact Memory.exists_share_one hs.counts (hshows.of_some hl).1 hshows.remove

theorem holds_start (image : Image) : (Memory.start image).Holds image fun _ => none where
  counts := SharedPtr.Heap.inv_empty
  shows := {
    slot := fun l => Finset.notMem_empty l
    managed := fun o => iff_of_false (Finset.notMem_empty o)
      fun h => Nat.not_lt_of_le h.1 h.2
    next := Nat.le_refl _
    image := fun _ _ => rfl }

theorem holds_run {ops : List Op} (hrun : Steps.run (values image) (fun _ => none) ops = some v)
    (junk : ℕ → Byte) :
    ∃ s, Steps.run (Strings.step junk) (Memory.start image) ops = some s ∧ s.Holds image v := by
  refine Steps.history (P := fun ops v => ∃ s, Steps.run (Strings.step junk) (Memory.start image)
    ops = some s ∧ s.Holds image v) ⟨_, rfl, holds_start image⟩ ?_ hrun
  rintro ops v op v' ⟨s, hs, hholds⟩ hv
  obtain ⟨s', hstep, hholds'⟩ := hholds.step hv
  exact ⟨s', Steps.run_concat.mpr ⟨s, hs, hstep⟩, hholds'⟩

/-- In every program each string has the bytes that the program computes for it, whatever other
strings share its buffer. A buffer is there as long as a string points to it, and is deleted once;
the strings of the image never change. -/
theorem strings_hold {ops : List Op}
    (hrun : Steps.run (values image) (fun _ => none) ops = some v) (junk : ℕ → Byte) :
    ∃ s, Steps.run (Strings.step junk) (Memory.start image) ops = some s ∧
      (∀ l xs, v l = some xs → ∃ u, s.read l = some u ∧ u.Is s.buffers xs) ∧
      (∀ o < image.next, s.owners.deleted o = 0 ∧ s.buffers.data o = image.data o) ∧
      ∀ o, image.next ≤ o → o < s.buffers.next → s.owners.deleted o ≤ 1 ∧
        (s.owners.deleted o = 0 ↔ ∃ l, v l ≠ none ∧ (s.text l).buffer = o) := by
  obtain ⟨s, hs, hholds⟩ := holds_run hrun junk
  have hshows := hholds.shows
  refine ⟨s, hs, ?_, ?_, ?_⟩
  · intro l xs hl
    exact ⟨s.text l, hholds.read_eq hl, (hshows.of_some hl).2.1⟩
  · intro o ho
    exact ⟨(hholds.literal_eq ho 0).1, hshows.image o ho⟩
  · intro o ho hnext
    rw [hholds.counts.exact.deleted o ((hshows.managed o).mpr ⟨ho, hnext⟩)]
    have hpointed : (∃ p ∈ s.owners.live, s.owners.ptr p = some o) ↔
        ∃ l, v l ≠ none ∧ (s.text l).buffer = o := by
      constructor
      · rintro ⟨l, hlive, hptr⟩
        have hl := hshows.live_iff.mp hlive
        obtain ⟨xs, hxs⟩ := Option.ne_none_iff_exists'.mp hl
        have howner := (hshows.of_some hxs).2.2.symm.trans hptr
        rw [owner] at howner
        split_ifs at howner
        exact ⟨l, hl, Option.some.inj howner⟩
      · rintro ⟨l, hl, rfl⟩
        obtain ⟨xs, hxs⟩ := Option.ne_none_iff_exists'.mp hl
        obtain ⟨hlive, -, hptr⟩ := hshows.of_some hxs
        exact ⟨l, hlive, hptr.trans (if_neg (Nat.not_lt_of_le ho))⟩
    rw [← hpointed]
    split_ifs with hex
    · simp [hex]
    · simp [hex]

end Step

/-- `""` and `"ab"` -/
def imageAb : Image where
  data b := if b = 1 then [0x61, 0x62, 0] else [0]
  next := 2
  empty := rfl
  pos := by decide
  small := by decide

/-- A string that is assigned twice, and a copy of the one that it had in between. -/
def shareAb : List Op :=
  [.literal 0 1 0, .copyConstruct 1 0, .concat 2 9 0 1, .copyAssign 1 2, .substr 3 9 1 1 2,
    .moveAssign 2 3, .own 4 9 [0x63] npos, .concatChars 5 9 4 1 0, .destroy 0]

theorem strings_hold_shared : ∃ s,
    Steps.run (step fun _ => 0) (Memory.start imageAb) shareAb = some s ∧
      (∃ u, s.read 1 = some u ∧ u.Is s.buffers [0x61, 0x62, 0x61, 0x62]) ∧
      ∃ u, s.read 2 = some u ∧ u.Is s.buffers [0x62, 0x61] := by
  have hrun : ∃ v ∈ Steps.run (values imageAb) (fun _ => none) shareAb,
      v 1 = some [0x61, 0x62, 0x61, 0x62] ∧ v 2 = some [0x62, 0x61] := by
    decide +kernel
  obtain ⟨v, hv, h1, h2⟩ := hrun
  obtain ⟨s, hs, hread, -⟩ := strings_hold hv fun _ => 0
  exact ⟨s, hs, hread 1 _ h1, hread 2 _ h2⟩

end Strings

end Cantos
