import Cantos.Lib.Exec
import Cantos.Structures.Utf8Compare

/-!
# Concatenations and substrings

Both allocate a buffer, fill it from the left and put a null byte behind.

## Main definitions

* `Filled`: bytes that were written from an index on.
* `Slices`: what the substrings of a concatenation should hold.
-/

namespace Cantos.Strings

variable {m m₁ m₂ : Buffers} {a b : Text m} {s : Utf8} {xs ys : List Byte} {x : Byte}
  {junk : ℕ → Byte} {buffer source target pos len size i j k : ℕ} {cond : ℕ → Bool}

/-! ## Filling a buffer -/

/-- The bytes of a buffer below an index are kept, the ones from there on have been written. -/
structure Filled (m m₁ : Buffers) (buffer i : ℕ) (xs : List Byte) : Prop where
  next : m₁.next = m.next
  data : ∀ j ≠ buffer, m₁.data j = m.data j
  length : (m₁.data buffer).length = (m.data buffer).length
  bytes : (m₁.data buffer).take (i + xs.length) = (m.data buffer).take i ++ xs

theorem Filled.nil (m : Buffers) (buffer i : ℕ) : Filled m m buffer i [] where
  next := rfl
  data _ _ := rfl
  length := rfl
  bytes := (List.append_nil _).symm

theorem Filled.append (hx : Filled m m₁ buffer i xs) (hy : Filled m₁ m₂ buffer (i + xs.length) ys) :
    Filled m m₂ buffer i (xs ++ ys) where
  next := hy.next.trans hx.next
  data j hj := (hy.data j hj).trans (hx.data j hj)
  length := hy.length.trans hx.length
  bytes := by rw [List.length_append, ← Nat.add_assoc, hy.bytes, hx.bytes, List.append_assoc]

namespace Utf8

theorem exists_store (hi : i < (m.data buffer).length) (x : Byte) :
    ∃ m₁, store buffer i x m = .ok m₁ ∧ Filled m m₁ buffer i [x] := by
  refine ⟨_, if_pos hi, rfl, fun j hj => Function.update_of_ne hj _ _, ?_, ?_⟩
  · simp only [Function.update_self, List.length_set]
  · simp only [Function.update_self, List.length_singleton]
    rw [List.take_add_one, List.take_set_of_le (Nat.le_refl i), List.getElem?_set_self hi]
    rfl

theorem store_ok (h : store buffer i x m = .ok m₁) :
    i < (m.data buffer).length ∧ (m₁.data buffer).length = (m.data buffer).length := by
  rw [store] at h
  split_ifs at h with hi
  obtain rfl := Except.ok.inj h
  exact ⟨hi, by simp only [Function.update_self, List.length_set]⟩

end Utf8

/-- Writing into another buffer does not change what is read. -/
theorem Reads.congr (hr : Reads m s pos i xs) (hd : m₁.data s.buffer = m.data s.buffer) :
    Reads m₁ s pos i xs := by
  intro j x hx
  rw [← hr j x hx, Utf8.get, Utf8.get, hd]

namespace Utf8

/-- Copying from another buffer. -/
theorem exists_copyFrom (hr : Reads m s source i xs) (hs : s.buffer ≠ buffer)
    (hlen : target + i + xs.length ≤ (m.data buffer).length)
    (hsmall : (m.data buffer).length < 2 ^ 32)
    (hcond : ∀ c, c < i + xs.length → cond c = true) :
    ∃ m₁, copyFrom s source buffer target cond xs.length i m = .ok m₁ ∧
      Filled m m₁ buffer (target + i) xs := by
  induction xs generalizing i m with
  | nil => exact ⟨m, rfl, Filled.nil _ _ _⟩
  | cons x xs ih =>
    rw [List.length_cons] at hlen hcond
    have hadd : add32 target i = target + i := by
      rw [add32, Nat.mod_eq_of_lt (by omega)]
    obtain ⟨m₁, hstore, hx⟩ := @exists_store m buffer (target + i) (by omega) x
    obtain ⟨m₂, hcopy, hxs⟩ := ih (hr.tail.congr (hx.data _ hs)) (by rw [hx.length]; omega)
      (by rwa [hx.length]) (fun c hc => hcond c (by omega))
    refine ⟨m₂, ?_, hx.append hxs⟩
    rw [List.length_cons, copyFrom, if_pos (hcond i (by omega)), hr.head, hadd]
    simp only [bind, Except.bind, hstore]
    exact hcopy

theorem copyFrom_ok (h : copyFrom s source buffer target cond k i m = .ok m₁) :
    (m₁.data buffer).length = (m.data buffer).length := by
  induction k generalizing i m with
  | zero => rw [Except.ok.inj h]
  | succ k ih =>
    rw [copyFrom] at h
    split_ifs at h with hc
    · obtain ⟨x, -, h⟩ := bind_eq_ok.mp h
      obtain ⟨m', hstore, h⟩ := bind_eq_ok.mp h
      exact (ih h).trans (store_ok hstore).2
    · rw [Except.ok.inj h]

/-! ## New buffers -/

@[simp] theorem kmalloc_fst (junk : ℕ → Byte) (size : ℕ) (m : Buffers) :
    (kmalloc junk size m).1 = m.next := rfl

theorem kmalloc_data (hj : j ≠ m.next) : (kmalloc junk size m).2.data j = m.data j :=
  Function.update_of_ne hj _ _

theorem length_kmalloc_le : ((kmalloc junk size m).2.data m.next).length ≤ size := by
  simp only [kmalloc, Function.update_self, List.length_map, List.length_range]
  split_ifs <;> omega

theorem length_kmalloc (h0 : 0 < size) (h : size ≤ 2 ^ 32 - 12) :
    ((kmalloc junk size m).2.data m.next).length = size := by
  have := Kmem.le_granted h
  simp only [kmalloc, Function.update_self, List.length_map, List.length_range]
  split_ifs <;> omega

theorem length_kmalloc_lt (h : 2 ^ 32 - 12 < size) (hsize : size < 2 ^ 32) :
    ((kmalloc junk size m).2.data m.next).length < size := by
  have := Kmem.granted_lt h hsize
  simp only [kmalloc, Function.update_self, List.length_map, List.length_range]
  split_ifs <;> omega

theorem kmalloc_reads (a : Text m) (hr : Reads m a.toUtf8 pos i xs) :
    Reads (kmalloc junk size m).2 a.toUtf8 pos i xs :=
  hr.congr (kmalloc_data (Nat.ne_of_lt a.allocated))

/-- A new buffer that is filled up to its null byte is a string. -/
theorem exists_own (hf : Filled (kmalloc junk size m).2 m₁ m.next 0 (xs ++ [0]))
    (hsize : size < 2 ^ 32) :
    ∃ r : Text m₁, own m₁ m.next xs.length = .ok r.toUtf8 ∧ r.content m₁ = xs := by
  have hbytes := hf.bytes
  rw [Nat.zero_add, List.take_zero, List.nil_append] at hbytes
  have hsmall : (m₁.data m.next).length < 2 ^ 32 :=
    hf.length ▸ Nat.lt_of_le_of_lt length_kmalloc_le hsize
  have hle := congrArg List.length hbytes
  rw [List.length_take, List.length_append, List.length_singleton] at hle
  have hnull : (m₁.data m.next)[xs.length]? = some 0 := by
    have h0 : (xs ++ [0])[xs.length]? = some 0 := List.getElem?_concat_length
    rw [← hbytes, List.getElem?_take_of_lt (by simp)] at h0
    exact h0
  refine ⟨⟨⟨m.next, 0, xs.length⟩, ?_, hsmall, by rw [Nat.zero_add]; exact hnull⟩, ?_, ?_⟩
  · rw [hf.next]
    exact Nat.lt_succ_self m.next
  · rw [own, if_neg (by rw [npos]; omega)]
  · have htake := congrArg (List.take xs.length) hbytes
    rw [List.take_take, List.take_left, List.length_append, List.length_singleton,
      Nat.min_eq_left (Nat.le_succ _)] at htake
    exact htake

/-! ## Concatenation -/

/-- The length is clamped, the size of the buffer wraps. -/
theorem add32_byteCount (hi : i ≤ 2 ^ 32 - 2) (hj : j ≤ 2 ^ 32 - 2) :
    (if sub32 (2 ^ 32 - 2) j < i ∨ sub32 (2 ^ 32 - 2) i < j then 2 ^ 32 - 2 else add32 i j) =
        min (i + j) (2 ^ 32 - 2) ∧
      add32 (add32 i j) 1 = (i + j + 1) % 2 ^ 32 := by
  have hsub : ∀ k ≤ 2 ^ 32 - 2, sub32 (2 ^ 32 - 2) k = 2 ^ 32 - 2 - k := by
    intro k hk
    rw [sub32]
    omega
  rw [hsub j hj, hsub i hi]
  refine ⟨?_, Nat.mod_add_mod _ _ _⟩
  split_ifs with hc
  · rw [Nat.min_eq_right (by omega)]
  · rw [Nat.min_eq_left (by omega), add32, Nat.mod_eq_of_lt (by omega)]

theorem exists_concat (junk : ℕ → Byte) (a b : Text m)
    (hle : a.byteCount + b.byteCount ≤ 2 ^ 32 - 13) :
    ∃ m₁, ∃ s : Text m₁, concat junk m a.toUtf8 b.toUtf8 = .ok (s.toUtf8, m₁) ∧
      s.content m₁ = a.content m ++ b.content m := by
  obtain ⟨hst, hsize⟩ := @add32_byteCount a.byteCount b.byteCount (by omega) (by omega)
  rw [Nat.min_eq_left (by omega)] at hst
  rw [Nat.mod_eq_of_lt (by omega)] at hsize
  have hbuffer := @length_kmalloc m junk (a.byteCount + b.byteCount + 1) (Nat.succ_pos _) (by omega)
  generalize hm₀ : (kmalloc junk (a.byteCount + b.byteCount + 1) m).2 = m₀ at hbuffer
  have ha : Reads m₀ a.toUtf8 0 0 (a.content m) := hm₀ ▸ kmalloc_reads a a.reads_content
  have hb : Reads m₀ b.toUtf8 0 0 (b.content m) := hm₀ ▸ kmalloc_reads b b.reads_content
  obtain ⟨m₁, hcopya, hfa⟩ : ∃ m₁, copyFrom a 0 m.next 0 (fun p => p < 2 ^ 32 - 2)
      (a.content m).length 0 m₀ = .ok m₁ ∧ Filled m₀ m₁ m.next 0 (a.content m) :=
    exists_copyFrom ha (Nat.ne_of_lt a.allocated) (by rw [hbuffer, a.length_content]; omega)
      (by omega) (fun c hc => by rw [a.length_content] at hc; rw [decide_eq_true_eq]; omega)
  obtain ⟨m₂, hcopyb, hfb⟩ : ∃ m₂, copyFrom b 0 m.next a.byteCount
      (fun p => add32 p a.byteCount < 2 ^ 32 - 2) (b.content m).length 0 m₁ = .ok m₂ ∧
        Filled m₁ m₂ m.next a.byteCount (b.content m) := by
    refine exists_copyFrom (hb.congr (hfa.data _ (Nat.ne_of_lt b.allocated)))
      (Nat.ne_of_lt b.allocated) (by rw [hfa.length, hbuffer, b.length_content]; omega)
      (by rw [hfa.length]; omega) fun c hc => ?_
    rw [b.length_content] at hc
    rw [decide_eq_true_eq, add32, Nat.mod_eq_of_lt (by omega)]
    omega
  obtain ⟨m₃, hstore, hf⟩ := @exists_store m₂ m.next (a.byteCount + b.byteCount)
    (by rw [hfb.length, hfa.length, hbuffer]; omega) 0
  have hall : Filled m₀ m₃ m.next 0 (a.content m ++ b.content m ++ [0]) :=
    (hfa.append (by simpa using hfb)).append (by simpa using hf)
  obtain ⟨s, hown, hcontent⟩ := exists_own (hm₀ ▸ hall) (by omega)
  refine ⟨m₃, s, ?_, hcontent⟩
  rw [a.length_content] at hcopya
  rw [b.length_content] at hcopyb
  rw [List.length_append, a.length_content, b.length_content] at hown
  simp only [concat, hst, hsize, bind, Except.bind, kmalloc_fst, hm₀, hcopya, hcopyb, hstore, hown]
  rfl

/-- Where the size of the buffer wraps, the null byte is written outside of it. -/
theorem concat_le {r : Utf8 × Buffers} (hr : concat junk m a.toUtf8 b.toUtf8 = .ok r) :
    a.byteCount + b.byteCount ≤ 2 ^ 32 - 13 := by
  have ha := a.byteCount_lt
  have hb := b.byteCount_lt
  obtain ⟨hst, hsize⟩ := @add32_byteCount a.byteCount b.byteCount (by omega) (by omega)
  simp only [concat, hst, hsize, kmalloc_fst] at hr
  obtain ⟨m₁, hcopya, hr⟩ := bind_eq_ok.mp hr
  obtain ⟨m₂, hcopyb, hr⟩ := bind_eq_ok.mp hr
  obtain ⟨m₃, hstore, -⟩ := bind_eq_ok.mp hr
  have hlt := (store_ok hstore).1
  rw [copyFrom_ok hcopyb, copyFrom_ok hcopya] at hlt
  have hle := Nat.lt_of_lt_of_le hlt length_kmalloc_le
  by_contra hc
  -- The size is more than the null byte needs only if it is one of the largest.
  have hmin : 2 ^ 32 - 13 < min (a.byteCount + b.byteCount) (2 ^ 32 - 2) :=
    Nat.lt_min.mpr ⟨Nat.lt_of_not_le hc, by decide⟩
  have hwrap := @length_kmalloc_lt m junk ((a.byteCount + b.byteCount + 1) % 2 ^ 32) (by omega)
    (Nat.mod_lt _ (by decide))
  omega

/-! ## Substrings -/

theorem exists_substr (junk : ℕ → Byte) (a : Text m) (hin : pos ≤ a.byteCount ∨ len = 0)
    (hle : a.byteCount ≤ 2 ^ 32 - 13) (hpos : pos < 2 ^ 32) :
    ∃ m₁, ∃ r : Text m₁, substr junk m a.toUtf8 pos len = .ok (r.toUtf8, m₁) ∧
      r.content m₁ = ((a.content m).drop pos).take len := by
  have hlen : (if len > sub32 a.byteCount pos then sub32 a.byteCount pos else len) =
      (((a.content m).drop pos).take len).length := by
    rw [List.length_take, List.length_drop, a.length_content]
    rcases hin with hin | rfl
    · have hsub : sub32 a.byteCount pos = a.byteCount - pos := by
        rw [sub32]
        omega
      rw [hsub]
      split_ifs <;> omega
    · rw [if_neg (Nat.not_lt_zero _), Nat.zero_min]
  have hreads := a.reads_part pos len
  have hbound : (((a.content m).drop pos).take len).length ≤ a.byteCount := by
    rw [List.length_take, List.length_drop, a.length_content]
    omega
  generalize ((a.content m).drop pos).take len = xs at hlen hreads hbound
  have hsize : add32 xs.length 1 = xs.length + 1 := by
    rw [add32, Nat.mod_eq_of_lt (by omega)]
  have hbuffer := @length_kmalloc m junk (xs.length + 1) (Nat.succ_pos _) (by omega)
  generalize hm₀ : (kmalloc junk (xs.length + 1) m).2 = m₀ at hbuffer
  obtain ⟨m₁, hcopy, hfx⟩ : ∃ m₁, copyFrom a pos m.next 0 (fun _ => true) xs.length 0 m₀ = .ok m₁ ∧
      Filled m₀ m₁ m.next 0 xs :=
    exists_copyFrom (hm₀ ▸ kmalloc_reads a hreads) (Nat.ne_of_lt a.allocated)
      (by rw [hbuffer]; omega) (by omega) (fun _ _ => rfl)
  obtain ⟨m₂, hstore, hf⟩ := @exists_store m₁ m.next xs.length
    (by rw [hfx.length, hbuffer]; omega) 0
  have hall : Filled m₀ m₂ m.next 0 (xs ++ [0]) := hfx.append (by simpa using hf)
  obtain ⟨r, hown, hcontent⟩ := exists_own (hm₀ ▸ hall) (by omega)
  refine ⟨m₂, r, ?_, hcontent⟩
  simp only [substr, hlen, hsize, kmalloc_fst, hm₀, hcopy]
  simp only [bind, Except.bind, hstore, hown]
  rfl

/-- Behind the null byte the length is not clamped. -/
theorem substr_ne_ok (hpos : s.byteCount < pos) (hpos32 : pos < 2 ^ 32) (hlen : 0 < len)
    (r : Utf8 × Buffers) : substr junk m s pos len ≠ .ok r := by
  intro hr
  have hsub : 0 < sub32 s.byteCount pos := by
    rw [sub32]
    omega
  have hn : (if len > sub32 s.byteCount pos then sub32 s.byteCount pos else len) ≠ 0 := by
    split_ifs
    · exact Nat.ne_of_gt hsub
    · exact Nat.ne_of_gt hlen
  obtain ⟨n, hn⟩ := Nat.exists_eq_succ_of_ne_zero hn
  simp only [substr, hn] at hr
  obtain ⟨m₁, hcopy, -⟩ := bind_eq_ok.mp hr
  have hadd : add32 pos 0 = pos := by
    rw [add32, Nat.add_zero, Nat.mod_eq_of_lt hpos32]
  rw [copyFrom, if_pos rfl, hadd, get_error hpos] at hcopy
  cases hcopy

end Utf8

/-! ## Slices -/

/-- A concatenation has all bytes of both strings, and its substrings the bytes in between. -/
def Slices (junk : ℕ → Byte) (m : Buffers) (a b : Text m) (pos len : ℕ) : Prop :=
  ∃ m₁ m₂, ∃ s : Text m₁, ∃ r : Text m₂, Utf8.concat junk m a b = .ok (s.toUtf8, m₁) ∧
    s.byteCount = a.byteCount + b.byteCount ∧ Utf8.substr junk m₁ s pos len = .ok (r.toUtf8, m₂) ∧
    r.content m₂ = ((a.content m ++ b.content m).drop pos).take len

/-- The positions behind the end fail, and so do the lengths whose buffer wraps. -/
theorem slices_iff (hpos : pos < 2 ^ 32) :
    Slices junk m a b pos len ↔
      (pos ≤ a.byteCount + b.byteCount ∨ len = 0) ∧ a.byteCount + b.byteCount ≤ 2 ^ 32 - 13 := by
  constructor
  · rintro ⟨m₁, m₂, s, r, hconcat, hbytes, hsubstr, -⟩
    refine ⟨?_, Utf8.concat_le hconcat⟩
    by_contra hc
    obtain ⟨hbehind, hlen⟩ := not_or.mp hc
    exact Utf8.substr_ne_ok (by omega) hpos (Nat.pos_of_ne_zero hlen) _ hsubstr
  · rintro ⟨hin, hle⟩
    obtain ⟨m₁, s, hconcat, hcontent⟩ := Utf8.exists_concat junk a b hle
    have hbytes : s.byteCount = a.byteCount + b.byteCount := by
      rw [← s.length_content, hcontent, List.length_append, a.length_content, b.length_content]
    obtain ⟨m₂, r, hsubstr, hr⟩ := @Utf8.exists_substr m₁ pos len junk s (by rwa [hbytes])
      (by omega) hpos
    exact ⟨m₁, m₂, s, r, hconcat, hbytes, hsubstr, hcontent ▸ hr⟩

theorem slices_second : Slices (fun _ => 0) memAb ab second 1 2 ↔
    (1 ≤ 2 + 1 ∨ 2 = 0) ∧ 2 + 1 ≤ 2 ^ 32 - 13 :=
  slices_iff (by decide)

/-- The byte at position 4 of `"abb"`. -/
theorem not_slices_second : ¬ ∀ junk m, ∀ a b : Text m, a.NulFree m → b.NulFree m →
    a.byteCount + b.byteCount < 2 ^ 32 - 2 → ∀ pos < 2 ^ 32, ∀ len < 2 ^ 32,
      Slices junk m a b pos len := by
  intro hall
  obtain ⟨m₁, m₂, s, r, -, hbytes, hsubstr, -⟩ := hall (fun _ => 0) memAb ab second (by decide)
    (by decide) (by decide) 4 (by decide) 1 (by decide)
  exact Utf8.substr_ne_ok (by rw [hbytes]; decide) (by decide) (by decide) _ hsubstr

end Cantos.Strings
