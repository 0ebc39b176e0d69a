import Cantos.Structures.Utf8
import Mathlib.Data.List.Infix
import Mathlib.Data.List.Lex
import Mathlib.Order.Basic

/-!
# Comparing and finding strings

`compare` orders the bytes of two ranges lexicographically, as signed numbers, except that
two ranges of one buffer are equal whenever the strings begin at the same address.  `find`
compares at every position up to the difference of the lengths; when the string that is
looked for is the longer one, this difference wraps.

## Main definitions

* `bytesOrder`: the order on the bytes.
* `Range`, `Range.compare`: parts of strings.
* `Ordered`: what a comparison promises of three ranges.
* `IsMatch`, `FindsFirst`: what `find` promises.
-/

namespace Cantos.Strings

variable {m : Buffers} {a b h n : Text m} {s : Utf8} {xs ys zs : List Byte} {x y : Byte}
  {pos subpos len sublen i j k fuel : ℕ}

/-! ## The bytes of a string -/

theorem Utf8.get_error (hi : s.byteCount < i) : s.get m i = .error .outOfBounds :=
  if_neg (Nat.not_le_of_lt hi)

namespace Text

theorem lt (a : Text m) : a.offset + a.byteCount < (m.data a.buffer).length :=
  (List.getElem?_eq_some_iff.mp a.null).1

theorem byteCount_lt (a : Text m) : a.byteCount + 1 < 2 ^ 32 := by
  have := a.lt
  have := a.small
  omega

@[simp] theorem length_content (a : Text m) : (a.content m).length = a.byteCount := by
  have := a.lt
  rw [Utf8.content, List.length_take, List.length_drop]
  omega

/-- A byte up to the null byte. -/
theorem get_eq (a : Text m) (hx : (a.content m ++ [0])[i]? = some x) : a.get m i = .ok x := by
  have hle : i ≤ a.byteCount := by
    have hlt := (List.getElem?_eq_some_iff.mp hx).1
    rw [List.length_append, length_content, List.length_singleton] at hlt
    omega
  have hbyte : (m.data a.buffer)[a.offset + i]? = some x := by
    rcases Nat.lt_or_eq_of_le hle with hlt | rfl
    · rw [List.getElem?_append_left (by rwa [length_content]), Utf8.content,
        List.getElem?_take_of_lt hlt, List.getElem?_drop] at hx
      exact hx
    · rw [List.getElem?_append_right (by rw [length_content]), length_content, Nat.sub_self] at hx
      rw [a.null]
      exact hx
  rw [Utf8.get, if_pos hle, hbyte]

/-- Copies of a string have the same bytes. -/
theorem byteCount_eq_of_string_eq (ha : a.NulFree m) (hb : b.NulFree m)
    (hs : a.string = b.string) : a.byteCount = b.byteCount := by
  have hle : ∀ {a b : Text m}, b.NulFree m → a.string = b.string → b.byteCount ≤ a.byteCount := by
    intro a b hb hs
    by_contra hlt
    obtain ⟨hbuffer, hoffset⟩ := Prod.mk.inj hs
    -- The null byte of the shorter one is a byte of the longer one.
    refine hb (List.mem_iff_getElem?.mpr ⟨a.byteCount, ?_⟩)
    rw [Utf8.content, List.getElem?_take_of_lt (Nat.lt_of_not_le hlt), List.getElem?_drop,
      ← hbuffer, ← hoffset]
    exact a.null
  exact Nat.le_antisymm (hle ha hs.symm) (hle hb hs)

theorem content_eq_of_string_eq (ha : a.NulFree m) (hb : b.NulFree m)
    (hs : a.string = b.string) : a.content m = b.content m := by
  obtain ⟨hbuffer, hoffset⟩ := Prod.mk.inj hs
  rw [Utf8.content, Utf8.content, byteCount_eq_of_string_eq ha hb hs, hbuffer, hoffset]

end Text

/-! ## The order -/

/-- The order of `compare` on the bytes of two ranges. -/
def bytesOrder : List Byte → List Byte → ℤ
  | [], [] => 0
  | _ :: _, [] => 1
  | [], _ :: _ => -1
  | x :: xs, y :: ys => if x ≠ y then x.toInt - y.toInt else bytesOrder xs ys

/-- The first difference. -/
def firstDifference : List Byte → List Byte → Option ℤ
  | x :: xs, y :: ys => if x ≠ y then some (x.toInt - y.toInt) else firstDifference xs ys
  | _, _ => none

theorem toInt_sub_ne_zero (hxy : x ≠ y) : x.toInt - y.toInt ≠ 0 := fun h =>
  hxy (BitVec.eq_of_toInt_eq (Int.sub_eq_zero.mp h))

theorem bytesOrder_eq_zero_iff : bytesOrder xs ys = 0 ↔ xs = ys := by
  induction xs generalizing ys with
  | nil => cases ys <;> simp [bytesOrder]
  | cons x xs ih =>
    cases ys with
    | nil => simp [bytesOrder]
    | cons y ys =>
      rw [bytesOrder]
      by_cases hxy : x = y
      · rw [if_neg (not_not.mpr hxy), ih, hxy, List.cons.injEq, and_iff_right rfl]
      · rw [if_pos hxy]
        exact iff_of_false (toInt_sub_ne_zero hxy) fun h => hxy (List.cons.inj h).1

theorem bytesOrder_swap (xs ys : List Byte) : bytesOrder ys xs = - bytesOrder xs ys := by
  induction xs generalizing ys with
  | nil => cases ys <;> simp [bytesOrder]
  | cons x xs ih =>
    cases ys with
    | nil => simp [bytesOrder]
    | cons y ys =>
      rw [bytesOrder, bytesOrder]
      by_cases hxy : x = y
      · rw [if_neg (not_not.mpr hxy), if_neg (not_not.mpr hxy.symm), ih]
      · rw [if_pos hxy, if_pos (Ne.symm hxy), Int.neg_sub]

/-- The order is the one of the lists of signed numbers. -/
theorem bytesOrder_neg_iff :
    bytesOrder xs ys < 0 ↔ xs.map BitVec.toInt < ys.map BitVec.toInt := by
  induction xs generalizing ys with
  | nil => cases ys <;> simp [bytesOrder]
  | cons x xs ih =>
    cases ys with
    | nil => simp [bytesOrder]
    | cons y ys =>
      rw [bytesOrder, List.map_cons, List.map_cons, List.cons_lt_cons_iff, ← ih]
      by_cases hxy : x = y
      · simp [hxy]
      · have hne : x.toInt ≠ y.toInt := fun h => hxy (BitVec.eq_of_toInt_eq h)
        simp [hxy, hne]

theorem bytesOrder_trans (hxy : bytesOrder xs ys < 0) (hyz : bytesOrder ys zs < 0) :
    bytesOrder xs zs < 0 :=
  bytesOrder_neg_iff.mpr ((bytesOrder_neg_iff.mp hxy).trans (bytesOrder_neg_iff.mp hyz))

/-- Without a difference the lengths decide. -/
theorem bytesOrder_eq (xs ys : List Byte) : bytesOrder xs ys = match firstDifference xs ys with
    | some d => d
    | none => if xs.length > ys.length then 1 else if ys.length > xs.length then -1 else 0 := by
  induction xs generalizing ys with
  | nil => cases ys <;> simp [bytesOrder, firstDifference]
  | cons x xs ih =>
    cases ys with
    | nil => simp [bytesOrder, firstDifference]
    | cons y ys =>
      rw [bytesOrder, firstDifference]
      by_cases hxy : x = y
      · rw [if_neg (not_not.mpr hxy), if_neg (not_not.mpr hxy), ih]
        simp
      · rw [if_pos hxy, if_pos hxy]

theorem prefix_of_firstDifference (hd : firstDifference xs ys = none)
    (hlen : xs.length ≤ ys.length) : xs <+: ys := by
  induction xs generalizing ys with
  | nil => exact List.nil_prefix
  | cons x xs ih =>
    cases ys with
    | nil => exact absurd hlen (Nat.not_succ_le_zero _)
    | cons y ys =>
      rw [firstDifference] at hd
      split_ifs at hd with hxy
      obtain rfl := not_not.mp hxy
      exact List.cons_prefix_cons.mpr ⟨rfl, ih hd (Nat.le_of_succ_le_succ hlen)⟩

theorem firstDifference_ne_zero {d : ℤ} (hd : firstDifference xs ys = some d) : d ≠ 0 := by
  induction xs generalizing ys with
  | nil => cases hd
  | cons x xs ih =>
    cases ys with
    | nil => cases hd
    | cons y ys =>
      rw [firstDifference] at hd
      split_ifs at hd with hxy
      · obtain rfl := Option.some.inj hd
        exact toInt_sub_ne_zero hxy
      · exact ih hd

/-! ## The comparison -/

/-- From the round `i` on, the reads at a position are those of some bytes. -/
def Reads (m : Buffers) (s : Utf8) (pos i : ℕ) (xs : List Byte) : Prop :=
  ∀ j, ∀ x ∈ xs[j]?, s.get m (add32 pos (i + j)) = .ok x

theorem Reads.head (hr : Reads m s pos i (x :: xs)) : s.get m (add32 pos i) = .ok x := hr 0 x rfl

theorem Reads.tail (hr : Reads m s pos i (x :: xs)) : Reads m s pos (i + 1) xs := by
  intro j z hz
  rw [Nat.add_assoc, Nat.add_comm 1 j]
  exact hr (j + 1) z hz

/-- The bytes of a part of a string, and of its null byte. -/
theorem Text.reads (a : Text m) (pos len : ℕ) :
    Reads m a.toUtf8 pos 0 (((a.content m ++ [0]).drop pos).take len) := by
  intro j x hx
  have hmem : (a.content m ++ [0])[pos + j]? = some x := by
    rw [Option.mem_def, List.getElem?_take] at hx
    split_ifs at hx
    rwa [List.getElem?_drop] at hx
  have hlt : pos + j < (a.content m ++ [0]).length := (List.getElem?_eq_some_iff.mp hmem).1
  have hsmall := a.byteCount_lt
  rw [List.length_append, Text.length_content, List.length_singleton] at hlt
  have hadd : add32 pos (0 + j) = pos + j := by
    rw [Nat.zero_add, add32, Nat.mod_eq_of_lt (by omega)]
  rw [hadd]
  exact a.get_eq hmem

theorem Text.reads_part (a : Text m) (pos len : ℕ) :
    Reads m a.toUtf8 pos 0 (((a.content m).drop pos).take len) := by
  intro j x hx
  obtain ⟨t, ht⟩ := ((List.prefix_append (a.content m) [0]).drop pos).take len
  refine a.reads pos len j x ?_
  rw [← ht, Option.mem_def, List.getElem?_append_left (List.getElem?_eq_some_iff.mp hx).1]
  exact hx

theorem Text.reads_content (a : Text m) : Reads m a.toUtf8 0 0 (a.content m) := by
  have hr := a.reads_part 0 a.byteCount
  rwa [List.drop_zero, List.take_of_length_le (by rw [Text.length_content])] at hr

/-- The loop finds the first difference, or goes through the shorter one. -/
theorem compareFrom_eq (hx : Reads m a.toUtf8 pos i xs) (hy : Reads m b.toUtf8 subpos i ys)
    (hk : min xs.length ys.length ≤ k) :
    Utf8.compareFrom m a b pos subpos k i = match firstDifference xs ys with
      | some d => .ok (some d)
      | none => Utf8.compareFrom m a b pos subpos (k - min xs.length ys.length)
          (i + min xs.length ys.length) := by
  induction xs generalizing ys k i with
  | nil => simp [firstDifference]
  | cons x xs ih =>
    cases ys with
    | nil => simp [firstDifference]
    | cons y ys =>
      rw [List.length_cons, List.length_cons, Nat.succ_min_succ] at hk ⊢
      obtain ⟨k, rfl⟩ := Nat.exists_eq_succ_of_ne_zero (Nat.ne_of_gt (Nat.zero_lt_of_lt hk))
      rw [Utf8.compareFrom, hx.head, hy.head, firstDifference]
      by_cases hxy : x = y
      · have hrest := ih hx.tail hy.tail (Nat.le_of_succ_le_succ hk)
        rw [if_neg (not_not.mpr hxy), Nat.succ_sub_succ,
          ← Nat.succ_add_eq_add_succ i (min xs.length ys.length), ← hrest]
        simp only [bind, Except.bind]
        rw [if_neg (not_not.mpr hxy)]
      · rw [if_pos hxy]
        simp only [bind, Except.bind]
        rw [if_pos hxy]
        rfl

/-- A comparison of ranges in different buffers orders their bytes. -/
theorem compare_eq (hne : a.string ≠ b.string) (hpos : pos + len ≤ a.byteCount)
    (hsub : subpos + sublen ≤ b.byteCount) :
    Utf8.compare m a b pos len subpos sublen =
      .ok (bytesOrder (((a.content m).drop pos).take len)
        (((b.content m).drop subpos).take sublen)) := by
  have hlenx : (((a.content m).drop pos).take len).length = len := by
    rw [List.length_take, List.length_drop, Text.length_content]
    omega
  have hleny : (((b.content m).drop subpos).take sublen).length = sublen := by
    rw [List.length_take, List.length_drop, Text.length_content]
    omega
  have hcount : (if len > sublen then sublen else len) = min len sublen := by
    split_ifs <;> omega
  have hloop := @compareFrom_eq m a b _ _ pos subpos 0 (min len sublen) (a.reads_part pos len)
    (b.reads_part subpos sublen) (by rw [hlenx, hleny])
  rw [bytesOrder_eq, hlenx, hleny, Utf8.compare, if_neg hne]
  simp only [hcount]
  rw [hloop, hlenx, hleny, Nat.sub_self]
  cases firstDifference (((a.content m).drop pos).take len)
      (((b.content m).drop subpos).take sublen) with
  | some d => rfl
  | none =>
    simp only [Utf8.compareFrom, bind, Except.bind]
    split_ifs <;> rfl

/-! ## Ranges -/

/-- A part of a string. -/
structure Range (m : Buffers) where
  text : Text m
  pos : ℕ
  len : ℕ
  inside : pos + len ≤ text.byteCount

namespace Range

def bytes (x : Range m) : List Byte := ((x.text.content m).drop x.pos).take x.len

/-- `compare` on the strings and positions of two ranges. -/
def compare (x y : Range m) : Except Fault ℤ :=
  Utf8.compare m x.text y.text x.pos x.len y.pos y.len

/-- Parts of strings that begin at the same address are the same. -/
def Apart (x y : Range m) : Prop := x.text.string = y.text.string → x.bytes = y.bytes

/-- A comparison is 0 on equal bytes only, and the other way around it is the opposite; of
whole strings without null bytes it is 0 when they are equal. -/
def Agrees (x y : Range m) : Prop :=
  (∃ c d, x.compare y = .ok c ∧ y.compare x = .ok d ∧ (c = 0 ↔ x.bytes = y.bytes) ∧
      c.sign = - d.sign) ∧
    (x.text.NulFree m → y.text.NulFree m →
      (Utf8.compareAll m x.text y.text = .ok 0 ↔ Utf8.equals m x.text y.text = .ok true))

theorem compare_of_string_eq {x y : Range m} (hs : x.text.string = y.text.string) :
    x.compare y = .ok 0 := if_pos hs

theorem compare_of_apart {x y : Range m} (hxy : x.Apart y) :
    x.compare y = .ok (bytesOrder x.bytes y.bytes) := by
  by_cases hs : x.text.string = y.text.string
  · rw [compare_of_string_eq hs, bytesOrder_eq_zero_iff.mpr (hxy hs)]
  · exact compare_eq hs x.inside y.inside

theorem Apart.symm {x y : Range m} (hxy : x.Apart y) : y.Apart x := fun hs => (hxy hs.symm).symm

/-- The whole string. -/
def whole (a : Text m) : Range m where
  text := a
  pos := 0
  len := a.byteCount
  inside := Nat.le_of_eq (Nat.zero_add _)

@[simp] theorem bytes_whole (a : Text m) : (whole a).bytes = a.content m := by
  rw [bytes, whole, List.drop_zero, List.take_of_length_le (by rw [Text.length_content])]

theorem apart_whole (ha : a.NulFree m) (hb : b.NulFree m) : (whole a).Apart (whole b) := by
  intro hs
  rw [bytes_whole, bytes_whole]
  exact Text.content_eq_of_string_eq ha hb hs

end Range

/-! ## Equality -/

theorem compareAll_eq_zero_iff (ha : a.NulFree m) (hb : b.NulFree m) :
    Utf8.compareAll m a b = .ok 0 ↔ a.content m = b.content m := by
  have hc : Utf8.compareAll m a b = _ := Range.compare_of_apart (Range.apart_whole ha hb)
  rw [hc, Except.ok.injEq, bytesOrder_eq_zero_iff, Range.bytes_whole, Range.bytes_whole]

theorem equalsFrom_eq (ha : a.NulFree m) (hlen : a.byteCount = b.byteCount) (hi : i ≤ a.byteCount)
    (hk : a.byteCount < i + k) :
    Utf8.equalsFrom m a b k i = .ok (decide ((a.content m).drop i = (b.content m).drop i)) := by
  induction k generalizing i with
  | zero => exact absurd hk (Nat.not_lt_of_le hi)
  | succ k ih =>
    rcases Nat.lt_or_eq_of_le hi with hlt | rfl
    · have hia : i < (a.content m).length := by rwa [Text.length_content]
      have hib : i < (b.content m).length := by rwa [Text.length_content, ← hlen]
      have hx := a.get_eq (List.getElem?_append_left hia ▸ List.getElem?_eq_getElem hia)
      have hy := b.get_eq (List.getElem?_append_left hib ▸ List.getElem?_eq_getElem hib)
      have hne : (a.content m)[i] ≠ 0 := fun h => ha (h ▸ List.getElem_mem hia)
      have hnext := @ih (i + 1) hlt (by omega)
      rw [List.drop_eq_getElem_cons hia, List.drop_eq_getElem_cons hib, Utf8.equalsFrom, hx, hy]
      simp only [bind, Except.bind, if_neg hne, hnext, List.cons.injEq]
      by_cases hxy : (a.content m)[i] = (b.content m)[i]
      · simp [hxy]
      · simp [hxy, pure, Except.pure]
    · have hx := a.get_eq (i := a.byteCount) (x := 0) (by simp)
      have hy := b.get_eq (i := a.byteCount) (x := 0) (by simp [hlen])
      rw [Utf8.equalsFrom, hx, hy, List.drop_of_length_le (by rw [Text.length_content]),
        List.drop_of_length_le (by rw [Text.length_content, hlen])]
      rfl

theorem equals_eq_true_iff (ha : a.NulFree m) (hb : b.NulFree m) :
    Utf8.equals m a b = .ok true ↔ a.content m = b.content m := by
  rw [Utf8.equals]
  split_ifs with hs hlen
  · exact iff_of_true rfl (Text.content_eq_of_string_eq ha hb hs)
  · refine iff_of_false (by decide) fun h => hlen ?_
    rw [← a.length_content, h, b.length_content]
  · have := a.byteCount_lt
    rw [equalsFrom_eq ha (not_not.mp hlen) (Nat.zero_le _) (by omega)]
    simp

/-! ## Ranges of one buffer -/

theorem Range.agrees_iff {x y : Range m} : x.Agrees y ↔ x.Apart y := by
  constructor
  · rintro ⟨⟨c, d, hc, -, hzero, -⟩, -⟩ hs
    rw [Range.compare_of_string_eq hs] at hc
    exact hzero.mp (Except.ok.inj hc).symm
  · intro hxy
    refine ⟨⟨_, _, Range.compare_of_apart hxy, Range.compare_of_apart hxy.symm,
      bytesOrder_eq_zero_iff, ?_⟩, fun hx hy => ?_⟩
    · rw [bytesOrder_swap y.bytes, Int.sign_neg]
    · rw [compareAll_eq_zero_iff hx hy, equals_eq_true_iff hx hy]

/-- The comparisons of three ranges are an order. -/
def Ordered (x y z : Range m) : Prop :=
  x.Agrees y ∧ y.Agrees z ∧ x.Agrees z ∧
    ∀ c d, x.compare y = .ok c → y.compare z = .ok d → c < 0 → d < 0 →
      ∃ e, x.compare z = .ok e ∧ e < 0

/-- The comparisons are an order as long as parts of strings at one address are the same. -/
theorem ordered_iff (x y z : Range m) :
    Ordered x y z ↔ x.Apart y ∧ y.Apart z ∧ x.Apart z := by
  rw [Ordered, Range.agrees_iff, Range.agrees_iff, Range.agrees_iff]
  constructor
  · rintro ⟨hxy, hyz, hxz, -⟩
    exact ⟨hxy, hyz, hxz⟩
  · rintro ⟨hxy, hyz, hxz⟩
    refine ⟨hxy, hyz, hxz, fun c d hc hd hcneg hdneg => ?_⟩
    rw [Range.compare_of_apart hxy] at hc
    rw [Range.compare_of_apart hyz] at hd
    obtain rfl := Except.ok.inj hc
    obtain rfl := Except.ok.inj hd
    exact ⟨_, Range.compare_of_apart hxz, bytesOrder_trans hcneg hdneg⟩

/-- The strings `"ab"` and `"b"`. -/
def memAb : Buffers where
  data := fun i => if i = 0 then [0x61, 0x62, 0] else [0x62, 0]
  next := 2

def ab : Text memAb where
  buffer := 0
  offset := 0
  byteCount := 2
  allocated := by decide
  small := by decide
  null := rfl

/-- The `"a"` of `"ab"`. -/
def abFirst : Range memAb := ⟨ab, 0, 1, by decide⟩

/-- The `"b"` of `"ab"`. -/
def abSecond : Range memAb := ⟨ab, 1, 1, by decide⟩

theorem not_ordered_ab : ¬ ∀ m, ∀ x y z : Range m, Ordered x y z := by
  intro h
  have hap : abFirst.Apart abSecond := Range.agrees_iff.mp (h _ abFirst abSecond abSecond).1
  exact absurd (hap rfl) (by decide)

/-! ## Finding a string -/

/-- The bytes of `n` stand in `h` at a position. -/
def IsMatch (m : Buffers) (h n : Text m) (i : ℕ) : Prop :=
  i + n.byteCount ≤ h.byteCount ∧ ((h.content m).drop i).take n.byteCount = n.content m

/-- The first match from a position on, or `npos`. -/
def IsFirst (m : Buffers) (h n : Text m) (pos r : ℕ) : Prop :=
  (pos ≤ r ∧ IsMatch m h n r ∧ ∀ i, pos ≤ i → i < r → ¬ IsMatch m h n i) ∨
    r = npos ∧ ∀ i, pos ≤ i → ¬ IsMatch m h n i

/-- `find` returns the first match, and reads no byte behind the null byte. -/
def FindsFirst (m : Buffers) (h n : Text m) (pos : ℕ) : Prop :=
  ∃ fuel r, Utf8.findFrom m h n fuel pos = .ok r ∧ IsFirst m h n pos r

theorem IsMatch.isFirst (hi : IsMatch m h n i) : IsFirst m h n i i :=
  Or.inl ⟨Nat.le_refl _, hi, fun _ hle hlt => absurd hle (Nat.not_le_of_lt hlt)⟩

theorem IsFirst.of_succ {r : ℕ} (hi : ¬ IsMatch m h n i) (hr : IsFirst m h n (i + 1) r) :
    IsFirst m h n i r := by
  have hfrom : ∀ j, i ≤ j → (i + 1 ≤ j → ¬ IsMatch m h n j) → ¬ IsMatch m h n j := by
    intro j hj hrest
    rcases Nat.eq_or_lt_of_le hj with rfl | hlt
    · exact hi
    · exact hrest hlt
  rcases hr with ⟨hle, hmatch, hleast⟩ | ⟨rfl, hnone⟩
  · refine Or.inl ⟨Nat.le_of_succ_le hle, hmatch, fun j hj hlt => ?_⟩
    exact hfrom j hj fun hs => hleast j hs hlt
  · exact Or.inr ⟨rfl, fun j hj => hfrom j hj (hnone j)⟩

/-- The rounds that the guard of the loop should admit compare for a match. -/
theorem compare_match (hh : h.NulFree m) (hn : n.NulFree m) (hi : i + n.byteCount ≤ h.byteCount) :
    ∃ c, Utf8.compare m h n i n.byteCount 0 n.byteCount = .ok c ∧ (c = 0 ↔ IsMatch m h n i) := by
  have hwhole := Range.bytes_whole n
  have hap : Range.Apart ⟨h, i, n.byteCount, hi⟩ (Range.whole n) := by
    intro hs
    have hlen := Text.byteCount_eq_of_string_eq hh hn hs
    obtain rfl : i = 0 := by omega
    have hall : (h.content m).take n.byteCount = h.content m :=
      List.take_of_length_le (by rw [Text.length_content, hlen])
    rw [hwhole, Range.bytes, List.drop_zero, hall]
    exact Text.content_eq_of_string_eq hh hn hs
  refine ⟨_, Range.compare_of_apart hap, ?_⟩
  rw [bytesOrder_eq_zero_iff, hwhole]
  exact (and_iff_right hi).symm

/-- A string that is not longer is found. -/
theorem findFrom_of_le (hh : h.NulFree m) (hn : n.NulFree m) (hle : n.byteCount ≤ h.byteCount) :
    h.byteCount - n.byteCount + 1 - i = k →
      ∃ r, Utf8.findFrom m h n (k + 1) i = .ok r ∧ IsFirst m h n i r := by
  have hsmall := h.byteCount_lt
  have hsub : sub32 h.byteCount n.byteCount = h.byteCount - n.byteCount := by
    rw [sub32]
    omega
  induction k generalizing i with
  | zero =>
    intro hk
    refine ⟨npos, ?_, Or.inr ⟨rfl, fun j hj hmatch => ?_⟩⟩
    · rw [Utf8.findFrom, hsub, if_neg (by omega)]
      rfl
    · have := hmatch.1
      omega
  | succ k ih =>
    intro hk
    obtain ⟨c, hc, hzero⟩ := compare_match hh hn (i := i) (by omega)
    rw [Utf8.findFrom, hsub, if_pos (by omega), hc]
    by_cases hmatch : IsMatch m h n i
    · refine ⟨i, ?_, hmatch.isFirst⟩
      simp only [bind, Except.bind, if_pos (hzero.mpr hmatch)]
      rfl
    · have hadd : add32 i 1 = i + 1 := by
        rw [add32, Nat.mod_eq_of_lt (by omega)]
      obtain ⟨r, hr, hfirst⟩ := @ih (i + 1) (by omega)
      refine ⟨r, ?_, hfirst.of_succ hmatch⟩
      simp only [bind, Except.bind, if_neg (fun h0 => hmatch (hzero.mp h0)), hadd]
      exact hr

/-- A longer string differs at the null byte at the latest. -/
theorem compare_ne_zero (hh : h.NulFree m) (hn : n.NulFree m) (hlt : h.byteCount < n.byteCount)
    (hi : i ≤ h.byteCount) :
    ∃ c, Utf8.compare m h n i n.byteCount 0 n.byteCount = .ok c ∧ c ≠ 0 := by
  have hne : h.string ≠ n.string := fun hs =>
    absurd (Text.byteCount_eq_of_string_eq hh hn hs) (Nat.ne_of_lt hlt)
  have hlen : ((h.content m ++ [0]).drop i).length = h.byteCount + 1 - i := by simp
  have hx := h.reads i n.byteCount
  rw [List.take_of_length_le (by omega)] at hx
  have hloop := @compareFrom_eq m h n _ _ i 0 0 n.byteCount hx n.reads_content
    ((Nat.min_le_right _ _).trans (by rw [Text.length_content]))
  cases hd : firstDifference ((h.content m ++ [0]).drop i) (n.content m) with
  | some d =>
    refine ⟨d, ?_, firstDifference_ne_zero hd⟩
    rw [Utf8.compare, if_neg hne, ite_self, hloop, hd]
    rfl
  | none =>
    have hpre := prefix_of_firstDifference hd (by rw [hlen, Text.length_content]; omega)
    refine absurd (hpre.subset ?_) hn
    rw [List.drop_append_of_le_length (by rw [Text.length_content]; exact hi)]
    exact List.mem_append_right _ (List.mem_singleton_self _)

/-- Behind the null byte the first read fails. -/
theorem compare_error (hlt : h.byteCount < n.byteCount) (hi : h.byteCount < i) (hi32 : i < 2 ^ 32)
    (hne : h.string ≠ n.string) :
    Utf8.compare m h n i n.byteCount 0 n.byteCount = .error .outOfBounds := by
  obtain ⟨k, hk⟩ := Nat.exists_eq_succ_of_ne_zero (Nat.ne_of_gt (Nat.zero_lt_of_lt hlt))
  have hget : h.get m (add32 i 0) = .error .outOfBounds :=
    Utf8.get_error (by rw [add32, Nat.add_zero, Nat.mod_eq_of_lt hi32]; exact hi)
  rw [Utf8.compare, if_neg hne, ite_self, hk, Utf8.compareFrom, hget]
  rfl

/-- A longer string is looked for up to the null byte and behind it. -/
theorem findFrom_of_lt (hh : h.NulFree m) (hn : n.NulFree m) (hlt : h.byteCount < n.byteCount)
    (hi : i + n.byteCount ≤ 2 ^ 32 + h.byteCount) (hi32 : i < 2 ^ 32) (r : ℕ) :
    Utf8.findFrom m h n fuel i ≠ .ok r := by
  have hsmall := n.byteCount_lt
  have hne : h.string ≠ n.string := fun hs =>
    absurd (Text.byteCount_eq_of_string_eq hh hn hs) (Nat.ne_of_lt hlt)
  induction fuel generalizing i with
  | zero =>
    intro hr
    cases hr
  | succ fuel ih =>
    rw [Utf8.findFrom, if_pos (by rw [sub32]; omega)]
    rcases Nat.lt_or_ge h.byteCount i with hbehind | hinside
    · rw [compare_error hlt hbehind hi32 hne]
      intro hr
      cases hr
    · obtain ⟨c, hc, hc0⟩ := compare_ne_zero hh hn hlt hinside
      have hadd : add32 i 1 = i + 1 := by
        rw [add32, Nat.mod_eq_of_lt (by omega)]
      rw [hc]
      simp only [bind, Except.bind, if_neg hc0, hadd]
      exact ih (by omega) (by omega)

/-- `find` is right except on a longer string, when the difference of the lengths wraps. -/
theorem findsFirst_iff (hh : h.NulFree m) (hn : n.NulFree m) (hpos : pos < 2 ^ 32) :
    FindsFirst m h n pos ↔
      n.byteCount ≤ h.byteCount ∨ 2 ^ 32 + h.byteCount < n.byteCount + pos := by
  constructor
  · rintro ⟨fuel, r, hr, -⟩
    by_contra hc
    obtain ⟨hlt, hle⟩ := not_or.mp hc
    exact findFrom_of_lt hh hn (Nat.lt_of_not_le hlt) (by omega) hpos r hr
  · intro hcases
    rcases Nat.lt_or_ge h.byteCount n.byteCount with hlt | hle
    · have hbehind : 2 ^ 32 + h.byteCount < n.byteCount + pos := by omega
      have hsmall := n.byteCount_lt
      refine ⟨1, npos, ?_, Or.inr ⟨rfl, fun i _ hmatch => ?_⟩⟩
      · rw [Utf8.findFrom, if_neg (by rw [sub32]; omega)]
        rfl
      · have := hmatch.1
        omega
    · obtain ⟨r, hr, hfirst⟩ := @findFrom_of_le m h n pos _ hh hn hle rfl
      exact ⟨_, r, hr, hfirst⟩

def second : Text memAb where
  buffer := 1
  offset := 0
  byteCount := 1
  allocated := by decide
  small := by decide
  null := rfl

/-- `"b"` in `"ab"`. -/
theorem findsFirst_second :
    FindsFirst memAb ab second 0 ↔ 1 ≤ 2 ∨ 2 ^ 32 + 2 < 1 + 0 :=
  findsFirst_iff (by decide) (by decide) (by decide)

/-- `"ab"` in `"b"`. -/
theorem not_findsFirst_ab : ¬ ∀ m, ∀ h n : Text m, h.NulFree m → n.NulFree m →
    ∀ pos < 2 ^ 32, FindsFirst m h n pos := by
  intro hall
  obtain ⟨fuel, r, hr, -⟩ := hall memAb second ab (by decide) (by decide) 0 (by decide)
  exact findFrom_of_lt (by decide) (by decide) (by decide) (by decide) (by decide) r hr

end Cantos.Strings
