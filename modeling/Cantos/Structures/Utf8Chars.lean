import Cantos.Structures.Utf8Slices
import Mathlib.Algebra.GroupWithZero.Nat

/-!
# Counting the characters of a string

`chars` adds 1 for a byte without the bit `0x80`, and 1 for a byte with one of the bits `0xc0`.
The characters from `0x40` to `0x7f` are counted twice, and so is every byte of the longer
encodings counted once.

## Main definitions

* `encode`: the bytes of a list of characters.
* `CountsChars`: what `chars` promises of a string.
* `CountsBoth`: the same of two strings and their concatenation.
-/

namespace Cantos.Strings

variable {m m₁ : Buffers} {a b : Text m} {xs ys : List Byte} {x : Byte} {c : Char}
  {l l₁ l₂ : List Char} {junk : ℕ → Byte} {i k n : ℕ}

/-! ## Encodings -/

/-- The bytes of a character in UTF-8. -/
def encodeChar (c : Char) : List Byte := (String.utf8EncodeChar c).map UInt8.toBitVec

def encode (l : List Char) : List Byte := l.flatMap encodeChar

theorem encode_cons : encode (c :: l) = encodeChar c ++ encode l := List.flatMap_cons

theorem encode_append : encode (l₁ ++ l₂) = encode l₁ ++ encode l₂ := List.flatMap_append

/-- A character below `0x80` is a byte; the bytes of the others are from `0x80` on. -/
theorem encodeChar_cases (c : Char) :
    (c.toNat < 0x80 ∧ encodeChar c = [BitVec.ofNat 8 c.toNat]) ∨
      0x80 ≤ c.toNat ∧ 2 ≤ (encodeChar c).length ∧ ∀ x ∈ encodeChar c, 0x80 ≤ x.toNat := by
  have hbyte : ∀ v : ℕ, (UInt8.ofNat v).toBitVec = BitVec.ofNat 8 v := fun _ => rfl
  simp only [encodeChar, String.utf8EncodeChar]
  change (c.val.toNat < _ ∧ _ = [BitVec.ofNat 8 c.val.toNat]) ∨ _ ≤ c.val.toNat ∧ _
  generalize c.val.toNat = v
  split_ifs with h1 h2 h3
  · exact Or.inl ⟨Nat.lt_succ_of_le h1, by rw [List.map_singleton, hbyte]⟩
  all_goals
    refine Or.inr ⟨Nat.lt_of_not_le h1, by simp, ?_⟩
    simp only [List.map_cons, List.map_nil, hbyte, List.mem_cons, List.not_mem_nil, or_false,
      forall_eq_or_imp, forall_eq, BitVec.toNat_ofNat]
    omega

theorem zero_notMem_encode (h : '\x00' ∉ l) : 0 ∉ encode l := by
  intro hmem
  obtain ⟨c, hc, hx⟩ := List.mem_flatMap.mp hmem
  rcases encodeChar_cases c with ⟨hlt, heq⟩ | ⟨-, -, hhigh⟩
  · rw [heq, List.mem_singleton] at hx
    have hnat : 0 = c.toNat % 2 ^ 8 := congrArg BitVec.toNat hx
    have hzero : c.toNat = 0 := by omega
    have hnull : c = '\x00' := Char.toNat_inj.mp hzero
    exact h (hnull ▸ hc)
  · exact absurd (hhigh 0 hx) (by decide)

theorem length_le_length_encode (l : List Char) : l.length ≤ (encode l).length := by
  induction l with
  | nil => exact Nat.le_refl 0
  | cons c l ih =>
    have hpos : 1 ≤ (encodeChar c).length := by
      rcases encodeChar_cases c with ⟨-, heq⟩ | ⟨-, hlen, -⟩
      · rw [heq, List.length_singleton]
      · exact Nat.le_of_succ_le hlen
    rw [encode_cons, List.length_append, List.length_cons]
    omega

/-! ## What a character adds -/

namespace Utf8

theorem weight_eq (b : Byte) :
    weight b = (if b.toNat < 0x80 then 1 else 0) + if b.toNat < 0x40 then 0 else 1 := by
  revert b
  decide

/-- What some bytes add to the count. -/
def weights (xs : List Byte) : ℕ := (xs.map weight).sum

@[simp] theorem weights_nil : weights [] = 0 := rfl

@[simp] theorem weights_cons : weights (x :: xs) = weight x + weights xs := by
  rw [weights, List.map_cons, List.sum_cons, weights]

@[simp] theorem weights_append : weights (xs ++ ys) = weights xs + weights ys := by
  rw [weights, List.map_append, List.sum_append, weights, weights]

theorem weights_eq_length (h : ∀ x ∈ xs, 0x80 ≤ x.toNat) : weights xs = xs.length := by
  induction xs with
  | nil => rfl
  | cons x xs ih =>
    have hx := h x List.mem_cons_self
    rw [weights_cons, ih fun y hy => h y (List.mem_cons_of_mem _ hy), weight_eq,
      if_neg (by omega), if_neg (by omega), List.length_cons, Nat.zero_add, Nat.add_comm]

/-- A character is counted once only below `0x40`. -/
theorem weights_encodeChar (c : Char) :
    1 ≤ weights (encodeChar c) ∧ weights (encodeChar c) ≤ (encodeChar c).length + 1 ∧
      (weights (encodeChar c) = 1 ↔ c.toNat < 0x40) := by
  rcases encodeChar_cases c with ⟨hlt, heq⟩ | ⟨hle, hlen, hhigh⟩
  · have hbyte : (BitVec.ofNat 8 c.toNat).toNat = c.toNat := by
      rw [BitVec.toNat_ofNat, Nat.mod_eq_of_lt (by omega)]
    rw [heq, weights_cons, weights_nil, weight_eq, hbyte, if_pos hlt, List.length_singleton]
    split_ifs <;> omega
  · rw [weights_eq_length hhigh]
    omega

/-- The count of a list of characters is its length, and 1 or more for each character from
`0x40` on. -/
theorem weights_encode (l : List Char) :
    l.length ≤ weights (encode l) ∧ weights (encode l) ≤ l.length + (encode l).length ∧
      (weights (encode l) = l.length ↔ ∀ c ∈ l, c.toNat < 0x40) := by
  induction l with
  | nil => simp [encode]
  | cons c l ih =>
    obtain ⟨hpos, hle, hone⟩ := weights_encodeChar c
    obtain ⟨ihpos, ihle, ihone⟩ := ih
    rw [encode_cons, weights_append, List.length_append, List.length_cons, List.forall_mem_cons,
      ← hone, ← ihone]
    omega

/-! ## The loop -/

theorem charsFrom_eq (ha : a.NulFree m) (hi : i ≤ a.byteCount) (hk : a.byteCount < i + k)
    (hn : n < 2 ^ 32) :
    charsFrom m a k i n = .ok ((n + weights ((a.content m).drop i)) % 2 ^ 32) := by
  induction k generalizing i n with
  | zero => exact absurd hk (Nat.not_lt_of_le hi)
  | succ k ih =>
    rcases Nat.lt_or_eq_of_le hi with hlt | rfl
    · have hia : i < (a.content m).length := by rwa [Text.length_content]
      have hx := a.get_eq (List.getElem?_append_left hia ▸ List.getElem?_eq_getElem hia)
      have hne : (a.content m)[i] ≠ 0 := fun h => ha (h ▸ List.getElem_mem hia)
      have hnext := @ih (i + 1) (add32 n (weight (a.content m)[i])) hlt (by omega)
        (Nat.mod_lt _ (by decide))
      rw [charsFrom, hx]
      simp only [bind, Except.bind, if_neg hne, hnext]
      rw [List.drop_eq_getElem_cons hia, weights_cons, add32, Nat.mod_add_mod, Nat.add_assoc]
    · have hx := a.get_eq (i := a.byteCount) (x := 0) (by simp)
      rw [charsFrom, hx, List.drop_of_length_le (by rw [Text.length_content]), weights_nil,
        Nat.add_zero n, Nat.mod_eq_of_lt hn]
      rfl

theorem chars_eq (ha : a.NulFree m) : chars m a = .ok (weights (a.content m) % 2 ^ 32) := by
  have := a.byteCount_lt
  rw [chars, charsFrom_eq ha (Nat.zero_le _) (by omega) (by decide), Nat.zero_add, List.drop_zero]

end Utf8

/-! ## Counting -/

/-- `chars` counts the characters, and there are no more of them than bytes. -/
def CountsChars (m : Buffers) (s : Utf8) (l : List Char) : Prop :=
  s.chars m = .ok l.length ∧ ∀ n, s.chars m = .ok n → n ≤ s.byteCount

/-- `chars` counts the characters of two strings, and of a concatenation as many as of both. -/
def CountsBoth (junk : ℕ → Byte) (m : Buffers) (a b : Text m) (l₁ l₂ : List Char) : Prop :=
  CountsChars m a l₁ ∧ CountsChars m b l₂ ∧
    ∀ s m₁, Utf8.concat junk m a b = .ok (s, m₁) →
      ∃ n₁ n₂, a.chars m = .ok n₁ ∧ b.chars m = .ok n₂ ∧ s.chars m₁ = .ok (n₁ + n₂)

/-- `chars` is right as long as every character is below `0x40`. -/
theorem countsChars_iff (ha : a.content m = encode l) (hl : '\x00' ∉ l) :
    CountsChars m a l ↔ ∀ c ∈ l, c.toNat < 0x40 := by
  have hfree : a.NulFree m := by
    rw [Utf8.NulFree, ha]
    exact zero_notMem_encode hl
  have hbytes : (encode l).length = a.byteCount := by rw [← ha, a.length_content]
  have hsmall := a.byteCount_lt
  have hlen := length_le_length_encode l
  obtain ⟨hle, hge, hiff⟩ := Utf8.weights_encode l
  rw [CountsChars, Utf8.chars_eq hfree, ha, Except.ok.injEq, ← hiff]
  constructor
  · rintro ⟨hmod, -⟩
    omega
  · intro heq
    rw [heq, Nat.mod_eq_of_lt (by omega)]
    refine ⟨rfl, fun n hn => ?_⟩
    obtain rfl := Except.ok.inj hn
    omega

theorem countsBoth_iff (ha : a.content m = encode l₁) (hb : b.content m = encode l₂)
    (h₁ : '\x00' ∉ l₁) (h₂ : '\x00' ∉ l₂) :
    CountsBoth junk m a b l₁ l₂ ↔ ∀ c ∈ l₁ ++ l₂, c.toNat < 0x40 := by
  have happend : (∀ c ∈ l₁ ++ l₂, c.toNat < 0x40) ↔
      (∀ c ∈ l₁, c.toNat < 0x40) ∧ ∀ c ∈ l₂, c.toNat < 0x40 := List.forall_mem_append
  rw [CountsBoth, countsChars_iff ha h₁, countsChars_iff hb h₂, happend]
  refine ⟨fun h => ⟨h.1, h.2.1⟩, fun ⟨hlow₁, hlow₂⟩ => ⟨hlow₁, hlow₂, fun s m₁ hconcat => ?_⟩⟩
  obtain ⟨m', s', hs', hcontent⟩ := Utf8.exists_concat junk a b (Utf8.concat_le hconcat)
  rw [hconcat, Except.ok.injEq, Prod.mk.injEq] at hs'
  obtain ⟨rfl, rfl⟩ := hs'
  rw [ha, hb, ← encode_append] at hcontent
  have hnul : '\x00' ∉ l₁ ++ l₂ := fun h => (List.mem_append.mp h).elim h₁ h₂
  have hcount := (countsChars_iff hcontent hnul).mpr (happend.mpr ⟨hlow₁, hlow₂⟩)
  refine ⟨l₁.length, l₂.length, ((countsChars_iff ha h₁).mpr hlow₁).1,
    ((countsChars_iff hb h₂).mpr hlow₂).1, ?_⟩
  rw [← List.length_append]
  exact hcount.1

theorem countsBoth_second : CountsBoth (fun _ => 0) memAb ab second ['a', 'b'] ['b'] ↔
    ∀ c ∈ ['a', 'b'] ++ ['b'], c.toNat < 0x40 :=
  countsBoth_iff (by decide) (by decide) (by decide) (by decide)

/-- `"ab"` has two characters. -/
theorem not_countsBoth_second : ¬ ∀ junk m, ∀ a b : Text m, ∀ l₁ l₂, a.content m = encode l₁ →
    b.content m = encode l₂ → '\x00' ∉ l₁ → '\x00' ∉ l₂ → CountsBoth junk m a b l₁ l₂ := by
  intro h
  have hcount := (h (fun _ => 0) memAb ab second ['a', 'b'] ['b'] (by decide) (by decide)
    (by decide) (by decide)).1
  have hlow := (countsChars_iff (by decide) (by decide)).mp hcount
  exact absurd (hlow 'a' List.mem_cons_self) (by decide)

end Cantos.Strings
