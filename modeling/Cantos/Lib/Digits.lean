import Mathlib.Data.List.Basic
import Mathlib.Data.Nat.Digits.Lemmas
import Mathlib.Data.Nat.ModEq
import Mathlib.Tactic.Common

/-!
# Numbers in a buffer of digits

A number is written into a buffer of a fixed length from its end: the digit of what is left,
then the next number.  Leading zeros are skipped when the buffer is read, but for the last
character.

## Main definitions

* `Digits.fill`: the buffer.
* `Digits.trim`: the buffer without its leading zeros.
* `Digits.shortest`, `Digits.value`: the digits of a number, and the number of digits.
-/

namespace Cantos.Digits

variable {α β γ : Type}

/-- The buffer of `i` characters in front of `buffer`. -/
def fill (digit : α → γ) (next : α → α) : (i : ℕ) → α → (buffer : List γ) → List γ
  | 0, _, buffer => buffer
  | i + 1, val, buffer => fill digit next i (next val) (digit val :: buffer)

variable [DecidableEq γ]

/-- Skip leading zeros, but not the last character. -/
def trim (zero : γ) : List γ → List γ
  | c :: d :: buffer => if c = zero then trim zero (d :: buffer) else c :: d :: buffer
  | buffer => buffer

section Fill
variable {digit : α → γ} {next : α → α} {digit' : β → γ} {next' : β → β} {k : ℕ} {a : α} {b : β}

omit [DecidableEq γ]

theorem fill_append (buffer : List γ) :
    fill digit next k a buffer = fill digit next k a [] ++ buffer := by
  induction k generalizing a buffer with
  | zero => rfl
  | succ k ih =>
    rw [fill, fill, ih (digit a :: buffer), ih [digit a], List.append_assoc, List.singleton_append]

theorem fill_succ :
    fill digit next (k + 1) a [] = fill digit next k (next a) [] ++ [digit a] := by
  rw [fill, fill_append]

@[simp] theorem length_fill : (fill digit next k a []).length = k := by
  induction k generalizing a with
  | zero => rfl
  | succ k ih => rw [fill_succ, List.length_append, ih, List.length_singleton]

/-- Two buffers are equal when their last characters are, and what is in front of these. -/
theorem fill_succ_eq_iff :
    fill digit next (k + 1) a [] = fill digit' next' (k + 1) b [] ↔
      fill digit next k (next a) [] = fill digit' next' k (next' b) [] ∧ digit a = digit' b := by
  rw [fill_succ, fill_succ]
  constructor
  · intro h
    obtain ⟨h₁, h₂⟩ := List.append_inj h (by rw [length_fill, length_fill])
    exact ⟨h₁, List.singleton_inj.mp h₂⟩
  · rintro ⟨h₁, h₂⟩
    rw [h₁, h₂]

/-- Two ways to fill a buffer that agree step by step give the same buffer. -/
theorem fill_congr {f : β → α} (hdigit : ∀ b, digit (f b) = digit' b)
    (hnext : ∀ b, next (f b) = f (next' b)) :
    fill digit next k (f b) [] = fill digit' next' k b [] := by
  induction k generalizing b with
  | zero => rfl
  | succ k ih => rw [fill_succ, fill_succ, hnext, hdigit, ih]

end Fill

section Trim
variable {zero : γ} {l l' : List γ} {c : γ}

/-- A trimmed buffer keeps all its characters behind some zeros. -/
theorem exists_replicate_trim (l : List γ) : ∃ n, l = List.replicate n zero ++ trim zero l := by
  induction l with
  | nil => exact ⟨0, rfl⟩
  | cons c l ih =>
    cases l with
    | nil => exact ⟨0, rfl⟩
    | cons d l =>
      rw [trim]
      split_ifs with hc
      · obtain ⟨n, hn⟩ := ih
        refine ⟨n + 1, ?_⟩
        rw [List.replicate_succ, List.cons_append, ← hn, hc]
      · exact ⟨0, rfl⟩

/-- Buffers of one length are determined by what is left when they are trimmed. -/
theorem trim_injective (hlen : l.length = l'.length) (h : trim zero l = trim zero l') : l = l' := by
  obtain ⟨n, hn⟩ : ∃ n, l = List.replicate n zero ++ trim zero l := exists_replicate_trim l
  obtain ⟨n', hn'⟩ : ∃ n, l' = List.replicate n zero ++ trim zero l' := exists_replicate_trim l'
  have hsame : n = n' := by
    rw [hn, hn', List.length_append, List.length_append, List.length_replicate,
      List.length_replicate, h] at hlen
    exact Nat.add_right_cancel hlen
  rw [hn, hn', hsame, h]

theorem trim_append_of_zero (hl : ∀ d ∈ l, d = zero) : trim zero (l ++ [c]) = [c] := by
  induction l with
  | nil => rfl
  | cons d l ih =>
    have hd : d = zero := hl d List.mem_cons_self
    have hrest := ih fun e he => hl e (List.mem_cons_of_mem d he)
    cases l with
    | nil => rw [List.singleton_append, trim, if_pos hd, trim]; simp
    | cons e l =>
      rw [List.cons_append, List.cons_append, trim, if_pos hd]
      exact hrest

theorem trim_append (hl : ¬ ∀ d ∈ l, d = zero) : trim zero (l ++ [c]) = trim zero l ++ [c] := by
  induction l with
  | nil => exact absurd (by simp) hl
  | cons d l ih =>
    cases l with
    | nil =>
      have hd : d ≠ zero := by simpa using hl
      rw [List.singleton_append, trim, if_neg hd, trim]
      · rfl
      · simp
    | cons e l =>
      rw [List.cons_append, List.cons_append, trim, trim]
      split_ifs with hd
      · exact ih fun hrest => hl fun x hx => by
          rcases List.mem_cons.mp hx with rfl | hx
          · exact hd
          · exact hrest x hx
      · rfl

theorem length_trim_append_le (hzero : (∀ d ∈ l', d = zero) → ∀ d ∈ l, d = zero) {c' : γ}
    (hle : (trim zero l).length ≤ (trim zero l').length) :
    (trim zero (l ++ [c])).length ≤ (trim zero (l' ++ [c'])).length := by
  by_cases hl : ∀ d ∈ l, d = zero
  · rw [trim_append_of_zero hl]
    by_cases hl' : ∀ d ∈ l', d = zero
    · rw [trim_append_of_zero hl']
      exact le_rfl
    · rw [trim_append hl', List.length_append]
      exact Nat.le_add_left _ _
  · rw [trim_append hl, trim_append fun hl' => hl (hzero hl'), List.length_append,
      List.length_append]
    exact Nat.add_le_add_right hle 1

end Trim

/-! ## The shortest digits of a number -/

/-- The digits of `n` in base `b`, the highest one first and not zero, or one zero. -/
def shortest (digit : ℕ → γ) (b n : ℕ) : List γ :=
  if n = 0 then [digit 0] else ((Nat.digits b n).map digit).reverse

/-- The number that digits stand for. -/
def value (undigit : γ → ℕ) (b : ℕ) (l : List γ) : ℕ := Nat.ofDigits b (l.map undigit).reverse

section Shortest
variable {digit : ℕ → γ} {undigit : γ → ℕ} {zero : γ} {b k m n : ℕ}

omit [DecidableEq γ] in
theorem shortest_of_lt (hn : n < b) : shortest digit b n = [digit n] := by
  rw [shortest]
  split_ifs with hzero
  · rw [hzero]
  · rw [Nat.digits_of_lt b n hzero hn, List.map_singleton, List.reverse_singleton]

omit [DecidableEq γ] in
/-- The last digit, behind those of the rest. -/
theorem shortest_of_le (hb : 1 < b) (hn : b ≤ n) :
    shortest digit b n = shortest digit b (n / b) ++ [digit (n % b)] := by
  have hdiv : n / b ≠ 0 := (Nat.div_pos hn (by omega)).ne'
  rw [shortest, if_neg (by omega), Nat.digits_def' hb (by omega), List.map_cons,
    List.reverse_cons, shortest, if_neg hdiv]

omit [DecidableEq γ] in
/-- Digits that are read give the number again. -/
theorem value_shortest (hb : 1 < b) (h : ∀ d < b, undigit (digit d) = d) :
    value undigit b (shortest digit b n) = n := by
  rw [value, shortest]
  split_ifs with hzero
  · rw [List.map_singleton, List.reverse_singleton, Nat.ofDigits_singleton, h 0 (by omega), hzero]
  · have hmap : ((Nat.digits b n).map digit).map undigit = Nat.digits b n := by
      rw [List.map_map, List.map_congr_left (g := id), List.map_id]
      exact fun d hd => h d (Nat.digits_lt_base hb hd)
    rw [List.map_reverse, List.reverse_reverse, hmap, Nat.ofDigits_digits]

/-- A buffer that is long enough is trimmed to the shortest digits. -/
theorem trim_fill (hb : 1 < b) (hzero : ∀ d < b, digit d = zero ↔ d = 0) (hn : n < b ^ (k + 1)) :
    trim zero (fill (fun n => digit (n % b)) (· / b) (k + 1) n []) = shortest digit b n := by
  have hfill : ∀ k n, (∀ c ∈ fill (fun n => digit (n % b)) (· / b) k n [], c = zero) ↔
      n % b ^ k = 0 := by
    intro k
    induction k with
    | zero => simp [fill, Nat.mod_one]
    | succ k ih =>
      intro n
      rw [fill_succ]
      simp only [List.mem_append, List.mem_singleton, or_imp, forall_and, forall_eq, ih]
      rw [hzero _ (Nat.mod_lt n (by omega)), Nat.pow_succ', Nat.mod_mul]
      have := Nat.mul_eq_zero (n := b) (m := n / b % b ^ k)
      omega
  induction k generalizing n with
  | zero =>
    rw [Nat.zero_add, Nat.pow_one] at hn
    rw [shortest_of_lt hn]
    simp [fill, trim, Nat.mod_eq_of_lt hn]
  | succ k ih =>
    have hdiv : n / b < b ^ (k + 1) := Nat.div_lt_of_lt_mul (by rwa [← Nat.pow_succ'])
    rw [fill_succ]
    by_cases hlt : n < b
    · rw [trim_append_of_zero, shortest_of_lt hlt, Nat.mod_eq_of_lt hlt]
      rw [hfill, Nat.div_eq_of_lt hlt, Nat.zero_mod]
    · rw [trim_append, ih hdiv, ← shortest_of_le hb (not_lt.mp hlt)]
      rw [hfill, Nat.mod_eq_of_lt hdiv]
      exact (Nat.div_pos (not_lt.mp hlt) (by omega)).ne'

end Shortest

end Cantos.Digits
