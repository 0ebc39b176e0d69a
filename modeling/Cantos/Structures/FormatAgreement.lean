import Cantos.Structures.Format

/-!
# Where the two formatters agree

`Utf8::format` and `Stream::writef` produce the same bytes and store the same numbers when
every number of the format string is one on which the conversion to `int` in `Utf8::format`
makes no difference.

A negative `int` has negative remainders, which `num_to_str` turns into other characters than
digits.  They are compared at the last digit that is not zero.  Where the numbers differ the
outputs differ, since the one of `Utf8::format` is never the longer one: no number can make
up for another.

## Main definitions

* `Item.Agrees`: the condition on a number.
* `FormatsAgree`: the outputs are the same.
-/

namespace Cantos

open Digits

/-! ## The buffers -/

section Buffer
variable {b k m n : ℕ} {up : Bool}

/-- The digits of a number. -/
def natDigits (b : ℕ) (up : Bool) (k n : ℕ) : List Char := fill (Stream.digit b up) (· / b) k n []

/-- The character for the last digit of `-m`. -/
def negDigit (b : ℕ) (up : Bool) (m : ℕ) : Char := numToStr ((2 ^ 8 - m % b) % 2 ^ 8) up

/-- What `Utf8::format` makes of the digits of `-m`. -/
def negDigits (b : ℕ) (up : Bool) (k m : ℕ) : List Char := fill (negDigit b up) (· / b) k m []

theorem numToStr_injective : ∀ up, ∀ d < 16, ∀ d' < 16, numToStr d up = numToStr d' up → d = d' := by
  decide

theorem numToStr_eq_zero : ∀ up, ∀ d < 16, numToStr d up = '0' ↔ d = 0 := by decide

/-- A negative remainder gives no digit in lower case. -/
theorem numToStr_neg_lower : ∀ r < 16, 0 < r → ∀ d < 16,
    numToStr ((2 ^ 8 - r) % 2 ^ 8) false ≠ numToStr d false := by
  decide

/-- In upper case it gives some digits, but not the one of the number modulo 16. -/
theorem numToStr_neg_upper : ∀ r < 16, 0 < r →
    numToStr ((2 ^ 8 - r) % 2 ^ 8) true ≠ numToStr (16 - r) true := by
  decide

theorem utf8_fill_nat (hb : 0 < b) (hle : b ≤ 16) :
    fill (Utf8.digit b up) (Utf8.next b) k (n : ℤ) [] = natDigits b up k n := by
  refine fill_congr (fun m => ?_) fun m => rfl
  have hlt : m % b < 16 := (Nat.mod_lt m hb).trans_le hle
  have hmod : ((m : ℤ).tmod b % 2 ^ 8).toNat = m % b := by
    rw [← Int.ofNat_tmod]
    omega
  rw [Utf8.digit, Stream.digit, hmod]

theorem utf8_fill_neg (hb : 0 < b) (hle : b ≤ 16) :
    fill (Utf8.digit b up) (Utf8.next b) k (-(m : ℤ)) [] = negDigits b up k m := by
  refine fill_congr (f := fun m : ℕ => -(m : ℤ)) (fun m => ?_) fun m => ?_
  · have hlt : m % b < 16 := (Nat.mod_lt m hb).trans_le hle
    have hmod : ((-(m : ℤ)).tmod b % 2 ^ 8).toNat = (2 ^ 8 - m % b) % 2 ^ 8 := by
      rw [Int.neg_tmod, ← Int.ofNat_tmod]
      omega
    rw [Utf8.digit, negDigit, hmod]
  · rw [Utf8.next, Int.neg_tdiv, ← Int.ofNat_tdiv]

theorem mod_pow_succ_eq_iff (hb : 0 < b) : m % b ^ (k + 1) = n % b ^ (k + 1) ↔
    m / b % b ^ k = n / b % b ^ k ∧ m % b = n % b := by
  rw [Nat.pow_succ', Nat.mod_mul, Nat.mod_mul]
  have hm := Nat.mod_lt m hb
  have hn := Nat.mod_lt n hb
  constructor
  · intro h
    have hmod : m % b = n % b := by
      have hmod := congrArg (· % b) h
      simpa [Nat.add_mul_mod_self_left, Nat.mod_mod] using hmod
    rw [hmod] at h
    exact ⟨Nat.eq_of_mul_eq_mul_left hb (Nat.add_left_cancel h), hmod⟩
  · rintro ⟨h₁, h₂⟩
    rw [h₁, h₂]

/-- Two numbers have the same buffer when they are the same modulo its length. -/
theorem natDigits_eq_iff (hb : 0 < b) (hle : b ≤ 16) :
    natDigits b up k m = natDigits b up k n ↔ m % b ^ k = n % b ^ k := by
  induction k generalizing m n with
  | zero => simp [natDigits, fill, Nat.mod_one]
  | succ k ih =>
    rw [natDigits, natDigits, fill_succ_eq_iff, mod_pow_succ_eq_iff hb]
    refine and_congr ih ⟨fun h => ?_, fun h => by rw [Stream.digit, Stream.digit, h]⟩
    exact numToStr_injective up _ ((Nat.mod_lt m hb).trans_le hle) _
      ((Nat.mod_lt n hb).trans_le hle) h

theorem negDigits_ne_lower (hb : 0 < b) (hle : b ≤ 16) (hpos : 0 < m) (hlt : m < b ^ k) :
    negDigits b false k m ≠ natDigits b false k n := by
  induction k generalizing m n with
  | zero =>
    rw [Nat.pow_zero] at hlt
    omega
  | succ k ih =>
    rw [negDigits, natDigits, Ne, fill_succ_eq_iff, not_and_or]
    rcases Nat.eq_zero_or_pos (m % b) with hzero | hr
    · have hdiv : b * (m / b) = m := Nat.mul_div_cancel' (Nat.dvd_of_mod_eq_zero hzero)
      refine .inl (ih (Nat.pos_of_ne_zero fun h => ?_) (Nat.div_lt_of_lt_mul ?_))
      · rw [h, Nat.mul_zero] at hdiv
        omega
      · rwa [← Nat.pow_succ']
    · exact .inr (numToStr_neg_lower _ ((Nat.mod_lt m hb).trans_le hle) hr _
        ((Nat.mod_lt n hb).trans_le hle))

/-- In upper case, for a number that is `-m` modulo a power of 16 that `m` is below. -/
theorem negDigits_ne_upper {j : ℕ} (hj : j ≤ k) (hpos : 0 < m) (hlt : m < 16 ^ j)
    (hsum : (m + n) % 16 ^ j = 0) : negDigits 16 true k m ≠ natDigits 16 true k n := by
  induction j generalizing k m n with
  | zero =>
    rw [Nat.pow_zero] at hlt
    omega
  | succ j ih =>
    obtain ⟨k, rfl⟩ := Nat.exists_eq_add_of_le' hj
    rw [← Nat.add_assoc, negDigits, natDigits, Ne, fill_succ_eq_iff, not_and_or]
    rw [Nat.pow_succ'] at hlt hsum
    have hdvd := Nat.dvd_of_mod_eq_zero hsum
    obtain ⟨c, hc⟩ := hdvd
    rw [Nat.mul_assoc] at hc
    rcases Nat.eq_zero_or_pos (m % 16) with hzero | hr
    · refine .inl (ih (Nat.le_add_left _ _) (by omega) (Nat.div_lt_of_lt_mul hlt) ?_)
      have hdiv : m / 16 + n / 16 = 16 ^ j * c := by omega
      rw [hdiv, Nat.mul_mod_right]
    · refine .inr fun h => numToStr_neg_upper _ (Nat.mod_lt m (by decide)) hr ?_
      have hn : n % 16 = 16 - m % 16 := by omega
      rw [← hn]
      exact h

/-! The lengths of the numbers. -/

theorem negDigits_zero (hb : 0 < b) (hle : b ≤ 16) (h : ∀ c ∈ natDigits b up k m, c = '0') :
    ∀ c ∈ negDigits b up k m, c = '0' := by
  induction k generalizing m with
  | zero => simp [negDigits, fill]
  | succ k ih =>
    rw [natDigits, fill_succ] at h
    rw [negDigits, fill_succ]
    have hlast := h _ (List.mem_append_right _ (List.mem_singleton_self _))
    have hzero := (numToStr_eq_zero up _ ((Nat.mod_lt m hb).trans_le hle)).mp hlast
    intro c hc
    rcases List.mem_append.mp hc with hc | hc
    · exact ih (fun c hc => h c (List.mem_append_left _ hc)) c hc
    · rw [List.mem_singleton.mp hc, negDigit, hzero]
      cases up <;> rfl

theorem natDigits_zero_iff (hb : 0 < b) (hle : b ≤ 16) :
    (∀ c ∈ natDigits b up k n, c = '0') ↔ n % b ^ k = 0 := by
  have hzero : ∀ c ∈ natDigits b up k 0, c = '0' := by
    induction k with
    | zero => simp [natDigits, fill]
    | succ k ih =>
      rw [natDigits, fill_succ]
      intro c hc
      rcases List.mem_append.mp hc with hc | hc
      · rw [Nat.zero_div] at hc
        exact ih c hc
      · rw [List.mem_singleton.mp hc, Stream.digit, Nat.zero_mod]
        cases up <;> rfl
  have hlen : ∀ n, (natDigits b up k n).length = k := fun _ => length_fill
  have hiff : natDigits b up k n = natDigits b up k 0 ↔ n % b ^ k = 0 % b ^ k :=
    natDigits_eq_iff hb hle
  rw [← Nat.zero_mod (b ^ k), ← hiff]
  constructor
  · intro h
    rw [List.eq_replicate_of_mem h, List.eq_replicate_of_mem hzero, hlen, hlen]
  · intro h
    rw [h]
    exact hzero

theorem length_negDigits_le (hb : 0 < b) (hle : b ≤ 16) :
    (trim '0' (negDigits b up k m)).length ≤ (trim '0' (natDigits b up k m)).length := by
  induction k generalizing m with
  | zero => exact le_rfl
  | succ k ih =>
    rw [negDigits, natDigits, fill_succ, fill_succ]
    exact length_trim_append_le (negDigits_zero hb hle) ih

theorem length_natDigits_le (hb : 0 < b) (hle : b ≤ 16) (hmn : m ≤ n) (hn : n < b ^ k) :
    (trim '0' (natDigits b up k m)).length ≤ (trim '0' (natDigits b up k n)).length := by
  induction k generalizing m n with
  | zero => exact le_rfl
  | succ k ih =>
    rw [natDigits, natDigits, fill_succ, fill_succ]
    have hdiv : n / b < b ^ k := Nat.div_lt_of_lt_mul (by rwa [← Nat.pow_succ'])
    have hle' : m / b ≤ n / b := Nat.div_le_div_right hmn
    refine length_trim_append_le (fun h => ?_) (ih hle' hdiv)
    have hzero := (natDigits_zero_iff hb hle).mp h
    rw [Nat.mod_eq_of_lt hdiv] at hzero
    refine (natDigits_zero_iff hb hle).mpr ?_
    rw [Nat.eq_zero_of_le_zero (hle'.trans_eq hzero), Nat.zero_mod]

end Buffer

/-! ## One number -/

section Number
variable {cur : Char} {val : ℕ}

/-- What comes in front of the digits. -/
def numberPrefix (cur : Char) (negative : Bool) : List Char :=
  (if cur = 'p' then ['0', 'x'] else []) ++ if negative then ['-'] else []

/-- The specifier is one of a signed number, and the number is negative as an `int`. -/
def isNegative (cur : Char) (val : ℕ) : Bool := (cur = 'd' ∨ cur = 'i') ∧ 2 ^ 31 ≤ val % 2 ^ 32

/-- The part of `Stream.number` behind the computation of the digits. -/
def Stream.Out.number (negative : Bool) (cur : Char) (output : List Char) (o : Stream.Out) :
    Stream.Out :=
  let o := if cur = 'p' then o.write ['0', 'x'] else o
  let o := if negative then o.write ['-'] else o
  o.write output

theorem Stream.Out.number_writes (negative : Bool) (cur : Char) (output : List Char)
    (o : Stream.Out) : (o.number negative cur output).writes.flatten =
      o.writes.flatten ++ (numberPrefix cur negative ++ output) := by
  cases negative <;> by_cases hcur : cur = 'p' <;>
    simp [Stream.Out.number, Stream.Out.write, numberPrefix, hcur]

theorem Stream.Out.number_written (negative : Bool) (cur : Char) (output : List Char)
    (o : Stream.Out) : (o.number negative cur output).written =
      o.written + (numberPrefix cur negative ++ output).length := by
  cases negative <;> by_cases hcur : cur = 'p' <;>
    simp [Stream.Out.number, Stream.Out.write, numberPrefix, hcur] <;> omega

theorem Stream.Out.number_stores (negative : Bool) (cur : Char) (output : List Char)
    (o : Stream.Out) : (o.number negative cur output).stores = o.stores := by
  cases negative <;> by_cases hcur : cur = 'p' <;>
    simp [Stream.Out.number, Stream.Out.write, hcur]

theorem toInt_natCast (val : ℕ) : toInt val =
    if val % 2 ^ 32 < 2 ^ 31 then ((val % 2 ^ 32 : ℕ) : ℤ)
    else -((2 ^ 32 - val % 2 ^ 32 : ℕ) : ℤ) := by
  rw [toInt, Int.bmod_def]
  split_ifs <;> omega

theorem toInt_neg_iff (val : ℕ) : toInt val < 0 ↔ 2 ^ 31 ≤ val % 2 ^ 32 := by
  rw [toInt_natCast]
  split_ifs <;> omega

theorem specifierBase_pos (cur : Char) : 0 < specifierBase cur := by
  rw [specifierBase]
  split_ifs <;> decide

theorem specifierBase_le (cur : Char) : specifierBase cur ≤ 16 := by
  rw [specifierBase]
  split_ifs <;> decide

/-- The buffer of `Utf8::format`. -/
def Utf8.buffer (cur : Char) (val : ℕ) : List Char :=
  if val % 2 ^ 32 < 2 ^ 31 then
    natDigits (specifierBase cur) (cur = 'X') numBufferSize (val % 2 ^ 32)
  else if isNegative cur val ∧ val % 2 ^ 32 ≠ 2 ^ 31 then
    natDigits (specifierBase cur) (cur = 'X') numBufferSize (2 ^ 32 - val % 2 ^ 32)
  else negDigits (specifierBase cur) (cur = 'X') numBufferSize (2 ^ 32 - val % 2 ^ 32)

/-- The number that `writef` prints the digits of. -/
def Stream.printed (cur : Char) (val : ℕ) : ℕ :=
  if isNegative cur val then
    if val % 2 ^ 32 = 2 ^ 31 then 2 ^ 64 - 2 ^ 31 else 2 ^ 32 - val % 2 ^ 32
  else val

/-- The buffer of `writef`. -/
def Stream.buffer (cur : Char) (val : ℕ) : List Char :=
  natDigits (specifierBase cur) (cur = 'X') numBufferSize (Stream.printed cur val)

/-- The bytes that `writef` writes for a number. -/
def Stream.numberBytes (cur : Char) (val : ℕ) : List Char :=
  numberPrefix cur (isNegative cur val) ++ trim '0' (Stream.buffer cur val)

theorem isNegative_eq : decide ((cur = 'd' ∨ cur = 'i') ∧ toInt val < 0) = isNegative cur val := by
  simp only [isNegative, toInt_neg_iff]

theorem toInt_neg_toInt (h : 2 ^ 31 ≤ val % 2 ^ 32) : toInt (-toInt val) =
    if val % 2 ^ 32 = 2 ^ 31 then -((2 ^ 31 : ℕ) : ℤ) else ((2 ^ 32 - val % 2 ^ 32 : ℕ) : ℤ) := by
  rw [toInt_natCast, if_neg (not_lt.mpr h), toInt, Int.bmod_def]
  split_ifs <;> omega

theorem Utf8.number_eq : Utf8.number cur val =
    numberPrefix cur (isNegative cur val) ++ trim '0' (Utf8.buffer cur val) := by
  have hb := specifierBase_pos cur
  have hle := specifierBase_le cur
  have hbuffer : fill (Utf8.digit (specifierBase cur) (cur = 'X')) (Utf8.next (specifierBase cur))
      numBufferSize (if isNegative cur val then toInt (-toInt val) else toInt val) [] =
      Utf8.buffer cur val := by
    rw [Utf8.buffer]
    by_cases hlow : val % 2 ^ 32 < 2 ^ 31
    · have hfalse : isNegative cur val = false := by
        simp only [isNegative, decide_eq_false_iff_not]
        omega
      rw [hfalse, if_neg (by decide), toInt_natCast, if_pos hlow, if_pos hlow,
        utf8_fill_nat hb hle]
    · rw [if_neg hlow]
      cases hnegative : isNegative cur val with
      | false =>
        rw [if_neg (by decide), toInt_natCast, if_neg hlow, utf8_fill_neg hb hle, if_neg (by simp)]
      | true =>
        rw [if_pos rfl, toInt_neg_toInt (not_lt.mp hlow)]
        by_cases hmin : val % 2 ^ 32 = 2 ^ 31
        · have hhalf : 2 ^ 32 - val % 2 ^ 32 = 2 ^ 31 := by omega
          rw [if_pos hmin, utf8_fill_neg hb hle, if_neg fun h => h.2 hmin, hhalf]
        · rw [if_neg hmin, utf8_fill_nat hb hle, if_pos ⟨rfl, hmin⟩]
  simp only [Utf8.number, isNegative_eq, hbuffer]
  rfl

theorem Stream.number_eq (o : Stream.Out) :
    Stream.number cur val o = o.number (isNegative cur val) cur (trim '0' (Stream.buffer cur val)) := by
  have hprinted : (if isNegative cur val then toUnsignedLongLong (toInt (-toInt val)) else val) =
      Stream.printed cur val := by
    rw [Stream.printed]
    split_ifs with hnegative hmin
    · simp only [isNegative, decide_eq_true_eq] at hnegative
      rw [toInt_neg_toInt hnegative.2, if_pos hmin, toUnsignedLongLong]
      omega
    · simp only [isNegative, decide_eq_true_eq] at hnegative
      rw [toInt_neg_toInt hnegative.2, if_neg hmin, toUnsignedLongLong]
      omega
    · rfl
  simp only [Stream.number, isNegative_eq, hprinted]
  rfl

theorem specifierBase_cases (cur : Char) :
    specifierBase cur = 8 ∧ cur = 'o' ∨
      (specifierBase cur = 10 ∨ specifierBase cur = 16) ∧ cur ≠ 'o' := by
  rw [specifierBase]
  split_ifs with h₁ h₂
  · refine .inr ⟨.inr rfl, ?_⟩
    rcases h₁ with rfl | rfl | rfl <;> decide
  · exact .inl ⟨rfl, h₂⟩
  · exact .inr ⟨.inl rfl, h₂⟩

/-- The buffer holds 64 bits, but for octal numbers. -/
theorem mod_buffer {n : ℕ} (cur : Char) (hn : n < 2 ^ 64) :
    n % specifierBase cur ^ numBufferSize = if cur = 'o' then n % 2 ^ 60 else n := by
  rcases specifierBase_cases cur with ⟨hb, hcur⟩ | ⟨hb | hb, hcur⟩
  · rw [hb, if_pos hcur]
    rfl
  · rw [hb, if_neg hcur]
    exact Nat.mod_eq_of_lt (hn.trans (by decide))
  · rw [hb, if_neg hcur]
    exact Nat.mod_eq_of_lt (hn.trans (by decide))

/-- The formatters agree on a number of a specifier: it is small, or the magnitude of a
negative `int`. -/
def NumberAgrees (cur : Char) (val : ℕ) : Prop :=
  if cur = 'd' ∨ cur = 'i' then val < 2 ^ 31 ∨ 2 ^ 31 < val % 2 ^ 32
  else if cur = 'o' then val % 2 ^ 60 < 2 ^ 31
  else val < 2 ^ 31

instance (cur : Char) (val : ℕ) : Decidable (NumberAgrees cur val) := by
  unfold NumberAgrees
  infer_instance

theorem isNegative_iff :
    isNegative cur val = true ↔ (cur = 'd' ∨ cur = 'i') ∧ 2 ^ 31 ≤ val % 2 ^ 32 :=
  decide_eq_true_iff

theorem printed_lt (hval : val < 2 ^ 64) : Stream.printed cur val < 2 ^ 64 := by
  rw [Stream.printed]
  split_ifs <;> omega

/-- A number that is not negative as an `int` is printed in the same way when the bits above
make no difference. -/
theorem buffer_eq_iff_of_lt (hval : val < 2 ^ 64) (hlow : val % 2 ^ 32 < 2 ^ 31) :
    Utf8.buffer cur val = Stream.buffer cur val ↔ NumberAgrees cur val := by
  have hprinted : Stream.printed cur val = val := by
    refine if_neg fun h => ?_
    have hge := (isNegative_iff.mp h).2
    omega
  rw [Utf8.buffer, if_pos hlow, Stream.buffer, hprinted,
    natDigits_eq_iff (specifierBase_pos cur) (specifierBase_le cur), mod_buffer cur hval,
    mod_buffer cur (by omega), NumberAgrees]
  split_ifs with h₁ h₂ h₂
  · rcases h₂ with h₂ | h₂ <;> rw [h₁] at h₂ <;> exact absurd h₂ (by decide)
  · omega
  · omega
  · omega

/-- A negative remainder is not printed as any digit. -/
theorem negDigits_ne_buffer (hlow : 2 ^ 31 ≤ val % 2 ^ 32)
    (hneg : ¬ (isNegative cur val ∧ val % 2 ^ 32 ≠ 2 ^ 31)) :
    negDigits (specifierBase cur) (cur = 'X') numBufferSize (2 ^ 32 - val % 2 ^ 32) ≠
      Stream.buffer cur val := by
  have hpos : 0 < 2 ^ 32 - val % 2 ^ 32 := by omega
  rw [Stream.buffer]
  by_cases hcur : cur = 'X'
  · -- The magnitude and the number are 0 together modulo `16 ^ 8`.
    subst hcur
    have hprinted : Stream.printed 'X' val = val := by
      refine if_neg fun h => ?_
      exact absurd (isNegative_iff.mp h).1 (by decide)
    rw [hprinted]
    exact negDigits_ne_upper (j := 8) (by decide) hpos (by omega) (by omega)
  · rw [decide_eq_false hcur]
    refine negDigits_ne_lower (specifierBase_pos cur) (specifierBase_le cur) hpos ?_
    have hmod := mod_buffer cur (n := 2 ^ 32 - val % 2 ^ 32) (by omega)
    have hlt := Nat.mod_lt (2 ^ 32 - val % 2 ^ 32)
      (Nat.pow_pos (specifierBase_pos cur) : 0 < specifierBase cur ^ numBufferSize)
    rw [hmod] at hlt
    split_ifs at hlt <;> omega

theorem buffer_eq_iff (hval : val < 2 ^ 64) :
    Utf8.buffer cur val = Stream.buffer cur val ↔ NumberAgrees cur val := by
  by_cases hlow : val % 2 ^ 32 < 2 ^ 31
  · exact buffer_eq_iff_of_lt hval hlow
  by_cases hneg : isNegative cur val ∧ val % 2 ^ 32 ≠ 2 ^ 31
  · rw [Utf8.buffer, if_neg hlow, if_pos hneg, Stream.buffer, Stream.printed, if_pos hneg.1,
      if_neg hneg.2, NumberAgrees, if_pos (isNegative_iff.mp hneg.1).1]
    have hne := hneg.2
    exact iff_of_true rfl (.inr (by omega))
  · rw [Utf8.buffer, if_neg hlow, if_neg hneg, NumberAgrees]
    refine iff_of_false (negDigits_ne_buffer (not_lt.mp hlow) hneg) ?_
    split_ifs with h₁ h₂
    · have hmin : val % 2 ^ 32 = 2 ^ 31 := by
        by_contra hne
        exact hneg ⟨isNegative_iff.mpr ⟨h₁, not_lt.mp hlow⟩, hne⟩
      omega
    · omega
    · omega

theorem length_buffer (cur : Char) (val : ℕ) :
    (Utf8.buffer cur val).length = (Stream.buffer cur val).length := by
  rw [Utf8.buffer, Stream.buffer]
  split_ifs <;> simp only [natDigits, negDigits, length_fill]

theorem number_eq_iff (hval : val < 2 ^ 64) :
    Utf8.number cur val = Stream.numberBytes cur val ↔ NumberAgrees cur val := by
  rw [Utf8.number_eq, Stream.numberBytes, List.append_cancel_left_eq, ← buffer_eq_iff hval]
  exact ⟨fun h => trim_injective (length_buffer cur val) h, fun h => by rw [h]⟩

/-- `Utf8::format` prints no more bytes for a number than `writef`. -/
theorem length_number_le (hval : val < 2 ^ 64) :
    (Utf8.number cur val).length ≤ (Stream.numberBytes cur val).length := by
  have hb := specifierBase_pos cur
  have hle := specifierBase_le cur
  have hnat : ∀ m ≤ Stream.printed cur val % 2 ^ 32,
      (trim '0' (natDigits (specifierBase cur) (cur = 'X') numBufferSize m)).length ≤
        (trim '0' (Stream.buffer cur val)).length := by
    intro m hm
    have hlt : Stream.printed cur val < 2 ^ 64 := printed_lt hval
    have hmod := mod_buffer cur hlt
    have hself : Stream.buffer cur val = natDigits (specifierBase cur) (cur = 'X') numBufferSize
        (Stream.printed cur val % specifierBase cur ^ numBufferSize) := by
      rw [Stream.buffer, natDigits_eq_iff hb hle, Nat.mod_mod]
    rw [hself]
    refine length_natDigits_le hb hle ?_ (Nat.mod_lt _ (Nat.pow_pos hb))
    rw [hmod]
    split_ifs <;> omega
  rw [Utf8.number_eq, Stream.numberBytes, List.length_append, List.length_append]
  refine Nat.add_le_add_left ?_ _
  rw [Utf8.buffer]
  split_ifs with h₁ h₂
  · refine hnat _ ?_
    rw [Stream.printed, if_neg fun h => not_le.mpr h₁ (isNegative_iff.mp h).2]
  · rw [Stream.buffer, Stream.printed, if_pos h₂.1, if_neg h₂.2]
  · refine (length_negDigits_le hb hle).trans (hnat _ ?_)
    rw [Stream.printed]
    split_ifs <;> omega

end Number

/-! ## A format string -/

/-- The two formatters agree on the number of an item. -/
def Item.Agrees : Item → Prop
  | .number cur val => NumberAgrees cur val
  | _ => True

instance : DecidablePred Item.Agrees
  | .number cur val => inferInstanceAs (Decidable (NumberAgrees cur val))
  | .byte _ | .store _ | .string _ => inferInstanceAs (Decidable True)

/-- The number of an item has at most 64 bits. -/
def Item.Fits : Item → Prop
  | .number _ val => val < 2 ^ 64
  | _ => True

theorem Arg.value_lt {length val : ℕ} {arg : Arg} (h : arg.value length = some val) :
    val < 2 ^ 64 := by
  unfold Arg.value at h
  split at h
  · next v =>
    obtain rfl := Option.some.inj h
    exact v.isLt.trans (by decide)
  · next v =>
    obtain rfl := Option.some.inj h
    exact v.isLt.trans (by decide)
  · next v =>
    obtain rfl := Option.some.inj h
    exact v.isLt
  · cases h

/-- What the code for a character and for a specifier preserves, the loop preserves. -/
theorem walkFormat_invariant {σ : Type} {I : σ → Prop} {put : Char → σ → σ}
    {specifier : Char → ℕ → List Arg → σ → Option (List Arg × σ)}
    (hput : ∀ c s, I s → I (put c s))
    (hspecifier : ∀ cur length ap s ap' s', I s →
      specifier cur length ap s = some (ap', s') → I s')
    {fmt : List Char} {length : Option ℕ} {ap : List Arg} {s s' : σ} (hs : I s)
    (h : walkFormat put specifier fmt length ap s = some s') : I s' := by
  induction fmt generalizing length ap s with
  | nil =>
    cases length with
    | none => exact Option.some.inj h ▸ hs
    | some _ => cases h
  | cons cur fmt ih =>
    cases length with
    | none =>
      rw [walkFormat] at h
      split_ifs at h
      · exact ih hs h
      · exact ih (hput cur s hs) h
    | some length =>
      rw [walkFormat] at h
      by_cases hcur : cur = 'l'
      · rw [if_pos hcur] at h
        exact ih hs h
      · rw [if_neg hcur] at h
        obtain ⟨⟨ap', t⟩, ht, hrest⟩ := Option.bind_eq_some_iff.mp h
        exact ih (hspecifier _ _ _ _ _ _ hs ht) hrest

theorem items_fit {fmt : List Char} {ap : List Arg} {l : List Item} (h : items fmt ap = some l) :
    ∀ item ∈ l, item.Fits := by
  refine walkFormat_invariant (I := fun l : List Item => ∀ item ∈ l, item.Fits) ?_ ?_ ?_ h
  · intro c l hl item hitem
    rcases List.mem_append.mp hitem with hitem | hitem
    · exact hl item hitem
    · rw [List.mem_singleton.mp hitem]
      trivial
  · intro cur length ap l ap' l' hl h item hitem
    rcases itemSpecifier_cases h with ⟨arg, val, -, -, hval, rfl⟩ | ⟨-, -, rfl⟩ | ⟨p, -, -, rfl⟩ |
      ⟨s, -, -, rfl⟩
    · rcases List.mem_append.mp hitem with hitem | hitem
      · exact hl item hitem
      · rw [List.mem_singleton.mp hitem]
        exact Arg.value_lt hval
    all_goals
      rcases List.mem_append.mp hitem with hitem | hitem
      · exact hl item hitem
      · rw [List.mem_singleton.mp hitem]
        trivial
  · intro item hitem
    cases hitem

/-- The bytes of an item. -/
def Utf8.itemBytes : Item → List Char
  | .byte c => [c]
  | .store _ => []
  | .number cur val => Utf8.number cur val
  | .string s => s

def Stream.itemBytes : Item → List Char
  | .number cur val => Stream.numberBytes cur val
  | item => Utf8.itemBytes item

theorem Utf8.out_item (o : Utf8.Out) (item : Item) :
    (o.item item).out = o.out ++ Utf8.itemBytes item := by
  cases item <;> simp [Utf8.Out.item, Utf8.Out.push, Utf8.itemBytes]

theorem Stream.writes_item (o : Stream.Out) (item : Item) :
    (o.item item).writes.flatten = o.writes.flatten ++ Stream.itemBytes item ∧
      (o.item item).written = o.written + (Stream.itemBytes item).length := by
  cases item with
  | number cur val =>
    rw [Stream.Out.item, Stream.number_eq]
    exact ⟨Stream.Out.number_writes _ _ _ _, Stream.Out.number_written _ _ _ _⟩
  | byte c => simp [Stream.Out.item, Stream.Out.write, Stream.itemBytes, Utf8.itemBytes]
  | store p => simp [Stream.Out.item, Stream.itemBytes, Utf8.itemBytes]
  | string s => simp [Stream.Out.item, Stream.Out.write, Stream.itemBytes, Utf8.itemBytes]

theorem itemBytes_eq_iff {item : Item} (h : item.Fits) :
    Utf8.itemBytes item = Stream.itemBytes item ↔ item.Agrees := by
  cases item with
  | number cur val => exact number_eq_iff h
  | byte c => exact iff_of_true rfl trivial
  | store p => exact iff_of_true rfl trivial
  | string s => exact iff_of_true rfl trivial

theorem length_itemBytes_le {item : Item} (h : item.Fits) :
    (Utf8.itemBytes item).length ≤ (Stream.itemBytes item).length := by
  cases item with
  | number cur val => exact length_number_le h
  | byte c => exact le_rfl
  | store p => exact le_rfl
  | string s => exact le_rfl

/-- `writef` counts what it writes. -/
theorem Stream.render_written (l : List Item) :
    (Stream.render l).written = (Stream.render l).writes.flatten.length := by
  induction l using List.reverseRecOn with
  | nil => rfl
  | append_singleton l item ih =>
    rw [Stream.render_append, (Stream.writes_item _ _).1, (Stream.writes_item _ _).2, ih,
      List.length_append]

theorem render_length_le {l : List Item} (h : ∀ item ∈ l, item.Fits) :
    (Utf8.render l).out.length ≤ (Stream.render l).writes.flatten.length := by
  induction l using List.reverseRecOn with
  | nil => exact le_rfl
  | append_singleton l item ih =>
    rw [Utf8.render_append, Stream.render_append, Utf8.out_item, (Stream.writes_item _ _).1,
      List.length_append, List.length_append]
    exact Nat.add_le_add (ih fun item hitem => h item (List.mem_append_left _ hitem))
      (length_itemBytes_le (h item (by simp)))

/-- The bytes are the same when those of every item are. -/
theorem render_eq_iff {l : List Item} (h : ∀ item ∈ l, item.Fits) :
    (Utf8.render l).out = (Stream.render l).writes.flatten ↔ ∀ item ∈ l, item.Agrees := by
  induction l using List.reverseRecOn with
  | nil => exact iff_of_true rfl (by simp)
  | append_singleton l item ih =>
    have hl : ∀ item ∈ l, item.Fits := fun item hitem => h item (List.mem_append_left _ hitem)
    have hitem : item.Fits := h item (by simp)
    rw [Utf8.render_append, Stream.render_append, Utf8.out_item, (Stream.writes_item _ _).1]
    constructor
    · intro heq
      -- Neither part is longer in `Utf8::format`, so both are as long.
      have hlen := congrArg List.length heq
      rw [List.length_append, List.length_append] at hlen
      have hle := render_length_le hl
      have hle' := length_itemBytes_le hitem
      obtain ⟨h₁, h₂⟩ := List.append_inj heq (by omega)
      intro i hi
      rcases List.mem_append.mp hi with hi | hi
      · exact (ih hl).mp h₁ i hi
      · rw [List.mem_singleton.mp hi]
        exact (itemBytes_eq_iff hitem).mp h₂
    · intro hagrees
      have h₁ := (ih hl).mpr fun i hi => hagrees i (List.mem_append_left _ hi)
      have h₂ := (itemBytes_eq_iff hitem).mpr (hagrees item (by simp))
      rw [h₁, h₂]

/-- A stored number is the one of the bytes so far. -/
def Store.Counts (st : Store) : Prop := st.value = BitVec.ofNat 32 st.before.length

theorem Utf8.stores_item (o : Utf8.Out) (item : Item) (h : ∀ st ∈ o.stores, st.Counts) :
    ∀ st ∈ (o.item item).stores, st.Counts := by
  cases item with
  | store p =>
    intro st hst
    rcases List.mem_append.mp hst with hst | hst
    · exact h st hst
    · rw [List.mem_singleton.mp hst]
      rfl
  | byte c => exact h
  | number cur val => exact h
  | string s => exact h

theorem Utf8.render_counts (l : List Item) : ∀ st ∈ (Utf8.render l).stores, st.Counts := by
  induction l using List.reverseRecOn with
  | nil => simp [Utf8.render]
  | append_singleton l item ih =>
    rw [Utf8.render_append]
    exact Utf8.stores_item _ item ih

/-- Where the bytes are the same the stored numbers are. -/
theorem render_stores {l : List Item} (h : ∀ item ∈ l, item.Fits)
    (hagrees : ∀ item ∈ l, item.Agrees) : (Utf8.render l).stores = (Stream.render l).stores := by
  induction l using List.reverseRecOn with
  | nil => rfl
  | append_singleton l item ih =>
    have hl : ∀ item ∈ l, item.Fits := fun item hitem => h item (List.mem_append_left _ hitem)
    have hal : ∀ item ∈ l, item.Agrees := fun i hi => hagrees i (List.mem_append_left _ hi)
    have hstores := ih hl hal
    rw [Utf8.render_append, Stream.render_append]
    cases item with
    | store p =>
      have hout := (render_eq_iff hl).mpr hal
      simp only [Utf8.Out.item, Stream.Out.item, hstores, hout, Stream.render_written]
    | number cur val =>
      rw [Stream.Out.item, Stream.number_eq, Stream.Out.number_stores]
      exact hstores
    | byte c => exact hstores
    | string s => exact hstores

/-- The outputs of the two formatters are the same: the bytes, and the numbers that `%n`
stores, which are those of the bytes so far. -/
def FormatsAgree (fmt : List Char) (ap : List Arg) : Prop :=
  ∃ o w, Utf8.format fmt ap = some o ∧ Stream.writef fmt ap = some w ∧
    o.out = w.writes.flatten ∧ o.stores = w.stores ∧ ∀ st ∈ w.stores, st.Counts

/-- For every format string and every argument list of matching types: the formatters agree
if and only if they agree on every number. -/
theorem formatsAgree_iff {fmt : List Char} {ap : List Arg} {l : List Item}
    (h : items fmt ap = some l) : FormatsAgree fmt ap ↔ ∀ item ∈ l, item.Agrees := by
  have hfit := items_fit h
  constructor
  · rintro ⟨o, w, ho, hw, hout, -, -⟩
    obtain rfl := Option.some.inj ((Utf8.format_eq h).symm.trans ho)
    obtain rfl := Option.some.inj ((Stream.writef_eq h).symm.trans hw)
    exact (render_eq_iff hfit).mp hout
  · intro hagrees
    have hstores := render_stores hfit hagrees
    exact ⟨_, _, Utf8.format_eq h, Stream.writef_eq h, (render_eq_iff hfit).mpr hagrees, hstores,
      hstores ▸ Utf8.render_counts l⟩

/-- A string, a negative number and a count. -/
theorem formatsAgree_iff_negative :
    FormatsAgree "%s: %d%n".toList [.str "exit".toList, .uint 0xffffffff, .slot 0] :=
  (formatsAgree_iff rfl).mpr (by decide)

/-- `Utf8("%u").format(0x80000000)` is not what `writef` writes. -/
theorem not_formatsAgree_half : ¬ FormatsAgree "%u".toList [.uint 0x80000000] := by
  rintro ⟨o, w, ho, hw, hout, -⟩
  have hu : (Utf8.format "%u".toList [.uint 0x80000000]).map Utf8.Out.out =
      some "UVSPSOTQSO".toList := by
    decide
  have hs : (Stream.writef "%u".toList [.uint 0x80000000]).map (·.writes.flatten) =
      some "2147483648".toList := by
    decide
  rw [ho, Option.map_some] at hu
  rw [hw, Option.map_some, ← hout, hu] at hs
  revert hs
  decide

end Cantos
