import Cantos.Structures.FormatAgreement

/-!
# Numbers that are printed exactly

The specifiers of numbers, with each of the lengths, print the shortest digits of their
argument, but for the numbers that `Stream::writef` turns into an `int` and for those with
more octal digits than its buffer.

## Main definitions

* `Length`: the lengths of a number.
* `Stream.emitted`: what `writef` writes for a number.
* `PrintsExactly`: it is the shortest representation, and can be read back.
* `Printable`: the arguments of which this holds.
-/

namespace Cantos

open Digits

/-- The length modifiers of a number. -/
inductive Length
  | none
  | l
  | ll
  deriving DecidableEq, Repr

namespace Length

/-- The bits of an argument. -/
def width : Length → ℕ
  | none | l => 32
  | ll => 64

/-- The modifiers in a format string. -/
def text : Length → List Char
  | none => []
  | l => ['l']
  | ll => ['l', 'l']

def arg : (length : Length) → BitVec length.width → Arg
  | none, v => .uint v
  | l, v => .ulong v
  | ll, v => .ulonglong v

end Length

/-- The number that an argument is for a specifier: for `d` and `i` it is signed. -/
def argValue {w : ℕ} (cur : Char) (v : BitVec w) : ℤ :=
  if cur = 'd' ∨ cur = 'i' then v.toInt else v.toNat

/-- The bytes that `writef` writes for one specifier. -/
def Stream.emitted (cur : Char) (length : Length) (v : BitVec length.width) : Option (List Char) :=
  (Stream.writef ('%' :: (length.text ++ [cur])) [length.arg v]).map fun o => o.writes.flatten

/-- The number that a digit stands for. -/
def charDigit (c : Char) : ℕ :=
  if '0' ≤ c ∧ c ≤ '9' then c.toNat - '0'.toNat
  else if 'A' ≤ c ∧ c ≤ 'F' then c.toNat - 'A'.toNat + 10
  else c.toNat - 'a'.toNat + 10

/-- The number that the bytes of a specifier stand for. -/
def readNumber (cur : Char) (bytes : List Char) : ℤ :=
  match (if cur = 'p' then bytes.drop 2 else bytes) with
  | '-' :: ds => -(value charDigit (specifierBase cur) ds : ℤ)
  | ds => value charDigit (specifierBase cur) ds

/-- The shortest representation of a number, with its sign. -/
def representation (cur : Char) (val : ℤ) : List Char :=
  numberPrefix cur (val < 0) ++
    shortest (fun d => numToStr d (cur = 'X')) (specifierBase cur) val.natAbs

/-- `writef` writes the shortest representation of its argument, which gives the argument
again when it is read. -/
structure PrintsExactly (cur : Char) (length : Length) (v : BitVec length.width) : Prop where
  shortest : Stream.emitted cur length v = some (representation cur (argValue cur v))
  reads : ∀ bytes ∈ Stream.emitted cur length v, readNumber cur bytes = argValue cur v

/-- The numbers of a specifier that the conversion to `int` does not change and the buffer
holds. -/
def Printable (cur : Char) (val : ℤ) : Prop :=
  if cur = 'd' ∨ cur = 'i' then -2 ^ 31 < val ∧ (0 ≤ val → val % 2 ^ 32 < 2 ^ 31)
  else if cur = 'o' then val < 2 ^ 60
  else True

instance (cur : Char) (val : ℤ) : Decidable (Printable cur val) := by
  unfold Printable
  infer_instance

section Number
variable {cur : Char} {length : Length} {val : ℤ} {v : BitVec length.width} {n : ℕ}

theorem isNumber_ne (h : isNumber cur = true) : cur ≠ '%' ∧ cur ≠ 'l' := by
  constructor <;> rintro rfl <;> exact absurd h (by decide)

theorem specifierBase_gt (cur : Char) : 1 < specifierBase cur := by
  rw [specifierBase]
  split_ifs <;> decide

theorem charDigit_numToStr : ∀ up, ∀ d < 16, charDigit (numToStr d up) = d := by decide

theorem charDigit_base (cur : Char) (up : Bool) :
    ∀ d < specifierBase cur, charDigit (numToStr d up) = d :=
  fun d hd => charDigit_numToStr up d (hd.trans_le (specifierBase_le cur))

/-- One specifier with its modifiers is one number. -/
theorem emitted_eq (h : isNumber cur = true) :
    Stream.emitted cur length v = some (Stream.numberBytes cur v.toNat) := by
  have hspecifier : ∀ k val ap, (ap.value k = some val) →
      Stream.specifier cur k [ap] ⟨[], 0, []⟩ = some ([], Stream.number cur val ⟨[], 0, []⟩) := by
    intro k val ap hval
    rw [Stream.specifier.eq_def, if_pos h]
    simp only [hval, Option.map_some]
  have hbytes : ∀ val, (Stream.number cur val ⟨[], 0, []⟩).writes.flatten =
      Stream.numberBytes cur val := by
    intro val
    rw [Stream.number_eq, Stream.Out.number_writes]
    rfl
  have hl := (isNumber_ne h).2
  rw [Stream.emitted, Stream.writef]
  cases length with
  | none =>
    simp [Length.text, Length.arg, walkFormat, hl, hspecifier 0 v.toNat (.uint v) rfl, hbytes]
  | l =>
    simp [Length.text, Length.arg, walkFormat, hl, hspecifier 1 v.toNat (.ulong v) rfl, hbytes]
  | ll =>
    simp [Length.text, Length.arg, walkFormat, hl, hspecifier 2 v.toNat (.ulonglong v) rfl, hbytes]

theorem mem_shortest {c : Char} (up : Bool)
    (hc : c ∈ Digits.shortest (fun d => numToStr d up) (specifierBase cur) n) : c ≠ '-' := by
  have hdigit : ∀ up, ∀ d < 16, numToStr d up ≠ '-' := by decide
  rw [Digits.shortest] at hc
  split_ifs at hc
  · rw [List.mem_singleton.mp hc]
    exact hdigit up 0 (by decide)
  · obtain ⟨d, hd, rfl⟩ := List.mem_map.mp (List.mem_reverse.mp hc)
    have hlt := Nat.digits_lt_base (specifierBase_gt cur) hd
    exact hdigit up d (hlt.trans_le (specifierBase_le cur))

/-- Digits behind a sign are read as the number with this sign. -/
theorem readNumber_append (up negative : Bool) (n : ℕ) :
    readNumber cur (numberPrefix cur negative ++
        Digits.shortest (fun d => numToStr d up) (specifierBase cur) n) =
      if negative then -(n : ℤ) else n := by
  have hvalue : value charDigit (specifierBase cur)
      (Digits.shortest (fun d => numToStr d up) (specifierBase cur) n) = n :=
    value_shortest (specifierBase_gt cur) (charDigit_base cur up)
  have hstrip : (if cur = 'p' then (numberPrefix cur negative ++
        Digits.shortest (fun d => numToStr d up) (specifierBase cur) n).drop 2
      else numberPrefix cur negative ++
        Digits.shortest (fun d => numToStr d up) (specifierBase cur) n) =
      (if negative then ['-'] else []) ++
        Digits.shortest (fun d => numToStr d up) (specifierBase cur) n := by
    rw [numberPrefix]
    split_ifs <;> rfl
  rw [readNumber, hstrip]
  cases negative with
  | true => exact congrArg (fun m : ℕ => -(m : ℤ)) hvalue
  | false =>
    rw [if_neg (by decide), if_neg (by decide), List.nil_append]
    split
    · rename_i ds hds
      exact absurd rfl (mem_shortest (c := '-') up (hds ▸ List.mem_cons_self))
    · exact congrArg Nat.cast hvalue

/-- The number that `writef` prints, with its sign. -/
def Stream.signed (cur : Char) (n : ℕ) : ℤ :=
  if isNegative cur n then -(Stream.printed cur n % specifierBase cur ^ numBufferSize : ℕ)
  else (Stream.printed cur n % specifierBase cur ^ numBufferSize : ℕ)

theorem numberBytes_eq : Stream.numberBytes cur n = numberPrefix cur (isNegative cur n) ++
    Digits.shortest (fun d => numToStr d (cur = 'X')) (specifierBase cur)
      (Stream.printed cur n % specifierBase cur ^ numBufferSize) := by
  have hb := specifierBase_gt cur
  have hbuffer : Stream.buffer cur n = natDigits (specifierBase cur) (cur = 'X') numBufferSize
      (Stream.printed cur n % specifierBase cur ^ numBufferSize) := by
    rw [Stream.buffer, natDigits_eq_iff (specifierBase_pos cur) (specifierBase_le cur), Nat.mod_mod]
  have hzero : ∀ d < specifierBase cur, numToStr d (cur = 'X') = '0' ↔ d = 0 := fun d hd =>
    numToStr_eq_zero _ d (hd.trans_le (specifierBase_le cur))
  rw [Stream.numberBytes, hbuffer]
  exact congrArg _ (trim_fill hb hzero (Nat.mod_lt _ (Nat.pow_pos (specifierBase_pos cur))))

/-- A number is printed as another one when it is read as that. -/
theorem numberBytes_eq_iff (hn : n < 2 ^ 64) :
    Stream.numberBytes cur n = representation cur val ↔ Stream.signed cur n = val := by
  have hread : readNumber cur (Stream.numberBytes cur n) = Stream.signed cur n := by
    rw [numberBytes_eq, readNumber_append, Stream.signed]
  constructor
  · intro h
    rw [← hread, h, representation, readNumber_append]
    simp only [decide_eq_true_eq]
    split_ifs <;> omega
  · rintro rfl
    have hmod := mod_buffer cur (n := Stream.printed cur n) (printed_lt hn)
    rw [numberBytes_eq, representation, Stream.signed]
    cases hneg : isNegative cur n with
    | false =>
      generalize Stream.printed cur n % specifierBase cur ^ numBufferSize = m
      have hsign : decide ((m : ℤ) < 0) = false := decide_eq_false (by omega)
      rw [if_neg (by decide), Int.natAbs_natCast, hsign]
    | true =>
      have hcur := (isNegative_iff.mp hneg)
      have ho : cur ≠ 'o' := by
        rcases hcur.1 with rfl | rfl <;> decide
      have hpos : 0 < Stream.printed cur n % specifierBase cur ^ numBufferSize := by
        rw [hmod, if_neg ho, Stream.printed, if_pos hneg]
        split_ifs <;> omega
      generalize Stream.printed cur n % specifierBase cur ^ numBufferSize = m at hpos
      have hsign : decide (-(m : ℤ) < 0) = true := decide_eq_true (by omega)
      rw [if_pos rfl, Int.natAbs_neg, Int.natAbs_natCast, hsign]

/-- The number that is printed is the argument. -/
theorem signed_eq_iff {w : ℕ} (hw : w = 32 ∨ w = 64) (v : BitVec w) :
    Stream.signed cur v.toNat = argValue cur v ↔ Printable cur (argValue cur v) := by
  have hv : v.toNat < 2 ^ 64 := by
    have := v.isLt
    rcases hw with rfl | rfl <;> omega
  have hmod := mod_buffer cur (n := Stream.printed cur v.toNat) (printed_lt hv)
  rw [Stream.signed, hmod, Printable, argValue]
  by_cases hd : cur = 'd' ∨ cur = 'i'
  · have ho : cur ≠ 'o' := by
      rcases hd with rfl | rfl <;> decide
    have hneg : isNegative cur v.toNat = true ↔ 2 ^ 31 ≤ v.toNat % 2 ^ 32 :=
      isNegative_iff.trans (and_iff_right hd)
    rw [if_neg ho, if_pos hd, if_pos hd, Stream.printed, BitVec.toInt_eq_toNat_cond]
    simp only [hneg]
    have := v.isLt
    rcases hw with rfl | rfl
    · split_ifs <;> omega
    · split_ifs <;> omega
  · have hneg : isNegative cur v.toNat = false := by
      rw [Bool.eq_false_iff, ne_eq, isNegative_iff]
      exact fun h => hd h.1
    rw [if_neg hd, if_neg hd, Stream.printed, hneg]
    simp only [Bool.false_eq_true, if_false]
    split_ifs with ho
    · omega
    · simp

/-- **A number is printed exactly**, unless `writef` turns it into another `int`, or it has more
octal digits than the buffer. -/
theorem printsExactly_iff (h : isNumber cur = true) (v : BitVec length.width) :
    PrintsExactly cur length v ↔ Printable cur (argValue cur v) := by
  have hw : length.width = 32 ∨ length.width = 64 := by cases length <;> decide
  have hle : length.width ≤ 64 := by
    rcases hw with hw | hw <;> omega
  have hv : v.toNat < 2 ^ 64 := v.isLt.trans_le (Nat.pow_le_pow_right (by decide) hle)
  rw [← signed_eq_iff hw, ← numberBytes_eq_iff hv]
  constructor
  · intro hexact
    have hbytes := hexact.shortest
    rw [emitted_eq h] at hbytes
    exact Option.some.inj hbytes
  · intro heq
    refine ⟨by rw [emitted_eq h, heq], fun bytes hbytes => ?_⟩
    rw [emitted_eq h, Option.mem_some_iff] at hbytes
    rw [← hbytes, heq, representation, readNumber_append]
    simp only [decide_eq_true_eq]
    split_ifs <;> omega

/-- The most negative number but one. -/
theorem printsExactly_iff_int : PrintsExactly 'd' .none (0x80000001 : BitVec 32) ↔
    Printable 'd' (argValue 'd' (0x80000001 : BitVec 32)) :=
  @printsExactly_iff 'd' .none (by decide) 0x80000001

/-- A number of 33 bits is printed as `-1`. -/
theorem not_printsExactly_long : ¬ PrintsExactly 'd' .ll (0x1ffffffff : BitVec 64) := by
  intro h
  have hbytes : Stream.emitted 'd' .ll (0x1ffffffff : BitVec 64) = some ['-', '1'] := by decide
  have hread := h.reads _ hbytes
  revert hread
  decide

end Number

end Cantos
