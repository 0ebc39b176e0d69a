import Cantos.Lib.Digits
import Mathlib.Data.Int.Basic
import Mathlib.Data.BitVec

/-!
# The two formatters

`Utf8::format` and `Stream::writef` read the same format strings.  They walk the string and
the arguments in the same way and differ in what they do with a specifier, above all in the
type of the number that they turn into digits: an `int` in `Utf8::format`, an
`unsigned long long` in `Stream::writef`.

A byte is a `Char` below 256.  A string is the list of its bytes in front of the null byte.

## Main definitions

* `Arg`: an argument, by its type.
* `walkFormat`: the loop that both share.
* `Utf8.format`, `Stream.writef`
* `Item`, `items`: what a format string asks for.
-/

namespace Cantos

open Digits

/-- An argument of a `va_list`. `unsigned long` has 32 bits. -/
inductive Arg
  | uint (v : BitVec 32)
  | ulong (v : BitVec 32)
  | ulonglong (v : BitVec 64)
  /-- `int *`, by its name. -/
  | slot (p : ℕ)
  /-- `char *` -/
  | str (s : List Char)
  /-- `Utf8 *` -/
  | utf8 (s : List Char)
  deriving DecidableEq, Repr

/-- `va_arg` for a number with `length` modifiers. -/
def Arg.value : (length : ℕ) → Arg → Option ℕ
  | 0, .uint v => some v.toNat
  | 1, .ulong v => some v.toNat
  | 2, .ulonglong v => some v.toNat
  | _, _ => none

/-- The conversion to `int`. -/
def toInt (v : ℤ) : ℤ := v.bmod (2 ^ 32)

/-- The conversion of an `int` to `unsigned long long`. -/
def toUnsignedLongLong (v : ℤ) : ℕ := (v % 2 ^ 64).toNat

/-- `num_to_str` of both files, on a `uint8_t`. -/
def numToStr (value : ℕ) (uppercase : Bool) : Char :=
  Char.ofNat (if value < 10 then value + 0x30
    else if uppercase then (value + 0x41 - 0xa) % 2 ^ 8
    else (value + 0x61 - 0xa) % 2 ^ 8)

/-- `NUM_BUFFER_SIZE` -/
def numBufferSize : ℕ := 20

/-- The base of a specifier. -/
def specifierBase (cur : Char) : ℕ :=
  if cur = 'x' ∨ cur = 'X' ∨ cur = 'p' then 16 else if cur = 'o' then 8 else 10

/-- The specifiers of numbers. -/
def isNumber (cur : Char) : Bool := cur ∈ ['p', 'x', 'X', 'o', 'u', 'd', 'i']

/-- What `%n` stores: a number, in the `int` that an argument points to. -/
structure Store where
  slot : ℕ
  value : BitVec 32
  /-- The bytes so far. No function reads it. -/
  before : List Char
  deriving DecidableEq, Repr

/-- The loop over the format string, and the one over the length modifiers of a specifier:
`put` is the code for a character, `specifier` the one for a specifier. `length` is `none`
outside of a specifier. A format that ends in a specifier is read behind its end. -/
def walkFormat {σ : Type} (put : Char → σ → σ)
    (specifier : Char → ℕ → List Arg → σ → Option (List Arg × σ)) :
    (fmt : List Char) → (length : Option ℕ) → (ap : List Arg) → σ → Option σ
  | [], none, _, s => some s
  | [], some _, _, _ => none
  | cur :: fmt, none, ap, s =>
      if cur = '%' then walkFormat put specifier fmt (some 0) ap s
      else walkFormat put specifier fmt none ap (put cur s)
  | cur :: fmt, some length, ap, s =>
      if cur = 'l' then
        walkFormat put specifier fmt (some (if length + 1 > 2 then 2 else length + 1)) ap s
      else (specifier cur length ap s).bind fun r => walkFormat put specifier fmt none r.1 r.2

/-! ## `Utf8::format` -/

namespace Utf8

/-- The state of `format`. -/
structure Out where
  out : List Char
  stores : List Store
  deriving DecidableEq, Repr

/-- `out.push_back` of some bytes. -/
def Out.push (bytes : List Char) (o : Out) : Out := { o with out := o.out ++ bytes }

/-- `num_to_str(val % base, cur == 'X')`: the remainder has the sign of `val`. -/
def digit (base : ℕ) (uppercase : Bool) (val : ℤ) : Char :=
  numToStr (val.tmod base % 2 ^ 8).toNat uppercase

/-- `val / base` -/
def next (base : ℕ) (val : ℤ) : ℤ := val.tdiv base

/-- The bytes for a number. -/
def number (cur : Char) (arg : ℕ) : List Char :=
  let val := toInt arg
  let negative : Bool := (cur = 'd' ∨ cur = 'i') ∧ val < 0
  let val := if negative then toInt (-val) else val
  let output := fill (digit (specifierBase cur) (cur = 'X')) (next (specifierBase cur))
    numBufferSize val []
  (if cur = 'p' then ['0', 'x'] else []) ++ (if negative then ['-'] else []) ++ trim '0' output

/-- The `switch` of `format`. -/
def specifier (cur : Char) (length : ℕ) (ap : List Arg) (o : Out) : Option (List Arg × Out) :=
  if isNumber cur then
    match ap with
    | arg :: ap => (arg.value length).map fun val => (ap, o.push (number cur val))
    | [] => none
  else
    match cur, ap with
    | '%', ap => some (ap, o.push ['%'])
    | 'n', .slot p :: ap => some (ap, { o with
        stores := o.stores ++ [⟨p, BitVec.ofNat 32 o.out.length, o.out⟩] })
    | 'n', _ => none
    | 's', .str s :: ap => some (ap, o.push s)
    | 's', _ => none
    | 'S', .utf8 s :: ap => some (ap, o.push s)
    | 'S', _ => none
    | _, ap => some (ap, o)

/-- `Utf8::format`; without a result where the behaviour is undefined. -/
def format (fmt : List Char) (ap : List Arg) : Option Out :=
  walkFormat (fun cur => Out.push [cur]) specifier fmt none ap ⟨[], []⟩

end Utf8

/-! ## `Stream::writef` -/

namespace Stream

/-- The state of `writef`: the calls of `write`, with their bytes. -/
structure Out where
  writes : List (List Char)
  written : ℕ
  stores : List Store
  deriving DecidableEq, Repr

/-- `write` some bytes and count them. -/
def Out.write (bytes : List Char) (o : Out) : Out :=
  { o with writes := o.writes ++ [bytes], written := o.written + bytes.length }

/-- `_num_to_str(val % base, cur == 'X')` -/
def digit (base : ℕ) (uppercase : Bool) (val : ℕ) : Char := numToStr (val % base) uppercase

/-- The writes for a number. -/
def number (cur : Char) (arg : ℕ) (o : Out) : Out :=
  let vals := toInt arg
  let negative : Bool := (cur = 'd' ∨ cur = 'i') ∧ vals < 0
  let val := if negative then toUnsignedLongLong (toInt (-vals)) else arg
  let output := fill (digit (specifierBase cur) (cur = 'X')) (· / specifierBase cur)
    numBufferSize val []
  let o := if cur = 'p' then o.write ['0', 'x'] else o
  let o := if negative then o.write ['-'] else o
  o.write (trim '0' output)

/-- The `switch` of `writef`. -/
def specifier (cur : Char) (length : ℕ) (ap : List Arg) (o : Out) : Option (List Arg × Out) :=
  if isNumber cur then
    match ap with
    | arg :: ap => (arg.value length).map fun val => (ap, number cur val o)
    | [] => none
  else
    match cur, ap with
    | '%', ap => some (ap, o.write ['%'])
    | 'n', .slot p :: ap => some (ap, { o with
        stores := o.stores ++ [⟨p, BitVec.ofNat 32 o.written, o.writes.flatten⟩] })
    | 'n', _ => none
    | 's', .str s :: ap => some (ap, o.write s)
    | 's', _ => none
    | _, ap => some (ap, o)

/-- `Stream::writef`; without a result where the behaviour is undefined. -/
def writef (fmt : List Char) (ap : List Arg) : Option Out :=
  walkFormat (fun cur => Out.write [cur]) specifier fmt none ap ⟨[], 0, []⟩

end Stream

/-! ## What a format string asks for -/

/-- A piece of the output. -/
inductive Item
  | byte (c : Char)
  | store (p : ℕ)
  | number (cur : Char) (val : ℕ)
  | string (s : List Char)
  deriving DecidableEq, Repr

/-- The item of a specifier that both formatters know, for an argument of its type. -/
def itemSpecifier (cur : Char) (length : ℕ) (ap : List Arg) (l : List Item) :
    Option (List Arg × List Item) :=
  if isNumber cur then
    match ap with
    | arg :: ap => (arg.value length).map fun val => (ap, l ++ [.number cur val])
    | [] => none
  else
    match cur, ap with
    | '%', ap => some (ap, l ++ [.byte '%'])
    | 'n', .slot p :: ap => some (ap, l ++ [.store p])
    | 's', .str s :: ap => some (ap, l ++ [.string s])
    | _, _ => none

/-- The items of a format string that is terminated properly, with arguments of matching
types. -/
def items (fmt : List Char) (ap : List Arg) : Option (List Item) :=
  walkFormat (fun cur l => l ++ [.byte cur]) itemSpecifier fmt none ap []

example : (Utf8.format "%s %s %d %x".toList
    [.str "Hello".toList, .str "World".toList, .uint 69, .uint 0xff]).map Utf8.Out.out =
      some "Hello World 69 ff".toList := by
  decide

/-- What holds of the items holds of a formatter that does with every item what `f` says. -/
theorem walkFormat_map {σ τ : Type} {put : Char → σ → σ} {put' : Char → τ → τ}
    {specifier : Char → ℕ → List Arg → σ → Option (List Arg × σ)}
    {specifier' : Char → ℕ → List Arg → τ → Option (List Arg × τ)} {f : σ → τ}
    (hput : ∀ c s, f (put c s) = put' c (f s))
    (hspecifier : ∀ cur length ap s ap' s', specifier cur length ap s = some (ap', s') →
      specifier' cur length ap (f s) = some (ap', f s'))
    {fmt : List Char} {length : Option ℕ} {ap : List Arg} {s s' : σ}
    (h : walkFormat put specifier fmt length ap s = some s') :
    walkFormat put' specifier' fmt length ap (f s) = some (f s') := by
  induction fmt generalizing length ap s with
  | nil =>
    cases length with
    | none => exact congrArg (some ∘ f) (Option.some.inj h)
    | some _ => cases h
  | cons cur fmt ih =>
    cases length with
    | none =>
      rw [walkFormat] at h ⊢
      split_ifs at h ⊢
      · exact ih h
      · rw [← hput]
        exact ih h
    | some length =>
      rw [walkFormat] at h ⊢
      by_cases hcur : cur = 'l'
      · rw [if_pos hcur] at h ⊢
        exact ih h
      · rw [if_neg hcur] at h ⊢
        obtain ⟨⟨ap', t⟩, ht, hrest⟩ := Option.bind_eq_some_iff.mp h
        rw [hspecifier _ _ _ _ _ _ ht]
        exact ih hrest

/-! ## The formatters on items -/

/-- What `format` does with an item. -/
def Utf8.Out.item (o : Utf8.Out) : Item → Utf8.Out
  | .byte c => o.push [c]
  | .store p => { o with stores := o.stores ++ [⟨p, BitVec.ofNat 32 o.out.length, o.out⟩] }
  | .number cur val => o.push (Utf8.number cur val)
  | .string s => o.push s

/-- What `writef` does with an item. -/
def Stream.Out.item (o : Stream.Out) : Item → Stream.Out
  | .byte c => o.write [c]
  | .store p => { o with
      stores := o.stores ++ [⟨p, BitVec.ofNat 32 o.written, o.writes.flatten⟩] }
  | .number cur val => Stream.number cur val o
  | .string s => o.write s

/-- The outputs of `format` and `writef` for some items. -/
def Utf8.render (l : List Item) : Utf8.Out := l.foldl Utf8.Out.item ⟨[], []⟩

def Stream.render (l : List Item) : Stream.Out := l.foldl Stream.Out.item ⟨[], 0, []⟩

@[simp] theorem Utf8.render_append (l : List Item) (item : Item) :
    Utf8.render (l ++ [item]) = (Utf8.render l).item item := List.foldl_append

@[simp] theorem Stream.render_append (l : List Item) (item : Item) :
    Stream.render (l ++ [item]) = (Stream.render l).item item := List.foldl_append

/-- The item of a specifier. -/
theorem itemSpecifier_cases {cur : Char} {length : ℕ} {ap ap' : List Arg} {l l' : List Item}
    (h : itemSpecifier cur length ap l = some (ap', l')) :
    (∃ arg val, isNumber cur = true ∧ ap = arg :: ap' ∧ arg.value length = some val ∧
        l' = l ++ [.number cur val]) ∨
      (cur = '%' ∧ ap = ap' ∧ l' = l ++ [.byte '%']) ∨
      (∃ p, cur = 'n' ∧ ap = .slot p :: ap' ∧ l' = l ++ [.store p]) ∨
      ∃ s, cur = 's' ∧ ap = .str s :: ap' ∧ l' = l ++ [.string s] := by
  unfold itemSpecifier at h
  split_ifs at h with hnumber
  · cases ap with
    | nil => cases h
    | cons arg ap =>
      obtain ⟨val, hval, heq⟩ := Option.map_eq_some_iff.mp h
      obtain ⟨rfl, rfl⟩ := Prod.mk.inj heq
      exact .inl ⟨arg, val, hnumber, rfl, hval, rfl⟩
  · split at h
    · obtain ⟨rfl, rfl⟩ := Prod.mk.inj (Option.some.inj h)
      exact .inr (.inl ⟨rfl, rfl, rfl⟩)
    · obtain ⟨rfl, rfl⟩ := Prod.mk.inj (Option.some.inj h)
      exact .inr (.inr (.inl ⟨_, rfl, rfl, rfl⟩))
    · obtain ⟨rfl, rfl⟩ := Prod.mk.inj (Option.some.inj h)
      exact .inr (.inr (.inr ⟨_, rfl, rfl, rfl⟩))
    · cases h

theorem Utf8.format_eq {fmt : List Char} {ap : List Arg} {l : List Item}
    (h : items fmt ap = some l) : Utf8.format fmt ap = some (Utf8.render l) := by
  refine walkFormat_map (f := Utf8.render) (fun c l => Utf8.render_append l (.byte c)) ?_ h
  intro cur length ap l ap' l' h
  rcases itemSpecifier_cases h with ⟨arg, val, hnumber, rfl, hval, rfl⟩ | ⟨rfl, rfl, rfl⟩ |
    ⟨p, rfl, rfl, rfl⟩ | ⟨s, rfl, rfl, rfl⟩
  · rw [Utf8.specifier.eq_def, if_pos hnumber, Utf8.render_append]
    simp only [hval, Option.map_some]
    rfl
  · rw [Utf8.render_append]
    rfl
  · rw [Utf8.render_append]
    rfl
  · rw [Utf8.render_append]
    rfl

theorem Stream.writef_eq {fmt : List Char} {ap : List Arg} {l : List Item}
    (h : items fmt ap = some l) : Stream.writef fmt ap = some (Stream.render l) := by
  refine walkFormat_map (f := Stream.render) (fun c l => Stream.render_append l (.byte c)) ?_ h
  intro cur length ap l ap' l' h
  rcases itemSpecifier_cases h with ⟨arg, val, hnumber, rfl, hval, rfl⟩ | ⟨rfl, rfl, rfl⟩ |
    ⟨p, rfl, rfl, rfl⟩ | ⟨s, rfl, rfl, rfl⟩
  · rw [Stream.specifier.eq_def, if_pos hnumber, Stream.render_append]
    simp only [hval, Option.map_some]
    rfl
  · rw [Stream.render_append]
    rfl
  · rw [Stream.render_append]
    rfl
  · rw [Stream.render_append]
    rfl

end Cantos
