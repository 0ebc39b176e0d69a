import Cantos.Mem.Sizes
import Mathlib.Data.BitVec
import Mathlib.Data.List.Basic

/-!
# `Utf8`

The operations of the string class that walk over bytes.  A `Utf8` is a pointer into a buffer
and a number of bytes, so that copies of a string share a buffer.  A `char` is signed.

Buffers are apart from each other, as `kmalloc` makes them.  A read behind the null byte of a
string, and a write outside of a buffer, stop.

## Main definitions

* `Buffers`, `Utf8`: the strings in memory.
* `Text`: a `Utf8` with its null byte.
* `Utf8.compare`, `Utf8.find`, `Utf8.equals`, `Utf8.chars`
* `Utf8.substr`, `Utf8.concat`
-/

namespace Cantos.Strings

abbrev Byte := BitVec 8

/-- `Utf8::npos` -/
def npos : ℕ := 2 ^ 32 - 1

/-- The bytes of every buffer. The ones from `next` on have not been allocated. -/
structure Buffers where
  data : ℕ → List Byte
  next : ℕ

/-- Why an operation does not return. -/
inductive Fault
  /-- A byte behind the null byte of a string is read, or one outside of a buffer written. -/
  | outOfBounds
  | diverge
  deriving DecidableEq, Repr

/-- `Utf8`: `string` points to an offset in a buffer. -/
structure Utf8 where
  buffer : ℕ
  offset : ℕ
  byteCount : ℕ
  deriving DecidableEq, Repr

/-- A `Utf8` with its null byte behind its bytes. -/
structure Text (m : Buffers) extends Utf8 where
  allocated : buffer < m.next
  small : (m.data buffer).length < 2 ^ 32
  null : (m.data buffer)[offset + byteCount]? = some 0

instance {m : Buffers} : CoeOut (Text m) Utf8 := ⟨Text.toUtf8⟩

namespace Utf8

/-- The pointer. -/
def string (s : Utf8) : ℕ × ℕ := (s.buffer, s.offset)

/-- The bytes of a string. -/
def content (m : Buffers) (s : Utf8) : List Byte :=
  ((m.data s.buffer).drop s.offset).take s.byteCount

/-- No byte of a string is null. -/
def NulFree (m : Buffers) (s : Utf8) : Prop := 0 ∉ s.content m

instance (m : Buffers) (s : Utf8) : Decidable (s.NulFree m) := inferInstanceAs (Decidable (0 ∉ _))

/-- `string[i]` -/
def get (m : Buffers) (s : Utf8) (i : ℕ) : Except Fault Byte :=
  if i ≤ s.byteCount then
    match (m.data s.buffer)[s.offset + i]? with
    | some b => .ok b
    | none => .error .outOfBounds
  else .error .outOfBounds

/-! ## Comparison -/

section Compare
variable (m : Buffers) (a b : Utf8)

/-- The loop of `compare`, with `k` rounds left; the first difference ends it. -/
def compareFrom (pos subpos : ℕ) : (k i : ℕ) → Except Fault (Option ℤ)
  | 0, _ => .ok none
  | k + 1, i => do
      let x ← a.get m (add32 pos i)
      let y ← b.get m (add32 subpos i)
      if x ≠ y then pure (some (x.toInt - y.toInt)) else compareFrom pos subpos k (i + 1)

/-- `compare(pos, len, str, subpos, sublen)` -/
def compare (pos len : ℕ) (subpos sublen : ℕ) : Except Fault ℤ :=
  let count := if len > sublen then sublen else len
  -- Check if we are just pointers to the same string
  if a.string = b.string then .ok 0
  else do
    let difference ← compareFrom m a b pos subpos count 0
    match difference with
    | some d => pure d
    | none => if len > sublen then pure 1 else if sublen > len then pure (-1) else pure 0

/-- `compare(str)` -/
def compareAll : Except Fault ℤ := compare m a b 0 a.byteCount 0 b.byteCount

/-- The loop of `find(str, pos)`. -/
def findFrom : (fuel pos : ℕ) → Except Fault ℕ
  | 0, _ => .error .diverge
  | fuel + 1, pos =>
      if pos ≤ sub32 a.byteCount b.byteCount then do
        let c ← compare m a b pos b.byteCount 0 b.byteCount
        if c = 0 then pure pos else findFrom fuel (add32 pos 1)
      else pure npos

/-- The loop of `operator==`, with `k` rounds left. -/
def equalsFrom : (k p : ℕ) → Except Fault Bool
  | 0, _ => .ok true
  | k + 1, p => do
      let x ← a.get m p
      let y ← b.get m p
      if x ≠ y then pure false else if x = 0 then pure true else equalsFrom k (p + 1)

/-- `operator==(other)` -/
def equals : Except Fault Bool :=
  if a.string = b.string then .ok true
  else if a.byteCount ≠ b.byteCount then .ok false
  else equalsFrom m a b (2 ^ 32 - 1) 0

end Compare

/-! ## Counting -/

/-- What a byte adds to the count of `chars`. -/
def weight (b : Byte) : ℕ := (if b &&& 0x80#8 = 0 then 1 else 0) + if b &&& 0xc0#8 ≠ 0 then 1 else 0

/-- The loop of `chars`, with `k` rounds left. -/
def charsFrom (m : Buffers) (s : Utf8) : (k p c : ℕ) → Except Fault ℕ
  | 0, _, c => .ok c
  | k + 1, p, c => do
      let b ← s.get m p
      if b = 0 then pure c else charsFrom m s k (p + 1) (add32 c (weight b))

def chars (m : Buffers) (s : Utf8) : Except Fault ℕ := charsFrom m s (2 ^ 32 - 1) 0 0

/-! ## New strings -/

/-- `kmalloc`, when it returns: the bytes of a new buffer that were asked for and are there. -/
def kmalloc (junk : ℕ → Byte) (size : ℕ) (m : Buffers) : ℕ × Buffers :=
  let bytes := if size = 0 then 0 else min size (Kmem.granted size)
  (m.next, ⟨Function.update m.data m.next ((List.range bytes).map junk), m.next + 1⟩)

/-- `buffer[i] = x` -/
def store (buffer i : ℕ) (x : Byte) (m : Buffers) : Except Fault Buffers :=
  if i < (m.data buffer).length then
    .ok { m with data := Function.update m.data buffer ((m.data buffer).set i x) }
  else .error .outOfBounds

/-- `own(buffer, size)` -/
def own (m : Buffers) (buffer size : ℕ) : Except Fault Utf8 :=
  if size = npos then
    match (m.data buffer).findIdx? (· = 0) with
    | some size => .ok ⟨buffer, 0, size⟩
    | none => .error .outOfBounds
  else .ok ⟨buffer, 0, size⟩

/-- A loop `for(; c < n && cond; c ++) newbuff[target + c] = string[from + c]`, with `k` rounds
left. -/
def copyFrom (s : Utf8) (source newbuff target : ℕ) (cond : ℕ → Bool) :
    (k c : ℕ) → Buffers → Except Fault Buffers
  | 0, _, m => .ok m
  | k + 1, c, m =>
      if cond c then do
        let x ← s.get m (add32 source c)
        let m ← store newbuff (add32 target c) x m
        copyFrom s source newbuff target cond k (c + 1) m
      else .ok m

/-- `substr(pos, len)` -/
def substr (junk : ℕ → Byte) (m : Buffers) (s : Utf8) (pos len : ℕ) :
    Except Fault (Utf8 × Buffers) := do
  let len := if len > sub32 s.byteCount pos then sub32 s.byteCount pos else len
  let (newbuff, m) := kmalloc junk (add32 len 1) m
  let m ← copyFrom s pos newbuff 0 (fun _ => true) len 0 m
  let m ← store newbuff len 0 m
  let r ← own m newbuff len
  pure (r, m)

/-- `operator+(other)` -/
def concat (junk : ℕ → Byte) (m : Buffers) (s other : Utf8) : Except Fault (Utf8 × Buffers) := do
  let sa := s.byteCount
  let sb := other.byteCount
  let st := if sub32 (2 ^ 32 - 2) sb < sa ∨ sub32 (2 ^ 32 - 2) sa < sb then 2 ^ 32 - 2
    else add32 sa sb
  let (newbuff, m) := kmalloc junk (add32 (add32 sa sb) 1) m
  let m ← copyFrom s 0 newbuff 0 (fun p => p < 2 ^ 32 - 2) sa 0 m
  let m ← copyFrom other 0 newbuff sa (fun p => add32 p sa < 2 ^ 32 - 2) sb 0 m
  let m ← store newbuff st 0 m
  let r ← own m newbuff st
  pure (r, m)

end Utf8

end Cantos.Strings
