import Cantos.Mem.Sizes
import Mathlib.Algebra.Group.Nat.Defs
import Mathlib.Data.List.Basic
import Mathlib.Tactic.Common

/-!
# `vector<T>`

A buffer of cells, the number of elements in it, and the number it can hold.  A cell is raw
until an element is constructed there, and again when it is destroyed.  A buffer that is full
is replaced by one of twice its size; this goes wrong when twice its size is nothing, or more
than a `size_t` can count in bytes, or one of the last eleven sizes that `kmalloc` is asked for.

`kmalloc` returns as much memory as it sets aside for the size it is asked for, and a null
pointer for no bytes.

## Main definitions

* `VectorState`, `VectorOp.exec`, `VectorStart.make`: vectors, their operations, and their
  constructors.
* `VectorOp.spec`: the operations on lists.
* `VectorState.Refines`: after every operation, the vector holds what the list holds.
* `VectorState.Roomy`: what a vector needs to grow.
-/

namespace Cantos

/-- Why an operation on a vector does not return. -/
inductive VectorStuck
  /-- `panic` was called with this text. -/
  | panic (msg : String)
  /-- A cell outside the buffer is accessed, or a raw one is read. -/
  | badAccess
  deriving DecidableEq, Repr

/-- `vector<T>` -/
structure VectorState (T : Type) where
  /-- The memory at `buff`, unless that is a null pointer. -/
  buff : Option (List (Option T))
  count : ℕ
  buffSize : ℕ

namespace VectorState

variable {T : Type}

/-- The cells at `buff`. -/
def cells (v : VectorState T) : List (Option T) := v.buff.getD []

/-- The number of cells in a new buffer: of the bytes that were asked for and are there. -/
def newCells (sizeofT target : ℕ) : ℕ :=
  let bytes := sizeofT * target % 2 ^ 32
  min bytes (Kmem.granted bytes) / sizeofT

/-- `(T *)kmem::kmalloc(sizeof(T) * target, 0)` -/
def kmalloc (sizeofT target : ℕ) : Option (List (Option T)) :=
  if sizeofT * target % 2 ^ 32 = 0 then none
  else some (List.replicate (newCells sizeofT target) none)

/-- Read the element in cell `i`. -/
def get (cells : List (Option T)) (i : ℕ) : Except VectorStuck T :=
  match cells[i]? with
  | some (some x) => .ok x
  | _ => .error .badAccess

/-- Construct an element in cell `i`. -/
def put (cells : List (Option T)) (i : ℕ) (x : T) : Except VectorStuck (List (Option T)) :=
  if i < cells.length then .ok (cells.set i (some x)) else .error .badAccess

/-- Read the last `k` elements, the next one being in cell `i`. -/
def getAll (cells : List (Option T)) : (k i : ℕ) → Except VectorStuck (List T)
  | 0, _ => .ok []
  | k + 1, i => do
      let x ← get cells i
      let xs ← getAll cells k (i + 1)
      pure (x :: xs)

/-- Construct elements from cell `i` on. -/
def putAll : (xs : List T) → (i : ℕ) → List (Option T) → Except VectorStuck (List (Option T))
  | [], _, cells => .ok cells
  | x :: xs, i, cells => do
      let cells ← put cells i x
      putAll xs (i + 1) cells

/-- `grow_buff(target)` -/
def growBuff (sizeofT target : ℕ) (v : VectorState T) : Except VectorStuck (VectorState T) := do
  let newBuff : Option (List (Option T)) := kmalloc sizeofT target
  let xs ← getAll v.cells v.count 0
  let cells ← putAll xs 0 (newBuff.getD [])
  pure { v with buff := newBuff.map fun _ => cells, buffSize := target }

/-- `grow_buff()` -/
def grow (sizeofT : ℕ) (v : VectorState T) : Except VectorStuck (VectorState T) :=
  growBuff sizeofT (v.buffSize * 2 % 2 ^ 32) v

/-- The members before a constructor runs. -/
def initial : VectorState T := ⟨none, 0, 0⟩

/-- The constructors that grow the buffer and construct elements in it. -/
def construct (sizeofT target : ℕ) (xs : List T) : Except VectorStuck (VectorState T) := do
  let v ← growBuff sizeofT target initial
  let cells ← putAll xs 0 v.cells
  pure { v with buff := v.buff.map fun _ => cells, count := xs.length }

/-- `operator[]`, up to the reference it returns. -/
def index (v : VectorState T) (pos : ℕ) : Except VectorStuck ℕ :=
  if pos ≥ v.count then .error (.panic "Out of bounds vector access!")
  else if v.buff.isNone then .error (.panic "Vector is no longer available.")
  else .ok pos

/-- `at` -/
def at' (v : VectorState T) (pos : ℕ) : Except VectorStuck T := do
  let i ← v.index pos
  get v.cells i

def front (v : VectorState T) : Except VectorStuck T := v.at' 0

/-- `back`; with no elements, `count - 1` is the last `size_t`. -/
def back (v : VectorState T) : Except VectorStuck T := v.at' ((v.count + 2 ^ 32 - 1) % 2 ^ 32)

/-- `push_back`, of a reference and of a temporary alike. -/
def pushBack (sizeofT : ℕ) (value : T) (v : VectorState T) :
    Except VectorStuck (VectorState T) := do
  let v ← if v.count = v.buffSize then v.grow sizeofT else pure v
  let pos := v.count
  -- `count ++` comes before the index is checked.
  let v := { v with count := pos + 1 }
  let i ← v.index pos
  let cells ← put v.cells i value
  pure { v with buff := v.buff.map fun _ => cells }

/-- `emplace_back`, with the object built from its arguments. -/
def emplaceBack (sizeofT : ℕ) (object : T) (v : VectorState T) :
    Except VectorStuck (VectorState T) := pushBack sizeofT object v

/-- `pop_back` -/
def popBack (v : VectorState T) : Except VectorStuck (VectorState T) := do
  let i ← v.index ((v.count + 2 ^ 32 - 1) % 2 ^ 32)
  let _ ← get v.cells i
  pure { v with buff := v.buff.map fun cells => cells.set i none, count := v.count - 1 }

/-- A loop from `begin()` to `end()`. -/
def iterate (v : VectorState T) : Except VectorStuck (List T) := getAll v.cells v.count 0

/-- `clear` -/
def clear (v : VectorState T) : Except VectorStuck (VectorState T) :=
  if v.buff.isNone then .ok v
  else do
    let xs ← v.iterate
    pure { v with
      buff := v.buff.map fun cells => List.replicate xs.length none ++ cells.drop xs.length
      count := 0 }

/-- `vector(other)` -/
def copy (sizeofT : ℕ) (other : VectorState T) : Except VectorStuck (VectorState T) := do
  let v ← growBuff sizeofT other.buffSize initial
  let xs ← other.iterate
  let cells ← putAll xs 0 v.cells
  pure { v with buff := v.buff.map fun _ => cells, count := other.count }

end VectorState

/-! ## Operations -/

/-- The constructors. -/
inductive VectorStart (T : Type)
  | empty
  | ofCount (count : ℕ)
  | ofValue (count : ℕ) (value : T)

/-- The operations on a vector; `copy` goes on with a copy of it. -/
inductive VectorOp (T : Type)
  | pushBack (value : T)
  | emplaceBack (object : T)
  | popBack
  | clear
  | at (pos : ℕ)
  | iterate
  | copy

/-- What an operation returns. -/
inductive VectorReply (T : Type)
  | void
  | object (x : T)
  | objects (xs : List T)

/-- The vector a constructor makes. -/
def VectorStart.make {T : Type} [Inhabited T] (sizeofT : ℕ) :
    VectorStart T → Except VectorStuck (VectorState T)
  | .empty => VectorState.growBuff sizeofT 4 .initial
  | .ofCount count => VectorState.construct sizeofT count (List.replicate count default)
  | .ofValue count value => VectorState.construct sizeofT count (List.replicate count value)

/-- The elements a constructor makes. -/
def VectorStart.spec {T : Type} [Inhabited T] : VectorStart T → List T
  | .empty => []
  | .ofCount count => List.replicate count default
  | .ofValue count value => List.replicate count value

namespace VectorOp

variable {T : Type}

/-- Run an operation. -/
def exec (sizeofT : ℕ) (v : VectorState T) :
    VectorOp T → Except VectorStuck (VectorReply T × VectorState T)
  | .pushBack value => do pure (.void, ← v.pushBack sizeofT value)
  | .emplaceBack object => do pure (.void, ← v.emplaceBack sizeofT object)
  | .popBack => do pure (.void, ← v.popBack)
  | .clear => do pure (.void, ← v.clear)
  | .at pos => do pure (.object (← v.at' pos), v)
  | .iterate => do pure (.objects (← v.iterate), v)
  | .copy => do pure (.void, ← v.copy sizeofT)

/-- The operation on a list; an index that is out of bounds is a panic. -/
def spec (xs : List T) : VectorOp T → Except VectorStuck (VectorReply T × List T)
  | .pushBack value => .ok (.void, xs ++ [value])
  | .emplaceBack object => .ok (.void, xs ++ [object])
  | .popBack => .ok (.void, xs.dropLast)
  | .clear => .ok (.void, [])
  | .at pos =>
      match xs[pos]? with
      | some x => .ok (.object x, xs)
      | none => .error (.panic "Out of bounds vector access!")
  | .iterate => .ok (.objects xs, xs)
  | .copy => .ok (.void, xs)

end VectorOp

end Cantos
