import Cantos.Lib.Steps
import Mathlib.Data.Finset.Card
import Mathlib.Data.Finset.Max
import Mathlib.Tactic.SplitIfs

/-!
# `unique_ptr`

The `unique_ptr`s of a program and the objects that they own, with the operations of the class.
A `unique_ptr` is a variable or a member of an object, and the destructor of an object destroys
its members, which delete what they own in turn.

`operator=` takes the pointer of its source before it deletes the object of its target, so
that `node = move(node->next)` is safe; but an assignment to itself deletes the object and keeps
the pointer.

## Main definitions

* `Heap`, `Heap.delete`: the `unique_ptr`s and objects; `delete`, with the destructors that it runs.
* `step`: an operation.
* `Op.Allowed`: the operations that a program can make, without ownership cycles.
* `Heap.Sound`: no object has two owners, is owned when it is deleted, or is deleted twice.
-/

namespace Cantos.UniquePtr

structure Heap where
  /-- The `unique_ptr`s that are constructed and not destroyed. -/
  live : Finset ℕ
  /-- `ref` -/
  ptr : ℕ → Option ℕ
  /-- The objects that `new` has made. -/
  objects : Finset ℕ
  /-- How often an object has been deleted. -/
  deleted : ℕ → ℕ

namespace Heap

/-- No `unique_ptr` and no object. -/
def empty : Heap := ⟨∅, fun _ => none, ∅, fun _ => 0⟩

/-- Read a `unique_ptr`; without a result where it has been destroyed. -/
def read (h : Heap) (l : ℕ) : Option (Option ℕ) := if l ∈ h.live then some (h.ptr l) else none

def set (h : Heap) (l : ℕ) (v : Option ℕ) : Heap := { h with ptr := Function.update h.ptr l v }

/-- Write to a `unique_ptr`; without a result where it has been destroyed. -/
def write (h : Heap) (l : ℕ) (v : Option ℕ) : Option Heap :=
  if l ∈ h.live then some (h.set l v) else none

def construct (h : Heap) (l : ℕ) (v : Option ℕ) : Heap :=
  { h with live := insert l h.live, ptr := Function.update h.ptr l v }

/-- The end of a `unique_ptr`. -/
def remove (h : Heap) (l : ℕ) : Heap := { h with live := h.live.erase l }

/-- The end of an object. -/
def free (h : Heap) (o : ℕ) : Heap :=
  { h with deleted := Function.update h.deleted o (h.deleted o + 1) }

/-- `new`, with the members that the constructor makes empty. -/
def make (h : Heap) (members : ℕ → List ℕ) (o : ℕ) : Heap :=
  { h with
    live := h.live ∪ (members o).toFinset
    ptr := fun l => if l ∈ members o then none else h.ptr l
    objects := insert o h.objects }

/-- `~unique_ptr`, with what `delete` does. -/
def destructor (delete : Heap → ℕ → Option Heap) (h : Heap) (l : ℕ) : Option Heap :=
  (h.read l).bind fun
    | none => some (h.remove l)
    | some o => (delete h o).map (·.remove l)

/-- `delete` of an object. Its destructor destroys the members, the last one first. -/
def delete (members : ℕ → List ℕ) : (fuel : ℕ) → Heap → ℕ → Option Heap
  | 0, _, _ => none
  | fuel + 1, h, o =>
      ((members o).reverse.foldlM (destructor (delete members fuel)) h).map (·.free o)

/-- `if(ref) delete ref`, with fuel for every object. -/
def deleteRef (members : ℕ → List ℕ) (h : Heap) : Option ℕ → Option Heap
  | none => some h
  | some o => h.delete members h.objects.card o

/-- The object exists. -/
def Has (h : Heap) (o : ℕ) : Prop := o ∈ h.objects ∧ h.deleted o = 0

instance (h : Heap) (o : ℕ) : Decidable (h.Has o) := inferInstanceAs (Decidable (_ ∧ _))

/-- The object exists, and no `unique_ptr` owns it. -/
def Unowned (h : Heap) (o : ℕ) : Prop := h.Has o ∧ ∀ l ∈ h.live, h.ptr l ≠ some o

instance (h : Heap) (o : ℕ) : Decidable (h.Unowned o) := inferInstanceAs (Decidable (_ ∧ _))

end Heap

/-- What a program does with its `unique_ptr`s. -/
inductive Op
  | new (o : ℕ)
  /-- `unique_ptr()` -/
  | construct (l : ℕ)
  /-- `unique_ptr(T *ref)` -/
  | own (l o : ℕ)
  | makeUnique (l o : ℕ)
  | moveConstruct (l r : ℕ)
  /-- `operator=(unique_ptr&& r)` -/
  | moveAssign (l r : ℕ)
  /-- `operator=(cpp::nullptr_t r)` -/
  | assignNull (l : ℕ)
  | release (l : ℕ)
  | reset (l : ℕ) (o : Option ℕ)
  | swap (l r : ℕ)
  /-- `~unique_ptr` of a variable -/
  | destroy (l : ℕ)
  deriving DecidableEq, Repr

section Program
variable (members : ℕ → List ℕ)

/-- An operation; without a result where it reads or writes a destroyed `unique_ptr`. -/
def step (h : Heap) : Op → Option Heap
  | .new o => some (h.make members o)
  | .construct l => some (h.construct l none)
  | .own l o => some (h.construct l (some o))
  | .makeUnique l o => some ((h.make members o).construct l (some o))
  | .moveConstruct l r => (h.read r).bind fun v => (h.construct l v).write r none
  | .moveAssign l r =>
      (h.read l).bind fun oldRef => (h.read r).bind fun v => (h.write r none).bind fun h =>
        (h.write l v).bind fun h => h.deleteRef members oldRef
  | .assignNull l => (h.read l).bind fun v => (h.deleteRef members v).bind fun h => h.write l none
  | .release l => h.write l none
  | .reset l o => (h.read l).bind fun v => (h.deleteRef members v).bind fun h => h.write l o
  | .swap l r =>
      (h.read r).bind fun otherRef => (h.read l).bind fun v => (h.write r v).bind fun h =>
        h.write l otherRef
  | .destroy l => h.destructor (fun h o => h.delete members h.objects.card o) l

/-- A variable: no member of an object. -/
def Heap.Free (h : Heap) (l : ℕ) : Prop := ∀ y ∈ h.objects, h.deleted y = 0 → l ∉ members y

/-- A new object, whose members are at places of their own. -/
def Heap.Fresh (h : Heap) (o : ℕ) : Prop :=
  o ∉ h.objects ∧ (members o).Nodup ∧ ∀ m ∈ members o, m ∉ h.live

/-- No object owns itself through the objects that it owns. -/
def Heap.Ranked (h : Heap) (rank : ℕ → ℕ) : Prop :=
  ∀ o ∈ h.objects, h.deleted o = 0 → ∀ m ∈ members o, ∀ o' ∈ h.ptr m, rank o' < rank o

def Heap.Acyclic (h : Heap) : Prop := ∃ rank, h.Ranked members rank

/-- The operations that a program can make: it uses what is constructed and not destroyed,
gives a pointer only to one `unique_ptr`, and destroys no member of an object. -/
def Op.Valid (h : Heap) : Op → Prop
  | .new o => h.Fresh members o
  | .construct l => l ∉ h.live
  | .own l o => l ∉ h.live ∧ h.Unowned o
  | .makeUnique l o => l ∉ h.live ∧ l ∉ members o ∧ h.Fresh members o
  | .moveConstruct l r => l ∉ h.live ∧ r ∈ h.live
  | .moveAssign l r | .swap l r => l ∈ h.live ∧ r ∈ h.live
  | .assignNull l | .release l => l ∈ h.live
  | .reset l o => l ∈ h.live ∧ ∀ x ∈ o, h.Unowned x
  | .destroy l => l ∈ h.live ∧ h.Free members l

/-- What a program can do, without ownership cycles. -/
def Op.Allowed (h : Heap) (op : Op) : Prop := h.Acyclic members ∧ op.Valid members h

instance (h : Heap) (l : ℕ) : Decidable (h.Free members l) :=
  inferInstanceAs (Decidable (∀ _ ∈ _, _ → _))

instance (h : Heap) (o : ℕ) : Decidable (h.Fresh members o) :=
  inferInstanceAs (Decidable (_ ∧ _ ∧ _))

instance (h : Heap) (rank : ℕ → ℕ) : Decidable (h.Ranked members rank) :=
  inferInstanceAs (Decidable (∀ _ ∈ _, _ → ∀ _ ∈ _, ∀ _ ∈ _, _))

instance (h : Heap) : (op : Op) → Decidable (op.Valid members h)
  | .new o => inferInstanceAs (Decidable (h.Fresh members o))
  | .construct _ => inferInstanceAs (Decidable (_ ∉ _))
  | .own _ _ | .moveConstruct _ _ | .moveAssign _ _ | .swap _ _ | .destroy _ =>
      inferInstanceAs (Decidable (_ ∧ _))
  | .makeUnique _ _ => inferInstanceAs (Decidable (_ ∧ _ ∧ _))
  | .reset _ _ => inferInstanceAs (Decidable (_ ∧ ∀ _ ∈ _, _))
  | .assignNull _ | .release _ => inferInstanceAs (Decidable (_ ∈ _))

end Program

/-- A `unique_ptr` with an object is moved to itself. -/
def Op.MovesToSelf (h : Heap) : Op → Prop
  | .moveAssign l r => l = r ∧ h.ptr l ≠ none
  | _ => False

instance (h : Heap) : (op : Op) → Decidable (op.MovesToSelf h)
  | .moveAssign _ _ => inferInstanceAs (Decidable (_ ∧ _))
  | .new _ | .construct _ | .own _ _ | .makeUnique _ _ | .moveConstruct _ _ | .assignNull _
  | .release _ | .reset _ _ | .swap _ _ | .destroy _ => isFalse id

/-- No object has two owners, is owned after it has been deleted, or is deleted twice. -/
structure Heap.Sound (h : Heap) : Prop where
  exists_of_owned : ∀ l ∈ h.live, ∀ o ∈ h.ptr l, h.Has o
  unique : ∀ l ∈ h.live, ∀ l' ∈ h.live, ∀ o, h.ptr l = some o → h.ptr l' = some o → l = l'
  deleted_le : ∀ o, h.deleted o ≤ 1

end Cantos.UniquePtr
