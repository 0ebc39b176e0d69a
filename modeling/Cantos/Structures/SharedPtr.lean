import Cantos.Lib.Steps
import Mathlib.Data.Finset.Card

/-!
# `shared_ptr`

The `shared_ptr`s of a program and the objects that they own, with the operations of the class.
A `shared_ptr` is a variable or a member of an object.  Its fields `ref` and `data` are always
written together, and a control block is made with its object: the two have one name here.

A pointer to an object has eight bytes, so that `uses` cannot wrap.

## Main definitions

* `Heap`: the `shared_ptr`s, the objects and their control blocks.
* `Heap.decrementUsage`: `decrement_usage`, with the destructors that it runs.
* `step`: an operation.
* `Op.Valid`: the operations that a program can make.
-/

namespace Cantos.SharedPtr

structure Heap where
  /-- The `shared_ptr`s that are constructed and not destroyed. -/
  live : Finset ℕ
  /-- `ref` and `data` of a `shared_ptr`. -/
  ptr : ℕ → Option ℕ
  /-- `data->uses` -/
  uses : ℕ → ℕ
  /-- The objects that a `shared_ptr` has been made for. -/
  managed : Finset ℕ
  /-- How often an object has been deleted. -/
  deleted : ℕ → ℕ

namespace Heap

/-- No `shared_ptr` and no object. -/
def empty : Heap := ⟨∅, fun _ => none, fun _ => 0, ∅, fun _ => 0⟩

/-- Read a `shared_ptr`; without a result where it has been destroyed. -/
def read (h : Heap) (l : ℕ) : Option (Option ℕ) := if l ∈ h.live then some (h.ptr l) else none

def set (h : Heap) (l : ℕ) (v : Option ℕ) : Heap := { h with ptr := Function.update h.ptr l v }

/-- Write to a `shared_ptr`; without a result where it has been destroyed. -/
def write (h : Heap) (l : ℕ) (v : Option ℕ) : Option Heap :=
  if l ∈ h.live then some (h.set l v) else none

def setUses (h : Heap) (o n : ℕ) : Heap := { h with uses := Function.update h.uses o n }

/-- `if(ref) data->uses ++` -/
def acquire (h : Heap) : Option ℕ → Heap
  | none => h
  | some o => h.setUses o (h.uses o + 1)

def construct (h : Heap) (l : ℕ) (v : Option ℕ) : Heap :=
  { h with live := insert l h.live, ptr := Function.update h.ptr l v }

/-- The end of a `shared_ptr`. -/
def remove (h : Heap) (l : ℕ) : Heap := { h with live := h.live.erase l }

/-- `new Data()` for an object. -/
def manage (h : Heap) (o : ℕ) : Heap :=
  { h with managed := insert o h.managed, uses := Function.update h.uses o 1 }

def delete (h : Heap) (o : ℕ) : Heap :=
  { h with deleted := Function.update h.deleted o (h.deleted o + 1) }

section Fields
variable {h : Heap} {l p o o' n : ℕ} {v : Option ℕ}

@[simp] theorem set_ptr_self : (h.set l v).ptr l = v := Function.update_self ..

theorem set_ptr_of_ne (hp : p ≠ l) : (h.set l v).ptr p = h.ptr p := Function.update_of_ne hp ..

@[simp] theorem construct_ptr_self : (h.construct l v).ptr l = v := Function.update_self ..

theorem construct_ptr_of_ne (hp : p ≠ l) : (h.construct l v).ptr p = h.ptr p :=
  Function.update_of_ne hp ..

@[simp] theorem setUses_uses_self : (h.setUses o n).uses o = n := Function.update_self ..

theorem setUses_uses_of_ne (ho : o' ≠ o) : (h.setUses o n).uses o' = h.uses o' :=
  Function.update_of_ne ho ..

@[simp] theorem manage_uses_self : (h.manage o).uses o = 1 := Function.update_self ..

theorem manage_uses_of_ne (ho : o' ≠ o) : (h.manage o).uses o' = h.uses o' :=
  Function.update_of_ne ho ..

@[simp] theorem delete_deleted_self : (h.delete o).deleted o = h.deleted o + 1 :=
  Function.update_self ..

theorem delete_deleted_of_ne (ho : o' ≠ o) : (h.delete o).deleted o' = h.deleted o' :=
  Function.update_of_ne ho ..

end Fields

/-- `decrement_usage`. The destructor of an object destroys its members, the last one first. -/
def decrementUsage (members : ℕ → List ℕ) : (fuel : ℕ) → Heap → ℕ → Option Heap
  | 0, _, _ => none
  | fuel + 1, h, l =>
      (h.read l).bind fun
        | none => some h
        | some o =>
            let h := h.setUses o (h.uses o - 1)
            if h.uses o = 0 then
              ((members o).reverse.foldlM
                (fun h m => (decrementUsage members fuel h m).map (·.remove m)) h).map (·.delete o)
            else some h

/-- `decrement_usage` with fuel for every object. -/
def drop (members : ℕ → List ℕ) (h : Heap) (l : ℕ) : Option Heap :=
  h.decrementUsage members (h.managed.card + 1) l

/-- The object exists. -/
def Has (h : Heap) (o : ℕ) : Prop := o ∈ h.managed ∧ h.deleted o = 0

instance (h : Heap) (o : ℕ) : Decidable (h.Has o) := inferInstanceAs (Decidable (_ ∧ _))

end Heap

/-- What a program does with its `shared_ptr`s. -/
inductive Op
  /-- `shared_ptr()` -/
  | construct (l : ℕ)
  /-- `shared_ptr(T *ref)`, and `make_shared` -/
  | own (l o : ℕ)
  | copyConstruct (l r : ℕ)
  | moveConstruct (l r : ℕ)
  /-- `operator=(shared_ptr& r)` -/
  | copyAssign (l r : ℕ)
  /-- `operator=(shared_ptr&& r)` -/
  | moveAssign (l r : ℕ)
  /-- `operator=(cpp::nullptr_t r)` -/
  | assignNull (l : ℕ)
  | reset (l o : ℕ)
  | swap (l r : ℕ)
  /-- `~shared_ptr` of a variable -/
  | destroy (l : ℕ)
  deriving DecidableEq, Repr

section Program
variable (members : ℕ → List ℕ)

/-- An operation; without a result where it reads or writes a destroyed `shared_ptr`. -/
def step (h : Heap) : Op → Option Heap
  | .construct l => some (h.construct l none)
  | .own l o => some ((h.manage o).construct l (some o))
  | .copyConstruct l r => (h.read r).map fun v => (h.acquire v).construct l v
  | .moveConstruct l r => (h.read r).bind fun v => (h.construct l v).write r none
  | .copyAssign l r =>
      (h.read r).bind fun v => ((h.acquire v).drop members l).bind fun h =>
        (h.read r).bind fun v => h.write l v
  | .moveAssign l r =>
      (h.drop members l).bind fun h => (h.read r).bind fun v =>
        (h.write l v).bind fun h => h.write r none
  | .assignNull l => (h.drop members l).bind fun h => h.write l none
  | .reset l o => (h.drop members l).bind fun h => (h.manage o).write l (some o)
  | .swap l r =>
      (h.read r).bind fun v' => (h.read l).bind fun v =>
        (h.write r v).bind fun h => h.write l v'
  | .destroy l => (h.drop members l).map fun h => h.remove l

/-- A variable: no member of an object. -/
def Heap.Free (h : Heap) (l : ℕ) : Prop := ∀ y ∈ h.managed, h.deleted y = 0 → l ∉ members y

/-- A new object, whose members have been constructed. -/
def Heap.Fresh (h : Heap) (o : ℕ) : Prop :=
  o ∉ h.managed ∧ (members o).Nodup ∧ ∀ m ∈ members o, m ∈ h.live ∧ h.Free members m

/-- No object owns itself through the objects that it owns. -/
def Heap.Ranked (h : Heap) (rank : ℕ → ℕ) : Prop :=
  ∀ o ∈ h.managed, h.deleted o = 0 → ∀ m ∈ members o, ∀ o' ∈ h.ptr m, rank o' < rank o

def Heap.Acyclic (h : Heap) : Prop := ∃ rank, h.Ranked members rank

/-- The operations that a program can make: it uses what is constructed and not destroyed,
and destroys no member of an object. -/
def Op.Valid (h : Heap) : Op → Prop
  | .construct l => l ∉ h.live
  | .own l o => l ∉ h.live ∧ h.Fresh members o
  | .copyConstruct l r | .moveConstruct l r => l ∉ h.live ∧ r ∈ h.live
  | .copyAssign l r | .moveAssign l r | .swap l r => l ∈ h.live ∧ r ∈ h.live
  | .assignNull l => l ∈ h.live
  | .reset l o => l ∈ h.live ∧ h.Fresh members o
  | .destroy l => l ∈ h.live ∧ h.Free members l

instance (h : Heap) (l : ℕ) : Decidable (h.Free members l) :=
  inferInstanceAs (Decidable (∀ _ ∈ _, _ → _))

instance (h : Heap) (o : ℕ) : Decidable (h.Fresh members o) :=
  inferInstanceAs (Decidable (_ ∧ _ ∧ _))

instance (h : Heap) (rank : ℕ → ℕ) : Decidable (h.Ranked members rank) :=
  inferInstanceAs (Decidable (∀ _ ∈ _, _ → ∀ _ ∈ _, ∀ _ ∈ _, _))

instance (h : Heap) : (op : Op) → Decidable (op.Valid members h)
  | .construct _ => inferInstanceAs (Decidable (_ ∉ _))
  | .own _ _ | .copyConstruct _ _ | .moveConstruct _ _ | .copyAssign _ _ | .moveAssign _ _
  | .swap _ _ | .reset _ _ | .destroy _ => inferInstanceAs (Decidable (_ ∧ _))
  | .assignNull _ => inferInstanceAs (Decidable (_ ∈ _))

/-- An object is owned, through the objects that hold the pointers to it, by a variable, and
not only through the `shared_ptr` `l`. -/
inductive Heap.Kept (h : Heap) (l : ℕ) : ℕ → Prop
  | root {p o : ℕ} (hp : p ∈ h.live) (hne : p ≠ l) (ho : h.ptr p = some o)
      (hfree : h.Free members p) : Kept h l o
  | member {p o y : ℕ} (hp : p ∈ h.live) (hne : p ≠ l) (ho : h.ptr p = some o) (hy : h.Has y)
      (hmem : p ∈ members y) (hkept : Kept h l y) : Kept h l o

/-- The target and the source of an assignment. -/
def Op.assignment : Op → Option (ℕ × ℕ)
  | .copyAssign l r | .moveAssign l r => some (l, r)
  | _ => none

/-- The source of an assignment is not stored in an object that only the target owns. -/
def Op.KeepsSource (h : Heap) (op : Op) : Prop :=
  ∀ l r, op.assignment = some (l, r) → r = l ∨ ∀ y, h.Has y → r ∈ members y → h.Kept members l y

/-- What a program can do, without ownership cycles. -/
def Op.Allowed (h : Heap) (op : Op) : Prop := h.Acyclic members ∧ op.Valid members h

end Program

/-- `uses` is the number of the `shared_ptr`s with an object, and an object is deleted once,
when it has no `shared_ptr` any more. -/
structure Heap.Exact (h : Heap) : Prop where
  uses : ∀ o, h.uses o = (h.live.filter fun p => h.ptr p = some o).card
  deleted : ∀ o ∈ h.managed, h.deleted o = if ∃ p ∈ h.live, h.ptr p = some o then 0 else 1

/-- After each operation of a program the counts are exact, and no operation uses a destroyed
`shared_ptr`. -/
def CountsExactly (members : ℕ → List ℕ) (ops : List Op) : Prop :=
  ∀ ops', ops' <+: ops → ∃ h, Steps.run (step members) Heap.empty ops' = some h ∧ h.Exact

end Cantos.SharedPtr
