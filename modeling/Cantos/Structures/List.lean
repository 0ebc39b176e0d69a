import Cantos.Lib.Exec
import Cantos.Lib.Linked

/-!
# `list<T>`

A singly linked list whose entries own their successors through `unique_ptr`, with a
pointer to the last entry and a count beside the pointer to the first.

Memory is the list of the entries alive, each with its address; what else is alive are
entries of other lists.  A pointer to an entry is its address, and `0` is the null
pointer.  Moving out of a `unique_ptr` leaves the null pointer behind, and assigning to
one deletes what it owned.  A walk of more steps than there are entries alive has come
back to an entry it has seen, and goes on for ever.

## Main definitions

* `ListEntry`, `ListState`: the entries, and the list object.
* `ListState.setNext`, `ListState.setHead`, `ListState.moveNext`, `ListState.moveHead`: the
  `unique_ptr`s of a list.
* `ListOp`, `ListOp.exec`: the operations.
-/

namespace Cantos

open Linked

/-- Why an operation on a list does not return. -/
inductive ListStuck
  /-- `panic` was called with this text. -/
  | panic (msg : String)
  /-- The null pointer, or the address of an entry that was deleted, is dereferenced. -/
  | badDeref
  | diverge
  deriving DecidableEq, Repr

/-- `list<T>::Entry`, at the address `ptr`. -/
structure ListEntry (T : Type) where
  ptr : ℕ
  next : ℕ
  object : T
  deriving DecidableEq, Repr

/-- The entries alive, and the members of the list. -/
structure ListState (T : Type) where
  heap : List (ListEntry T)
  head : ℕ
  tail : ℕ
  count : ℕ
  deriving DecidableEq, Repr

/-- `new`: the address for one more entry. -/
structure Allocator (T : Type) where
  new : List (ListEntry T) → ℕ
  fresh : ∀ heap, new heap ∉ heap.map ListEntry.ptr
  pos : ∀ heap, new heap ≠ 0

/-- The allocator that takes the address behind all entries. -/
def Allocator.bump {T : Type} : Allocator T where
  new heap := (heap.map ListEntry.ptr).foldr max 0 + 1
  fresh heap hmem := by
    have hle : ∀ l : List ℕ, ∀ p ∈ l, p ≤ l.foldr max 0 := by
      intro l
      induction l with
      | nil => simp
      | cons q l ih =>
        intro p hp
        rcases List.mem_cons.mp hp with rfl | hp
        · exact Nat.le_max_left _ _
        · exact Nat.le_trans (ih p hp) (Nat.le_max_right _ _)
    have := hle _ _ hmem
    omega
  pos heap := Nat.succ_ne_zero _

namespace ListState
variable {T : Type}

/-- The program of an operation. -/
abbrev M (T : Type) := Exec ListStuck (ListState T)

/-! ## Entries and their owners -/

/-- `*p` -/
def entry (p : ℕ) : M T (ListEntry T) := do
  let s ← Exec.get
  match s.heap.find? (·.ptr = p) with
  | some e => pure e
  | none => Exec.stop .badDeref

/-- `make_unique<Entry>(value)` -/
def makeUnique (alloc : Allocator T) (value : T) : M T ℕ := do
  let s ← Exec.get
  let p := alloc.new s.heap
  Exec.set { s with heap := ⟨p, 0, value⟩ :: s.heap }
  pure p

/-- `delete p`, with the entries it owns; `k` bounds their number. -/
def deleteFrom : (k : ℕ) → (p : ℕ) → M T Unit
  | 0, _ => Exec.stop .diverge
  | k + 1, p => do
      let e ← entry p
      if e.next = 0 then pure () else deleteFrom k e.next
      Exec.modify fun s => { s with heap := unlink ListEntry.ptr p s.heap }

/-- What assigning to a `unique_ptr` does to the entry it owned. -/
def deleteOld (oldRef : ℕ) : M T Unit := do
  let s ← Exec.get
  if oldRef = 0 then pure () else deleteFrom s.heap.length oldRef

/-- `head = r` -/
def setHead (r : ℕ) : M T Unit := do
  let s ← Exec.get
  Exec.set { s with head := r }
  deleteOld s.head

/-- `p->next = r` -/
def setNext (p r : ℕ) : M T Unit := do
  let e ← entry p
  Exec.modify fun s => { s with heap := updateAt ListEntry.ptr p ({ · with next := r }) s.heap }
  deleteOld e.next

/-- `move(head)` -/
def moveHead : M T ℕ := do
  let s ← Exec.get
  Exec.set { s with head := 0 }
  pure s.head

/-- `move(p->next)` -/
def moveNext (p : ℕ) : M T ℕ := do
  let e ← entry p
  Exec.modify fun s => { s with heap := updateAt ListEntry.ptr p ({ · with next := 0 }) s.heap }
  pure e.next

def setTail (p : ℕ) : M T Unit := Exec.modify fun s => { s with tail := p }

/-- `count ++` -/
def countUp : M T Unit := Exec.modify fun s => { s with count := s.count + 1 }

/-- `count --` -/
def countDown : M T Unit := Exec.modify fun s => { s with count := s.count - 1 }

/-! ## Operations -/

/-- The body of `push_front` and `emplace_front`. -/
def linkFront (alloc : Allocator T) (value : T) : M T Unit := do
  let append ← makeUnique alloc value
  let s ← Exec.get
  if s.head ≠ 0 then do
    let old ← moveHead
    setNext append old
    setHead append
  else do
    setHead append
    setTail append
  countUp

/-- The body of `push_back` and `emplace_back`. -/
def linkBack (alloc : Allocator T) (value : T) : M T Unit := do
  let append ← makeUnique alloc value
  let s ← Exec.get
  if s.head ≠ 0 then do
    setNext s.tail append
    let e ← entry s.tail
    setTail e.next
  else do
    setHead append
    setTail append
  countUp

/-- `push_front`, of a reference and of a temporary alike. -/
def pushFront (alloc : Allocator T) (value : T) : M T Unit := linkFront alloc value

/-- `emplace_front`, with the object built from its arguments. -/
def emplaceFront (alloc : Allocator T) (object : T) : M T Unit := linkFront alloc object

/-- `push_back`, of a reference and of a temporary alike. -/
def pushBack (alloc : Allocator T) (value : T) : M T Unit := linkBack alloc value

/-- `emplace_back`, with the object built from its arguments. -/
def emplaceBack (alloc : Allocator T) (object : T) : M T Unit := linkBack alloc object

/-- `list(count)`, on a new list. -/
def construct [Inhabited T] (alloc : Allocator T) : (count : ℕ) → M T Unit
  | 0 => pure ()
  | count + 1 => do
      emplaceFront alloc default
      construct alloc count

/-- `pop_front` -/
def popFront : M T Unit := do
  let s ← Exec.get
  if s.head = 0 then Exec.stop (.panic "Tried to pop_front an empty list")
  else do
    let oldHead ← moveHead
    let next ← moveNext oldHead
    setHead next
    if next = 0 then setTail 0 else pure ()
    countDown
    -- `old_head` goes out of scope.
    deleteOld oldHead

/-- The loop of `pop_back`, from the entry `e` on. -/
def beforeTail (tail : ℕ) : (k : ℕ) → (e : ℕ) → M T ℕ
  | 0, _ => Exec.stop .diverge
  | k + 1, e => do
      let now ← entry e
      if now.next = tail then pure e else beforeTail tail k now.next

/-- `pop_back` -/
def popBack : M T Unit := do
  let s ← Exec.get
  if s.head = 0 then Exec.stop (.panic "Tried to pop_back an empty list")
  else if s.head = s.tail then do
    setHead 0
    setTail 0
    countDown
  else do
    let e ← beforeTail s.tail s.heap.length s.head
    setTail e
    setNext e 0
    countDown

/-- What `remove` and `erase` do with the entry `now` behind `prev`, which owns it, or
which `head` owns: its owner takes over what `now` owned, and so deletes it. -/
def cut (prev now : ℕ) : M T ℕ := do
  let next ← moveNext now
  if prev ≠ 0 then setNext prev next else setHead next
  countDown
  pure next

/-- The loop of `remove`, which goes on from `now` behind `prev`; it ends with the last
`prev`. -/
def removeFrom [BEq T] (value : T) : (k : ℕ) → (prev now : ℕ) → M T ℕ
  | 0, _, _ => Exec.stop .diverge
  | k + 1, prev, now => do
      if now = 0 then pure prev
      else do
        let e ← entry now
        if e.object == value then do
          let next ← cut prev now
          removeFrom value k prev next
        else removeFrom value k now e.next

/-- `remove` -/
def remove [BEq T] (value : T) : M T Unit := do
  let s ← Exec.get
  if s.head = 0 then pure ()
  else do
    let prev ← removeFrom value (s.heap.length + 1) 0 s.head
    setTail prev

/-- The loop of `erase`, which looks for `target` from `now` behind `prev` on. -/
def eraseFrom (target : ℕ) : (k : ℕ) → (prev now : ℕ) → M T Unit
  | 0, _, _ => Exec.stop .diverge
  | k + 1, prev, now => do
      if now = 0 then Exec.stop (.panic "Tried to erase an iterator that isn't in the list")
      else do
        let e ← entry now
        if now = target then do
          if e.next = 0 then setTail prev else pure ()
          let _ ← cut prev now
          pure ()
        else eraseFrom target k now e.next

/-- `erase`, of the iterator at `it`; the result is the iterator behind it. -/
def erase (it : ℕ) : M T ℕ := do
  let e ← entry it
  let s ← Exec.get
  eraseFrom it (s.heap.length + 1) 0 s.head
  pure e.next

/-- `clear` -/
def clear : M T Unit := do
  setHead 0
  Exec.modify fun s => { s with tail := 0, count := 0 }

/-- `front`; `head` is a `unique_ptr`, whose `->` checks for the null pointer. -/
def front : M T T := do
  let s ← Exec.get
  if s.head = 0 then Exec.stop (.panic "Tried to dereference a null unique_ptr")
  else do
    let e ← entry s.head
    pure e.object

/-- `back`; `tail` is a plain pointer. -/
def back : M T T := do
  let s ← Exec.get
  let e ← entry s.tail
  pure e.object

/-- `empty` -/
def empty : M T Bool := do
  let s ← Exec.get
  if s.head = 0 ∧ s.tail ≠ 0 then Exec.stop (.panic "List is in an inconsistent state")
  else pure (s.head = 0)

/-- `size` -/
def size : M T ℕ := do
  let s ← Exec.get
  pure s.count

/-- The objects an iterator at `entry` passes up to `end()`. -/
def iterateFrom : (k : ℕ) → (it : ℕ) → M T (List T)
  | 0, _ => Exec.stop .diverge
  | k + 1, it => do
      if it = 0 then pure []
      else do
        let e ← entry it
        let objects ← iterateFrom k e.next
        pure (e.object :: objects)

/-- A loop from `begin()` to `end()`. -/
def iterate : M T (List T) := do
  let s ← Exec.get
  iterateFrom (s.heap.length + 1) s.head

end ListState

/-! ## Sequences of operations -/

/-- The operations on a list. -/
inductive ListOp (T : Type)
  | pushFront (value : T)
  | pushBack (value : T)
  | emplaceFront (object : T)
  | emplaceBack (object : T)
  | popFront
  | popBack
  | remove (value : T)
  | erase (it : ℕ)
  | clear
  | front
  | back
  | empty
  | size
  | iterate

/-- What an operation returns. -/
inductive ListReply (T : Type)
  | void
  | object (x : T)
  | flag (b : Bool)
  | number (n : ℕ)
  | iterator (it : ℕ)
  | objects (xs : List T)
  deriving DecidableEq, Repr

open ListState in
/-- Run an operation. -/
def ListOp.exec {T : Type} [BEq T] (alloc : Allocator T) : ListOp T →
    ListState.M T (ListReply T)
  | .pushFront value => do ListState.pushFront alloc value; pure .void
  | .pushBack value => do ListState.pushBack alloc value; pure .void
  | .emplaceFront object => do ListState.emplaceFront alloc object; pure .void
  | .emplaceBack object => do ListState.emplaceBack alloc object; pure .void
  | .popFront => do ListState.popFront; pure .void
  | .popBack => do ListState.popBack; pure .void
  | .remove value => do ListState.remove value; pure .void
  | .erase it => do pure (.iterator (← ListState.erase it))
  | .clear => do ListState.clear; pure .void
  | .front => do pure (.object (← ListState.front))
  | .back => do pure (.object (← ListState.back))
  | .empty => do pure (.flag (← ListState.empty))
  | .size => do pure (.number (← ListState.size))
  | .iterate => do pure (.objects (← ListState.iterate))

/-- Run operations one after the other. -/
def ListOp.execAll {T : Type} [BEq T] (alloc : Allocator T) :
    List (ListOp T) → ListState.M T (List (ListReply T))
  | [] => pure []
  | op :: ops => do
      let reply ← op.exec alloc
      let replies ← execAll alloc ops
      pure (reply :: replies)

end Cantos
