import Cantos.Mem.Free

/-!
# Memory objects

An object owns the pages that have been generated for it, sorted by their offsets.  The
pages of an `EmptyObject` come from `page::alloc`, those of an object over a
`PhysicalMemStorage` are made with `page::create` for frames that nobody has allocated.

## Main definitions

* `Source.doGenerate`: `do_generate` of the kinds of objects.
* `Object.room`: the number of pages `generate` makes.
* `Object.generate`, `Object.destroy`
-/

namespace Cantos

/-- What the pages of an object are made by. -/
inductive Source
  /-- `EmptyObject` -/
  | empty
  /-- `PhysicalMemStorage::read`, for a storage at `base`. -/
  | physical (base : ℕ) (flags : Flags)
  deriving DecidableEq

/-- `PageEntry`: a chain at an offset in the object. -/
structure PageEntry where
  offset : ℕ
  page : List Page
  deriving DecidableEq

/-- `Object` -/
structure Object where
  source : Source
  maxPages : ℕ
  pages : List PageEntry
  deriving DecidableEq

/-- `do_generate` -/
def Source.doGenerate (depth : ℕ) : Source → (addr count : ℕ) → M (List Page)
  | .empty, _, count => Page.alloc depth 0 count
  | .physical base flags, addr, count => Page.create depth (add32 base addr) flags count

namespace Object

/-- The number of pages `generate` makes for `count` pages at `addr`: none past the end of
the object, and none over the next entry. -/
def room (o : Object) (addr count : ℕ) : ℕ :=
  let index := addr / pageSize
  if add32 index count > o.maxPages ∧ index > o.maxPages then 0
  else
    let count := if add32 index count > o.maxPages then o.maxPages - index else count
    match o.pages.find? (fun next => ¬ next.offset < addr) with
    | some next =>
        if add32 addr (mul32 count pageSize) ≥ next.offset then
          (next.offset - addr) / pageSize
        else count
    | none => count

/-- Link an entry in front of the first one with an offset that is not smaller. -/
def link (entry : PageEntry) (pages : List PageEntry) : List PageEntry :=
  pages.takeWhile (fun next => next.offset < entry.offset) ++
    entry :: pages.dropWhile (fun next => next.offset < entry.offset)

/-- `Object::generate`, but for the page tables. -/
def generate (depth : ℕ) (o : Object) (addr count : ℕ) : M Object :=
  if o.room addr count = 0 then pure o
  else do
    let page ← o.source.doGenerate depth addr (o.room addr count)
    pure { o with pages := link ⟨addr, page⟩ o.pages }

/-- The loop of `Object::~Object`. -/
def destroy (depth : ℕ) : (pages : List PageEntry) → M Unit
  | [] => pure ()
  | entry :: next => do
      Page.free depth entry.page
      destroy depth next

end Object

end Cantos
