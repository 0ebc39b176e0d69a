import Cantos.Mem.Object
import Mathlib.Data.Nat.Bitwise
import Mathlib.Logic.Function.Basic

/-!
# Maps of user memory

A `Map` has page tables for the addresses of user memory, and windows on objects.  The pages
that have been generated for an object are entered into the tables of every window on it:
when the window is made, and when they are generated, which a page fault in the window does.

Pages of user memory are named by their numbers, and an entry of a table that is not there
is `0`.

## Main definitions

* `Map.insert`, `Map.clear`: the loops over the page table entries.
* `Vm`: maps and objects, by their numbers.
* `Vm.generate`, `Vm.resolveFault`, `Vm.addObject`
-/

namespace Cantos

/-- `ObjectInMap`: a window of a map on an object. -/
structure ObjectInMap where
  object : ℕ
  map : ℕ
  base : ℕ
  offset : ℤ
  pages : ℕ
  deriving DecidableEq

namespace ObjectInMap

/-- `oim->base + oim->pages * PAGE_SIZE` -/
def finish (oim : ObjectInMap) : ℕ := add32 oim.base (mul32 oim.pages pageSize)

/-- `oim->base + addr - oim->offset`: where the page at `addr` in the object is entered. -/
def place (oim : ObjectInMap) (addr : ℕ) : ℤ := (add32 oim.base addr : ℤ) - oim.offset

/-- `addr - oim->base + oim->offset - excess`, as a `uint32_t`: the page in the object that
a fault at `addr` asks for. -/
def objectAddr (oim : ObjectInMap) (addr : ℕ) : ℕ :=
  (((addr : ℤ) - oim.base + oim.offset - addr % pageSize) % 2 ^ 32).toNat

end ObjectInMap

/-! ## Page tables -/

/-- The number of entries of a page table. -/
def pageTableLength : ℕ := 1024

/-- `vm::Map` -/
structure Map where
  /-- Which page tables there are. -/
  tables : ℕ → Bool
  entries : ℕ → ℕ
  /-- `objects_in_maps` -/
  windows : List ObjectInMap

namespace Map

/-- The entry of a page. -/
def entry (m : Map) (v : ℕ) : ℕ := if m.tables (v / pageTableLength) then m.entries v else 0

/-- `_new_table`, for the table of page `v`. -/
def newTable (m : Map) (v : ℕ) : Map :=
  if m.tables (v / pageTableLength) then m
  else { m with
    tables := Function.update m.tables (v / pageTableLength) true
    entries := fun w => if w / pageTableLength = v / pageTableLength then 0 else m.entries w }

/-- Write the entry of page `v`, in a table that is made when it is not there. -/
def write (v e : ℕ) (m : Map) : Map :=
  let m := m.newTable v
  { m with entries := Function.update m.entries v e }

/-- The loop of `Map::insert` over the last `k` frames of a run, the next one being frame
`i`: the map, and the address behind the run if the loop has not returned. -/
def insertRun (memBase flags min max : ℕ) : (k i addr : ℕ) → Map → Map × Option ℕ
  | 0, _, addr, m => (m, some addr)
  | k + 1, i, addr, m =>
      let m := if addr ≥ min then m.write (addr / pageSize) (tableEntry memBase i flags) else m
      if addr + pageSize ≥ max then (m, none)
      else insertRun memBase flags min max k (i + 1) (addr + pageSize) m

/-- `Map::insert` -/
def insert (flags min max : ℕ) : (page : List Page) → (addr : ℤ) → Map → Map
  | [], _, m => m
  | page :: next, addr, m =>
      if addr ≥ max ∨ addr < 0 then m
      else
        match insertRun page.memBase flags min max page.consecutive 0 addr.toNat m with
        | (m, none) => m
        | (m, some addr) => insert flags min max next addr m

end Map

/-! ## Objects and their windows -/

/-- An object with the windows on it. -/
structure SharedObject where
  object : Object
  pageFlags : ℕ
  /-- `objects_in_maps` -/
  windows : List ObjectInMap

/-- The maps and the objects. -/
structure Vm where
  maps : ℕ → Map
  objects : ℕ → SharedObject

namespace Vm

/-- The loop of `generate` over the windows on the object. -/
def enterAll (page : List Page) (flags addr : ℕ) : List ObjectInMap → (ℕ → Map) → ℕ → Map
  | [], maps => maps
  | oim :: rest, maps =>
      enterAll page flags addr rest (Function.update maps oim.map
        ((maps oim.map).insert flags oim.base oim.finish page (oim.place addr)))

/-- `Object::generate`; `page` is what `do_generate` returns. -/
def generate (vm : Vm) (o addr count : ℕ) (page : List Page) : Vm :=
  let shared := vm.objects o
  if shared.object.room addr count = 0 then vm
  else
    { maps := enterAll page shared.pageFlags addr shared.windows vm.maps
      objects := Function.update vm.objects o { shared with
        object := { shared.object with pages := Object.link ⟨addr, page⟩ shared.object.pages } } }

/-- The first window of a map that an address is in. -/
def window (vm : Vm) (m addr : ℕ) : Option ObjectInMap :=
  (vm.maps m).windows.find? fun oim => oim.base ≤ addr ∧ addr < oim.finish

/-- `Map::resolve_fault` -/
def resolveFault (vm : Vm) (m addr : ℕ) (page : List Page) : Vm × Bool :=
  match vm.window m addr with
  | some oim => (vm.generate oim.object (oim.objectAddr addr) 1 page, true)
  | none => (vm, false)

/-- The loop of `add_object_in_map` over the pages of the object. -/
def enterPages (oim : ObjectInMap) (flags : ℕ) : List PageEntry → Map → Map
  | [], m => m
  | entry :: next, m =>
      enterPages oim flags next
        (m.insert flags oim.base oim.finish entry.page (oim.place entry.offset))

/-- `Map::add_object` -/
def addObject (vm : Vm) (oim : ObjectInMap) : Vm :=
  let shared := vm.objects oim.object
  let m := enterPages oim shared.pageFlags shared.object.pages (vm.maps oim.map)
  { maps := Function.update vm.maps oim.map { m with windows := oim :: m.windows }
    objects := Function.update vm.objects oim.object
      { shared with windows := oim :: shared.windows } }

end Vm

end Cantos
