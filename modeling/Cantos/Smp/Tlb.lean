import Cantos.Lib.Caches
import Cantos.Lib.Steps
import Cantos.Mem.Writes
import Cantos.Vm.Map
import Mathlib.Data.Fin.Basic
import Mathlib.Data.List.FinRange

/-!
# Translations that the CPUs have cached

Every CPU has a TLB, which may take over the entry of a page at any time when the entry is
present in the page tables that the CPU has loaded.  The page tables of the kernel are part
of those of every map.

A critical section of `kmem::mutex` is the bookkeeping, and then its writes to the page tables
and its `invlpg` one after the other, with anything that the other CPUs do between them.  Of
`Map::insert` and `Map::clear` every write is a step, and every `Map::invlpg`, which holds
`vm::_mutex`.  Pages are named by their numbers.

## Main definitions

* `Tlbs`, `Tlbs.step`: the page tables, what the CPUs have cached, and what is in progress.
* `Tlbs.Coherent`: what is cached is what is in the tables, up to what is in progress.
-/

namespace Cantos

open Caches

/-- The first page of the kernel's part of memory. -/
def firstPage : ℕ := kernelVmBase / pageSize

/-- The page of an entry of the kernel page tables. -/
def kernelPage (e : ℕ) : ℕ := firstPage + e

/-- The entries of the kernel page tables, by page. -/
def kernelEntries (s : Mem) (p : ℕ) : ℕ := if firstPage ≤ p then s.page.table (p - firstPage) else 0

/-- `*table_entry = ...`, or `invlpg` on one CPU. -/
abbrev TlbAccess (cpus : ℕ) := Access (Fin cpus) ℕ ℕ

section Accesses
variable {cpus : ℕ} (cpu : Fin cpus)

/-- `invlpg` in `page.cpp`: on the CPU itself, and then on all others. -/
def invlpgAll (addr : ℕ) : List (TlbAccess cpus) :=
  (cpu :: (List.finRange cpus).filter (· ≠ cpu)).map (Access.drop · (addr / pageSize))

/-- `Page.writeRun`: the inner loop of `kinstall`. -/
def runAccesses (memBase flags : ℕ) : (k i entry : ℕ) → List (TlbAccess cpus)
  | 0, _, _ => []
  | k + 1, i, entry =>
      .write (kernelPage entry) (tableEntry memBase i flags) ::
        (invlpgAll cpu (add32 memBase (mul32 pageSize i)) ++
          runAccesses memBase flags k (i + 1) (entry + 1))

/-- `Page.writeChain`: the outer loop of `kinstall`. -/
def chainAccesses (consecutive flags : ℕ) : (current : List Page) → (entry : ℕ) →
    List (TlbAccess cpus)
  | [], _ => []
  | current :: next, entry =>
      runAccesses cpu current.memBase flags consecutive 0 entry ++
        chainAccesses consecutive flags next (entry + consecutive)

/-- `Page.clearRun`: the loop of `kuninstall`. -/
def clearAccesses : (k entry base : ℕ) → List (TlbAccess cpus)
  | 0, _, _ => []
  | k + 1, entry, base =>
      .write (kernelPage entry) 0 ::
        (invlpgAll cpu base ++ clearAccesses k (entry + 1) (base + pageSize))

/-- The writes of `kinstall_append` between two states: those at `cursor`, which has moved. -/
def appendAccesses (s s' : Mem) : List (TlbAccess cpus) :=
  (List.range' s.page.cursor (s'.page.cursor - s.page.cursor)).map fun e =>
    .write (kernelPage e) (s'.page.table e)

/-- What a section does to the page tables.  The heap may grow when `kinstall` frees the record
of a hole, and when `kuninstall` takes one. -/
def installAccesses (s : Mem) : Installs.Move → List (TlbAccess cpus)
  | .enter depth (.search head chain flags) =>
      match Page.kinstallSection depth head chain flags s with
      | (.ok (some base), s') =>
          appendAccesses s s' ++
            chainAccesses cpu (Page.firstRun chain) flags chain (tableIndex base)
      | _ => []
  | .enter _ (.append _ _ (page :: _) flags) =>
      appendAccesses s (Page.kinstallAppend [page] flags true s).2
  | .enter depth (.remove base (page :: _) _) =>
      appendAccesses s (Page.kuninstall depth base [page] s).2 ++
        clearAccesses cpu page.consecutive (tableIndex base) base
  | _ => []

end Accesses

/-! ## User memory -/

/-- A `Map`: `using_cpu`, and the entry of every page, 0 where there is no table. -/
structure UserMap (cpus : ℕ) where
  usingCpu : Option (Fin cpus)
  entries : ℕ → ℕ

/-- `Map::insert` or `Map::clear` in progress: the entries that are still to be written, and
the page that was written and is not yet invalidated. -/
structure UserCall where
  map : ℕ
  todo : List (ℕ × ℕ)
  written : Option ℕ
  deriving DecidableEq

/-- The loop of `Map::insert` over a run: the entries, and the address behind the run if the
loop has not returned. -/
def insertRunEntries (memBase flags min max : ℕ) : (k i addr : ℕ) → List (ℕ × ℕ) × Option ℕ
  | 0, _, addr => ([], some addr)
  | k + 1, i, addr =>
      let entry := if addr ≥ min then [(addr / pageSize, tableEntry memBase i flags)] else []
      if addr + pageSize ≥ max then (entry, none)
      else
        let (more, next) := insertRunEntries memBase flags min max k (i + 1) (addr + pageSize)
        (entry ++ more, next)

/-- The entries that `Map::insert` writes, in turn. -/
def insertEntries (flags min max : ℕ) : (page : List Page) → (addr : ℤ) → List (ℕ × ℕ)
  | [], _ => []
  | page :: next, addr =>
      if addr ≥ max ∨ addr < 0 then []
      else
        match insertRunEntries page.memBase flags min max page.consecutive 0 addr.toNat with
        | (entries, none) => entries
        | (entries, some addr) => entries ++ insertEntries flags min max next addr

/-- The entries that `Map::clear` writes, in turn. -/
def clearEntries (addr pages : ℕ) : List (ℕ × ℕ) :=
  (List.range pages).map fun i => ((addr + i * pageSize) / pageSize, 0)

/-! ## The machine -/

structure Tlbs (cpus : ℕ) where
  /-- The bookkeeping: what it will be at the end of the section in progress. -/
  kernel : Installs
  /-- The entries of the kernel page tables, by page. -/
  tables : ℕ → ℕ
  /-- What the section in progress is still to do. -/
  pending : List (TlbAccess cpus)
  maps : ℕ → UserMap cpus
  calls : List UserCall
  /-- The map whose page directory is in CR3; none is `page_dir`. -/
  loaded : Fin cpus → Option ℕ
  tlb : Fin cpus → ℕ → Option ℕ

inductive TlbMove (cpus : ℕ)
  /-- A call of `kinstall`, `kinstall_append` or `kuninstall` is made, or enters its next
  section. -/
  | install (cpu : Fin cpus) (m : Installs.Move)
  /-- The next write or `invlpg` of the section in progress. -/
  | access
  /-- A TLB takes over an entry. -/
  | fill (cpu : Fin cpus) (p : ℕ)
  | insert (map : ℕ) (chain : List Page) (addr : ℤ) (flags min max : ℕ)
  | clear (map addr pages : ℕ)
  | write (call : UserCall)
  | invlpg (call : UserCall)
  | enter (cpu : Fin cpus) (map : ℕ)
  | exit (cpu : Fin cpus) (map : ℕ)

namespace Tlbs

variable {cpus : ℕ} (x : Tlbs cpus)

/-- The entry of a page in the page tables that a CPU has loaded. -/
def current (cpu : Fin cpus) (p : ℕ) : ℕ :=
  if firstPage ≤ p then x.tables p else (x.loaded cpu).elim 0 fun m => (x.maps m).entries p

/-- A user call is made, for pages of user memory. -/
def begin (call : UserCall) : Option (Tlbs cpus) :=
  if ∀ w ∈ call.todo, w.1 < firstPage then some { x with calls := call :: x.calls } else none

/-- The TLB of a CPU without a page. -/
def invalidate (cpu : Fin cpus) (p : ℕ) : Fin cpus → ℕ → Option ℕ :=
  Function.update x.tlb cpu (Function.update (x.tlb cpu) p none)

def setMap (m : ℕ) (map : UserMap cpus) : Tlbs cpus :=
  { x with maps := Function.update x.maps m map }

/-- CR3 is loaded, which empties the TLB. -/
def load (cpu : Fin cpus) (m : Option ℕ) : Tlbs cpus :=
  { x with
    loaded := Function.update x.loaded cpu m
    tlb := Function.update x.tlb cpu fun _ => none }

/-- `*table_entry = ...`, or `invlpg` on one CPU. -/
def perform : TlbAccess cpus → Tlbs cpus
  | .write p v => { x with tables := Function.update x.tables p v }
  | .drop cpu p => { x with tlb := x.invalidate cpu p }

/-- A user call writes its next entry. -/
def write (call : UserCall) : Option (Tlbs cpus) :=
  match call.todo, call.written with
  | (p, e) :: rest, none =>
      let map := x.maps call.map
      some { x.setMap call.map { map with entries := Function.update map.entries p e } with
        calls := ⟨call.map, rest, some p⟩ :: x.calls.erase call }
  | _, _ => none

/-- `Map::invlpg` -/
def invlpg (call : UserCall) : Option (Tlbs cpus) :=
  match call.written with
  | some p =>
      some { x with
        tlb := (x.maps call.map).usingCpu.elim x.tlb fun cpu => x.invalidate cpu p
        calls := (if call.todo = [] then [] else [⟨call.map, call.todo, none⟩]) ++
          x.calls.erase call }
  | none => none

def step : TlbMove cpus → Option (Tlbs cpus)
  | .install cpu m =>
      if x.pending = [] then
        (x.kernel.step m).map fun kernel =>
          { x with kernel, pending := installAccesses cpu x.kernel.mem m }
      else none
  | .access =>
      match x.pending with
      | [] => none
      | access :: rest => some { x.perform access with pending := rest }
  | .fill cpu p =>
      if (x.current cpu p).testBit 0 then
        some { x with
          tlb := Function.update x.tlb cpu
            (Function.update (x.tlb cpu) p (some (x.current cpu p))) }
      else none
  | .insert map chain addr flags min max =>
      x.begin ⟨map, insertEntries flags min max chain addr, none⟩
  | .clear map addr pages => x.begin ⟨map, clearEntries addr pages, none⟩
  | .write call => if call ∈ x.calls then x.write call else none
  | .invlpg call => if call ∈ x.calls then x.invlpg call else none
  -- A map that is owned by a CPU cannot be set: `Map::enter` panics.
  | .enter cpu map =>
      if (x.maps map).usingCpu = none then
        some ((x.setMap map { x.maps map with usingCpu := some cpu }).load cpu (some map))
      else none
  | .exit cpu map => some ((x.setMap map { x.maps map with usingCpu := none }).load cpu none)

/-- The sections are undisturbed, as for `Installs`, and a map that a CPU has loaded is left by
that CPU. -/
def Undisturbed : TlbMove cpus → Prop
  | .install _ m => x.kernel.Undisturbed m
  | .exit cpu map => ∀ cpu', x.loaded cpu' = some map → cpu' = cpu
  | _ => True

instance : DecidablePred x.Undisturbed := fun m =>
  match m with
  | .install _ _ => inferInstanceAs (Decidable (Installs.Undisturbed _ _))
  | .exit _ _ => inferInstanceAs (Decidable (∀ _, _ → _))
  | .access | .fill _ _ | .insert _ _ _ _ _ _ | .clear _ _ _ | .write _ | .invlpg _
  | .enter _ _ => inferInstanceAs (Decidable True)

end Tlbs

/-- After `kmem::init`, with no map entered and nothing cached. -/
def Tlbs.start (cpus : ℕ) (s : Mem) : Tlbs cpus where
  kernel := ⟨s, [], []⟩
  tables := kernelEntries s
  pending := []
  maps _ := ⟨none, fun _ => 0⟩
  calls := []
  loaded _ := none
  tlb _ _ := none

end Cantos
