import Cantos.Lib.Steps
import Mathlib.Data.Nat.Basic
import Mathlib.Order.Basic
import Mathlib.Tactic.Common

/-!
# Calls that take the locks of the memory

What the functions of `kmem.cpp`, `page.cpp` and `vm.cpp` do to the interrupt flag, to the
three locks and to the other CPUs.  A call is the list of these operations in their order;
what it depends on in memory (how often the heap grows, how many runs a growth takes, how
many entries are written) is a parameter of the call.

`Mutex::lock` may yield when the interrupts are on; here it tries again.  An operation that
depends on the CPU, as `send_command_all` does, is spelled out when it is reached.

## Main definitions

* `Smp.Op`, `Smp.Call.ops`: the operations, and those of each call.
* `Smp.exec`: one operation.
-/

namespace Cantos

namespace Smp

/-- `kmem::mutex`, `vm::_mutex` and `lapic::_command_mutex`. -/
inductive Mutex
  | kmem
  | vm
  | command
  deriving DecidableEq, Repr

inductive Op
  | pushCli
  | popFlags
  | lock (m : Mutex)
  | unlock (m : Mutex)
  /-- The loop of `send_command_all`. -/
  | commandAll
  /-- `send_command` up to the interrupt. -/
  | send (proc : ℕ)
  /-- `while(!status.command_finished)` -/
  | wait (proc : ℕ)
  /-- `Map::invlpg` with `_mutex`. -/
  | check (map : ℕ)
  /-- `Map::enter` with `_mutex`. -/
  | enter (map : ℕ)
  /-- `Map::exit` with `_mutex`. -/
  | exit (map : ℕ)
  deriving DecidableEq, Repr

def sendCommand (proc : ℕ) : List Op := [.lock .command, .send proc, .wait proc, .unlock .command]

def sendCommandAll : List Op := [.pushCli, .commandAll, .popFlags]

/-- `page::kinstall_append` of a chain of `runs` entries.  The entries behind the first one
are locked for, whatever the argument `lock` is. -/
def kinstallAppend (lock : Bool) : ℕ → List Op
  | 0 => []
  | runs + 1 => (if lock then [.lock .kmem, .unlock .kmem] else []) ++ kinstallAppend true runs

/-- The growths of a heap that is locked, each with the runs it gets. -/
def grow (growths : List ℕ) : List Op := growths.flatMap (kinstallAppend false)

/-- `kmem::mutex` is taken with the interrupts off. -/
def locked (body : List Op) : List Op :=
  .pushCli :: .lock .kmem :: (body ++ [.unlock .kmem, .popFlags])

/-- `kmem::kmalloc` without `KMALLOC_NOLOCK`, and `kmem::kfree`. -/
def kmalloc (growths : List ℕ) : List Op := locked (grow growths)

def kfree (growths : List ℕ) : List Op := kmalloc growths

/-- `page::alloc` without `FLAG_NOLOCK`, with the growths for each of its runs. -/
def alloc : List (List ℕ) → List Op
  | [] => []
  | growths :: runs => locked (grow growths ++ alloc runs)

def create (growths : List ℕ) : List Op := .lock .kmem :: (grow growths ++ [.unlock .kmem])

/-- `page::free`, with the growths for each entry, the last entry first. -/
def free (entries : List (List ℕ)) : List Op := entries.flatMap create

/-- `page::used` with `lock`. -/
def used (entries : ℕ) : List Op := (List.replicate entries (create [])).flatten

/-- `page::kinstall` into a slot, writing `writes` entries. -/
def kinstallSlot (growths : List ℕ) (writes : ℕ) : List Op :=
  locked (grow growths ++ (List.replicate writes sendCommandAll).flatten)

/-- `page::kinstall` when there is no slot. -/
def kinstallEnd (runs : ℕ) : List Op := kmalloc [] ++ kinstallAppend true runs

/-- `page::kuninstall`: for each entry the growths and the pages, and those of the merges. -/
def kuninstall (entries : List (List ℕ × ℕ × List ℕ)) : List Op :=
  entries.flatMap fun (growths, pages, merges) =>
    locked (grow growths ++ (List.replicate pages sendCommandAll).flatten ++ grow merges)

def mapInvlpg (map : ℕ) : List Op := [.pushCli, .lock .vm, .check map, .unlock .vm, .popFlags]

/-- `_new_table`, whose page goes into a slot or not. -/
def newTable (growths : List ℕ) : Option (List ℕ) → List Op
  | some growths' => alloc [growths] ++ kinstallSlot growths' 1
  | none => alloc [growths] ++ kinstallEnd 1

/-- `Map::insert`: for each page the table it may need. -/
def insert (map : ℕ) (pages : List (Option (List ℕ × Option (List ℕ)))) : List Op :=
  pages.flatMap fun table =>
    (match table with
      | some (growths, slot) => newTable growths slot
      | none => []) ++ mapInvlpg map

def clear (map pages : ℕ) : List Op := (List.replicate pages (mapInvlpg map)).flatten

/-- The calls. -/
inductive Call
  | kmalloc (growths : List ℕ)
  | kfree (growths : List ℕ)
  | alloc (runs : List (List ℕ))
  | create (growths : List ℕ)
  | free (entries : List (List ℕ))
  | used (entries : ℕ)
  | kinstallAppend (runs : ℕ)
  | kinstallSlot (growths : List ℕ) (writes : ℕ)
  | kinstallEnd (runs : ℕ)
  | kuninstall (entries : List (List ℕ × ℕ × List ℕ))
  | insert (map : ℕ) (pages : List (Option (List ℕ × Option (List ℕ))))
  | clear (map pages : ℕ)
  | enter (map : ℕ)
  | exit (map : ℕ)
  deriving DecidableEq, Repr

def Call.ops : Call → List Op
  | .kmalloc growths => Smp.kmalloc growths
  | .kfree growths => Smp.kfree growths
  | .alloc runs => Smp.alloc runs
  | .create growths => Smp.create growths
  | .free entries => Smp.free entries
  | .used entries => Smp.used entries
  | .kinstallAppend runs => Smp.kinstallAppend true runs
  | .kinstallSlot growths writes => Smp.kinstallSlot growths writes
  | .kinstallEnd runs => Smp.kinstallEnd runs
  | .kuninstall entries => Smp.kuninstall entries
  | .insert map pages => Smp.insert map pages
  | .clear map pages => Smp.clear map pages
  | .enter map => [.lock .vm, .enter map, .unlock .vm]
  | .exit map => [.lock .vm, .exit map, .unlock .vm]

/-- What executes a call: its interrupt flag, the flags it has pushed, and what is left. -/
structure Proc where
  interrupts : Bool
  flags : List Bool
  code : List Op

end Smp

open Smp

structure Smp where
  proc : ℕ → Proc
  holder : Mutex → Option ℕ
  /-- `using_cpu`, or `none` for 0xffffffff. -/
  usingCpu : ℕ → Option ℕ
  /-- `command_finished` of a CPU. -/
  commandFinished : ℕ → Bool
  /-- The interrupt of `send_command` that a CPU has not taken yet. -/
  pending : ℕ → Bool
  procCount : ℕ

namespace Smp

/-- Write what is left of a call. -/
def setCode (s : Smp) (p : ℕ) (code : List Op) : Smp :=
  { s with proc := Function.update s.proc p { s.proc p with code := code } }

/-- Write the interrupt flag, and what is left. -/
def setFlags (s : Smp) (p : ℕ) (interrupts : Bool) (flags : List Bool) (code : List Op) : Smp :=
  { s with proc := Function.update s.proc p ⟨interrupts, flags, code⟩ }

def setHolder (s : Smp) (m : Mutex) (h : Option ℕ) : Smp :=
  { s with holder := Function.update s.holder m h }

/-- One operation of `p`, on the CPU `c`. -/
def execOp (s : Smp) (p c : ℕ) : Op → List Op → Option Smp
  | .pushCli, code =>
      some (s.setFlags p false ((s.proc p).interrupts :: (s.proc p).flags) code)
  | .popFlags, code =>
      match (s.proc p).flags with
      | [] => none
      | interrupts :: flags => some (s.setFlags p interrupts flags code)
  | .lock m, code =>
      if (s.holder m).isNone then some ((s.setHolder m (some p)).setCode p code) else some s
  | .unlock m, code => some ((s.setHolder m none).setCode p code)
  | .commandAll, code =>
      some (s.setCode p (((List.range s.procCount).filter (· ≠ c)).flatMap sendCommand ++ code))
  | .send proc, code =>
      some { s.setCode p code with
        commandFinished := Function.update s.commandFinished proc false
        pending := Function.update s.pending proc true }
  | .wait proc, code => if s.commandFinished proc then some (s.setCode p code) else some s
  | .check map, code =>
      match s.usingCpu map with
      | none => some (s.setCode p code)
      | some proc => some (s.setCode p (if proc = c then code else sendCommand proc ++ code))
  | .enter map, code =>
      -- "Tried to set a VM which is already owned by another CPU"
      if (s.usingCpu map).isSome then none
      else some { s.setCode p code with usingCpu := Function.update s.usingCpu map (some c) }
  | .exit map, code =>
      some { s.setCode p code with usingCpu := Function.update s.usingCpu map none }

def exec (s : Smp) (p c : ℕ) : Option Smp :=
  match (s.proc p).code with
  | [] => none
  | op :: code => s.execOp p c op code

/-- `handle_command` -/
def handleCommand (s : Smp) (c : ℕ) : Smp :=
  { s with
    commandFinished := Function.update s.commandFinished c true
    pending := Function.update s.pending c false }

/-- No call is being made, and no lock is held. -/
structure Rests (s : Smp) : Prop where
  flags : ∀ p, (s.proc p).flags = []
  code : ∀ p, (s.proc p).code = []
  holder : ∀ m, s.holder m = none

/-- CPUs with the interrupts on, and no map in use. -/
def rest (procCount : ℕ) : Smp where
  proc _ := ⟨true, [], []⟩
  holder _ := none
  usingCpu _ := none
  commandFinished _ := false
  pending _ := false
  procCount := procCount

theorem rest_rests (procCount : ℕ) : Rests (rest procCount) where
  flags _ := rfl
  code _ := rfl
  holder _ := rfl

end Smp

end Cantos
