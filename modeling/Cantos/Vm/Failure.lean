import Cantos.Vm.Fault

/-!
# Pages that cannot be made

`do_generate` returns the null pointer when the storage it reads reports an error.
`generate` does not look at what it gets: it links an entry with the null pointer, and passes
the null pointer to `Map::insert` for every window on the object, which reads the length of
the run there unless it returns before.

## Main definitions

* `Vm.generateNull`: `generate`, where `do_generate` returns the null pointer.
* `Vm.Request.Calls`: the requests that call `do_generate`.
* `Vm.Undone`: a request that failed left everything as it was.
-/

namespace Cantos

/-- `Map::insert` of the null pointer; `none` when `page->consecutive` is read. -/
def Map.insertNull (max : ℕ) (addr : ℤ) (m : Map) : Option Map :=
  if addr ≥ max ∨ addr < 0 then some m else none

namespace Vm

/-- The loop of `generate` over the windows on the object, with the null pointer. -/
def enterNull (addr : ℕ) : List ObjectInMap → (ℕ → Map) → Option (ℕ → Map)
  | [], maps => some maps
  | oim :: rest, maps =>
      ((maps oim.map).insertNull oim.finish (oim.place addr)).bind fun m =>
        enterNull addr rest (Function.update maps oim.map m)

/-- `Object::generate`, where `do_generate` returns the null pointer: an entry without pages
is linked. -/
def generateNull (vm : Vm) (o addr count : ℕ) : Option Vm :=
  let shared := vm.objects o
  if shared.object.room addr count = 0 then some vm
  else
    (enterNull addr shared.windows vm.maps).map fun maps =>
      { maps
        objects := Function.update vm.objects o { shared with
          object := { shared.object with pages := Object.link ⟨addr, []⟩ shared.object.pages } } }

/-- What asks for pages. -/
inductive Request
  | generate (o addr count : ℕ)
  | resolveFault (m addr : ℕ)

namespace Request

/-- The request, where `do_generate` returns the null pointer. -/
def fail (vm : Vm) : Request → Option Vm
  | .generate o addr count => vm.generateNull o addr count
  | .resolveFault m addr =>
      match vm.window m addr with
      | some oim => vm.generateNull oim.object (oim.objectAddr addr) 1
      | none => some vm

/-- The request gets as far as `do_generate`. -/
def Calls (vm : Vm) : Request → Prop
  | .generate o addr count => (vm.objects o).object.room addr count ≠ 0
  | .resolveFault m addr =>
      ∃ oim ∈ vm.window m addr, (vm.objects oim.object).object.room (oim.objectAddr addr) 1 ≠ 0

end Request

/-- The entries of the objects and of the page tables are as they were, and all entries of
objects have pages. -/
structure Undone (vm vm' : Vm) : Prop where
  pages : ∀ o, (vm'.objects o).object.pages = (vm.objects o).object.pages
  tables : ∀ m v, (vm'.maps m).entry v = (vm.maps m).entry v
  real : (∀ o, ∀ e ∈ (vm.objects o).object.pages, e.page ≠ []) →
    ∀ o, ∀ e ∈ (vm'.objects o).object.pages, e.page ≠ []

/-- The request reads no null pointer and leaves everything as it was, so that another one
tries again. -/
def FailsSafely (vm : Vm) (r : Request) : Prop :=
  ∃ vm', r.fail vm = some vm' ∧ vm.Undone vm' ∧ (r.Calls vm → r.Calls vm')

section Failure
variable {vm vm' : Vm} {o addr count : ℕ}

/-- An entry more is linked. -/
theorem length_generateNull (hroom : (vm.objects o).object.room addr count ≠ 0)
    (h : vm.generateNull o addr count = some vm') :
    (vm'.objects o).object.pages.length = (vm.objects o).object.pages.length + 1 := by
  rw [generateNull, if_neg hroom, Option.map_eq_some_iff] at h
  obtain ⟨maps, -, rfl⟩ := h
  have hl := List.takeWhile_append_dropWhile
    (p := fun next : PageEntry => decide (next.offset < addr)) (l := (vm.objects o).object.pages)
  have hlen := congrArg List.length hl
  rw [List.length_append] at hlen
  simp only [Function.update_self, Object.link, List.length_append, List.length_cons]
  omega

/-- No request that calls `do_generate` fails safely when it returns the null pointer. -/
theorem not_failsSafely_of_calls {r : Request} (hcalls : r.Calls vm) : ¬ vm.FailsSafely r := by
  rintro ⟨vm', hfail, hundone, -⟩
  cases r with
  | generate o addr count =>
    have hlen := length_generateNull hcalls hfail
    rw [hundone.pages] at hlen
    omega
  | resolveFault m addr =>
    obtain ⟨oim, hwindow, hroom⟩ := hcalls
    rw [Option.mem_def] at hwindow
    simp only [Request.fail, hwindow] at hfail
    have hlen := length_generateNull hroom hfail
    rw [hundone.pages] at hlen
    omega

end Failure

/-- A fault in the first page of a window. -/
theorem not_failsSafely_window : ¬ twoPageWindow.FailsSafely (.resolveFault 0 0x1004) :=
  not_failsSafely_of_calls ⟨⟨0, 0, 0x1000, 0, 2⟩, by decide, by decide⟩

/-- The null pointer is read for the window, and without a window it is linked. -/
theorem generateNull_onePage : twoPageWindow.generateNull 0 0 1 = none ∧
    ∃ vm, onePage.generateNull 0 0 1 = some vm ∧
      (vm.objects 0).object.pages = [⟨0, []⟩] ∧ ¬ onePage.FailsSafely (.generate 0 0 1) := by
  refine ⟨rfl, _, rfl, rfl, ?_⟩
  rintro ⟨vm', hfail, hundone, -⟩
  have hpages := hundone.pages 0
  obtain rfl := Option.some.inj hfail
  exact absurd hpages (by decide)

end Vm

end Cantos
