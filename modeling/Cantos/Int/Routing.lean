import Cantos.Int.Entry
import Cantos.Lib.Steps

/-!
# Interrupt routing

The gates of the IDT, the tables of functions that `idt_handle` calls, and the entries of the
I/O APIC, which give a line its vector.  The kernel sets them up piece by piece: the address of a
stub in a gate, a function with the rest of the gate, and last the line.

`Routes` says what that is for, without the bits: which function an interrupt calls.

## Main definitions

* `Tables`: the state; `install`, `installWithError`, `enableFunc`, `disable`.
* `raise`: an interrupt, from the gate to the return of the stub.
* `Routes`: the abstract state, with the same calls.
* `Refines`: the tables hold some routes.
* `kernelMain`: the calls that `kernel_main` makes.

## Main results

* `refines_run`: the tables refine the routes, and the kernel panics where the routes do.
* `line_resumes`: a line that is open reaches its last handler, and the program goes on.
* `boot_handles`: what `kernel_main` leaves.
-/

namespace Cantos.Interrupt

/-- The vectors, `uint8_t`. -/
abbrev Vec := Fin 256

/-- The lines of the I/O APIC. -/
abbrev Line := Fin 24

/-- `entry_t` of the IDT. -/
structure Entry where
  offsetLow : ℕ
  selector : ℕ
  zero : ℕ
  typeAttr : ℕ
  offsetHigh : ℕ
  deriving DecidableEq, Repr

/-- Where a gate leads to. -/
def Entry.offset (e : Entry) : ℕ := e.offsetHigh * 2 ^ 16 + e.offsetLow

/-- `FLAG_PRESENT` -/
def flagPresent : ℕ := 1 <<< 7

/-- `GATE_32_INT` -/
def gate32Int : ℕ := 0xe

/-- `GDT_SELECTOR(0, 0, 2)` -/
def kernelCode : ℕ := 2 <<< 3

/-- `INT_IOAPIC_BASE` -/
def intIoapicBase : ℕ := 0x30

/-- `MASK` of the I/O APIC -/
def ioapicMask : ℕ := 1 <<< 16

/-- The IDT with its functions, of some type of functions, and the registers of the I/O APIC. -/
structure Tables (ι : Type) where
  table : Vec → Entry
  functions : Vec → Option ι
  functionsErr : Vec → Option ι
  ioapic : ℕ → ℕ

/-- The vector of a line. -/
def Line.vector (irq : Line) : Vec := ⟨intIoapicBase + irq, by unfold intIoapicBase; omega⟩

/-- `_REG_IRQ` -/
def regIrq (irq : ℕ) : ℕ := irq * 2 + 0x10

section Tables
variable {ι : Type}

namespace Tables

def reset : Tables ι :=
  ⟨fun _ => ⟨0, 0, 0, 0, 0⟩, fun _ => none, fun _ => none, fun _ => ioapicMask⟩

def enableEntry (s : Tables ι) (vector : Vec) (offset : ℕ) : Tables ι :=
  { s with
    table := Function.update s.table vector
      { s.table vector with offsetLow := offset % 2 ^ 16, offsetHigh := offset >>> 16 % 2 ^ 16 } }

def updateEntry (s : Tables ι) (id : Vec) (selector typeAttr : ℕ) : Tables ι :=
  { s with
    table := Function.update s.table id
      { s.table id with selector := selector, zero := 0, typeAttr := typeAttr } }

/-- `install`; without a result where it panics. -/
def install (s : Tables ι) (id : Vec) (f : ι) (selector typeAttr : ℕ) : Option (Tables ι) :=
  let s := { s with functions := Function.update s.functions id (some f) }
  if (s.table id).offsetHigh = 0 then none
  else some (s.updateEntry id selector (typeAttr ||| flagPresent))

def installWithError (s : Tables ι) (id : Vec) (f : ι) (selector typeAttr : ℕ) :
    Option (Tables ι) :=
  let s := { s with functionsErr := Function.update s.functionsErr id (some f) }
  if (s.table id).offsetHigh = 0 then none
  else some (s.updateEntry id selector (typeAttr ||| flagPresent))

/-- `_write` of the I/O APIC, whose register of indices has eight bits. -/
def write (s : Tables ι) (reg value : ℕ) : Tables ι :=
  { s with ioapic := Function.update s.ioapic (reg % 2 ^ 8) (value % 2 ^ 32) }

def enable (s : Tables ι) (irq vector flags : ℕ) : Tables ι :=
  s.write (regIrq irq) (vector ||| flags)

def disable (s : Tables ι) (irq : ℕ) : Tables ι := s.write (regIrq irq) ioapicMask

def enableFunc (s : Tables ι) (irq : Line) (f : ι) (flags : ℕ) : Option (Tables ι) :=
  (s.install irq.vector f kernelCode gate32Int).map fun s => s.enable irq irq.vector flags

end Tables

/-- The stubs of `wrapper.S`. -/
def stubs : List (Vec × Kind) :=
  ([0x0, 0x1, 0x2, 0x4, 0x5, 0x6, 0x10].map (·, .handle)) ++
  ([0x8, 0xa, 0xb, 0xc, 0xd, 0xe].map (·, .handlee)) ++
  ([1, 2, 3, 4, 5, 6, 7, 8, 9, 10, 11, 12, 13, 14, 15].map fun irq : Line =>
    (irq.vector, .handle)) ++
  ([0x20, 0x28, 0x29].map (·, .handle))

/-- The stubs are linked to addresses in the kernel. -/
structure Placed (addr : Vec → ℕ) : Prop where
  low : ∀ v, 2 ^ 16 ≤ addr v
  high : ∀ v, addr v < 2 ^ 32
  apart : ∀ p ∈ stubs, ∀ q ∈ stubs, addr p.1 = addr q.1 → p = q

/-- The stub at an address. -/
def stubAt (addr : Vec → ℕ) (offset : ℕ) : Option (Vec × Kind) :=
  stubs.find? fun p => addr p.1 = offset

/-- The vector that the I/O APIC signals for a line. -/
def Tables.signal (s : Tables ι) (irq : Line) : Option Vec :=
  if (s.ioapic (regIrq irq)).testBit 16 then none
  else some (Fin.ofNat 256 (s.ioapic (regIrq irq)))

/-- The function that a stub calls through `idt_handle` or `idt_handle_with_error`. -/
def Tables.function (s : Tables ι) : Vec × Kind → Option ι
  | (v, .handle) => s.functions v
  | (v, .handlee) => s.functionsErr v

/-- An interrupt; without a result where it has no gate. The code of a function goes from its first
instruction to where it has returned. -/
def raise (addr : Vec → ℕ) (code : ι → Machine → Machine) (back : Word) (s : Tables ι)
    (m : Machine) (v : Vec) (errcode : Option Word) : Option Machine :=
  let gate := s.table v
  if gate.typeAttr.testBit 7 then
    (stubAt addr gate.offset).map fun p =>
      let e := enter (BitVec.ofNat 32 p.1) back
        (m.deliver (BitVec.ofNat 32 gate.selector) (BitVec.ofNat 32 gate.offset) errcode)
      match s.function p with
      | none => leave p.2 e.addEsp
      | some f => leave p.2 (code f e)
  else none

/-- What the kernel does to set up interrupts. -/
inductive Call (ι : Type)
  /-- `IDT_ALLOW_INTERRUPT` -/
  | allow (v : Vec)
  | install (v : Vec) (f : ι)
  | installWithError (v : Vec) (f : ι)
  | enableFunc (irq : Line) (f : ι)
  | disable (irq : Line)
  deriving DecidableEq, Repr

/-- The stub exists, so that the kernel can be linked. -/
def Call.Linked : Call ι → Prop
  | .allow v => ∃ p ∈ stubs, p.1 = v
  | _ => True

def Tables.step (addr : Vec → ℕ) (s : Tables ι) : Call ι → Option (Tables ι)
  | .allow v => some (s.enableEntry v (addr v))
  | .install v f => s.install v f kernelCode gate32Int
  | .installWithError v f => s.installWithError v f kernelCode gate32Int
  | .enableFunc irq f => s.enableFunc irq f 0
  | .disable irq => some (s.disable irq)

/-! ## Routes -/

/-- Which interrupts reach which functions. -/
structure Routes (ι : Type) where
  allowed : Vec → Bool
  present : Vec → Bool
  functions : Vec → Option ι
  functionsErr : Vec → Option ι
  isOpen : Line → Bool

namespace Routes

def empty : Routes ι :=
  ⟨fun _ => false, fun _ => false, fun _ => none, fun _ => none, fun _ => false⟩

def install (r : Routes ι) (v : Vec) (f : ι) : Option (Routes ι) :=
  if r.allowed v then
    some { r with
      present := Function.update r.present v true
      functions := Function.update r.functions v (some f) }
  else none

def installWithError (r : Routes ι) (v : Vec) (f : ι) : Option (Routes ι) :=
  if r.allowed v then
    some { r with
      present := Function.update r.present v true
      functionsErr := Function.update r.functionsErr v (some f) }
  else none

def setOpen (r : Routes ι) (irq : Line) (b : Bool) : Routes ι :=
  { r with isOpen := Function.update r.isOpen irq b }

def step (r : Routes ι) : Call ι → Option (Routes ι)
  | .allow v => some { r with allowed := Function.update r.allowed v true }
  | .install v f => r.install v f
  | .installWithError v f => r.installWithError v f
  | .enableFunc irq f => (r.install irq.vector f).map fun r => r.setOpen irq true
  | .disable irq => some (r.setOpen irq false)

end Routes

/-- The tables hold the routes. -/
structure Refines (addr : Vec → ℕ) (s : Tables ι) (r : Routes ι) : Prop where
  linked : ∀ v, r.allowed v = true → ∃ p ∈ stubs, p.1 = v
  low : ∀ v, (s.table v).offsetLow < 2 ^ 16
  offset : ∀ v, r.allowed v = true → (s.table v).offset = addr v
  disallowed : ∀ v, r.allowed v = false → (s.table v).offsetHigh = 0
  gate : ∀ v, r.present v = true → r.allowed v = true ∧ (s.table v).selector = kernelCode ∧
    (s.table v).typeAttr = gate32Int ||| flagPresent
  absent : ∀ v, r.present v = false → (s.table v).typeAttr = 0
  functions : s.functions = r.functions
  functionsErr : s.functionsErr = r.functionsErr
  opened : ∀ irq, r.isOpen irq = true → s.ioapic (regIrq irq) = irq.vector ∧
    r.present irq.vector = true ∧ (r.functions irq.vector).isSome
  closed : ∀ irq, r.isOpen irq = false → s.ioapic (regIrq irq) = ioapicMask

/-! ## The tables refine the routes -/

section Refine
variable {addr : Vec → ℕ} {s s' : Tables ι} {r r' : Routes ι} {c : Call ι} {cs : List (Call ι)}
  {v : Vec} {irq : Line} {f : ι} {n : ℕ}

theorem refines_reset : Refines addr (Tables.reset : Tables ι) .empty := by
  constructor
  · intro v h
    cases h
  · intro v
    exact Nat.two_pow_pos 16
  · intro v h
    cases h
  · intro v _
    rfl
  · intro v h
    cases h
  · intro v _
    rfl
  · rfl
  · rfl
  · intro irq h
    cases h
  · intro irq _
    rfl

theorem regIrq_lt (irq : Line) : regIrq irq < 2 ^ 8 := by
  unfold regIrq
  omega

/-- The entries of two lines are in different registers. -/
theorem write_ioapic (s : Tables ι) (irq irq' : Line) (hn : n < 2 ^ 32) :
    (s.write (regIrq irq) n).ioapic (regIrq irq') =
      if irq' = irq then n else s.ioapic (regIrq irq') := by
  rw [Tables.write, Nat.mod_eq_of_lt (regIrq_lt irq), Nat.mod_eq_of_lt hn]
  split_ifs with h
  · subst h
    exact Function.update_self ..
  · refine Function.update_of_ne (fun heq => h (Fin.ext ?_)) ..
    unfold regIrq at heq
    omega

theorem Refines.allow (h : Refines addr s r) (hplaced : Placed addr) (hv : ∃ p ∈ stubs, p.1 = v) :
    Refines addr (s.enableEntry v (addr v))
      { r with allowed := Function.update r.allowed v true } := by
  have hlow := hplaced.low v
  have hhigh := hplaced.high v
  have htable : ∀ w, w ≠ v → (s.enableEntry v (addr v)).table w = s.table w := fun w hw =>
    Function.update_of_ne hw ..
  have hself : (s.enableEntry v (addr v)).table v = { s.table v with
      offsetLow := addr v % 2 ^ 16, offsetHigh := addr v >>> 16 % 2 ^ 16 } :=
    Function.update_self ..
  have hallowed : ∀ w, w ≠ v → Function.update r.allowed v true w = r.allowed w := fun w hw =>
    Function.update_of_ne hw ..
  refine { h with
    linked := ?_, low := ?_, offset := ?_, disallowed := ?_, gate := ?_, absent := ?_ }
  · intro w hw
    by_cases heq : w = v
    · exact heq ▸ hv
    · exact h.linked w ((hallowed w heq).symm.trans hw)
  · intro w
    by_cases heq : w = v
    · subst heq
      rw [hself]
      exact Nat.mod_lt _ (by decide)
    · rw [htable w heq]
      exact h.low w
  · intro w hw
    by_cases heq : w = v
    · subst heq
      rw [hself, Entry.offset]
      simp only [Nat.shiftRight_eq_div_pow]
      omega
    · rw [htable w heq]
      exact h.offset w ((hallowed w heq).symm.trans hw)
  · intro w hw
    have heq : w ≠ v := by
      rintro rfl
      simp at hw
    rw [htable w heq]
    exact h.disallowed w ((hallowed w heq).symm.trans hw)
  · intro w hw
    by_cases heq : w = v
    · subst heq
      rw [hself]
      exact ⟨Function.update_self .., (h.gate w hw).2⟩
    · rw [htable w heq]
      exact ⟨(hallowed w heq).trans (h.gate w hw).1, (h.gate w hw).2⟩
  · intro w hw
    by_cases heq : w = v
    · subst heq
      rw [hself]
      exact h.absent w hw
    · rw [htable w heq]
      exact h.absent w hw

/-- A vector that has not been allowed makes `install` panic. -/
theorem Refines.offsetHigh_eq_zero (h : Refines addr s r) (hplaced : Placed addr) :
    (s.table v).offsetHigh = 0 ↔ r.allowed v = false := by
  rcases hallowed : r.allowed v with _ | _
  · simpa using h.disallowed v hallowed
  · have hoffset := h.offset v hallowed
    have hlow := hplaced.low v
    have hlt := h.low v
    rw [Entry.offset] at hoffset
    simp only [Bool.true_eq_false, iff_false]
    omega

/-- The gate of an installed function. -/
theorem Refines.update (h : Refines addr s r) (hv : r.allowed v = true)
    (hopen : ∀ irq : Line, (r.functions irq.vector).isSome → (r'.functions irq.vector).isSome)
    (hr : r' = { r with
      present := Function.update r.present v true
      functions := r'.functions, functionsErr := r'.functionsErr })
    (hs : s' = { s with functions := r'.functions, functionsErr := r'.functionsErr }) :
    Refines addr (s'.updateEntry v kernelCode (gate32Int ||| flagPresent)) r' := by
  subst hs
  have hpresent : r'.present = Function.update r.present v true := by rw [hr]
  have hallowed : r'.allowed = r.allowed := by rw [hr]
  have hisOpen : r'.isOpen = r.isOpen := by rw [hr]
  set t := Tables.updateEntry
    { s with functions := r'.functions, functionsErr := r'.functionsErr } v kernelCode
    (gate32Int ||| flagPresent)
  have htable : ∀ w, w ≠ v → t.table w = s.table w := fun w hw => Function.update_of_ne hw ..
  have hself : t.table v = { s.table v with
      selector := kernelCode, zero := 0, typeAttr := gate32Int ||| flagPresent } :=
    Function.update_self ..
  have hoffset : ∀ w, (t.table w).offsetLow = (s.table w).offsetLow ∧
      (t.table w).offsetHigh = (s.table w).offsetHigh := by
    intro w
    by_cases heq : w = v
    · subst heq
      rw [hself]
      exact ⟨rfl, rfl⟩
    · rw [htable w heq]
      exact ⟨rfl, rfl⟩
  constructor
  · rw [hallowed]
    exact h.linked
  · intro w
    rw [(hoffset w).1]
    exact h.low w
  · intro w hw
    rw [hallowed] at hw
    rw [Entry.offset, (hoffset w).1, (hoffset w).2]
    exact h.offset w hw
  · intro w hw
    rw [hallowed] at hw
    rw [(hoffset w).2]
    exact h.disallowed w hw
  · intro w hw
    rw [hallowed]
    rw [hpresent] at hw
    by_cases heq : w = v
    · subst heq
      rw [hself]
      exact ⟨hv, rfl, rfl⟩
    · rw [htable w heq]
      exact h.gate w ((Function.update_of_ne heq ..).symm.trans hw)
  · intro w hw
    rw [hpresent] at hw
    have heq : w ≠ v := by
      rintro rfl
      rw [Function.update_self] at hw
      cases hw
    rw [htable w heq]
    exact h.absent w ((Function.update_of_ne heq ..).symm.trans hw)
  · rfl
  · rfl
  · intro irq hirq
    rw [hisOpen] at hirq
    obtain ⟨hentry, hpres, hsome⟩ := h.opened irq hirq
    refine ⟨hentry, ?_, hopen irq hsome⟩
    rw [hpresent]
    by_cases heq : irq.vector = v
    · rw [heq]
      exact Function.update_self ..
    · exact (Function.update_of_ne heq ..).trans hpres
  · intro irq hirq
    rw [hisOpen] at hirq
    exact h.closed irq hirq

/-- Both panic, or the results are related. -/
theorem Refines.install (h : Refines addr s r) (hplaced : Placed addr) (v : Vec) (f : ι) :
    Option.Rel (Refines addr) (s.install v f kernelCode gate32Int) (r.install v f) := by
  rw [Tables.install, Routes.install]
  rcases hallowed : r.allowed v with _ | _
  · have hzero := (h.offsetHigh_eq_zero hplaced).mpr hallowed
    simp [hzero]
  · have hne : (s.table v).offsetHigh ≠ 0 := fun hzero => by
      simp [(h.offsetHigh_eq_zero hplaced).mp hzero] at hallowed
    simp only [hne, if_false, if_true]
    refine .some (h.update hallowed (fun irq hirq => ?_) rfl ?_)
    · by_cases heq : irq.vector = v
      · simp [heq]
      · simpa [Function.update_of_ne heq] using hirq
    · simp [h.functions, h.functionsErr]

theorem Refines.installWithError (h : Refines addr s r) (hplaced : Placed addr) (v : Vec) (f : ι) :
    Option.Rel (Refines addr) (s.installWithError v f kernelCode gate32Int)
      (r.installWithError v f) := by
  rw [Tables.installWithError, Routes.installWithError]
  rcases hallowed : r.allowed v with _ | _
  · have hzero := (h.offsetHigh_eq_zero hplaced).mpr hallowed
    simp [hzero]
  · have hne : (s.table v).offsetHigh ≠ 0 := fun hzero => by
      simp [(h.offsetHigh_eq_zero hplaced).mp hzero] at hallowed
    simp only [hne, if_false, if_true]
    refine .some (h.update hallowed (fun irq hirq => hirq) rfl ?_)
    simp [h.functions, h.functionsErr]

theorem Refines.enable (h : Refines addr s r) (hpresent : r.present irq.vector = true)
    (hsome : (r.functions irq.vector).isSome) :
    Refines addr (s.enable irq irq.vector 0) (r.setOpen irq true) := by
  have hlt : (irq.vector : ℕ) ||| 0 < 2 ^ 32 := by
    rw [Nat.or_zero]
    have := irq.vector.isLt
    omega
  refine { h with opened := ?_, closed := ?_ }
  · intro irq' hirq
    rw [Tables.enable, write_ioapic s irq irq' hlt, Nat.or_zero]
    split_ifs with heq
    · subst heq
      exact ⟨rfl, hpresent, hsome⟩
    · exact h.opened irq' ((Function.update_of_ne heq ..).symm.trans hirq)
  · intro irq' hirq
    have heq : irq' ≠ irq := by
      rintro rfl
      simp [Routes.setOpen] at hirq
    rw [Tables.enable, write_ioapic s irq irq' hlt, if_neg heq]
    exact h.closed irq' ((Function.update_of_ne heq ..).symm.trans hirq)

theorem Refines.disable (h : Refines addr s r) (irq : Line) :
    Refines addr (s.disable irq) (r.setOpen irq false) := by
  refine { h with opened := ?_, closed := ?_ }
  · intro irq' hirq
    have heq : irq' ≠ irq := by
      rintro rfl
      simp [Routes.setOpen] at hirq
    rw [Tables.disable, write_ioapic s irq irq' (by decide), if_neg heq]
    exact h.opened irq' ((Function.update_of_ne heq ..).symm.trans hirq)
  · intro irq' hirq
    rw [Tables.disable, write_ioapic s irq irq' (by decide)]
    split_ifs with heq
    · rfl
    · exact h.closed irq' ((Function.update_of_ne heq ..).symm.trans hirq)

theorem Refines.step (h : Refines addr s r) (hplaced : Placed addr) (hc : c.Linked) :
    Option.Rel (Refines addr) (s.step addr c) (r.step c) := by
  cases c with
  | allow v => exact .some (h.allow hplaced hc)
  | install v f => exact h.install hplaced v f
  | installWithError v f => exact h.installWithError hplaced v f
  | disable irq => exact .some (h.disable irq)
  | enableFunc irq f =>
    have hinstall := h.install hplaced irq.vector f
    rw [Tables.step, Routes.step, Tables.enableFunc]
    rw [Routes.install] at hinstall ⊢
    split_ifs at hinstall ⊢ with hallowed
    · generalize s.install irq.vector f kernelCode gate32Int = t at hinstall
      cases hinstall with
      | some hrel => exact .some (hrel.enable (by simp) (by simp))
    · generalize s.install irq.vector f kernelCode gate32Int = t at hinstall
      cases hinstall with
      | none => exact .none

/-- Whatever the kernel does: it panics where a function is installed for a vector that has
not been allowed, and else the tables hold the routes. -/
theorem refines_run (hplaced : Placed addr) (hrel : Refines addr s r) (hcs : ∀ c ∈ cs, c.Linked) :
    Option.Rel (Refines addr) (Steps.run (Tables.step addr) s cs) (Steps.run Routes.step r cs) := by
  induction cs generalizing s r with
  | nil => exact .some hrel
  | cons c cs ih =>
    have hstep := hrel.step hplaced (hcs c List.mem_cons_self)
    rw [Steps.run, Steps.run]
    generalize s.step addr c = s' at hstep
    generalize r.step c = r' at hstep
    cases hstep with
    | none => exact .none
    | some hrel' => exact ih hrel' fun c' hc' => hcs c' (List.mem_cons_of_mem c hc')

/-! ## Interrupts -/

theorem stubAt_addr (hplaced : Placed addr) {p : Vec × Kind} (hp : p ∈ stubs) :
    stubAt addr (addr p.1) = some p := by
  have hsome : (stubAt addr (addr p.1)).isSome := by
    rw [stubAt, List.find?_isSome]
    exact ⟨p, hp, by simp⟩
  obtain ⟨q, hq⟩ := Option.isSome_iff_exists.mp hsome
  have haddr : addr q.1 = addr p.1 := by simpa using List.find?_some hq
  rw [hq, hplaced.apart q (List.mem_of_find?_eq_some hq) p hp haddr]

theorem leave_memory (kind : Kind) (m : Machine) : (leave kind m).memory = m.memory := by
  cases kind <;> rfl

/-- An interrupt of a vector whose stub has been made for what the CPU pushes. -/
theorem Refines.raise (h : Refines addr s r) (hplaced : Placed addr) {p : Vec × Kind}
    (hp : p ∈ stubs) (hpresent : r.present p.1 = true) (hf : s.function p = some f)
    {errcode : Option Word} (hkind : p.2 = .handlee ↔ errcode.isSome)
    (code : ι → Machine → Machine) (back : Word) (m : Machine) :
    let e := enter (BitVec.ofNat 32 p.1) back
      (m.deliver (BitVec.ofNat 32 kernelCode) (BitVec.ofNat 32 (addr p.1)) errcode)
    Returned errcode e (code f e) →
      ∃ m', raise addr code back s m p.1 errcode = some m' ∧ m'.regs = m.regs ∧ m'.cs = m.cs ∧
        m'.memory = (code f e).memory := by
  intro e hreturned
  obtain ⟨hallowed, hselector, htype⟩ := h.gate p.1 hpresent
  have hbit : (s.table p.1).typeAttr.testBit 7 = true := by
    rw [htype]
    decide
  obtain ⟨hregs, hcs⟩ := leave_interrupted hreturned hkind
  refine ⟨leave p.2 (code f e), ?_, hregs, hcs, leave_memory p.2 _⟩
  rw [Interrupt.raise, if_pos hbit, h.offset p.1 hallowed, stubAt_addr hplaced hp, hselector,
    Option.map_some, hf]

theorem line_handle : ∀ irq : Line, ∀ p ∈ stubs, p.1 = irq.vector → p.2 = .handle := by decide

theorem signal_of_open {s : Tables ι} (h : s.ioapic (regIrq irq) = irq.vector) :
    s.signal irq = some irq.vector := by
  have hlt := irq.vector.isLt
  have hbit : (irq.vector : ℕ).testBit 16 = false :=
    Nat.testBit_lt_two_pow (hlt.trans (by decide))
  rw [Tables.signal, h, hbit]
  simp

theorem signal_of_closed {s : Tables ι} (h : s.ioapic (regIrq irq) = ioapicMask) :
    s.signal irq = none := by
  rw [Tables.signal, h]
  rfl

/-- After any calls that have not panicked: a line that has not been opened, or has been disabled
since, signals nothing; a line that is open signals its vector, which calls the last function
installed for it, and when this has returned the interrupted program goes on with its registers,
its flags and its stack. -/
theorem line_resumes (hplaced : Placed addr) (hcs : ∀ c ∈ cs, c.Linked)
    (hrun : Steps.run (Tables.step addr) Tables.reset cs = some s) :
    ∃ r, Steps.run Routes.step Routes.empty cs = some r ∧ ∀ irq : Line,
      (r.isOpen irq = false → s.signal irq = none) ∧
      (r.isOpen irq = true → s.signal irq = some irq.vector ∧
        ∃ f, r.functions irq.vector = some f ∧ ∀ code back m,
          let e := enter (BitVec.ofNat 32 irq.vector) back
            (m.deliver (BitVec.ofNat 32 kernelCode) (BitVec.ofNat 32 (addr irq.vector)) none)
          Returned none e (code f e) →
            ∃ m', raise addr code back s m irq.vector none = some m' ∧ m'.regs = m.regs ∧
              m'.cs = m.cs ∧ m'.memory = (code f e).memory) := by
  have hrel := refines_run hplaced refines_reset hcs
  rw [hrun] at hrel
  generalize hr : Steps.run Routes.step Routes.empty cs = r' at hrel
  cases hrel with
  | some h =>
    refine ⟨_, rfl, fun irq =>
      ⟨fun hclosed => signal_of_closed (h.closed irq hclosed), fun hopen => ?_⟩⟩
    obtain ⟨hentry, hpresent, hsome⟩ := h.opened irq hopen
    obtain ⟨f, hf⟩ := Option.isSome_iff_exists.mp hsome
    obtain ⟨p, hp, hv⟩ := h.linked irq.vector (h.gate irq.vector hpresent).1
    have hkind := line_handle irq p hp hv
    have hp' : (irq.vector, Kind.handle) ∈ stubs := by
      rw [← hv, ← hkind]
      exact hp
    have hfunction : s.function (irq.vector, .handle) = some f :=
      (congrFun h.functions irq.vector).trans hf
    refine ⟨signal_of_open hentry, f, hf, fun code back m => ?_⟩
    exact h.raise hplaced hp' hpresent hfunction (by simp) code back m

end Refine

end Tables

/-- Stubs of sixteen bytes. -/
def stubAddr (v : Vec) : ℕ := 0xc0100000 + 16 * v

theorem placed_stubAddr : Placed stubAddr := by
  constructor
  · intro v
    unfold stubAddr
    omega
  · intro v
    unfold stubAddr
    omega
  · intro p hp q hq haddr
    have hvec : p.1 = q.1 := by
      unfold stubAddr at haddr
      exact Fin.ext (by omega)
    have hall : ∀ p ∈ stubs, ∀ q ∈ stubs, p.1 = q.1 → p = q := by decide +kernel
    exact hall p hp q hq hvec

/-- The line of the keyboard, with a function that has a number. -/
theorem line_resumes_keyboard : ∃ s, Steps.run (Tables.step stubAddr) Tables.reset
    [.allow 0x31, .enableFunc 1 7] = some s ∧ s.signal 1 = some 0x31 := by
  have hcs : ∀ c ∈ [Call.allow 0x31, .enableFunc 1 7], c.Linked := by
    intro c hc
    rcases List.mem_cons.mp hc with rfl | hc
    · exact ⟨(0x31, .handle), by decide, rfl⟩
    · obtain rfl := List.mem_singleton.mp hc
      trivial
  obtain ⟨s, hrun⟩ : ∃ s, Steps.run (Tables.step stubAddr) Tables.reset
      [.allow 0x31, .enableFunc 1 7] = some s := ⟨_, rfl⟩
  obtain ⟨r, hr, hlines⟩ := line_resumes placed_stubAddr hcs hrun
  have hopen : r.isOpen 1 = true := by
    cases hr
    rfl
  exact ⟨s, hrun, ((hlines 1).2 hopen).1⟩

/-! ## What `kernel_main` sets up -/

/-- The functions that the kernel installs. -/
inductive Handler
  | div0
  | debug
  | nmi
  | overflow
  | boundRangeExceeded
  | invalidOpcode
  | doubleFault
  | invalidTss
  | segmentNotPresent
  | stackSegmentNotPresent
  | gpf
  | pageFault
  | floatingPoint
  /-- `lapic::timer` -/
  | timer
  | handleCommand
  | handlePanic
  /-- `pit::interrupt` -/
  | interrupt
  /-- `ps2::_handle1` -/
  | handle1
  | handle2
  deriving DecidableEq, Repr

/-- `exceptions::init` -/
def exceptionsInit : List (Call Handler) :=
  [0x0, 0x1, 0x2, 0x4, 0x5, 0x6, 0x8, 0xa, 0xb, 0xc, 0xd, 0xe, 0x10].map .allow ++
  [.install 0x0 .div0, .install 0x1 .debug, .install 0x2 .nmi, .install 0x4 .overflow,
    .install 0x5 .boundRangeExceeded, .install 0x6 .invalidOpcode,
    .installWithError 0x8 .doubleFault, .installWithError 0xa .invalidTss,
    .installWithError 0xb .segmentNotPresent, .installWithError 0xc .stackSegmentNotPresent,
    .installWithError 0xd .gpf, .installWithError 0xe .pageFault, .install 0x10 .floatingPoint]

/-- `lapic::init` -/
def lapicInit : List (Call Handler) :=
  [.allow 0x20, .allow 0x28, .allow 0x29, .install 0x20 .timer, .install 0x28 .handleCommand,
    .install 0x29 .handlePanic]

/-- `ioapic::init` -/
def ioapicInit : List (Call Handler) :=
  [1, 2, 3, 4, 5, 6, 7, 8, 9, 10, 11, 12, 13, 14, 15].map fun irq : Line => .allow irq.vector

/-- The calls that `kernel_main` makes, by `exceptions::init`, `lapic::init`, `ioapic::init`,
`pit::init` and `ps2::init`. -/
def kernelMain : List (Call Handler) :=
  exceptionsInit ++ lapicInit ++ ioapicInit ++
    [.enableFunc 2 .interrupt, .enableFunc 12 .handle2, .enableFunc 1 .handle1]

/-- The exceptions for which the CPU pushes an error code. -/
def pushesErrcode (v : Vec) : Bool :=
  v ∈ ([0x8, 0xa, 0xb, 0xc, 0xd, 0xe, 0x11, 0x15, 0x1d, 0x1e] : List Vec)

/-- The function of a vector. -/
def handlerOf (v : Vec) : Option Handler :=
  ([(0x0, .div0), (0x1, .debug), (0x2, .nmi), (0x4, .overflow), (0x5, .boundRangeExceeded),
    (0x6, .invalidOpcode), (0x8, .doubleFault), (0xa, .invalidTss), (0xb, .segmentNotPresent),
    (0xc, .stackSegmentNotPresent), (0xd, .gpf), (0xe, .pageFault), (0x10, .floatingPoint),
    (0x20, .timer), (0x28, .handleCommand), (0x29, .handlePanic), (0x31, .handle1),
    (0x32, .interrupt), (0x3c, .handle2)] : List (Vec × Handler)).lookup v

theorem linked_kernelMain : ∀ c ∈ kernelMain, c.Linked := by
  intro c hc
  cases c with
  | allow v =>
    have hall : ∀ v : Vec, Call.allow v ∈ kernelMain → ∃ p ∈ stubs, p.1 = v := by decide +kernel
    exact hall v hc
  | _ => trivial

/-- The routes that `kernel_main` sets up. -/
theorem exists_routes : ∃ r, Steps.run Routes.step Routes.empty kernelMain = some r ∧
    (∀ v, r.present v = (handlerOf v).isSome) ∧
    (∀ v, ∀ f ∈ handlerOf v, ∃ p ∈ stubs, p.1 = v ∧
      (p.2 = .handlee ↔ pushesErrcode v = true) ∧
      (match p.2 with | .handle => r.functions v | .handlee => r.functionsErr v) = some f) ∧
    ∀ irq, r.isOpen irq = decide (irq = 1 ∨ irq = 2 ∨ irq = 12) := by
  refine ⟨_, rfl, ?_, ?_, ?_⟩
  · decide +kernel
  · decide +kernel
  · decide +kernel

/-- What `kernel_main` sets up, wherever the stubs are linked to: it does not panic; the lines of
the keyboard, the PIT and the mouse are the ones that signal; the vectors with a gate are those
with a function; and each of them calls its function and, when this has returned, goes on with the
interrupted program, with the error code that the CPU pushes for some of them. -/
theorem boot_handles {addr : Vec → ℕ} (hplaced : Placed addr) :
    ∃ s, Steps.run (Tables.step addr) Tables.reset kernelMain = some s ∧
      (∀ irq : Line, (s.signal irq).isSome = decide (irq = 1 ∨ irq = 2 ∨ irq = 12)) ∧
      ∀ v, ((s.table v).typeAttr.testBit 7 = true ↔ (handlerOf v).isSome) ∧
        ∀ f, handlerOf v = some f → ∀ code back m errcode, errcode.isSome = pushesErrcode v →
          let e := enter (BitVec.ofNat 32 v) back
            (m.deliver (BitVec.ofNat 32 kernelCode) (BitVec.ofNat 32 (addr v)) errcode)
          Returned errcode e (code f e) →
            ∃ m', raise addr code back s m v errcode = some m' ∧ m'.regs = m.regs ∧
              m'.cs = m.cs ∧ m'.memory = (code f e).memory := by
  obtain ⟨r, hr, hpresent, hfunction, hopen⟩ := exists_routes
  have hrel := refines_run hplaced refines_reset linked_kernelMain
  rw [hr] at hrel
  generalize hs : Steps.run (Tables.step addr) Tables.reset kernelMain = s' at hrel
  cases hrel with
  | @some s _ h =>
    refine ⟨s, rfl, fun irq => ?_, fun v => ⟨?_, fun f hf code back m errcode herrcode => ?_⟩⟩
    · rw [← hopen irq]
      rcases hisOpen : r.isOpen irq with _ | _
      · rw [signal_of_closed (h.closed irq hisOpen)]
        rfl
      · rw [signal_of_open (h.opened irq hisOpen).1]
        rfl
    · rw [← hpresent v]
      rcases hv : r.present v with _ | _
      · simp [h.absent v hv]
      · simp only [(h.gate v hv).2.2, iff_true]
        decide
    · obtain ⟨p, hp, rfl, hkind, hsome⟩ := hfunction v f hf
      have hpres : r.present p.1 = true := by
        rw [hpresent, hf]
        rfl
      have hf' : s.function p = some f := by
        rcases p with ⟨v, _ | _⟩
        · exact (congrFun h.functions v).trans hsome
        · exact (congrFun h.functionsErr v).trans hsome
      rw [← herrcode] at hkind
      exact h.raise hplaced hp hpres hf' hkind code back m

theorem boot_handles_stubAddr : ∃ s,
    Steps.run (Tables.step stubAddr) Tables.reset kernelMain = some s ∧
      ∀ v, (s.table v).typeAttr.testBit 7 = true ↔ (handlerOf v).isSome := by
  obtain ⟨s, hrun, -, hvectors⟩ := boot_handles placed_stubAddr
  exact ⟨s, hrun, fun v => (hvectors v).1⟩

end Cantos.Interrupt
