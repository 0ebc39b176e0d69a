import Cantos.Hw.Acpi
import Cantos.Lib.Fair
import Mathlib.Data.Nat.Pairing

/-!
# Starting the other CPUs

`lapic::awaken_others` copies the code of `ap.s` to low memory and sends one CPU after the other
the interrupts that let it run there.  A CPU that is started turns on the pages, takes its own
stack, and sets `awoken` in `ap_main`, for which the first CPU waits.

The CPUs take their steps in any order.  A CPU that has enabled its interrupts runs the scheduler,
which is not part of this.

## Main definitions

* `Machine.bspStep`: `awaken_others`.
* `Machine.apStep`: `ap.s` and `ap_main`.

## Main results

* `Machine.awaken_safe`: what holds in every order of steps.
* `Machine.awaken_returns_iff`: when the first CPU gets to the end of its loop.
-/

namespace Cantos.Awaken

open Acpi (Low MadtProc Status maxCores cpuInit)
open Fair

abbrev Byte := BitVec 8

/-- What a CPU does next. -/
inductive Mode
  | off
  /-- It waits for the interrupt that starts it. -/
  | waiting
  /-- `low_ap_jumper`, up to the protected mode. -/
  | jumper
  /-- "Install the page table" -/
  | paging
  /-- "now we need to get a stack" -/
  | takeStack
  /-- `gdt_setup` -/
  | gdtSetup
  /-- `cpu::info().awoken = true` -/
  | apMain
  /-- `idt::setup` -/
  | idtSetup
  /-- `lapic::setup` -/
  | lapicSetup
  /-- `sti` -/
  | enable
  | scheduling
  /-- It was started at something else than `ap.s`. -/
  | lost
  | panicked
  deriving DecidableEq, Repr

/-- How far a CPU has come. -/
def Mode.rank : Mode → ℕ
  | .off => 0
  | .waiting => 1
  | .jumper => 2
  | .paging => 3
  | .takeStack => 4
  | .gdtSetup => 5
  | .apMain => 6
  | .idtSetup => 7
  | .lapicSetup => 8
  | .enable => 9
  | .scheduling => 10
  | .lost => 0
  | .panicked => 0

/-- It has set `awoken`. -/
def Mode.isAwoken (m : Mode) : Bool := 7 ≤ m.rank

/-- It runs `ap.s`, or `ap_main` up to `awoken`. -/
def Mode.Starting (m : Mode) : Prop := 2 ≤ m.rank ∧ m.rank < 7

structure Cpu where
  mode : Mode
  cr3 : ℕ
  esp : ℕ
  /-- The kernel's GDT, the IDT and the local APIC are set up. -/
  gdt : Bool
  idt : Bool
  lapic : Bool
  interrupts : Bool
  deriving DecidableEq, Repr

/-- A CPU after a reset. -/
def Cpu.reset (m : Mode) : Cpu := ⟨m, 0, 0, false, false, false, false⟩

/-- Where the first CPU is in `awaken_others`. -/
inductive Bsp
  /-- The loop that copies. -/
  | copy (i : ℕ)
  /-- The head of the loop, and `_ipi(0, 5, 1, id)`. -/
  | init (i : ℕ)
  /-- `_ipi(_JUMP_BASE / PAGE_SIZE, 6, 1, id)` -/
  | startup (i : ℕ)
  /-- `while(!cpu::info_of(id).awoken)` -/
  | spin (i : ℕ)
  | done
  | panicked
  /-- It has reset itself. -/
  | reset
  deriving DecidableEq, Repr

/-- What the CPUs find: the tables of the firmware, the kernel, and themselves. -/
structure Machine where
  low : Low
  /-- The bytes from `_startofap` to `_endofap`, without those of `low_ap_page_table`, which is
  stored to behind the copy. -/
  image : List Byte
  /-- What is in memory from `_JUMP_BASE` on. -/
  before : ℕ → Byte
  /-- `kmem::map.vm_start - KERNEL_VM_BASE` -/
  pageDir : ℕ
  /-- The pages that `cpu::init` installs. -/
  stack : ℕ → ℕ
  /-- The number of the first CPU. -/
  boot : ℕ
  /-- The numbers of the CPUs that there are. -/
  present : ℕ → Bool

structure State where
  bsp : Bsp
  /-- Memory from `_JUMP_BASE` on. -/
  jump : ℕ → Byte
  /-- `low_ap_page_table` -/
  pageTable : ℕ
  /-- `cpu_status` -/
  status : ℕ → Option Status
  cpu : ℕ → Cpu

def State.setCpu (s : State) (id : ℕ) (c : Cpu) : State :=
  { s with cpu := Function.update s.cpu id c }

namespace Machine

variable (k : Machine)

/-- `acpi::procs[i].apic_id` -/
def procId (i : ℕ) : ℕ := (MadtProc.ofBytes (k.low.procs i)).apicId.toNat

/-- `stacks` -/
def cpuStacks (id : ℕ) : ℕ := if id < k.low.procCount then k.stack id else 0

/-- Before `awaken_others`. -/
def start (l : List Status) : State :=
  ⟨.copy 0, k.before, 0, fun i => l[i]?, fun _ => Cpu.reset .off⟩

/-- A step of the first CPU. -/
def bspStep (s : State) : State :=
  match s.bsp with
  | .copy i =>
      match k.image[i]? with
      | some b => { s with jump := Function.update s.jump i b, bsp := .copy (i + 1) }
      | none => { s with pageTable := k.pageDir, bsp := .init 1 }
  | .init i =>
      if i < k.low.procCount ∧ i < maxCores then
        if k.procId i = k.boot then { s with bsp := .reset }
        else if k.present (k.procId i) then
          { s.setCpu (k.procId i) (Cpu.reset .waiting) with bsp := .startup i }
        else { s with bsp := .startup i }
      else { s with bsp := .done }
  | .startup i =>
      -- A CPU that does not wait for it ignores this interrupt.
      if (s.cpu (k.procId i)).mode = .waiting then
        { s.setCpu (k.procId i) { s.cpu (k.procId i) with mode := .jumper } with bsp := .spin i }
      else { s with bsp := .spin i }
  | .spin i =>
      match s.status (k.procId i) with
      | none => { s with bsp := .panicked }
      | some st => if st.awoken then { s with bsp := .init (i + 1) } else s
  | .done | .panicked | .reset => s

/-- A step of another CPU. -/
def apStep (id : ℕ) (s : State) : State :=
  let c := s.cpu id
  match c.mode with
  | .off | .waiting | .scheduling | .lost | .panicked => s
  | .jumper =>
      if (List.range k.image.length).map s.jump = k.image then
        s.setCpu id { c with mode := .paging }
      else s.setCpu id { c with mode := .lost }
  | .paging => s.setCpu id { c with mode := .takeStack, cr3 := s.pageTable }
  | .takeStack => s.setCpu id { c with mode := .gdtSetup, esp := add32 (k.cpuStacks id) 0x1000 }
  | .gdtSetup => s.setCpu id { c with mode := .apMain, gdt := true }
  | .apMain =>
      match s.status id with
      | none => s.setCpu id { c with mode := .panicked }
      | some st =>
          { s.setCpu id { c with mode := .idtSetup } with
            status := Function.update s.status id (some { st with awoken := true }) }
  | .idtSetup => s.setCpu id { c with mode := .lapicSetup, idt := true }
  | .lapicSetup => s.setCpu id { c with mode := .enable, lapic := true }
  | .enable => s.setCpu id { c with mode := .scheduling, interrupts := true }

/-- A step of the first CPU, for `none`, or of another one. -/
def step : Option ℕ → State → State
  | none => k.bspStep
  | some id => k.apStep id

/-- The CPU of an entry can be started: it is there, it is not the first one, and it has a
`Status`. -/
def Startable (i : ℕ) : Prop :=
  k.present (k.procId i) = true ∧ k.procId i ≠ k.boot ∧ k.procId i < k.low.procCount

/-- Every other CPU can be started. -/
def AllStartable : Prop := ∀ i, 1 ≤ i → i < k.low.procCount → k.Startable i

/-- No two entries have the same number. -/
def Distinct : Prop :=
  ∀ i j, 1 ≤ i → i < k.low.procCount → 1 ≤ j → j < k.low.procCount → k.procId i = k.procId j → i = j

end Machine

/-! ## What the first CPU knows of the others -/

/-- What the CPU of the entry `j` may do. -/
def Bsp.Allows (j : ℕ) (m : Mode) : Bsp → Prop
  | .copy _ => m = .off
  | .init i => if j < i then m.isAwoken = true else m = .off
  | .startup i => if j < i then m.isAwoken = true else if j = i then m = .waiting else m = .off
  | .spin i => if j < i then m.isAwoken = true else if j = i then 2 ≤ m.rank else m = .off
  | .done => m.isAwoken = true
  | .panicked | .reset => False

/-- The indices of the loop. -/
def Bsp.InRange (n : ℕ) : Bsp → Prop
  | .init i => 1 ≤ i ∧ (i ≤ n ∨ i = 1)
  | .startup i | .spin i => 1 ≤ i ∧ i < n
  | .copy _ | .done => True
  | .panicked | .reset => False

/-- The copy of `ap.s`, as far as the first CPU has come. -/
def Bsp.Copied (k : Machine) (jump : ℕ → Byte) (pageTable : ℕ) : Bsp → Prop
  | .copy i => ∀ j < i, ∀ b, k.image[j]? = some b → jump j = b
  | _ => (List.range k.image.length).map jump = k.image ∧ pageTable = k.pageDir

/-- What a CPU has set up. -/
structure Cpu.Sound (k : Machine) (id : ℕ) (c : Cpu) : Prop where
  cr3 : 4 ≤ c.mode.rank → c.cr3 = k.pageDir
  esp : 5 ≤ c.mode.rank → c.esp = add32 (k.cpuStacks id) 0x1000
  gdt : 6 ≤ c.mode.rank → c.gdt = true
  idt : 8 ≤ c.mode.rank → c.idt = true
  lapic : 9 ≤ c.mode.rank → c.lapic = true
  interrupts : c.interrupts = true → 10 ≤ c.mode.rank

/-- The invariant. -/
structure Inv (k : Machine) (s : State) : Prop where
  inRange : s.bsp.InRange k.low.procCount
  copied : s.bsp.Copied k s.jump s.pageTable
  position : ∀ j, 1 ≤ j → j < k.low.procCount → s.bsp.Allows j (s.cpu (k.procId j)).mode
  others : ∀ id, (∀ j, 1 ≤ j → j < k.low.procCount → k.procId j ≠ id) → (s.cpu id).mode = .off
  status : ∀ id, s.status id = if id < k.low.procCount
    then some ⟨id, k.stack id, (s.cpu id).mode.isAwoken⟩ else none
  sound : ∀ id, (s.cpu id).Sound k id

variable {k : Machine} {s s' : State} {l : List Status} {order : ℕ → Option ℕ} {i j id : ℕ}
  {c c' : Cpu}

@[simp]
theorem State.setCpu_self : (s.setCpu id c).cpu id = c := Function.update_self ..

theorem State.setCpu_of_ne (h : j ≠ id) : (s.setCpu id c).cpu j = s.cpu j :=
  Function.update_of_ne h ..

theorem sound_reset {m : Mode} (h : m.rank ≤ 3) : (Cpu.reset m).Sound k id := by
  constructor
  case interrupts =>
    intro h
    cases h
  all_goals
    intro h'
    exact absurd (h'.trans h) (by decide)

/-- What `cpu::init` leaves. -/
theorem cpuInit_getElem? {stack : ℕ → ℕ} {n : ℕ} (h : cpuInit stack n = .ok l) :
    n ≤ maxCores ∧ ∀ i, l[i]? = if i < n then some ⟨i, stack i, false⟩ else none := by
  have hall : ∀ (is : List ℕ) (l : List Status), (is.mapM fun i =>
      if i < maxCores then .ok ⟨i, stack i, false⟩ else .error .outOfBounds :
        Except Acpi.LowStuck (List Status)) = .ok l →
      (∀ i ∈ is, i < maxCores) ∧ l = is.map fun i => ⟨i, stack i, false⟩ := by
    intro is
    induction is with
    | nil =>
      intro l hl
      simpa using (Except.ok.inj hl).symm
    | cons i is ih =>
      intro l hl
      rw [List.mapM_cons] at hl
      by_cases hi : i < maxCores
      · rw [if_pos hi] at hl
        rcases hrest : (is.mapM fun i => if i < maxCores then .ok ⟨i, stack i, false⟩
            else .error .outOfBounds : Except Acpi.LowStuck (List Status)) with e | l'
        · rw [hrest] at hl
          cases hl
        · rw [hrest] at hl
          obtain rfl := Except.ok.inj hl
          obtain ⟨hlt, rfl⟩ := ih l' hrest
          exact ⟨List.forall_mem_cons.mpr ⟨hi, hlt⟩, rfl⟩
      · rw [if_neg hi] at hl
        cases hl
  obtain ⟨hlt, rfl⟩ := hall _ _ h
  constructor
  · by_contra hle
    exact lt_irrefl _ (hlt maxCores (List.mem_range.mpr (not_le.mp hle)))
  · intro i
    split_ifs with hi
    · simp [hi]
    · simp [hi]

theorem inv_start (hinit : cpuInit k.stack k.low.procCount = .ok l) : Inv k (k.start l) where
  inRange := trivial
  copied := by
    intro j hj
    exact absurd hj (Nat.not_lt_zero j)
  position _ _ _ := rfl
  others _ _ := rfl
  status := (cpuInit_getElem? hinit).2
  sound _ := sound_reset (by decide)

/-- A CPU that has been started belongs to an entry. -/
theorem Inv.exists_entry (h : Inv k s) (hid : (s.cpu id).mode ≠ .off) :
    ∃ j, 1 ≤ j ∧ j < k.low.procCount ∧ k.procId j = id := by
  by_contra hno
  push Not at hno
  exact hid (h.others id hno)

/-- A CPU that has been started makes its next step. -/
structure Advances (k : Machine) (id : ℕ) (s s' : State) (c' : Cpu) : Prop where
  started : 2 ≤ (s.cpu id).mode.rank
  rank : c'.mode.rank = (s.cpu id).mode.rank + 1
  sound : c'.Sound k id
  cpu : s'.cpu = Function.update s.cpu id c'
  bsp : s'.bsp = s.bsp
  jump : s'.jump = s.jump
  pageTable : s'.pageTable = s.pageTable
  status : ∀ i, s'.status i = if i < k.low.procCount
    then some ⟨i, k.stack i, (s'.cpu i).mode.isAwoken⟩ else none

theorem Inv.advance (h : Inv k s) (hadv : Advances k id s s' c') : Inv k s' := by
  have hne : (s.cpu id).mode ≠ .off := by
    intro hoff
    exact absurd (hoff ▸ hadv.started) (by decide)
  refine ⟨hadv.bsp ▸ h.inRange, ?_, ?_, ?_, hadv.status, ?_⟩
  · rw [hadv.bsp, hadv.jump, hadv.pageTable]
    exact h.copied
  · intro j hj hlt
    have hpos := h.position j hj hlt
    rw [hadv.bsp, hadv.cpu]
    by_cases heq : k.procId j = id
    · have hstarted := hadv.started
      have hrank := hadv.rank
      rw [heq] at hpos ⊢
      rw [Function.update_self]
      revert hpos
      cases s.bsp <;> simp only [Bsp.Allows, Mode.isAwoken, decide_eq_true_eq] <;> grind [Mode.rank]
    · rwa [Function.update_of_ne heq]
  · intro i hi
    obtain ⟨j, hj, hlt, heq⟩ := h.exists_entry hne
    rw [hadv.cpu, Function.update_of_ne fun hii => hi j hj hlt (heq.trans hii.symm)]
    exact h.others i hi
  · intro i
    rw [hadv.cpu]
    by_cases heq : i = id
    · rw [heq, Function.update_self]
      exact hadv.sound
    · rw [Function.update_of_ne heq]
      exact h.sound i

/-- `ap.s` is in place when a CPU has been started. -/
theorem Inv.code (h : Inv k s) (hstarted : 2 ≤ (s.cpu id).mode.rank) :
    (List.range k.image.length).map s.jump = k.image ∧ s.pageTable = k.pageDir := by
  have hne : (s.cpu id).mode ≠ .off := by
    intro hoff
    rw [hoff] at hstarted
    exact absurd hstarted (by decide)
  obtain ⟨j, hj, hlt, rfl⟩ := h.exists_entry hne
  have hpos := h.position j hj hlt
  have hcopied := h.copied
  revert hpos hcopied
  cases s.bsp with
  | copy i =>
    intro hoff
    exact absurd hoff hne
  | panicked =>
    intro hfalse
    exact hfalse.elim
  | reset =>
    intro hfalse
    exact hfalse.elim
  | _ =>
    intro _ hcopied
    exact hcopied

/-- A step that only writes the CPU. -/
theorem Inv.advances_setCpu (h : Inv k s) (hstarted : 2 ≤ (s.cpu id).mode.rank)
    (hrank : c'.mode.rank = (s.cpu id).mode.rank + 1) (hsound : c'.Sound k id)
    (hsame : c'.mode.isAwoken = (s.cpu id).mode.isAwoken) :
    Advances k id s (s.setCpu id c') c' := by
  refine ⟨hstarted, hrank, hsound, rfl, rfl, rfl, rfl, fun i => ?_⟩
  have hawoken : ((s.setCpu id c').cpu i).mode.isAwoken = (s.cpu i).mode.isAwoken := by
    by_cases heq : i = id
    · rw [heq, State.setCpu_self, hsame]
    · rw [State.setCpu_of_ne heq]
  rw [hawoken]
  exact h.status i

/-- A CPU that has been started goes on up to its scheduler. -/
theorem Inv.apStep_advances (hgood : k.AllStartable) (h : Inv k s)
    (hlo : 2 ≤ (s.cpu id).mode.rank) (hhi : (s.cpu id).mode.rank < 10) :
    ∃ c', Advances k id s (k.apStep id s) c' := by
  have hcode := h.code hlo
  have hsound := h.sound id
  have hstatus := h.status id
  cases hm : (s.cpu id).mode with
  | jumper =>
    simp only [Machine.apStep, hm, if_pos hcode.1]
    refine ⟨_, h.advances_setCpu hlo (by rw [hm]; rfl) ?_ (by rw [hm]; rfl)⟩
    constructor <;> grind [Mode.rank, Cpu.Sound]
  | apMain =>
    obtain ⟨j, hj, hlt, heq⟩ := h.exists_entry (by rw [hm]; decide)
    have hidlt : id < k.low.procCount := heq ▸ (hgood j hj hlt).2.2
    rw [if_pos hidlt] at hstatus
    simp only [Machine.apStep, hm, hstatus]
    refine ⟨{ s.cpu id with mode := .idtSetup }, hlo, by rw [hm]; rfl, ?_, rfl, rfl, rfl, rfl, ?_⟩
    · constructor <;> grind [Mode.rank, Cpu.Sound]
    · intro i
      by_cases hi : i = id
      · rw [hi, if_pos hidlt, State.setCpu_self]
        exact Function.update_self ..
      · rw [State.setCpu_of_ne hi, ← h.status i]
        exact Function.update_of_ne hi ..
  | paging | takeStack | gdtSetup | idtSetup | lapicSetup | enable =>
    simp only [Machine.apStep, hm]
    refine ⟨_, h.advances_setCpu hlo (by rw [hm]; rfl) ?_ (by rw [hm]; rfl)⟩
    constructor <;> grind [Mode.rank, Cpu.Sound]
  | off | waiting | scheduling | lost | panicked =>
    rw [hm] at hlo hhi
    simp [Mode.rank] at hlo hhi

/-- A CPU that has not been started, or is in its scheduler, does nothing. -/
theorem apStep_idle (h : ¬ (2 ≤ (s.cpu id).mode.rank ∧ (s.cpu id).mode.rank < 10)) :
    k.apStep id s = s := by
  cases hm : (s.cpu id).mode <;> rw [hm] at h <;> simp [Mode.rank] at h <;>
    simp only [Machine.apStep, hm]

theorem Inv.apStep (hgood : k.AllStartable) (h : Inv k s) :
    Inv k (k.apStep id s) := by
  by_cases hmoves : 2 ≤ (s.cpu id).mode.rank ∧ (s.cpu id).mode.rank < 10
  · obtain ⟨c', hadv⟩ := h.apStep_advances hgood hmoves.1 hmoves.2
    exact h.advance hadv
  · rwa [apStep_idle hmoves]

/-- What the first CPU does to another one that has not been started leaves `awoken` as it is. -/
theorem Inv.status_start (h : Inv k s) (hbefore : (s.cpu id).mode.rank < 2)
    (hafter : c'.mode.rank ≤ 2) (i : ℕ) : s.status i = if i < k.low.procCount
      then some ⟨i, k.stack i, ((s.setCpu id c').cpu i).mode.isAwoken⟩ else none := by
  rw [h.status i]
  by_cases heq : i = id
  · have hsame : (s.cpu id).mode.isAwoken = c'.mode.isAwoken := by
      rw [Mode.isAwoken, Mode.isAwoken, decide_eq_false (by omega), decide_eq_false (by omega)]
    rw [heq, State.setCpu_self, hsame]
  · rw [State.setCpu_of_ne heq]

/-- The first CPU writes another one. -/
theorem Inv.start_cpu (h : Inv k s) (hi : 1 ≤ i) (hlt : i < k.low.procCount)
    (hbefore : (s.cpu (k.procId i)).mode.rank < 2) (hafter : c'.mode.rank ≤ 2)
    (hsound : c'.Sound k (k.procId i)) {pc : Bsp} (hrange : pc.InRange k.low.procCount)
    (hcopied : pc.Copied k s.jump s.pageTable)
    (hself : pc.Allows i c'.mode)
    (hpos : ∀ j, 1 ≤ j → j < k.low.procCount → j ≠ i → pc.Allows j (s.cpu (k.procId j)).mode)
    (hdist : k.Distinct) :
    Inv k { s.setCpu (k.procId i) c' with bsp := pc } := by
  refine ⟨hrange, hcopied, ?_, ?_, h.status_start hbefore hafter, ?_⟩
  · intro j hj hjlt
    by_cases heq : j = i
    · rw [heq, State.setCpu_self]
      exact hself
    · rw [State.setCpu_of_ne fun hid => heq (hdist j i hj hjlt hi hlt hid)]
      exact hpos j hj hjlt heq
  · intro id hid
    rw [State.setCpu_of_ne (hid i hi hlt).symm]
    exact h.others id hid
  · intro id
    by_cases heq : id = k.procId i
    · rw [heq, State.setCpu_self]
      exact hsound
    · rw [State.setCpu_of_ne heq]
      exact h.sound id

/-- The first CPU goes on without writing another one. -/
theorem Inv.goto (h : Inv k s) {pc : Bsp} {jump : ℕ → Byte} {pageTable : ℕ}
    (hrange : pc.InRange k.low.procCount) (hcopied : pc.Copied k jump pageTable)
    (hpos : ∀ j, 1 ≤ j → j < k.low.procCount → s.bsp.Allows j (s.cpu (k.procId j)).mode →
      pc.Allows j (s.cpu (k.procId j)).mode) :
    Inv k { s with bsp := pc, jump := jump, pageTable := pageTable } :=
  ⟨hrange, hcopied, fun j hj hlt => hpos j hj hlt (h.position j hj hlt), h.others, h.status,
    h.sound⟩

theorem Inv.bspStep (hgood : k.AllStartable) (hdist : k.Distinct)
    (hle : k.low.procCount ≤ maxCores) (h : Inv k s) : Inv k (k.bspStep s) := by
  have hrange := h.inRange
  have hcopied := h.copied
  have hposition := h.position
  cases hpc : s.bsp with
  | copy i =>
    rw [hpc] at hcopied
    simp only [Machine.bspStep, hpc]
    rcases hb : k.image[i]? with _ | b
    · refine h.goto ⟨le_rfl, .inr rfl⟩ ⟨?_, rfl⟩ fun j hj _ hoff => ?_
      · apply List.ext_getElem?
        intro j
        rcases lt_or_ge j k.image.length with hj | hj
        · have hji : j < i := hj.trans_le (List.getElem?_eq_none_iff.mp hb)
          simp [hj, hcopied j hji _ (List.getElem?_eq_getElem hj)]
        · simp [hj]
      · rw [hpc] at hoff
        rwa [Bsp.Allows, if_neg (not_lt.mpr hj)]
    · refine h.goto trivial ?_ fun j _ _ hoff => ?_
      · intro j hj b' hb'
        rcases Nat.lt_succ_iff_lt_or_eq.mp hj with hlt | rfl
        · rw [Function.update_of_ne hlt.ne]
          exact hcopied j hlt b' hb'
        · rw [Function.update_self]
          exact Option.some.inj (hb.symm.trans hb')
      · rw [hpc] at hoff
        exact hoff
  | init i =>
    rw [hpc] at hrange hcopied hposition
    simp only [Machine.bspStep, hpc]
    by_cases hlt : i < k.low.procCount
    · have hstart := hgood i hrange.1 hlt
      have hoff : (s.cpu (k.procId i)).mode = .off := by
        have hpos := hposition i hrange.1 hlt
        rwa [Bsp.Allows, if_neg (lt_irrefl i)] at hpos
      rw [if_pos ⟨hlt, hlt.trans_le hle⟩, if_neg hstart.2.1, if_pos hstart.1]
      refine h.start_cpu hrange.1 hlt (by rw [hoff]; decide) (by decide) (sound_reset (by decide))
        ⟨hrange.1, hlt⟩ hcopied ?_ ?_ hdist
      · simp [Bsp.Allows, Cpu.reset]
      · intro j hj hjlt hne
        have hpos := hposition j hj hjlt
        simpa only [Bsp.Allows, if_neg hne] using hpos
    · rw [if_neg fun hc => hlt hc.1]
      refine h.goto trivial hcopied fun j hj hjlt hpos => ?_
      rw [hpc] at hpos
      rwa [Bsp.Allows, if_pos (by omega)] at hpos
  | startup i =>
    rw [hpc] at hrange hcopied hposition
    have hwaiting : (s.cpu (k.procId i)).mode = .waiting := by
      have hpos := hposition i hrange.1 hrange.2
      rwa [Bsp.Allows, if_neg (lt_irrefl i), if_pos rfl] at hpos
    simp only [Machine.bspStep, hpc]
    rw [if_pos hwaiting]
    refine h.start_cpu hrange.1 hrange.2 (by rw [hwaiting]; decide) le_rfl ?_ hrange hcopied ?_ ?_
      hdist
    · have hsound := h.sound (k.procId i)
      constructor <;> grind [Mode.rank, Cpu.Sound]
    · simp [Bsp.Allows, Mode.rank]
    · intro j hj hjlt hne
      have hpos := hposition j hj hjlt
      simpa only [Bsp.Allows, if_neg hne] using hpos
  | spin i =>
    rw [hpc] at hrange hcopied hposition
    have hstatus := h.status (k.procId i)
    rw [if_pos (hgood i hrange.1 hrange.2).2.2] at hstatus
    simp only [Machine.bspStep, hpc, hstatus]
    split_ifs with hawoken
    · refine h.goto ⟨Nat.le_add_left 1 i, .inl hrange.2⟩ hcopied fun j hj hjlt hpos => ?_
      rw [hpc] at hpos
      by_cases heq : j = i
      · rw [Bsp.Allows, if_pos (by omega), heq]
        exact hawoken
      · rw [Bsp.Allows, if_neg heq] at hpos
        rw [Bsp.Allows]
        grind
    · exact h
  | done =>
    simp only [Machine.bspStep, hpc]
    exact h
  | panicked | reset =>
    rw [hpc] at hrange
    exact hrange.elim

/-! ## Getting to the end of the loop -/

/-- What is left until the loop ends. -/
def rank (k : Machine) (s : State) : ℕ :=
  match s.bsp with
  | .copy i => (k.image.length - i) + 1 + k.low.procCount * 20
  | .init i => (k.low.procCount + 1 - i) * 20
  | .startup i => (k.low.procCount + 1 - i) * 20 - 1
  | .spin i =>
      if (s.cpu (k.procId i)).mode.isAwoken then (k.low.procCount + 1 - i) * 20 - 19
      else (k.low.procCount + 1 - i) * 20 - 2 - (s.cpu (k.procId i)).mode.rank
  | .done | .panicked | .reset => 0

/-- The CPU whose step is waited for. -/
def turn (k : Machine) (s : State) : Option ℕ :=
  match s.bsp with
  | .spin i => if (s.cpu (k.procId i)).mode.isAwoken then none else some (k.procId i)
  | _ => none

theorem Inv.rank_bspStep (hgood : k.AllStartable) (hle : k.low.procCount ≤ maxCores) (h : Inv k s)
    (hturn : turn k s = none) (hne : s.bsp ≠ .done) :
    (k.bspStep s).bsp = .done ∨ rank k (k.bspStep s) < rank k s := by
  have hrange := h.inRange
  have hposition := h.position
  cases hpc : s.bsp with
  | copy i =>
    right
    simp only [Machine.bspStep, hpc]
    rcases hb : k.image[i]? with _ | b
    · simp only [rank, hpc]
      omega
    · have hi : i < k.image.length := (List.getElem?_eq_some_iff.mp hb).1
      simp only [rank, hpc]
      omega
  | init i =>
    rw [hpc] at hrange
    simp only [Machine.bspStep, hpc]
    by_cases hlt : i < k.low.procCount
    · have hstart := hgood i hrange.1 hlt
      right
      rw [if_pos ⟨hlt, hlt.trans_le hle⟩, if_neg hstart.2.1, if_pos hstart.1]
      simp only [rank, hpc]
      omega
    · rw [if_neg fun hc => hlt hc.1]
      exact .inl rfl
  | startup i =>
    rw [hpc] at hrange hposition
    have hwaiting : (s.cpu (k.procId i)).mode = .waiting := by
      have hpos := hposition i hrange.1 hrange.2
      rwa [Bsp.Allows, if_neg (lt_irrefl i), if_pos rfl] at hpos
    right
    simp only [Machine.bspStep, hpc]
    rw [if_pos hwaiting]
    have hjumper : Mode.jumper.isAwoken = false := rfl
    simp only [rank, hpc, State.setCpu_self, hjumper, Mode.rank]
    have hlt := hrange.2
    rw [if_neg Bool.false_ne_true]
    omega
  | spin i =>
    rw [hpc] at hrange
    have hawoken : (s.cpu (k.procId i)).mode.isAwoken = true := by
      by_contra hno
      simp [turn, hpc, hno] at hturn
    have hstatus := h.status (k.procId i)
    rw [if_pos (hgood i hrange.1 hrange.2).2.2, hawoken] at hstatus
    right
    simp only [Machine.bspStep, hpc, hstatus, rank, hawoken, if_true]
    have hlt := hrange.2
    omega
  | done => exact absurd hpc hne
  | panicked | reset =>
    rw [hpc] at hrange
    exact hrange.elim

theorem turn_eq_some (h : turn k s = some id) :
    ∃ i, s.bsp = .spin i ∧ (s.cpu (k.procId i)).mode.isAwoken = false ∧ k.procId i = id := by
  rw [turn] at h
  cases hpc : s.bsp with
  | spin i =>
    simp only [hpc] at h
    split_ifs at h with hawoken
    exact ⟨i, rfl, eq_false_of_ne_true hawoken, Option.some.inj h⟩
  | _ =>
    rw [hpc] at h
    cases h

/-- The rank depends on the CPU that is waited for. -/
theorem rank_congr (hbsp : s'.bsp = s.bsp)
    (hcpu : ∀ i, s.bsp = .spin i → (s'.cpu (k.procId i)).mode = (s.cpu (k.procId i)).mode ∨
      (s'.cpu (k.procId i)).mode.isAwoken = true ∧ (s.cpu (k.procId i)).mode.isAwoken = true) :
    rank k s' = rank k s ∧ turn k s' = turn k s := by
  rw [rank, rank, turn, turn, hbsp]
  cases hpc : s.bsp with
  | spin i =>
    rcases hcpu i hpc with hmode | hawoken
    · simp [hmode]
    · simp [hawoken]
  | _ => exact ⟨rfl, rfl⟩

/-- The steps of a CPU that is not waited for. -/
theorem Inv.rank_other (hgood : k.AllStartable) (h : Inv k s)
    (p : Option ℕ) (hp : p ≠ turn k s) :
    (k.step p s).bsp = .done ∨ rank k (k.step p s) < rank k s ∨
      rank k (k.step p s) = rank k s ∧ turn k (k.step p s) = turn k s := by
  cases p with
  | none =>
    right
    right
    have hrange := h.inRange
    obtain ⟨id, hid⟩ := Option.ne_none_iff_exists'.mp hp.symm
    obtain ⟨i, hpc, hawoken, -⟩ := turn_eq_some hid
    rw [hpc] at hrange
    have hstatus := h.status (k.procId i)
    rw [if_pos (hgood i hrange.1 hrange.2).2.2, hawoken] at hstatus
    have hsame : k.bspStep s = s := by
      simp [Machine.bspStep, hpc, hstatus]
    rw [Machine.step, hsame]
    exact ⟨rfl, rfl⟩
  | some id =>
    right
    right
    rw [Machine.step]
    by_cases hmoves : 2 ≤ (s.cpu id).mode.rank ∧ (s.cpu id).mode.rank < 10
    · obtain ⟨c', hadv⟩ := h.apStep_advances hgood hmoves.1 hmoves.2
      refine rank_congr hadv.bsp fun i hpc => ?_
      by_cases heq : k.procId i = id
      · right
        have hawoken : (s.cpu (k.procId i)).mode.isAwoken = true := by
          by_contra hno
          rw [heq] at hno
          exact hp (by simp [turn, hpc, hno, heq])
        refine ⟨?_, hawoken⟩
        rw [heq] at hawoken ⊢
        have hrank := hadv.rank
        rw [hadv.cpu, Function.update_self]
        simp only [Mode.isAwoken, decide_eq_true_eq] at hawoken ⊢
        omega
      · rw [hadv.cpu, Function.update_of_ne heq]
        exact .inl rfl
    · rw [apStep_idle hmoves]
      exact ⟨rfl, rfl⟩

/-- The CPU that is waited for goes on. -/
theorem Inv.rank_turn (hgood : k.AllStartable)
    (hle : k.low.procCount ≤ maxCores) (h : Inv k s) (hne : s.bsp ≠ .done) :
    (k.step (turn k s) s).bsp = .done ∨ rank k (k.step (turn k s) s) < rank k s := by
  rcases hturn : turn k s with _ | id
  · exact h.rank_bspStep hgood hle hturn hne
  · have hrange := h.inRange
    have hposition := h.position
    obtain ⟨i, hpc, hawoken, rfl⟩ := turn_eq_some hturn
    rw [hpc] at hrange hposition
    have hpos := hposition i hrange.1 hrange.2
    rw [Bsp.Allows, if_neg (lt_irrefl i), if_pos rfl] at hpos
    have hlt : (s.cpu (k.procId i)).mode.rank < 7 := by
      simpa [Mode.isAwoken] using hawoken
    obtain ⟨c', hadv⟩ := h.apStep_advances hgood hpos (by omega)
    right
    have hrank := hadv.rank
    have hlt' := hrange.2
    simp only [Machine.step, rank, hadv.bsp, hpc, hadv.cpu, Function.update_self, hawoken]
    rw [if_neg Bool.false_ne_true]
    split_ifs <;> omega

/-! ## What the end of the loop says -/

/-- The entries that the loop has passed. -/
def Bsp.Passed (n j : ℕ) : Bsp → Prop
  | .init i | .startup i | .spin i => j < i
  | .done => j < n ∧ j < maxCores
  | .copy _ | .panicked | .reset => False

/-- What holds whatever the firmware says. -/
structure Weak (k : Machine) (s : State) : Prop where
  passed : ∀ j, 1 ≤ j → s.bsp.Passed k.low.procCount j → k.Startable j
  mode : ∀ id, (s.cpu id).mode ≠ .off → k.present id = true ∧ id ≠ k.boot
  status : ∀ id st, s.status id = some st → id < k.low.procCount ∧
    (st.awoken = true → k.present id = true ∧ id ≠ k.boot)

theorem weak_start (hinit : cpuInit k.stack k.low.procCount = .ok l) : Weak k (k.start l) := by
  refine ⟨fun _ _ h => h.elim, fun id h => absurd rfl h, fun id st h => ?_⟩
  have hstatus : (k.start l).status id = _ := (cpuInit_getElem? hinit).2 id
  rw [hstatus] at h
  split_ifs at h with hlt
  refine ⟨hlt, fun hawoken => ?_⟩
  rw [← Option.some.inj h] at hawoken
  cases hawoken

/-- A CPU that has not been started does nothing, and only what has been started is awoken. -/
theorem apStep_frame : (k.apStep id s).bsp = s.bsp ∧
    (∀ j, (s.cpu j).mode = .off → ((k.apStep id s).cpu j).mode = .off) ∧
    ∀ j st', (k.apStep id s).status j = some st' → ∃ st, s.status j = some st ∧
      (st'.awoken = true → st.awoken = true ∨ (s.cpu j).mode ≠ .off) := by
  by_cases hoff : (s.cpu id).mode = .off
  · rw [apStep_idle (by rw [hoff]; decide)]
    exact ⟨rfl, fun _ h => h, fun j st' h => ⟨st', h, .inl⟩⟩
  · have hother : ∀ c j, (s.cpu j).mode = .off → ((s.setCpu id c).cpu j).mode = .off := by
      intro c j hj
      rwa [State.setCpu_of_ne fun heq => hoff (by rw [← heq, hj])]
    have hsame : ∀ j st', s.status j = some st' → ∃ st, s.status j = some st ∧
        (st'.awoken = true → st.awoken = true ∨ (s.cpu j).mode ≠ .off) :=
      fun j st' h => ⟨st', h, .inl⟩
    cases hm : (s.cpu id).mode with
    | apMain =>
      simp only [Machine.apStep, hm]
      rcases hst : s.status id with _ | st
      · exact ⟨rfl, hother _, hsame⟩
      · refine ⟨rfl, hother _, fun j st' h => ?_⟩
        by_cases heq : j = id
        · rw [heq]
          exact ⟨st, hst, fun _ => .inr hoff⟩
        · exact hsame j st' ((Function.update_of_ne heq ..).symm.trans h)
    | jumper =>
      simp only [Machine.apStep, hm]
      split_ifs
      · exact ⟨rfl, hother _, hsame⟩
      · exact ⟨rfl, hother _, hsame⟩
    | off => exact absurd hm hoff
    | waiting | scheduling | lost | panicked =>
      simp only [Machine.apStep, hm]
      exact ⟨trivial, fun _ h => h, hsame⟩
    | _ =>
      simp only [Machine.apStep, hm]
      exact ⟨rfl, hother _, hsame⟩

theorem Weak.apStep (h : Weak k s) : Weak k (k.apStep id s) := by
  obtain ⟨hbsp, hmode, hstatus⟩ := @apStep_frame k s id
  refine ⟨hbsp ▸ h.passed, fun j hj => h.mode j fun hoff => hj (hmode j hoff), fun j st' hst' => ?_⟩
  obtain ⟨st, hst, hawoken⟩ := hstatus j st' hst'
  obtain ⟨hlt, hst⟩ := h.status j st hst
  refine ⟨hlt, fun h' => ?_⟩
  rcases hawoken h' with hold | hstarted
  · exact hst hold
  · exact h.mode j hstarted

/-- The first CPU only passes a CPU that has set `awoken`. -/
theorem Weak.bspStep (h : Weak k s) : Weak k (k.bspStep s) := by
  have hpassed := h.passed
  have hset : ∀ {id : ℕ} {c : Cpu}, k.present id = true ∧ id ≠ k.boot → ∀ j,
      ((s.setCpu id c).cpu j).mode ≠ .off → k.present j = true ∧ j ≠ k.boot := by
    intro id c hid j hj
    by_cases heq : j = id
    · exact heq ▸ hid
    · rw [State.setCpu_of_ne heq] at hj
      exact h.mode j hj
  cases hpc : s.bsp with
  | copy i =>
    simp only [Machine.bspStep, hpc]
    rcases k.image[i]? with _ | b
    · exact ⟨fun j hj hlt => absurd hj (not_le.mpr hlt), h.mode, h.status⟩
    · exact ⟨fun _ _ hfalse => hfalse.elim, h.mode, h.status⟩
  | init i =>
    rw [hpc] at hpassed
    simp only [Machine.bspStep, hpc]
    split_ifs with hlt hboot hpresent
    · exact ⟨fun _ _ hfalse => hfalse.elim, h.mode, h.status⟩
    · exact ⟨hpassed, hset ⟨hpresent, hboot⟩, h.status⟩
    · exact ⟨hpassed, h.mode, h.status⟩
    · refine ⟨fun j hj hjlt => hpassed j hj ?_, h.mode, h.status⟩
      by_contra hge
      exact hlt ⟨(not_lt.mp hge).trans_lt hjlt.1, (not_lt.mp hge).trans_lt hjlt.2⟩
  | startup i =>
    rw [hpc] at hpassed
    simp only [Machine.bspStep, hpc]
    split_ifs with hwaiting
    · exact ⟨hpassed, hset (h.mode _ (by rw [hwaiting]; decide)), h.status⟩
    · exact ⟨hpassed, h.mode, h.status⟩
  | spin i =>
    rw [hpc] at hpassed
    simp only [Machine.bspStep, hpc]
    rcases hst : s.status (k.procId i) with _ | st
    · exact ⟨fun _ _ hfalse => hfalse.elim, h.mode, h.status⟩
    · simp only
      split_ifs with hawoken
      · refine ⟨fun j hj hjlt => ?_, h.mode, h.status⟩
        obtain ⟨hlt, hst⟩ := h.status _ st hst
        rcases Nat.lt_succ_iff_lt_or_eq.mp hjlt with hjlt | rfl
        · exact hpassed j hj hjlt
        · exact ⟨(hst hawoken).1, (hst hawoken).2, hlt⟩
      · exact h
  | done | panicked | reset =>
    simp only [Machine.bspStep, hpc]
    exact h

theorem Weak.step (p : Option ℕ) (h : Weak k s) : Weak k (k.step p s) := by
  cases p with
  | none => exact h.bspStep
  | some id => exact h.apStep

theorem Inv.step (hgood : k.AllStartable) (hdist : k.Distinct)
    (hle : k.low.procCount ≤ maxCores) (p : Option ℕ) (h : Inv k s) : Inv k (k.step p s) := by
  cases p with
  | none => exact h.bspStep hgood hdist hle
  | some id => exact h.apStep hgood

/-- A CPU is only being started while the first one waits for it. -/
theorem Inv.starting (h : Inv k s) (hid : (s.cpu id).mode.Starting) :
    ∃ i, s.bsp = .spin i ∧ k.procId i = id := by
  have hne : (s.cpu id).mode ≠ .off := by
    intro hoff
    exact absurd (hoff ▸ hid.1) (by decide)
  obtain ⟨j, hj, hlt, rfl⟩ := h.exists_entry hne
  have hpos := h.position j hj hlt
  have hlo := hid.1
  have hhi := hid.2
  cases hpc : s.bsp <;> rw [hpc] at hpos <;>
    simp only [Bsp.Allows, Mode.isAwoken, decide_eq_true_eq] at hpos <;> grind [Mode.rank]

/-- A CPU that is awoken has a `Status`. -/
theorem Inv.lt_of_awoken (hgood : k.AllStartable) (h : Inv k s)
    (hid : (s.cpu id).mode.isAwoken = true) : id < k.low.procCount := by
  obtain ⟨j, hj, hlt, rfl⟩ := h.exists_entry fun hoff => by
    rw [hoff] at hid
    cases hid
  exact (hgood j hj hlt).2.2

theorem bspStep_status : (k.bspStep s).status = s.status := by
  rw [Machine.bspStep]
  split
  · split <;> rfl
  · split_ifs <;> rfl
  · split_ifs <;> rfl
  · split
    · rfl
    · split_ifs <;> rfl
  all_goals rfl

/-- A CPU stays awoken. -/
theorem Inv.awoken_step (hgood : k.AllStartable)
    (hdist : k.Distinct) (hle : k.low.procCount ≤ maxCores) (h : Inv k s) (p : Option ℕ)
    (hid : (s.cpu id).mode.isAwoken = true) : ((k.step p s).cpu id).mode.isAwoken = true := by
  cases p with
  | none =>
    have hbefore := h.status id
    have hafter := (h.bspStep hgood hdist hle).status id
    rw [bspStep_status, hbefore, if_pos (h.lt_of_awoken hgood hid),
      if_pos (h.lt_of_awoken hgood hid), hid] at hafter
    exact (Status.mk.inj (Option.some.inj hafter)).2.2.symm
  | some i =>
    rw [Machine.step]
    by_cases hmoves : 2 ≤ (s.cpu i).mode.rank ∧ (s.cpu i).mode.rank < 10
    · obtain ⟨c', hadv⟩ := h.apStep_advances hgood hmoves.1 hmoves.2
      rw [hadv.cpu]
      by_cases heq : id = i
      · have hrank := hadv.rank
        rw [heq] at hid ⊢
        rw [Function.update_self]
        simp only [Mode.isAwoken, decide_eq_true_eq] at hid ⊢
        omega
      · rwa [Function.update_of_ne heq]
    · rwa [apStep_idle hmoves]

/-- Where no two entries of the firmware have the same number, the first CPU gets to the end of its
loop, in any fair order, exactly when every other entry has the number of a CPU that is there, is
not the first one and has a `Status`. -/
theorem Machine.awaken_returns_iff (hinit : cpuInit k.stack k.low.procCount = .ok l)
    (hdist : k.Distinct) (hfair : IsFair order) :
    (∃ t, (stateAt k.step order (k.start l) t).bsp = .done) ↔ k.AllStartable := by
  have hle := (cpuInit_getElem? hinit).1
  constructor
  · rintro ⟨t, ht⟩ i hi hlt
    have hweak : Weak k (stateAt k.step order (k.start l) t) :=
      always (fun p _ h => Weak.step p h) (weak_start hinit) t
    refine hweak.passed i hi ?_
    rw [ht]
    exact ⟨hlt, hlt.trans_le hle⟩
  · intro hgood
    exact eventually hfair (rank k) (turn k) (fun p _ h => h.step hgood hdist hle p)
      (fun _ h hne => h.rank_turn hgood hle hne) (fun p _ h _ hp => h.rank_other hgood p hp)
      (inv_start hinit)

/-- Two CPUs. -/
def twoCpus : Machine where
  low :=
    { acpiFound := true
      procCount := 2
      ioapicCount := 1
      isoCount := 0
      lapicBase := 0xfee00000
      procs := fun i => [BitVec.ofNat 8 i, BitVec.ofNat 8 i, 0, 0, 1, 0, 0, 0]
      ioapics := fun _ => []
      isos := fun _ => [] }
  image := [0xea, 0x05]
  before := fun _ => 0
  pageDir := 0x200000
  stack := fun i => 0xc0400000 + 0x1000 * i
  boot := 0
  present := fun id => id < 2

/-- The `Status` of both. -/
def twoStatus : List Status := [⟨0, 0xc0400000, false⟩, ⟨1, 0xc0401000, false⟩]

/-- Every CPU has its turn again and again. -/
def everyTurn (t : ℕ) : Option ℕ :=
  match t.unpair.1 with
  | 0 => none
  | id + 1 => some id

theorem isFair_everyTurn : IsFair everyTurn := by
  intro p t
  cases p with
  | none => exact ⟨Nat.pair 0 t, Nat.right_le_pair 0 t, by simp [everyTurn]⟩
  | some id => exact ⟨Nat.pair (id + 1) t, Nat.right_le_pair _ t, by simp [everyTurn]⟩

theorem twoCpus_distinct : twoCpus.Distinct := by
  intro i j hi hlt hj hlt' _
  change i < 2 at hlt
  change j < 2 at hlt'
  omega

theorem twoCpus_startable : twoCpus.AllStartable := by
  intro i hi hlt
  change i < 2 at hlt
  obtain rfl : i = 1 := by omega
  exact ⟨by decide, by decide, by decide⟩

theorem awaken_returns_twoCpus :
    ∃ t, (stateAt twoCpus.step everyTurn (twoCpus.start twoStatus) t).bsp = .done :=
  (Machine.awaken_returns_iff rfl twoCpus_distinct isFair_everyTurn).mpr twoCpus_startable

/-- A CPU that has its own stack, the kernel's pages and its descriptor table. -/
def Cpu.InKernel (k : Machine) (id : ℕ) (c : Cpu) : Prop :=
  c.cr3 = k.pageDir ∧ c.esp = add32 (k.stack id) 0x1000 ∧ c.gdt = true

/-- Where the entries are distinct and can be started, in any order of the steps: no two CPUs are
being started at a time; a CPU that has set `awoken` is in the kernel, and stays there; one whose
interrupts are on has its IDT and its local APIC; at the end of the loop every CPU has set
`awoken`. -/
theorem Machine.awaken_safe (hinit : cpuInit k.stack k.low.procCount = .ok l) (hdist : k.Distinct)
    (hgood : k.AllStartable) (order : ℕ → Option ℕ) (t : ℕ) :
    let s := stateAt k.step order (k.start l) t
    (∀ id id', (s.cpu id).mode.Starting → (s.cpu id').mode.Starting → id = id') ∧
    (∀ id, (s.cpu id).mode.isAwoken = true → (s.cpu id).InKernel k id) ∧
    (∀ id, (s.cpu id).interrupts = true → (s.cpu id).mode.isAwoken = true ∧ (s.cpu id).idt = true ∧
      (s.cpu id).lapic = true) ∧
    (∀ id t', t ≤ t' → (s.cpu id).mode.isAwoken = true →
      ((stateAt k.step order (k.start l) t').cpu id).mode.isAwoken = true) ∧
    (s.bsp = .done → ∀ i, 1 ≤ i → i < k.low.procCount →
      (s.cpu (k.procId i)).mode.isAwoken = true) := by
  have hle := (cpuInit_getElem? hinit).1
  have hinv : ∀ t, Inv k (stateAt k.step order (k.start l) t) :=
    always (fun p _ h => h.step hgood hdist hle p) (inv_start hinit)
  intro s
  refine ⟨?_, ?_, ?_, ?_, ?_⟩
  · intro id id' hid hid'
    obtain ⟨i, hi, rfl⟩ := (hinv t).starting hid
    obtain ⟨i', hi', rfl⟩ := (hinv t).starting hid'
    rw [Bsp.spin.inj (hi.symm.trans hi')]
  · intro id hid
    have hsound : (s.cpu id).Sound k id := (hinv t).sound id
    have hlt := (hinv t).lt_of_awoken hgood hid
    have hrank : 7 ≤ (s.cpu id).mode.rank := by simpa [Mode.isAwoken] using hid
    refine ⟨hsound.cr3 (by omega), ?_, hsound.gdt (by omega)⟩
    rw [hsound.esp (by omega), Machine.cpuStacks, if_pos hlt]
  · intro id hid
    have hsound : (s.cpu id).Sound k id := (hinv t).sound id
    have hrank : 10 ≤ (s.cpu id).mode.rank := hsound.interrupts hid
    refine ⟨?_, hsound.idt (by omega), hsound.lapic (by omega)⟩
    rw [Mode.isAwoken, decide_eq_true_eq]
    omega
  · intro id t' hle' hid
    induction t', hle' using Nat.le_induction with
    | base => exact hid
    | succ t' _ ih => exact (hinv t').awoken_step hgood hdist hle (order t') ih
  · intro hdone i hi hlt
    have hpos := (hinv t).position i hi hlt
    rwa [hdone] at hpos

/-- Both CPUs take turns. -/
def bothTurns (t : ℕ) : Option ℕ := if t % 2 = 0 then none else some 1

theorem awaken_safe_twoCpus :
    ((stateAt twoCpus.step bothTurns (twoCpus.start twoStatus) 30).cpu 1).mode.isAwoken = true :=
  (Machine.awaken_safe rfl twoCpus_distinct twoCpus_startable bothTurns 30).2.2.2.2
    (by decide +kernel) 1 le_rfl (by decide)

end Cantos.Awaken
