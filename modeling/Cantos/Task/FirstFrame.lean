import Cantos.Vm.Fault
import Mathlib.Data.BitVec

/-!
# The first frame of a thread

The constructor of a thread writes the frame that `task_asm_enter` pops when the thread is
entered for the first time.  It writes through a mapping of the page of the stack in the
kernel, and the frame is popped through the map of the thread.

The registers that `popal` pops are written below the place it pops them from, so that it
pops what was in the page before.

## Main definitions

* `buildFrame`, `stackPointer`: the frame, and where it is popped from.
* `Instr`, `Regs`, `exec`: the instructions of `asm.s`.
* `Starts`: how a thread should start.
-/

namespace Cantos

/-- `uint32_t`, as a register or a word of memory holds it. -/
abbrev Word := BitVec 32

/-- The words of physical memory, by their addresses. -/
abbrev Memory := ℕ → Word

/-! ## The constructor -/

/-- `idt_proc_state_t` -/
structure ProcState where
  edi : Word
  esi : Word
  ebp : Word
  esp : Word
  ebx : Word
  edx : Word
  ecx : Word
  eax : Word
  deriving DecidableEq, Repr

/-- The words of a `ProcState` in memory. -/
def ProcState.words (p : ProcState) : List Word :=
  [p.edi, p.esi, p.ebp, p.esp, p.ebx, p.edx, p.ecx, p.eax]

/-- `sizeof(idt_proc_state_t)` -/
def sizeofProcState : ℕ := 32

/-- `sizeof(void *)`, and of a `uint32_t`. -/
def sizeofWord : ℕ := 4

/-- `TASK_STACK_TOP` -/
def taskStackTop : ℕ := kernelVmBase

/-- `_INIT_FLAGS` -/
def initFlags : Word := 0

/-- `memcpy` of some words. -/
def copyWords : (dest : ℕ) → List Word → Memory → Memory
  | _, [], memory => memory
  | dest, w :: ws, memory => copyWords (dest + sizeofWord) ws (Function.update memory dest w)

/-- The addresses of the code that a thread starts in. -/
structure Symbols where
  taskEnd : Word
  taskAsmEntryPoint : Word
  entry : Word

/-- The page of the stack, as `page::alloc(0, 1)` returns it. -/
structure StackPage where
  page : Page
  single : page.consecutive = 1
  aligned : page.memBase % pageSize = 0
  below : page.memBase < 2 ^ 32

/-- `pstate` -/
def pstate : ProcState := ⟨0, 0, 0, 0, 0, 0, 0, 0⟩

/-- The part of `Thread::Thread` that writes the frame, with the page mapped at
`stackInstalled`. -/
def buildFrame (stack : StackPage) (stackInstalled : ℕ) (f : Symbols) (memory : Memory) : Memory :=
  let phys (a : ℕ) := stack.page.memBase + (a - stackInstalled)
  let sp := stackInstalled + pageSize - sizeofWord
  let memory := Function.update memory (phys sp) f.taskEnd
  let sp := sp - sizeofWord
  let memory := Function.update memory (phys sp) f.entry
  let sp := sp - sizeofWord
  let memory := Function.update memory (phys sp) f.taskAsmEntryPoint
  let sp := sp - sizeofWord
  let memory := Function.update memory (phys sp) initFlags
  let sp := sp - sizeofProcState
  copyWords (phys (sp - sizeofProcState)) pstate.words memory

/-- `stack_pointer` -/
def stackPointer : ℕ := taskStackTop - sizeofWord * 4 - sizeofProcState

/-- The window of a thread on its stack. -/
def stackWindow : ObjectInMap := ⟨0, 0, taskStackTop - pageSize, 0, 1⟩

/-- The map of the thread: the page is generated, and shown below the top of the stack. -/
def threadMap (stack : StackPage) : Map :=
  ((onePage.generate 0 0 1 [stack.page]).addObject stackWindow).maps 0

/-! ## The switch -/

/-- The physical address of a logical one. -/
def Map.phys (m : Map) (a : ℕ) : ℕ := m.entry (a / pageSize) / pageSize * pageSize + a % pageSize

/-- The registers of a CPU. -/
structure Regs where
  edi : Word
  esi : Word
  ebp : Word
  esp : Word
  ebx : Word
  edx : Word
  ecx : Word
  eax : Word
  eip : Word
  eflags : Word
  deriving DecidableEq, Repr

/-- The instructions of the switch. -/
inductive Instr
  /-- `mov %ecx, %esp` -/
  | movEcxEsp
  | popal
  | popf
  | ret
  | sti
  deriving DecidableEq, Repr

/-- `IF`, the interrupt flag. -/
def interruptFlag : Word := 0x200

/-- One instruction, on memory as the CPU reads it. -/
def exec (read : ℕ → Word) (r : Regs) : Instr → Regs
  | .movEcxEsp => { r with esp := r.ecx }
  | .popal =>
      let word (k : ℕ) := read (r.esp.toNat + sizeofWord * k)
      -- The word for `esp` is skipped.
      { r with
        edi := word 0, esi := word 1, ebp := word 2, ebx := word 4, edx := word 5, ecx := word 6
        eax := word 7, esp := r.esp + 32 }
  | .popf => { r with eflags := read r.esp.toNat, esp := r.esp + 4 }
  | .ret => { r with eip := read r.esp.toNat, esp := r.esp + 4 }
  | .sti => { r with eflags := r.eflags ||| interruptFlag }

/-- `task_asm_enter` -/
def taskAsmEnter : List Instr := [.movEcxEsp, .popal, .popf, .ret]

/-- `task_asm_entry_point` -/
def taskAsmEntryPoint : List Instr := [.sti, .ret]

/-- Some instructions one after the other. -/
def execBlock (read : ℕ → Word) (r : Regs) (block : List Instr) : Regs := block.foldl (exec read) r

/-- The registers behind the entry of a thread, with its new stack pointer in `ecx`. -/
def entered (stack : StackPage) (memory : Memory) (r : Regs) : Regs :=
  execBlock (fun a => memory ((threadMap stack).phys a))
    { r with ecx := BitVec.ofNat 32 stackPointer }
    taskAsmEnter

/-- The registers where the function of the thread begins. -/
def begun (stack : StackPage) (memory : Memory) (r : Regs) : Regs :=
  execBlock (fun a => memory ((threadMap stack).phys a)) (entered stack memory r) taskAsmEntryPoint

/-- A thread with the frame in `memory` starts with the registers of `pstate` and the flags
`_INIT_FLAGS`, goes through `task_asm_entry_point` to its function, and from there to
`task_end` at the top of the stack. -/
structure Starts (stack : StackPage) (f : Symbols) (memory : Memory) (r : Regs) : Prop where
  low : (entered stack memory r).edi = pstate.edi ∧ (entered stack memory r).esi = pstate.esi ∧
    (entered stack memory r).ebp = pstate.ebp
  high : (entered stack memory r).ebx = pstate.ebx ∧ (entered stack memory r).edx = pstate.edx ∧
    (entered stack memory r).ecx = pstate.ecx ∧ (entered stack memory r).eax = pstate.eax
  flags : (entered stack memory r).eflags = initFlags
  entryPoint : (entered stack memory r).eip = f.taskAsmEntryPoint
  entry : (begun stack memory r).eip = f.entry
  /-- The function returns with the stack pointer that it has found. -/
  back : ∀ t, t.esp = (begun stack memory r).esp →
    (exec (fun a => memory ((threadMap stack).phys a)) t .ret).eip = f.taskEnd ∧
      (exec (fun a => memory ((threadMap stack).phys a)) t .ret).esp = BitVec.ofNat 32 taskStackTop

/-- The words that `popal` pops were zero before. -/
def WasClear (stack : StackPage) (memory : Memory) : Prop :=
  ∀ k < 8, k ≠ 3 → memory (stack.page.memBase + pageSize - 48 + sizeofWord * k) = 0

section Frame
variable {stack : StackPage} {memory : Memory} {f : Symbols} {r : Regs} {stackInstalled : ℕ}

/-- The page is shown below the top of the stack. -/
theorem entry_threadMap (stack : StackPage) :
    (threadMap stack).entry (taskStackTop / pageSize - 1) = stack.page.memBase ||| 3 := by
  have hmap : (threadMap stack).entry (taskStackTop / pageSize - 1) =
      (Map.insert pageTableRw stackWindow.base stackWindow.finish [stack.page]
        (stackWindow.place 0) (onePage.maps 0)).entry (taskStackTop / pageSize - 1) := rfl
  have hfinish : stackWindow.finish = taskStackTop := by decide
  have hplace : stackWindow.place 0 = ((taskStackTop - pageSize : ℕ) : ℤ) := by
    rw [ObjectInMap.place, add32, Nat.add_zero, stackWindow, sub_zero,
      Nat.mod_eq_of_lt (by decide)]
  rw [hplace, hfinish] at hmap
  rw [hmap, Map.insert_entry, if_pos]
  · have hlt : 0 < stack.page.consecutive := by rw [stack.single]; exact Nat.one_pos
    have hfirst : taskStackTop / pageSize - 1 - (taskStackTop - pageSize) / pageSize = 0 := by
      decide
    have hbase : add32 stack.page.memBase (mul32 pageSize 0) = stack.page.memBase := by
      rw [mul32, Nat.mul_zero, Nat.zero_mod, add32, Nat.add_zero, Nat.mod_eq_of_lt stack.below]
    rw [hfirst, Page.entryAt, if_pos hlt, tableEntry, hbase, Nat.or_assoc]
    rfl
  · have hone : Page.count [stack.page] = 1 := stack.single
    rw [hone]
    decide

/-- An address in the top page of the stack is one in its frame. -/
theorem phys_threadMap (stack : StackPage) {k : ℕ} (hk : k < pageSize) :
    (threadMap stack).phys (taskStackTop - pageSize + k) = stack.page.memBase + k := by
  have hpage : (taskStackTop - pageSize + k) / pageSize = taskStackTop / pageSize - 1 := by
    simp only [taskStackTop, kernelVmBase, sizes] at *
    omega
  have hoffset : (taskStackTop - pageSize + k) % pageSize = k := by
    simp only [taskStackTop, kernelVmBase, sizes] at *
    omega
  have hframe : (stack.page.memBase ||| 3) / pageSize * pageSize = stack.page.memBase := by
    have haligned := stack.aligned
    have hdiv : (stack.page.memBase ||| 3) / 2 ^ 12 = stack.page.memBase / 2 ^ 12 ||| 3 / 2 ^ 12 :=
      Nat.or_div_two_pow
    have hpow : pageSize = 2 ^ 12 := rfl
    rw [hpow] at haligned ⊢
    rw [hdiv, show 3 / 2 ^ 12 = 0 from rfl, Nat.or_zero]
    omega
  rw [Map.phys, hpage, entry_threadMap, hoffset, hframe]

theorem copyWords_above {dest a : ℕ} {ws : List Word} (h : dest + sizeofWord * ws.length ≤ a) :
    copyWords dest ws memory a = memory a := by
  induction ws generalizing dest memory with
  | nil => rfl
  | cons w ws ih =>
    rw [List.length_cons, Nat.mul_succ] at h
    have hne : a ≠ dest := by
      simp only [sizeofWord] at h
      omega
    rw [copyWords, ih (by omega), Function.update_of_ne hne]

/-- What the constructor writes at the end of the page, from where it is popped. -/
theorem buildFrame_apply (stack : StackPage) (stackInstalled : ℕ) (f : Symbols) (memory : Memory)
    {k : ℕ} (hk : pageSize - 48 ≤ k) (hlt : k < pageSize) :
    buildFrame stack stackInstalled f memory (stack.page.memBase + k) =
      if k = pageSize - 4 then f.taskEnd else if k = pageSize - 8 then f.entry
      else if k = pageSize - 12 then f.taskAsmEntryPoint else if k = pageSize - 16 then initFlags
      else memory (stack.page.memBase + k) := by
  simp only [sizes] at *
  have hword : ∀ n ≤ 4096, stackInstalled + 4096 - n - stackInstalled = 4096 - n := by
    intro n hn
    omega
  simp only [buildFrame, sizeofWord, sizeofProcState, sizes, Nat.sub_sub _ _ 4, Nat.sub_sub _ _ 32,
    Nat.reduceAdd]
  rw [hword 4 (by omega), hword 8 (by omega), hword 12 (by omega), hword 16 (by omega),
    hword 80 (by omega), copyWords_above]
  · have hoffset : ∀ n, stack.page.memBase + k = stack.page.memBase + (4096 - n) ↔ k = 4096 - n :=
      fun n => Nat.add_left_cancel_iff
    simp only [Function.update_apply, hoffset]
    split_ifs <;> first | rfl | omega
  · simp only [pstate, ProcState.words, sizeofWord, List.length_cons, List.length_nil]
    omega

/-- What the thread reads there. -/
theorem read_frame (stack : StackPage) (stackInstalled : ℕ) (f : Symbols) (memory : Memory) {k : ℕ}
    (hk : pageSize - 48 ≤ k) (hlt : k < pageSize) :
    buildFrame stack stackInstalled f memory
        ((threadMap stack).phys (taskStackTop - pageSize + k)) =
      if k = pageSize - 4 then f.taskEnd else if k = pageSize - 8 then f.entry
      else if k = pageSize - 12 then f.taskAsmEntryPoint else if k = pageSize - 16 then initFlags
      else memory (stack.page.memBase + k) := by
  rw [phys_threadMap stack hlt, buildFrame_apply stack stackInstalled f memory hk hlt]

/-- `popal` pops the words that were in the page before, and the rest is the frame. -/
theorem entered_eq (stack : StackPage) (stackInstalled : ℕ) (f : Symbols) (memory : Memory)
    (r : Regs) :
    let word (k : ℕ) := memory (stack.page.memBase + (pageSize - 48 + sizeofWord * k))
    entered stack (buildFrame stack stackInstalled f memory) r =
      { edi := word 0, esi := word 1, ebp := word 2, ebx := word 4, edx := word 5, ecx := word 6
        eax := word 7, esp := BitVec.ofNat 32 (taskStackTop - 8), eip := f.taskAsmEntryPoint
        eflags := initFlags } := by
  -- The words from the stack pointer on, by their offsets.
  have hread : ∀ a k, a = stackPointer + k → k < 48 →
      buildFrame stack stackInstalled f memory ((threadMap stack).phys a) =
        if pageSize - 48 + k = pageSize - 4 then f.taskEnd
        else if pageSize - 48 + k = pageSize - 8 then f.entry
        else if pageSize - 48 + k = pageSize - 12 then f.taskAsmEntryPoint
        else if pageSize - 48 + k = pageSize - 16 then initFlags
        else memory (stack.page.memBase + (pageSize - 48 + k)) := by
    rintro a k rfl hk
    have haddr : stackPointer + k = taskStackTop - pageSize + (pageSize - 48 + k) := by
      rw [← Nat.add_assoc]
      rfl
    rw [haddr, read_frame stack stackInstalled f memory (Nat.le_add_right _ _)
      (by simp only [sizes]; omega)]
  have hsp : (BitVec.ofNat 32 stackPointer).toNat = stackPointer := by decide
  have hpopf : (BitVec.ofNat 32 stackPointer + 32).toNat = stackPointer + 32 := by decide
  have hret : (BitVec.ofNat 32 stackPointer + 32 + 4).toNat = stackPointer + 36 := by decide
  have hesp : BitVec.ofNat 32 stackPointer + 32 + 4 + 4 = BitVec.ofNat 32 (taskStackTop - 8) := by
    decide
  have hword : ∀ k < 8, buildFrame stack stackInstalled f memory
      ((threadMap stack).phys (stackPointer + sizeofWord * k)) =
        memory (stack.page.memBase + (pageSize - 48 + sizeofWord * k)) := by
    intro k hk
    have hlt : sizeofWord * k < 48 := by
      rw [sizeofWord]
      omega
    rw [hread _ _ rfl hlt]
    simp only [sizes, sizeofWord]
    rw [if_neg (by omega), if_neg (by omega), if_neg (by omega), if_neg (by omega)]
  simp only [entered, execBlock, taskAsmEnter, List.foldl_cons, List.foldl_nil, exec, hsp, hpopf,
    hret, hesp]
  rw [hread _ 32 rfl (by decide), hread _ 36 rfl (by decide), hword 0 (by decide),
    hword 1 (by decide), hword 2 (by decide), hword 4 (by decide), hword 5 (by decide),
    hword 6 (by decide), hword 7 (by decide)]
  rfl

/-- The function begins at its address, with the stack pointer at the address it returns to. -/
theorem begun_eq (stack : StackPage) (stackInstalled : ℕ) (f : Symbols) (memory : Memory)
    (r : Regs) :
    (begun stack (buildFrame stack stackInstalled f memory) r).eip = f.entry ∧
      (begun stack (buildFrame stack stackInstalled f memory) r).esp =
        BitVec.ofNat 32 (taskStackTop - 4) := by
  have hsp : (BitVec.ofNat 32 (taskStackTop - 8)).toNat =
      taskStackTop - pageSize + (pageSize - 8) := by decide
  simp only [begun, execBlock, taskAsmEntryPoint, List.foldl_cons, List.foldl_nil, exec, entered_eq,
    hsp]
  rw [read_frame stack stackInstalled f memory (by decide) (by decide)]
  exact ⟨rfl, by decide⟩

/-- **A new thread starts with its first frame** when the words that `popal` pops were zero
before: these are words that the constructor does not write. -/
theorem starts_iff (stack : StackPage) (stackInstalled : ℕ) (f : Symbols) (memory : Memory)
    (r : Regs) :
    Starts stack f (buildFrame stack stackInstalled f memory) r ↔ WasClear stack memory := by
  obtain ⟨hentry, hbegun⟩ := begun_eq stack stackInstalled f memory r
  have hback : ∀ t : Regs, t.esp = BitVec.ofNat 32 (taskStackTop - 4) →
      (exec (fun a => buildFrame stack stackInstalled f memory ((threadMap stack).phys a)) t
          .ret).eip = f.taskEnd ∧
        (exec (fun a => buildFrame stack stackInstalled f memory ((threadMap stack).phys a)) t
          .ret).esp = BitVec.ofNat 32 taskStackTop := by
    intro t ht
    have hsp : (BitVec.ofNat 32 (taskStackTop - 4)).toNat =
        taskStackTop - pageSize + (pageSize - 4) := by decide
    simp only [exec, ht, hsp]
    rw [read_frame stack stackInstalled f memory (by decide) (by decide)]
    exact ⟨rfl, by decide⟩
  have hindex : ∀ k, stack.page.memBase + pageSize - 48 + sizeofWord * k =
      stack.page.memBase + (pageSize - 48 + sizeofWord * k) := by
    intro k
    simp only [sizes]
    omega
  simp only [WasClear, hindex]
  constructor
  · intro h
    obtain ⟨h0, h1, h2⟩ := h.low
    obtain ⟨h4, h5, h6, h7⟩ := h.high
    simp only [entered_eq] at h0 h1 h2 h4 h5 h6 h7
    intro k hk hne
    match k, hk with
    | 0, _ => exact h0
    | 1, _ => exact h1
    | 2, _ => exact h2
    | 3, _ => exact absurd rfl hne
    | 4, _ => exact h4
    | 5, _ => exact h5
    | 6, _ => exact h6
    | 7, _ => exact h7
  · intro h
    refine ⟨?_, ?_, ?_, ?_, hentry, fun t ht => hback t (ht.trans hbegun)⟩
    · simp only [entered_eq]
      exact ⟨h 0 (by decide) (by decide), h 1 (by decide) (by decide), h 2 (by decide) (by decide)⟩
    · simp only [entered_eq]
      exact ⟨h 4 (by decide) (by decide), h 5 (by decide) (by decide), h 6 (by decide) (by decide),
        h 7 (by decide) (by decide)⟩
    · rw [entered_eq]
    · rw [entered_eq]

/-- The second megabyte of memory. -/
def secondPage : StackPage := ⟨⟨0, 0, 0x200000, 0, 1⟩, rfl, rfl, by decide⟩

/-- A thread whose stack was full of ones starts with ones in its registers. -/
theorem not_starts_ones : ¬ ∀ r,
    Starts secondPage ⟨1, 2, 3⟩ (buildFrame secondPage kernelVmBase ⟨1, 2, 3⟩ fun _ => 1) r := by
  intro h
  have hedi := (h ⟨0, 0, 0, 0, 0, 0, 0, 0, 0, 0⟩).low.1
  simp only [entered_eq] at hedi
  revert hedi
  decide

end Frame

end Cantos
