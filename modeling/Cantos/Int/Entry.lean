import Cantos.Task.FirstFrame

/-!
# Entry and exit of interrupts

A CPU pushes its flags, `cs`, `eip` and for some exceptions an error code, and goes to the stub
of the vector.  The stub pushes the registers and the vector, which makes them the arguments of
`idt_handle`, and undoes all that when the handler has returned.

The words of the stack are counted from its top, so that a push moves them by one.

## Main definitions

* `Machine`: the registers and the memory of a CPU.
* `Machine.deliver`: what the CPU does.
* `stub`, `enter`, `leave`: the code of a stub, before and after its call.
* `Returns`: what a compiled handler keeps.

## Main results

* `args_enter`: what a handler is called with.
* `resumes_iff`: when the interrupted program goes on as it was.
-/

namespace Cantos.Interrupt

/-- A CPU with its memory, by words of the stack. -/
structure Machine where
  regs : Regs
  cs : Word
  memory : Word → Word

namespace Machine

def push (m : Machine) (w : Word) : Machine :=
  { m with
    regs := { m.regs with esp := m.regs.esp - 4 }
    memory := Function.update m.memory (m.regs.esp - 4) w }

/-- `add $4, %esp` -/
def addEsp (m : Machine) : Machine := { m with regs := { m.regs with esp := m.regs.esp + 4 } }

/-- A word of the stack. -/
def word (m : Machine) (k : ℕ) : Word := m.memory (m.regs.esp + BitVec.ofNat 32 (sizeofWord * k))

/-- An interrupt through an interrupt gate. -/
def deliver (m : Machine) (selector offset : Word) (errcode : Option Word) : Machine :=
  let m' := ((m.push m.regs.eflags).push m.cs).push m.regs.eip
  let m' := match errcode with
    | none => m'
    | some e => m'.push e
  { m' with
    cs := selector
    regs := { m'.regs with eip := offset, eflags := m.regs.eflags &&& ~~~ interruptFlag } }

end Machine

/-- The instructions of a stub around its call. -/
inductive Instr
  | pushal
  | push (w : Word)
  | cld
  | addEsp
  | popal
  | iret
  deriving DecidableEq, Repr

/-- `DF`, the direction flag. -/
def directionFlag : Word := 0x400

/-- One instruction. Where it is makes no difference before `iret`. -/
def exec (m : Machine) : Instr → Machine
  | .pushal =>
      ((((((((m.push m.regs.eax).push m.regs.ecx).push m.regs.edx).push m.regs.ebx).push
        m.regs.esp).push m.regs.ebp).push m.regs.esi).push m.regs.edi)
  | .push w => m.push w
  | .cld => { m with regs := { m.regs with eflags := m.regs.eflags &&& ~~~ directionFlag } }
  | .addEsp => m.addEsp
  | .popal =>
      { m with regs := Cantos.exec (fun a => m.memory (BitVec.ofNat 32 a)) m.regs .popal }
  | .iret =>
      { m with
        regs := { m.regs with
          eip := m.word 0
          eflags := m.word 2
          esp := m.regs.esp + 12 }
        cs := m.word 1 }

/-- Which of the two macros a stub is made with: `handle` or `handlee`. -/
inductive Kind
  | handle
  | handlee
  deriving DecidableEq, Repr

/-- The stub before the call. -/
def before (vec : Word) : List Instr := [.pushal, .push vec, .cld]

/-- The stub after the call; `handlee` removes the error code. -/
def after : Kind → List Instr
  | .handle => [.addEsp, .popal, .iret]
  | .handlee => [.addEsp, .popal, .addEsp, .iret]

/-- Up to the first instruction of the called function, with the address to return to on the
stack. -/
def enter (vec back : Word) (m : Machine) : Machine := ((before vec).foldl exec m).push back

/-- From the return of the called function. -/
def leave (kind : Kind) (m : Machine) : Machine := (after kind).foldl exec m

/-- The arguments of a function at its first instruction. -/
def arg (m : Machine) (k : ℕ) : Word := m.word (k + 1)

/-- `idt_proc_state_t state`, the argument behind the vector. -/
def stateArg (m : Machine) : ProcState :=
  ⟨arg m 1, arg m 2, arg m 3, arg m 4, arg m 5, arg m 6, arg m 7, arg m 8⟩

/-- The words that a stub and the CPU have pushed, without the address to return to. -/
def frameWords (errcode : Option Word) : ℕ := if errcode.isSome then 13 else 12

/-- A function that has returned: it has popped the address to return to and has not written to
the frame, as compiled code does not write to arguments that it only reads. -/
structure Returned (errcode : Option Word) (m m' : Machine) : Prop where
  esp : m'.regs.esp = m.regs.esp + 4
  frame : ∀ k < frameWords errcode, m'.word k = m.word (k + 1)

variable {m m' : Machine} {vec back selector offset w : Word} {errcode : Option Word} {kind : Kind}
  {k : ℕ}

/-! ## The words of the stack -/

@[simp] theorem push_esp : (m.push w).regs.esp = m.regs.esp - 4 := rfl

@[simp] theorem word_push_zero : (m.push w).word 0 = w := by
  simp [Machine.word, Machine.push, sizeofWord]

theorem word_push_succ (hk : k < 2 ^ 29) : (m.push w).word (k + 1) = m.word k := by
  have haddr : m.regs.esp - 4 + BitVec.ofNat 32 (sizeofWord * (k + 1)) =
      m.regs.esp + BitVec.ofNat 32 (sizeofWord * k) := by
    rw [sizeofWord]
    bv_omega
  have hne : m.regs.esp + BitVec.ofNat 32 (sizeofWord * k) ≠ m.regs.esp - 4 := by
    rw [sizeofWord]
    bv_omega
  rw [Machine.word, push_esp, haddr]
  exact Function.update_of_ne hne ..

@[simp] theorem word_addEsp : m.addEsp.word k = m.word (k + 1) := by
  have haddr : m.regs.esp + 4 + BitVec.ofNat 32 (sizeofWord * k) =
      m.regs.esp + BitVec.ofNat 32 (sizeofWord * (k + 1)) := by
    rw [sizeofWord]
    bv_omega
  exact congrArg m.memory haddr

/-- The registers as `pushal` leaves them on the stack. -/
theorem word_pushal (m : Machine) : (exec m .pushal).word 0 = m.regs.edi ∧
    (exec m .pushal).word 1 = m.regs.esi ∧ (exec m .pushal).word 2 = m.regs.ebp ∧
    (exec m .pushal).word 3 = m.regs.esp ∧ (exec m .pushal).word 4 = m.regs.ebx ∧
    (exec m .pushal).word 5 = m.regs.edx ∧ (exec m .pushal).word 6 = m.regs.ecx ∧
    (exec m .pushal).word 7 = m.regs.eax := by
  refine ⟨?_, ?_, ?_, ?_, ?_, ?_, ?_, ?_⟩
  all_goals
    rw [exec]
    repeat rw [word_push_succ (by decide)]
    rw [word_push_zero]

theorem word_pushal_add (hk : k < 2 ^ 28) : (exec m .pushal).word (k + 8) = m.word k := by
  rw [exec]
  iterate 8 rw [word_push_succ (by omega)]

theorem pushal_esp : (exec m .pushal).regs.esp = m.regs.esp - 32 := by
  simp only [exec, push_esp]
  bv_omega

/-- What the CPU has pushed: an error code for some exceptions, `eip`, `cs` and the flags. -/
theorem word_deliver (m : Machine) (selector offset : Word) (errcode : Option Word) :
    let d := m.deliver selector offset errcode
    let n := if errcode.isSome then 1 else 0
    (∀ c, errcode = some c → d.word 0 = c) ∧ d.word n = m.regs.eip ∧ d.word (n + 1) = m.cs ∧
      d.word (n + 2) = m.regs.eflags ∧ d.regs.esp = m.regs.esp - BitVec.ofNat 32 (12 + 4 * n) := by
  rcases errcode with _ | c
  · have hword : ∀ k, (m.deliver selector offset none).word k =
        (((m.push m.regs.eflags).push m.cs).push m.regs.eip).word k := fun _ => rfl
    have hesp : (m.deliver selector offset none).regs.esp = m.regs.esp - 4 - 4 - 4 := rfl
    refine ⟨?_, ?_, ?_, ?_, ?_⟩
    · intro c h
      cases h
    · simp [hword]
    · simp [hword, word_push_succ]
    · simp [hword, word_push_succ]
    · rw [hesp]
      simp only [Option.isSome_none, Bool.false_eq_true, if_false]
      bv_omega
  · have hword : ∀ k, (m.deliver selector offset (some c)).word k =
        ((((m.push m.regs.eflags).push m.cs).push m.regs.eip).push c).word k := fun _ => rfl
    have hesp : (m.deliver selector offset (some c)).regs.esp = m.regs.esp - 4 - 4 - 4 - 4 := rfl
    refine ⟨?_, ?_, ?_, ?_, ?_⟩
    · intro c' h
      cases h
      exact (hword 0).trans word_push_zero
    · simp [hword, word_push_succ]
    · simp [hword, word_push_succ]
    · simp [hword, word_push_succ]
    · rw [hesp]
      simp only [Option.isSome_some, if_true]
      bv_omega

/-- The stack at the first instruction of the called function. -/
theorem word_enter (vec back : Word) (m : Machine) : (enter vec back m).word 0 = back ∧
    (enter vec back m).word 1 = vec ∧
    (∀ k < 2 ^ 27, (enter vec back m).word (k + 2) = (exec m .pushal).word k) ∧
    (enter vec back m).regs.esp = m.regs.esp - 40 := by
  have hcld : ∀ m k, (exec m .cld).word k = m.word k := fun _ _ => rfl
  have henter : enter vec back m = (exec ((exec m .pushal).push vec) .cld).push back := rfl
  have hesp : (exec ((exec m .pushal).push vec) .cld).regs.esp = m.regs.esp - 32 - 4 := by
    rw [← pushal_esp]
    rfl
  rw [henter]
  refine ⟨word_push_zero, ?_, fun k hk => ?_, ?_⟩
  · rw [word_push_succ (by decide), hcld, word_push_zero]
  · rw [word_push_succ (by omega), hcld, word_push_succ (by omega)]
  · rw [push_esp, hesp]
    bv_omega

theorem memory_eq_word (m : Machine) (a : Word) (h : a = m.regs.esp + BitVec.ofNat 32 (4 * k)) :
    m.memory a = m.word k := by
  rw [h]
  rfl

/-- A handler is called with the vector, the registers of the interrupted program and the error
code, and finds the interrupted `eip` through `state.esp`, as the handlers of the exceptions
read it. -/
theorem args_enter (m : Machine) (selector offset vec back : Word) (errcode : Option Word) :
    let e := enter vec back (m.deliver selector offset errcode)
    let n := if errcode.isSome then 1 else 0
    arg e 0 = vec ∧
      stateArg e = ⟨m.regs.edi, m.regs.esi, m.regs.ebp,
        m.regs.esp - BitVec.ofNat 32 (12 + 4 * n), m.regs.ebx, m.regs.edx, m.regs.ecx,
        m.regs.eax⟩ ∧
      (∀ c, errcode = some c → arg e 9 = c) ∧
      e.memory ((stateArg e).esp + BitVec.ofNat 32 (4 * n)) = m.regs.eip := by
  intro e n
  obtain ⟨hcode, heip, -, -, hesp⟩ := word_deliver m selector offset errcode
  obtain ⟨-, hvec, hwords, hesp'⟩ := word_enter vec back (m.deliver selector offset errcode)
  obtain ⟨h0, h1, h2, h3, h4, h5, h6, h7⟩ := word_pushal (m.deliver selector offset errcode)
  have hregs : (m.deliver selector offset errcode).regs = { m.regs with
      esp := (m.deliver selector offset errcode).regs.esp
      eip := offset, eflags := m.regs.eflags &&& ~~~ interruptFlag } := by
    cases errcode <;> rfl
  have hstate : stateArg e = ⟨m.regs.edi, m.regs.esi, m.regs.ebp,
      m.regs.esp - BitVec.ofNat 32 (12 + 4 * n), m.regs.ebx, m.regs.edx, m.regs.ecx,
      m.regs.eax⟩ := by
    have hpush : ∀ k < 8, arg e (k + 1) =
        (exec (m.deliver selector offset errcode) .pushal).word k :=
      fun k hk => hwords k (by omega)
    simp only [stateArg, hpush 0 (by omega), hpush 1 (by omega), hpush 2 (by omega),
      hpush 3 (by omega), hpush 4 (by omega), hpush 5 (by omega), hpush 6 (by omega),
      hpush 7 (by omega), h0, h1, h2, h3, h4, h5, h6, h7, hesp]
    rw [hregs]
  refine ⟨hvec, hstate, fun c hc => ?_, ?_⟩
  · have hword : arg e 9 = (m.deliver selector offset errcode).word 0 :=
      (hwords 8 (by omega)).trans (word_pushal_add (by omega))
    exact hword.trans (hcode c hc)
  · have hn : n ≤ 1 := by
      simp only [n]
      split_ifs <;> omega
    have hword : e.word (n + 10) = (m.deliver selector offset errcode).word n :=
      (hwords (n + 8) (by omega)).trans (word_pushal_add (by omega))
    rw [hstate, memory_eq_word (k := n + 10) e _ ?_, hword, heip]
    rw [hesp', hesp]
    show m.regs.esp - BitVec.ofNat 32 (12 + 4 * n) + BitVec.ofNat 32 (4 * n) = _
    bv_omega

/-! ## The way back -/

theorem popal_regs (m : Machine) : (exec m .popal).regs = { m.regs with
    edi := m.word 0, esi := m.word 1, ebp := m.word 2, ebx := m.word 4, edx := m.word 5
    ecx := m.word 6, eax := m.word 7, esp := m.regs.esp + 32 } := by
  have hread : ∀ k, m.memory (BitVec.ofNat 32 (m.regs.esp.toNat + sizeofWord * k)) = m.word k := by
    intro k
    refine congrArg m.memory ?_
    rw [BitVec.ofNat_add, BitVec.ofNat_toNat, BitVec.setWidth_eq]
  simp only [exec, Cantos.exec, hread]

@[simp] theorem word_popal : (exec m .popal).word k = m.word (k + 8) := by
  have haddr : (exec m .popal).regs.esp + BitVec.ofNat 32 (sizeofWord * k) =
      m.regs.esp + BitVec.ofNat 32 (sizeofWord * (k + 8)) := by
    rw [popal_regs, sizeofWord]
    bv_omega
  exact congrArg m.memory haddr

theorem iret_regs (m : Machine) : (exec m .iret).regs =
    { m.regs with eip := m.word 0, eflags := m.word 2, esp := m.regs.esp + 12 } := rfl

theorem iret_cs (m : Machine) : (exec m .iret).cs = m.word 1 := rfl

theorem addEsp_regs (m : Machine) : m.addEsp.regs = { m.regs with esp := m.regs.esp + 4 } := rfl

/-- The words that the stub takes away between the registers and `eip`. -/
def Kind.skipped : Kind → ℕ
  | .handle => 0
  | .handlee => 1

/-- What a stub makes of the stack that it finds. -/
theorem leave_eq (kind : Kind) (m : Machine) :
    (leave kind m).regs = {
      edi := m.word 1, esi := m.word 2, ebp := m.word 3, ebx := m.word 5, edx := m.word 6
      ecx := m.word 7, eax := m.word 8, eip := m.word (kind.skipped + 9)
      eflags := m.word (kind.skipped + 11)
      esp := m.regs.esp + BitVec.ofNat 32 (48 + 4 * kind.skipped) } ∧
    (leave kind m).cs = m.word (kind.skipped + 10) := by
  cases kind with
  | handle =>
    have hleave : leave .handle m = exec (exec m.addEsp .popal) .iret := rfl
    rw [hleave, iret_regs, iret_cs, popal_regs, addEsp_regs]
    simp only [word_popal, word_addEsp, Kind.skipped, and_true]
    congr 1
    bv_omega
  | handlee =>
    have hleave : leave .handlee m = exec (exec m.addEsp .popal).addEsp .iret := rfl
    rw [hleave, iret_regs, iret_cs, addEsp_regs, popal_regs, addEsp_regs]
    simp only [word_addEsp, word_popal, Kind.skipped, and_true]
    congr 1
    bv_omega

/-- Where the stack pointer is when the stub is left. -/
theorem leave_esp {m m' : Machine} {selector offset vec back : Word} {errcode : Option Word}
    (kind : Kind) (hm' : Returned errcode (enter vec back (m.deliver selector offset errcode)) m') :
    (leave kind m').regs.esp = m.regs.esp + BitVec.ofNat 32 (4 * kind.skipped) -
      BitVec.ofNat 32 (4 * if errcode.isSome then 1 else 0) := by
  obtain ⟨-, -, -, -, hesp⟩ := word_deliver m selector offset errcode
  obtain ⟨-, -, -, hesp'⟩ := word_enter vec back (m.deliver selector offset errcode)
  rw [(leave_eq kind m').1]
  show m'.regs.esp + _ = _
  rw [hm'.esp, hesp', hesp]
  bv_omega

/-- A stub that has been made for what the CPU pushes goes back to the interrupted program. -/
theorem leave_interrupted {m m' : Machine} {selector offset vec back : Word} {errcode : Option Word}
    {kind : Kind} (hm' : Returned errcode (enter vec back (m.deliver selector offset errcode)) m')
    (hkind : kind = .handlee ↔ errcode.isSome) :
    (leave kind m').regs = m.regs ∧ (leave kind m').cs = m.cs := by
  obtain ⟨-, heip, hcs, hflags, hesp⟩ := word_deliver m selector offset errcode
  obtain ⟨-, -, hwords, hesp'⟩ := word_enter vec back (m.deliver selector offset errcode)
  obtain ⟨h0, h1, h2, h3, h4, h5, h6, h7⟩ := word_pushal (m.deliver selector offset errcode)
  obtain ⟨hregs, hcs'⟩ := leave_eq kind m'
  have hstack := leave_esp kind hm'
  have hn : kind.skipped = if errcode.isSome then 1 else 0 := by
    cases kind <;> rcases errcode with _ | c <;> simp [Kind.skipped] at hkind ⊢
  have hreg : ∀ k < 8, m'.word (k + 1) =
      (exec (m.deliver selector offset errcode) .pushal).word k := by
    intro k hk
    rw [hm'.frame (k + 1) (by rw [frameWords]; split_ifs <;> omega)]
    exact hwords k (by omega)
  have htop : ∀ k < 3, m'.word (kind.skipped + 9 + k) =
      (m.deliver selector offset errcode).word (kind.skipped + k) := by
    intro k hk
    have hlt : kind.skipped + 9 + k < frameWords errcode := by
      rw [frameWords, hn]
      split_ifs <;> omega
    have hle : kind.skipped ≤ 1 := by
      rw [hn]
      split_ifs <;> omega
    rw [hm'.frame _ hlt]
    have hidx : kind.skipped + 9 + k + 1 = (kind.skipped + k + 8) + 2 := by omega
    rw [hidx, hwords _ (by omega), word_pushal_add (by omega)]
  have hdelivered : (m.deliver selector offset errcode).regs = { m.regs with
      esp := (m.deliver selector offset errcode).regs.esp
      eip := offset, eflags := m.regs.eflags &&& ~~~ interruptFlag } := by
    cases errcode <;> rfl
  have hsame : (leave kind m').regs.esp = m.regs.esp := by
    rw [hstack, hn]
    bv_omega
  constructor
  · have hedi := (hreg 0 (by omega)).trans h0
    have hesi := (hreg 1 (by omega)).trans h1
    have hebp := (hreg 2 (by omega)).trans h2
    have hebx := (hreg 4 (by omega)).trans h4
    have hedx := (hreg 5 (by omega)).trans h5
    have hecx := (hreg 6 (by omega)).trans h6
    have heax := (hreg 7 (by omega)).trans h7
    have heip' := (htop 0 (by omega)).trans (hn ▸ heip)
    have hflags' := (htop 2 (by omega)).trans (hn ▸ hflags)
    rw [hregs] at hsame ⊢
    rw [hdelivered] at hedi hesi hebp hebx hedx hecx heax
    show _ = Regs.mk m.regs.edi m.regs.esi m.regs.ebp m.regs.esp m.regs.ebx m.regs.edx m.regs.ecx
      m.regs.eax m.regs.eip m.regs.eflags
    rw [Regs.mk.injEq]
    exact ⟨hedi, hesi, hebp, hsame, hebx, hedx, hecx, heax, heip', hflags'⟩
  · rw [hcs']
    exact (htop 1 (by omega)).trans (hn ▸ hcs)

/-- Whatever the handler has done, as long as it has not written to its frame: the interrupted
program goes on with its registers, flags and stack exactly when the stub has been made for what
the CPU pushes. -/
theorem resumes_iff (m : Machine) (selector offset vec back : Word) (errcode : Option Word)
    (kind : Kind) (m' : Machine)
    (hm' : Returned errcode (enter vec back (m.deliver selector offset errcode)) m') :
    ((leave kind m').regs = m.regs ∧ (leave kind m').cs = m.cs) ↔
      (kind = .handlee ↔ errcode.isSome) := by
  constructor
  · rintro ⟨hsame, -⟩
    have hstack := leave_esp kind hm'
    rw [hsame] at hstack
    generalize m.regs.esp = esp at hstack
    -- a word too many or too few is left on the stack
    have hword : kind.skipped = if errcode.isSome then 1 else 0 := by
      cases kind <;> rcases errcode with _ | c <;>
        simp only [Kind.skipped, Option.isSome_none, Option.isSome_some, if_true, if_false,
          Bool.false_eq_true] at hstack ⊢ <;> bv_omega
    cases kind <;> rcases errcode with _ | c <;> simp [Kind.skipped] at hword ⊢
  · intro hkind
    exact leave_interrupted hm' hkind

/-- A CPU with an empty stack below the top of memory. -/
def idle : Machine := ⟨⟨1, 2, 3, 0, 5, 6, 7, 8, 9, interruptFlag⟩, 0x10, fun _ => 0⟩

/-- A handler that returns at once. -/
theorem resumes_idle :
    (leave .handlee (enter 0xe 0 (idle.deliver 0x10 0 (some 2))).addEsp).regs = idle.regs ∧
    (leave .handlee (enter 0xe 0 (idle.deliver 0x10 0 (some 2))).addEsp).cs = idle.cs :=
  (resumes_iff idle 0x10 0 0xe 0 (some 2) .handlee _
    ⟨rfl, fun _ _ => word_addEsp⟩).mpr (by decide)

end Cantos.Interrupt
