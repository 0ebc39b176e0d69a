import Cantos.Lib.Steps
import Mathlib.Data.Nat.Basic
import Mathlib.Order.Basic
import Mathlib.Tactic.Common

/-!
# CPUs that run threads

The part of `task.cpp`, `task/asm.s` and `structures/mutex.cpp` that moves threads between
CPUs, instruction by instruction where an interrupt can come in between.  A CPU executes the
top one of its frames; a timer interrupt puts the handler's frame on top of it.  When a
thread is switched out, the frames under `task_yield` are saved with its stack pointer, and
whichever CPU enters it goes on with them.

A CPU without a thread takes timer interrupts too; they find no thread and return.  What a
thread does outside these functions is up to it: it may call any of them, and set and clear
the interrupt flag, at any time.

## Main definitions

* `Frame`, `Context`, `Cpu`, `Machine`: the state.
* `Machine.step`: one move of a CPU.
* `Machine.Boots`: the states the machine starts in.
-/

namespace Cantos

/-- `no_wchan`, the first channel that is made. -/
def noWchan : ℕ := 0

/-- The stacks: of a thread, of a CPU (`info.stack`), and the one the machine boots on. -/
inductive Stack
  | thread (t : ℕ)
  | cpu (c : ℕ)
  | boot
  deriving DecidableEq, Repr

/-- It is the stack of a CPU. -/
def Stack.isCpu : Stack → Bool
  | .cpu _ => true
  | _ => false

/-- `waiting_mutex` and `_mutex`. -/
inductive Lock
  | waiting
  | task
  deriving DecidableEq, Repr

/-- Who holds a lock: a thread, or a CPU that runs none. -/
inductive Holder
  | thread (t : ℕ)
  | cpu (c : ℕ)
  deriving DecidableEq, Repr

/-- What is being executed. -/
inductive Frame
  /-- The code of a thread, or the code that boots a CPU. -/
  | code
  /-- The timer's handler, in front of `task_timer_yield`. -/
  | timer
  /-- The timer's handler, in front of `iret`. -/
  | timerOut
  /-- `task_yield` behind `push_cli`. -/
  | pushed (eflags : Bool)
  /-- `task_yield` behind the reads of `info.thread` and `info.stack`. -/
  | haveRead (eflags inThread : Bool) (stack : ℕ)
  /-- `task_yield` behind `pop_flags`. -/
  | popped (inThread : Bool) (stack : ℕ)
  /-- On the stack of a CPU, in front of the `cli` of `task_yield_done`, with what `sp`
  points to: the stack that was left, the flag that was pushed and the frames. -/
  | done (stack : Stack) (eflags : Bool) (frames : List Frame)
  /-- `Mutex::lock`, in front of `trylock`. -/
  | lock (l : Lock)
  /-- `task_yield_done` with `waiting_mutex`. -/
  | park (t : ℕ)
  /-- The loop of `schedule`. -/
  | schedule
  /-- `schedule` with `waiting_mutex`, and a thread waiting. -/
  | pick
  /-- `schedule` with `_mutex`. -/
  | use (t : ℕ)
  /-- `task_enter` -/
  | enter (t : ℕ)
  /-- `Thread::Thread` with `_mutex`. -/
  | construct
  /-- `new_thread` behind the constructor. -/
  | adopt (t : ℕ)
  /-- `resume` with `_mutex`. -/
  | check (t : ℕ)
  /-- `new_thread` or `resume` with `waiting_mutex`. -/
  | push (t : ℕ)
  /-- `Thread::end` with `_mutex`. -/
  | ending (t : ℕ)

/-- What is saved at the stack pointer of a thread. -/
structure Context where
  stack : Stack
  eflags : Bool
  frames : List Frame

structure Cpu where
  /-- `info.thread` -/
  thread : Option ℕ
  /-- The interrupt flag. -/
  interrupts : Bool
  stack : Stack
  frames : List Frame

structure Machine where
  cpu : ℕ → Cpu
  /-- What the `stack_pointer` of a thread points to. -/
  context : ℕ → Context
  wchan : ℕ → ℕ
  inUse : ℕ → Bool
  ended : ℕ → Bool
  /-- `task_counter` -/
  taskCounter : ℕ
  /-- `waiting_threads` -/
  waiting : List ℕ
  holder : Lock → Option Holder

/-- The moves of a CPU. -/
inductive Move
  /-- The code sets or clears the interrupt flag. -/
  | interrupts (c : ℕ) (on : Bool)
  /-- The code calls `task_yield`. -/
  | yield (c : ℕ)
  /-- The code makes the assignment of `wait`, which then yields. -/
  | wait (c wchan : ℕ)
  /-- The code calls `new_thread`. -/
  | newThread (c : ℕ)
  /-- The code calls `resume`. -/
  | resume (c t : ℕ)
  /-- The code of a thread returns to `task_end`. -/
  | taskEnd (c : ℕ)
  /-- The code that boots a CPU calls `schedule`. -/
  | schedule (c : ℕ)
  /-- A timer interrupt. -/
  | tick (c : ℕ)
  /-- The top frame goes on. -/
  | advance (c : ℕ)
  deriving DecidableEq, Repr

/-- The CPU that makes the move. -/
def Move.cpu : Move → ℕ
  | .interrupts c _ | .yield c | .wait c _ | .newThread c | .resume c _ | .taskEnd c
  | .schedule c | .tick c | .advance c => c

namespace Machine

/-- Write the state of a CPU. -/
def setCpu (s : Machine) (c : ℕ) (k : Cpu) : Machine :=
  { s with cpu := Function.update s.cpu c k }

/-- Write who holds a lock. -/
def setHolder (s : Machine) (l : Lock) (h : Option Holder) : Machine :=
  { s with holder := Function.update s.holder l h }

/-- Who takes a lock on a CPU. -/
def taker (s : Machine) (c : ℕ) : Holder :=
  match (s.cpu c).thread with
  | some t => .thread t
  | none => .cpu c

/-- Call `task_yield` on top of `frames`. -/
def callYield (k : Cpu) (frames : List Frame) : Cpu :=
  { k with interrupts := false, frames := .pushed k.interrupts :: frames }

/-- One step of the frame on top of `rest`. -/
def advance (s : Machine) (c : ℕ) : Frame → List Frame → Option Machine
  | .code, _ => none
  | .timer, rest =>
      -- `task_timer_yield` returns when there is no thread; in the loop of `schedule` it is
      -- `task_yield` that does.
      if (s.cpu c).thread.isNone then
        some (s.setCpu c { s.cpu c with frames := .timerOut :: rest })
      else some (s.setCpu c (callYield (s.cpu c) (.timerOut :: rest)))
  | .timerOut, rest => some (s.setCpu c { s.cpu c with interrupts := true, frames := rest })
  | .pushed eflags, rest =>
      some (s.setCpu c { s.cpu c with
        frames := .haveRead eflags (s.cpu c).thread.isSome c :: rest })
  | .haveRead eflags inThread stack, rest =>
      some (s.setCpu c { s.cpu c with
        interrupts := eflags, frames := .popped inThread stack :: rest })
  | .popped false _, rest => some (s.setCpu c { s.cpu c with frames := rest })
  | .popped true stack, rest =>
      -- `task_asm_yield`
      some (s.setCpu c { s.cpu c with
        stack := .cpu stack, frames := [.done (s.cpu c).stack (s.cpu c).interrupts rest] })
  | .done stack eflags frames, _ =>
      match (s.cpu c).thread with
      | none => none
      | some t =>
          some { s.setCpu c { s.cpu c with
              thread := none, interrupts := true, frames := [.lock .waiting, .park t] } with
            context := Function.update s.context t ⟨stack, eflags, frames⟩
            inUse := Function.update s.inUse t false }
  | .lock l, rest =>
      if (s.holder l).isNone then
        some ((s.setHolder l (some (s.taker c))).setCpu c { s.cpu c with frames := rest })
      else if (s.cpu c).interrupts ∧ (s.cpu c).thread.isSome then
        some (s.setCpu c (callYield (s.cpu c) (.lock l :: rest)))
      else some s
  | .park t, _ =>
      some { (s.setHolder .waiting none).setCpu c { s.cpu c with
          interrupts := false, frames := [.schedule] } with
        waiting := if s.wchan t = noWchan then t :: s.waiting else s.waiting }
  | .schedule, rest =>
      if (s.holder .waiting).isSome ∨ s.waiting = [] then
        some (s.setCpu c { s.cpu c with interrupts := true })
      else some ((s.setHolder .waiting (some (s.taker c))).setCpu c { s.cpu c with
        frames := .pick :: rest })
  | .pick, _ =>
      match s.waiting.getLast? with
      | none => none
      | some next =>
          some { (s.setHolder .waiting none).setCpu c { s.cpu c with
              frames := [.lock .task, .use next] } with
            waiting := s.waiting.dropLast }
  | .use next, _ =>
      -- "Found an in use thread in the waiting list"
      if s.inUse next then none
      else some { (s.setHolder .task none).setCpu c { s.cpu c with frames := [.enter next] } with
        inUse := Function.update s.inUse next true }
  | .enter t, _ =>
      some (s.setCpu c
        { thread := some t
          interrupts := (s.context t).eflags
          stack := (s.context t).stack
          frames := (s.context t).frames })
  | .construct, rest =>
      -- `task_asm_entry_point` is the first code of the thread, with the interrupts off.
      some { (s.setHolder .task none).setCpu c { s.cpu c with
          frames := .adopt s.taskCounter :: rest } with
        taskCounter := s.taskCounter + 1
        inUse := Function.update s.inUse s.taskCounter false
        context := Function.update s.context s.taskCounter
          ⟨.thread s.taskCounter, false, [.code]⟩ }
  | .adopt t, rest =>
      some { s.setCpu c { s.cpu c with frames := .lock .waiting :: .push t :: rest } with
        wchan := Function.update s.wchan t noWchan }
  | .check t, rest =>
      if s.wchan t ≠ noWchan then
        some { (s.setHolder .task none).setCpu c { s.cpu c with
            frames := .lock .waiting :: .push t :: rest } with
          wchan := Function.update s.wchan t noWchan }
      else some ((s.setHolder .task none).setCpu c { s.cpu c with frames := rest })
  | .push t, rest =>
      some { (s.setHolder .waiting none).setCpu c { s.cpu c with frames := rest } with
        waiting := t :: s.waiting }
  | .ending t, _ =>
      some { (s.setHolder .task none).setCpu c { s.cpu c with frames := [.schedule] } with
        ended := Function.update s.ended t true }

/-- The frames of a CPU, when the code is on top. -/
def code? (s : Machine) (c : ℕ) : Bool :=
  match (s.cpu c).frames with
  | .code :: _ => true
  | _ => false

/-- One move. -/
def step (s : Machine) : Move → Option Machine
  | .interrupts c on =>
      if s.code? c then some (s.setCpu c { s.cpu c with interrupts := on }) else none
  | .yield c =>
      if s.code? c then some (s.setCpu c (callYield (s.cpu c) (s.cpu c).frames)) else none
  | .wait c wchan =>
      match (s.cpu c).thread with
      | none => none
      | some t =>
          if s.code? c then
            some { s.setCpu c (callYield (s.cpu c) (s.cpu c).frames) with
              wchan := Function.update s.wchan t wchan }
          else none
  | .newThread c =>
      if s.code? c then
        some (s.setCpu c { s.cpu c with frames := .lock .task :: .construct :: (s.cpu c).frames })
      else none
  | .resume c t =>
      if s.code? c ∧ t < s.taskCounter then
        some (s.setCpu c { s.cpu c with frames := .lock .task :: .check t :: (s.cpu c).frames })
      else none
  | .taskEnd c =>
      match (s.cpu c).thread with
      | none => none
      | some t =>
          if s.code? c then
            -- `task_end` moves to the stack of the CPU, where `task_end_done` locks `_mutex`.
            some (s.setCpu c
              { thread := none
                interrupts := false
                stack := .cpu c
                frames := [.lock .task, .ending t] })
          else none
  | .schedule c =>
      if s.code? c ∧ (s.cpu c).thread.isNone then
        some (s.setCpu c { s.cpu c with interrupts := false, frames := [.schedule] })
      else none
  | .tick c =>
      if (s.cpu c).interrupts then
        some (s.setCpu c { s.cpu c with interrupts := false, frames := .timer :: (s.cpu c).frames })
      else none
  | .advance c =>
      match (s.cpu c).frames with
      | [] => none
      | top :: rest => s.advance c top rest

/-- Every CPU runs the code that boots it, and there is no thread. -/
structure Boots (s : Machine) : Prop where
  thread : ∀ c, (s.cpu c).thread = none
  stack : ∀ c, (s.cpu c).stack = .boot ∨ (s.cpu c).stack = .cpu c
  frames : ∀ c, (s.cpu c).frames = [.code]
  context : ∀ t, s.context t = ⟨.boot, false, []⟩
  waiting : s.waiting = []
  holder : ∀ l, s.holder l = none
  taskCounter : s.taskCounter = 0

/-- The machine before it boots; CPU 0 is the one that boots the others. -/
def boot : Machine where
  cpu c := ⟨none, false, if c = 0 then .boot else .cpu c, [.code]⟩
  context _ := ⟨.boot, false, []⟩
  wchan _ := 0
  inUse _ := false
  ended _ := false
  taskCounter := 0
  waiting := []
  holder _ := none

theorem boot_boots : boot.Boots where
  thread _ := rfl
  stack c := by
    by_cases h : c = 0 <;> simp [boot, h]
  frames _ := rfl
  context _ := rfl
  waiting := rfl
  holder _ := rfl
  taskCounter := rfl

section Frame
variable {s s' : Machine} {c c' : ℕ}

/-- A frame changes the state of its own CPU only. -/
theorem advance_cpu {top : Frame} {rest : List Frame} (hs' : s.advance c top rest = some s')
    (hc : c' ≠ c) : s'.cpu c' = s.cpu c' := by
  cases top <;> simp only [advance] at hs' <;> repeat' split at hs'
  all_goals cases hs'
  all_goals simp [setCpu, setHolder, hc]

theorem step_cpu {m : Move} (hs' : s.step m = some s') (hc : c' ≠ m.cpu) :
    s'.cpu c' = s.cpu c' := by
  cases m with
  | advance c =>
    simp only [step] at hs'
    split at hs'
    next => cases hs'
    next => exact advance_cpu hs' hc
  | _ =>
    simp only [step] at hs'
    repeat' split at hs'
    all_goals cases hs'
    all_goals exact Function.update_of_ne hc _ _

theorem run_cpu {ms : List Move} (hrun : Steps.run step s ms = some s')
    (hc : ∀ m ∈ ms, c' ≠ m.cpu) : s'.cpu c' = s.cpu c' := by
  induction ms generalizing s with
  | nil => rw [← Option.some.inj hrun]
  | cons m ms ih =>
    obtain ⟨t, ht, hrest⟩ := Steps.run_cons.mp hrun
    rw [ih hrest fun m' hm' => hc m' (List.mem_cons_of_mem m hm')]
    exact step_cpu ht (hc m List.mem_cons_self)

end Frame

/-- CPU 0 makes a thread and enters it, and the thread sets the interrupt flag. -/
def enterMoves : List Move :=
  .newThread 0 :: List.replicate 5 (.advance 0) ++
    .schedule 0 :: List.replicate 5 (.advance 0) ++ [.interrupts 0 true]

end Machine

end Cantos
