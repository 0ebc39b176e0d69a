import Cantos.Lib.Steps
import Cantos.Task.Machine

/-!
# The scheduler in sections

`task.cpp` with each section under a mutex, and each assignment outside of one, as one step.
A CPU is in a phase of taking a thread up or of leaving it; calls of `new_thread` and
`resume` are made by anyone, and go on independently of the CPUs.

The references to a thread are the places where a `shared_ptr` to it lies.  The variable
`current` of `task_yield_done` is one of them for good: `schedule` does not return, and it is
never destroyed.

## Main definitions

* `Scheduler.step`: one step.
* `Scheduler.Referenced`: some `shared_ptr` points to the thread.
-/

namespace Cantos

/-- What a CPU does with a thread. -/
inductive Phase
  /-- It has none: it boots, or is in the loop of `schedule`. -/
  | idle
  /-- `schedule` has taken the thread out of `waiting_threads`. -/
  | picked (t : ℕ)
  /-- `schedule` has set `in_use`. -/
  | used (t : ℕ)
  /-- `task_enter` has entered the map. -/
  | entered (t : ℕ)
  /-- The thread is current; in `wait` it goes on to yield. -/
  | run (t : ℕ) (wait : Bool)
  /-- `task_yield_done` has cleared `info.thread`. -/
  | out (t : ℕ)
  /-- `task_yield_done` has left the map. -/
  | exited (t : ℕ)
  /-- `task_yield_done` has cleared `in_use`. -/
  | park (t : ℕ)
  /-- `task_end_done` has cleared `info.thread`. -/
  | ending (t : ℕ)
  /-- `task_end_done` behind `Thread::end`. -/
  | gone (t : ℕ)
  deriving DecidableEq, Repr

namespace Phase

/-- The thread of a phase. -/
def thread : Phase → Option ℕ
  | .idle => none
  | .picked t | .used t | .entered t | .run t _ | .out t | .exited t | .park t | .ending t
  | .gone t => some t

/-- `info.thread` -/
def current : Phase → Option ℕ
  | .run t _ => some t
  | _ => none

/-- The thread that is being switched out. -/
def leaving : Phase → Option ℕ
  | .out t | .exited t | .park t => some t
  | _ => none

end Phase

structure Scheduler where
  procCount : ℕ
  phase : ℕ → Phase
  /-- The thread whose map a CPU has in CR3, if it is not `page_dir`. -/
  cr3 : ℕ → Option ℕ
  /-- `waiting_threads` -/
  waiting : List ℕ
  wchan : ℕ → ℕ
  inUse : ℕ → Bool
  ended : ℕ → Bool
  /-- `using_cpu` of the map of a thread, or `none` for 0xffffffff. -/
  usingCpu : ℕ → Option ℕ
  /-- `task_counter` -/
  taskCounter : ℕ
  /-- The `threads` of the processes. -/
  threads : List ℕ
  /-- The references that other code has. -/
  handles : List ℕ
  /-- The calls of `new_thread` behind the constructor. -/
  making : List ℕ
  /-- The calls of `new_thread` and `resume` in front of `push_front`. -/
  pushing : List ℕ
  /-- The references of the frames of `task_yield_done`. -/
  abandoned : List ℕ

namespace Scheduler

inductive Move
  /-- `schedule` takes the last thread that waits. -/
  | pick (c : ℕ)
  /-- `schedule` with `_mutex`. -/
  | use (c : ℕ)
  /-- `thread->vm->enter()` -/
  | enterMap (c : ℕ)
  /-- `info.thread = move(thread)` -/
  | enter (c : ℕ)
  /-- `t->wchan = wchan` -/
  | wait (c wchan : ℕ)
  /-- `task_yield`, up to `info.thread = nullptr`. -/
  | yield (c : ℕ)
  /-- `current->vm->exit()` -/
  | exitMap (c : ℕ)
  /-- `current->in_use = false` -/
  | free (c : ℕ)
  /-- `task_yield_done` with `waiting_mutex`. -/
  | park (c : ℕ)
  /-- `task_end`, up to `info.thread = nullptr`. -/
  | taskEnd (c : ℕ)
  /-- `Thread::end` with `_mutex`. -/
  | ending (c : ℕ)
  /-- `current = nullptr` -/
  | forget (c : ℕ)
  /-- `Thread::Thread` with `_mutex`; `wchan` is what lies in the memory of the thread. -/
  | construct (wchan : ℕ)
  /-- `t->wchan = no_wchan` -/
  | adopt (t : ℕ)
  /-- `resume` with `_mutex`. -/
  | check (t : ℕ)
  /-- `new_thread` or `resume` with `waiting_mutex`. -/
  | push (t : ℕ)
  /-- Other code copies a reference. -/
  | copy (t : ℕ)
  /-- Other code drops a reference. -/
  | drop (t : ℕ)
  deriving DecidableEq, Repr

def setPhase (s : Scheduler) (c : ℕ) (k : Phase) : Scheduler :=
  { s with phase := Function.update s.phase c k }

/-- One step. -/
def step (s : Scheduler) : Move → Option Scheduler
  | .pick c =>
      match s.phase c, s.waiting.getLast? with
      | .idle, some next =>
          if c < s.procCount then
            some { s.setPhase c (.picked next) with waiting := s.waiting.dropLast }
          else none
      | _, _ => none
  | .use c =>
      match s.phase c with
      | .picked next =>
          -- "Found an in use thread in the waiting list"
          if s.inUse next then none
          else some { s.setPhase c (.used next) with inUse := Function.update s.inUse next true }
      | _ => none
  | .enterMap c =>
      match s.phase c with
      | .used t =>
          -- "Tried to set a VM which is already owned by another CPU"
          if (s.usingCpu t).isSome then none
          else some { s.setPhase c (.entered t) with
            usingCpu := Function.update s.usingCpu t (some c)
            cr3 := Function.update s.cr3 c (some t) }
      | _ => none
  | .enter c =>
      match s.phase c with
      | .entered t => some (s.setPhase c (.run t false))
      | _ => none
  | .wait c wchan =>
      match s.phase c with
      | .run t false =>
          some { s.setPhase c (.run t true) with wchan := Function.update s.wchan t wchan }
      | _ => none
  | .yield c =>
      match s.phase c with
      | .run t _ => some (s.setPhase c (.out t))
      | _ => none
  | .exitMap c =>
      match s.phase c with
      | .out t =>
          some { s.setPhase c (.exited t) with
            usingCpu := Function.update s.usingCpu t none
            cr3 := Function.update s.cr3 c none }
      | _ => none
  | .free c =>
      match s.phase c with
      | .exited t => some { s.setPhase c (.park t) with inUse := Function.update s.inUse t false }
      | _ => none
  | .park c =>
      match s.phase c with
      | .park t =>
          some { s.setPhase c .idle with
            waiting := if s.wchan t = noWchan then t :: s.waiting else s.waiting
            abandoned := t :: s.abandoned }
      | _ => none
  | .taskEnd c =>
      match s.phase c with
      | .run t false => some (s.setPhase c (.ending t))
      | _ => none
  | .ending c =>
      match s.phase c with
      | .ending t =>
          some { s.setPhase c (.gone t) with
            ended := Function.update s.ended t true
            threads := s.threads.erase t }
      | _ => none
  | .forget c =>
      match s.phase c with
      | .gone _ => some (s.setPhase c .idle)
      | _ => none
  | .construct wchan =>
      some { s with
        taskCounter := s.taskCounter + 1
        wchan := Function.update s.wchan s.taskCounter wchan
        inUse := Function.update s.inUse s.taskCounter false
        ended := Function.update s.ended s.taskCounter false
        usingCpu := Function.update s.usingCpu s.taskCounter none
        threads := s.taskCounter :: s.threads
        making := s.taskCounter :: s.making }
  | .adopt t =>
      if t ∈ s.making then
        some { s with
          wchan := Function.update s.wchan t noWchan
          making := s.making.erase t
          pushing := t :: s.pushing
          handles := t :: s.handles }
      else none
  | .check t =>
      if t ∈ s.handles then
        some (if s.wchan t ≠ noWchan then
          { s with
            wchan := Function.update s.wchan t noWchan
            pushing := t :: s.pushing }
        else s)
      else none
  | .push t =>
      if t ∈ s.pushing then
        some { s with
          pushing := s.pushing.erase t
          waiting := t :: s.waiting }
      else none
  | .copy t =>
      if t ∈ s.threads ∨ t ∈ s.handles then some { s with handles := t :: s.handles } else none
  | .drop t => if t ∈ s.handles then some { s with handles := s.handles.erase t } else none

/-- Some `shared_ptr` points to the thread. -/
def Referenced (s : Scheduler) (t : ℕ) : Prop :=
  t ∈ s.threads ∨ t ∈ s.waiting ∨ (∃ c, (s.phase c).thread = some t) ∨ t ∈ s.handles ∨
    t ∈ s.making ∨ t ∈ s.pushing ∨ t ∈ s.abandoned

/-- There is no thread. -/
structure Boots (s : Scheduler) : Prop where
  phase : ∀ c, s.phase c = .idle
  waiting : s.waiting = []
  taskCounter : s.taskCounter = 0
  threads : s.threads = []
  handles : s.handles = []
  making : s.making = []
  pushing : s.pushing = []
  abandoned : s.abandoned = []

def boot (procCount : ℕ) : Scheduler where
  procCount := procCount
  phase _ := .idle
  cr3 _ := none
  waiting := []
  wchan _ := 0
  inUse _ := false
  ended _ := false
  usingCpu _ := none
  taskCounter := 0
  threads := []
  handles := []
  making := []
  pushing := []
  abandoned := []

theorem boot_boots (procCount : ℕ) : Boots (boot procCount) where
  phase _ := rfl
  waiting := rfl
  taskCounter := rfl
  threads := rfl
  handles := rfl
  making := rfl
  pushing := rfl
  abandoned := rfl

end Scheduler

end Cantos
