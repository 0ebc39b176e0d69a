import Cantos.Hw.Serial
import Cantos.Lib.Steps
import Cantos.Main.Vga
import Cantos.Structures.Format

/-!
# Messages of the kernel

`printk`, `kwarn` and `kerror` format their message twice, for the screen and for the serial ports,
with `_mutex` locked.  They are called on several CPUs at a time, and others may come in between
any two of the writes that `writef` makes.

## Main definitions

* `Message`: a call of one of the three.
* `Printer`, `Printer.step`: callers, the mutex and what has been written.

## Main results

* `Printer.logs_messages`: the writes are those of whole messages, one after the other.
* `Printer.prints_everywhere`: what the screen and the serial lines show.
-/

namespace Cantos.Printk

open Ps2keyboard (Byte)

/-- `printk`, `kwarn` and `kerror`. -/
inductive Level
  | info
  | warn
  | err
  deriving DecidableEq, Repr

/-- `clr`, `clr_warn` and `clr_err`: white, magenta and red on black. -/
def Level.colour : Level → Byte
  | .info => 15
  | .warn => 5
  | .err => 4

/-- A call, with its arguments. -/
structure Message where
  level : Level
  fmt : List Char
  ap : List Arg

/-- The calls of `write` that `writef` makes for a message. -/
def Message.writes (k : Message) : Option (List (List Byte)) :=
  (Stream.writef k.fmt k.ap).map fun o =>
    o.writes.map fun bytes => bytes.map fun c => BitVec.ofNat 8 c.toNat

/-- A message that is being printed, by its writes. -/
structure Job where
  caller : ℕ
  level : Level
  writes : List (List Byte)
  deriving DecidableEq, Repr

/-- A write to the screen. -/
def Level.screen (level : Level) (w : List Byte) : Vga.Write := .string w level.colour

/-- All the writes to the screen. -/
def Job.screen (j : Job) : List Vga.Write := j.writes.map j.level.screen

/-- The characters of a message on the screen. -/
def Job.entries (j : Job) : List Vga.Entry := j.writes.flatten.map (Vga.addColour · j.level.colour)

/-- Where a caller is in `vprintk`. -/
inductive Phase
  | idle
  /-- `_mutex.lock()` -/
  | lock (level : Level) (writes : List (List Byte))
  /-- `vga::string_stream.writef`, with the writes that are left. -/
  | screen (level : Level) (writes left : List (List Byte))
  /-- `serial::all_serial_ports.writef` -/
  | serial (left : List (List Byte))

/-- It is between `lock` and `unlock`. -/
def Phase.inside : Phase → Bool
  | .screen _ _ _ | .serial _ => true
  | _ => false

/-- The message of a caller in front of `_mutex.lock()`. -/
def Phase.pending (c : ℕ) : Phase → List Job
  | .lock level writes => [⟨c, level, writes⟩]
  | _ => []

/-- The callers, and the calls of `write` that the two streams have got. -/
structure Printer where
  phase : ℕ → Phase
  /-- `_mutex` -/
  holder : Option ℕ
  screen : List Vga.Write
  serial : List (List Byte)

inductive Move
  | call (c : ℕ) (k : Message)
  /-- The caller goes on. -/
  | advance (c : ℕ)

namespace Printer

/-- Nobody prints, and nothing has been written. -/
def start : Printer := ⟨fun _ => .idle, none, [], []⟩

def setPhase (s : Printer) (c : ℕ) (p : Phase) : Printer :=
  { s with phase := Function.update s.phase c p }

/-- The next step of a caller. -/
def advance (s : Printer) (c : ℕ) : Phase → Option Printer
  | .idle => none
  | .lock level writes =>
      match s.holder with
      | none => some { s.setPhase c (.screen level writes writes) with holder := some c }
      | some _ => some s
  | .screen _ writes [] => some (s.setPhase c (.serial writes))
  | .screen level writes (w :: left) =>
      some { s.setPhase c (.screen level writes left) with screen := s.screen ++ [level.screen w] }
  | .serial [] => some { s.setPhase c .idle with holder := none }
  | .serial (w :: left) =>
      some { s.setPhase c (.serial left) with serial := s.serial ++ [w] }

def step (s : Printer) : Move → Option Printer
  | .call c k =>
      match s.phase c, k.writes with
      | .idle, some writes => some (s.setPhase c (.lock k.level writes))
      | _, _ => none
  | .advance c => s.advance c (s.phase c)

/-- The message of a caller that waits for the mutex. -/
def pending (c : ℕ) (s : Printer) : List Job := (s.phase c).pending c

/-- The message whose caller takes the mutex. -/
def locked (s : Printer) : Move → List Job
  | .advance c =>
      match s.holder with
      | none => s.pending c
      | some _ => []
  | _ => []

/-- The message of a call. -/
def called : Move → List Job
  | .call c k =>
      match k.writes with
      | some writes => [⟨c, k.level, writes⟩]
      | none => []
  | _ => []

/-- What is left of the writes to the screen of the message that is being printed. -/
def screenLeft (s : Printer) : List Vga.Write :=
  match s.holder with
  | none => []
  | some c =>
      match s.phase c with
      | .screen level _ left => left.map level.screen
      | _ => []

/-- What is left of its writes to the serial ports. -/
def serialLeft (s : Printer) : List (List Byte) :=
  match s.holder with
  | none => []
  | some c =>
      match s.phase c with
      | .screen _ writes _ => writes
      | .serial left => left
      | _ => []

/-- Who prints holds the mutex. -/
def Exclusive (s : Printer) : Prop := ∀ c, (s.phase c).inside = true ↔ s.holder = some c

variable {s s' : Printer} {m : Move} {ms : List Move} {c : ℕ} {p : Phase}

theorem Exclusive.setPhase (h : s.Exclusive) (hp : p.inside = (s.phase c).inside) :
    (s.setPhase c p).Exclusive := by
  intro c'
  by_cases hc : c' = c
  · subst hc
    simpa [Printer.setPhase, hp] using h c'
  · simpa [Printer.setPhase, hc] using h c'

theorem Exclusive.holder_ne (h : s.Exclusive) (hc : (s.phase c).inside = false) :
    s.holder ≠ some c := by
  intro hholder
  rw [(h c).mpr hholder] at hc
  cases hc

/-- Who does not hold the mutex has no part in what is left. -/
theorem left_setPhase (hc : s.holder ≠ some c) :
    (s.setPhase c p).screenLeft = s.screenLeft ∧ (s.setPhase c p).serialLeft = s.serialLeft := by
  unfold screenLeft serialLeft setPhase
  rcases hholder : s.holder with _ | c'
  · simp
  · have hne : c' ≠ c := by
      intro heq
      exact hc (heq ▸ hholder)
    simp [Function.update_of_ne hne]

/-- What a step does. -/
inductive Makes (s : Printer) : Move → Printer → Prop
  | call {c : ℕ} {k : Message} {writes : List (List Byte)} (hphase : s.phase c = .idle)
      (hwrites : k.writes = some writes) : Makes s (.call c k) (s.setPhase c (.lock k.level writes))
  | take {c : ℕ} {level : Level} {writes : List (List Byte)}
      (hphase : s.phase c = .lock level writes) (hholder : s.holder = none) :
      Makes s (.advance c) { s.setPhase c (.screen level writes writes) with holder := some c }
  | wait {c o : ℕ} {level : Level} {writes : List (List Byte)}
      (hphase : s.phase c = .lock level writes) (hholder : s.holder = some o) :
      Makes s (.advance c) s
  | put {c : ℕ} {level : Level} {writes left : List (List Byte)} {w : List Byte}
      (hphase : s.phase c = .screen level writes (w :: left)) :
      Makes s (.advance c)
        { s.setPhase c (.screen level writes left) with screen := s.screen ++ [level.screen w] }
  | shown {c : ℕ} {level : Level} {writes : List (List Byte)}
      (hphase : s.phase c = .screen level writes []) :
      Makes s (.advance c) (s.setPhase c (.serial writes))
  | send {c : ℕ} {left : List (List Byte)} {w : List Byte}
      (hphase : s.phase c = .serial (w :: left)) :
      Makes s (.advance c) { s.setPhase c (.serial left) with serial := s.serial ++ [w] }
  | give {c : ℕ} (hphase : s.phase c = .serial []) :
      Makes s (.advance c) { s.setPhase c .idle with holder := none }

theorem makes_of_step (hstep : s.step m = some s') : s.Makes m s' := by
  cases m with
  | call c k =>
    simp only [step] at hstep
    split at hstep
    next hphase hwrites =>
      cases hstep
      exact .call hphase hwrites
    next => cases hstep
  | advance c =>
    rw [step] at hstep
    rcases hphase : s.phase c with _ | ⟨level, writes⟩ | ⟨level, writes, _ | ⟨w, left⟩⟩ |
      ⟨_ | ⟨w, left⟩⟩ <;> rw [hphase, advance] at hstep
    · cases hstep
    · split at hstep
      next hholder =>
        cases hstep
        exact .take hphase hholder
      next o hholder =>
        cases hstep
        exact .wait hphase hholder
    · cases hstep
      exact .shown hphase
    · cases hstep
      exact .put hphase
    · cases hstep
      exact .give hphase
    · cases hstep
      exact .send hphase

theorem Exclusive.step (h : s.Exclusive) (hstep : s.step m = some s') : s'.Exclusive := by
  cases makes_of_step hstep with
  | call hphase _ => exact h.setPhase (by rw [hphase]; rfl)
  | @take c level writes hphase hholder =>
    intro c'
    have hc' := h c'
    rw [hholder] at hc'
    by_cases hc : c' = c
    · simp [Printer.setPhase, hc, Phase.inside]
    · simpa [Printer.setPhase, hc, Ne.symm hc] using hc'
  | wait => exact h
  | put hphase | shown hphase | send hphase => exact h.setPhase (by rw [hphase]; rfl)
  | @give c hphase =>
    intro c'
    have hc' := h c'
    rw [(h c).mp (by rw [hphase]; rfl)] at hc'
    by_cases hc : c' = c
    · simp [Printer.setPhase, hc, Phase.inside]
    · simpa [Printer.setPhase, hc, Ne.symm hc] using hc'

/-- The writes that have been made, and those that are left. -/
theorem logs_step (h : s.Exclusive) (hstep : s.step m = some s') :
    s'.screen ++ s'.screenLeft =
      s.screen ++ s.screenLeft ++ (s.locked m).flatMap Job.screen ∧
    s'.serial ++ s'.serialLeft =
      s.serial ++ s.serialLeft ++ (s.locked m).flatMap Job.writes := by
  cases makes_of_step hstep with
  | @call c k writes hphase _ =>
    have hleft := @left_setPhase s c (.lock k.level writes) (h.holder_ne (by rw [hphase]; rfl))
    rw [hleft.1, hleft.2]
    simp [locked, setPhase]
  | take hphase hholder =>
    simp [locked, pending, Phase.pending, screenLeft, serialLeft, setPhase, hphase, hholder,
      Job.screen]
  | wait _ hholder => simp [locked, hholder]
  | put hphase | shown hphase | send hphase | give hphase =>
    have hholder := (h _).mp (by rw [hphase]; rfl)
    simp [locked, screenLeft, serialLeft, setPhase, hphase, hholder]

/-- A caller that has taken the mutex goes on, and waits no more. -/
theorem pending_of_inside {c' : ℕ} (h : s'.phase = Function.update s.phase c' p)
    (hp : p.pending c' = []) (hphase : s.pending c' = []) :
    (s.locked (.advance c')).filter (·.caller = c) ++ s'.pending c =
      s.pending c ++ (called (.advance c')).filter (·.caller = c) := by
  have hlocked : s.locked (.advance c') = [] := by
    rcases hholder : s.holder with _ | o <;> simp [locked, hholder, hphase]
  rw [hlocked, pending, h]
  by_cases hc : c = c'
  · subst hc
    simp [called, hp, hphase]
  · simp [called, pending, hc]

/-- A caller's message is taken once, in its turn. -/
theorem pending_step (c : ℕ) (s : Printer) (m : Move) (s' : Printer) (hstep : s.step m = some s') :
    (s.locked m).filter (·.caller = c) ++ s'.pending c =
      s.pending c ++ (called m).filter (·.caller = c) := by
  cases makes_of_step hstep with
  | @call c' k writes hphase hwrites =>
    by_cases hc : c' = c
    · subst hc
      simp [locked, called, pending, Phase.pending, setPhase, hphase, hwrites]
    · simp [locked, called, pending, setPhase, hwrites, hc, Ne.symm hc]
  | @take c' level writes hphase hholder =>
    by_cases hc : c' = c
    · subst hc
      simp [locked, called, pending, Phase.pending, setPhase, hphase, hholder]
    · simp [locked, called, pending, Phase.pending, setPhase, hphase, hholder, hc, Ne.symm hc]
  | wait hphase hholder => simp [locked, called, hholder]
  | put hphase | shown hphase | send hphase | give hphase =>
    exact pending_of_inside rfl rfl (by rw [pending, hphase]; rfl)

/-- The messages in the order in which their callers have taken the mutex. -/
def printed (ms : List Move) : List Job := Steps.collect step locked start ms

/-- In every interleaving at most one caller prints, and what has been written to the screen and to
the serial ports is the writes of whole messages, one message after the other and in the same order
on both, up to what is left of the last message. -/
theorem logs_messages (hrun : Steps.run step start ms = some s) :
    s.Exclusive ∧
    s.screen ++ s.screenLeft = (printed ms).flatMap Job.screen ∧
    s.serial ++ s.serialLeft = (printed ms).flatMap Job.writes := by
  have hstart : start.Exclusive := by
    intro c
    simp [start, Phase.inside]
  have hscreen := Steps.grows (q := fun s => s.screen ++ s.screenLeft)
    (fun s m s' hs hstep => ⟨Exclusive.step hs hstep, (logs_step hs hstep).1⟩) hstart hrun
  have hserial := Steps.grows (q := fun s => s.serial ++ s.serialLeft)
    (fun s m s' hs hstep => ⟨Exclusive.step hs hstep, (logs_step hs hstep).2⟩) hstart hrun
  refine ⟨hscreen.1, hscreen.2.trans ?_, hserial.2.trans ?_⟩
  · rw [Steps.collect_comp rfl fun _ _ => List.flatMap_append]
    rfl
  · rw [Steps.collect_comp rfl fun _ _ => List.flatMap_append]
    rfl

/-- The messages of a caller are printed in the order of its calls, and none is lost: the only one
that may be left is the one that waits for the mutex. -/
theorem called_printed (hrun : Steps.run step start ms = some s) (c : ℕ) :
    (printed ms).filter (·.caller = c) ++ s.pending c =
      (Steps.collect step (fun _ => called) start ms).filter (·.caller = c) := by
  have hqueue := Steps.queue (pending_step c) hrun
  rwa [Steps.collect_comp List.filter_nil fun _ _ => List.filter_append _ _,
    Steps.collect_comp List.filter_nil fun _ _ => List.filter_append _ _] at hqueue

theorem text_screen (j : Job) : j.screen.flatMap Vga.Write.text = j.entries := by
  rw [Job.screen, Job.entries, List.flatMap_map, List.map_flatten, List.flatMap_def]
  rfl

/-- The messages are those that were called for, in the order of each caller, but for those whose
callers wait for the mutex.  Whenever nobody prints, the screen shows the last lines of all
messages, one after the other, and every serial line has carried the same messages in the same
order. -/
theorem prints_everywhere (hrun : Steps.run step start ms = some s) (hfree : s.holder = none)
    (memory : Vga.Buffer) (m₀ : Serial.Monitor) (answers : ℕ → Byte) (fuel : ℕ) :
    (∀ c, (printed ms).filter (·.caller = c) ++ s.pending c =
      (Steps.collect step (fun _ => called) start ms).filter (·.caller = c)) ∧
    (s.screen.foldl Vga.Write.run (Vga.init memory)).Shows
      (Vga.transcript ((printed ms).flatMap Job.entries)) ∧
    ∃ m, (Serial.boot answers fuel s.serial).2.seen Serial.accept m₀ = some m ∧
      ((Serial.boot answers fuel s.serial).1 = .ok () → ∀ i, (m i).present = true →
        (m i).sent = (m₀ i).sent ++
          ((printed ms).flatMap fun j => j.writes.flatten).map Serial.Frame.of) := by
  obtain ⟨-, hscreen, hserial⟩ := logs_messages hrun
  simp only [screenLeft, serialLeft, hfree, List.append_nil] at hscreen hserial
  refine ⟨called_printed hrun, ?_, ?_⟩
  · rw [Vga.foldl_run, hscreen, List.flatMap_assoc]
    simp only [text_screen]
    exact Vga.shows_foldl memory _
  · obtain ⟨m, hlog, hok, -⟩ := Serial.boot_spec m₀ answers fuel s.serial
    refine ⟨m, hlog, fun hret i hp => ?_⟩
    rw [((hok hret i).present hp).2.2, hserial]
    congr 2
    rw [List.flatMap_def, List.flatten_flatten, List.map_map]
    rfl

/-- Two callers print at a time, the second one in two lines. -/
def twoMoves : List Move :=
  [.call 0 ⟨.info, "%d".toList, [.uint 7]⟩, .call 1 ⟨.warn, "x\n".toList, []⟩, .advance 1,
    .advance 0, .advance 1, .advance 0] ++ List.replicate 5 (.advance 1) ++
    List.replicate 5 (.advance 0)

/-- COM1 is there, and takes every byte at once. -/
def oneLine (n : ℕ) : Byte := if n = 0 then 0x53 else 0x20

theorem prints_everywhere_two : ∃ s, Steps.run step start twoMoves = some s ∧
    (s.screen.foldl Vga.Write.run (Vga.init fun _ => 0)).Shows
      (Vga.transcript [0x0578, 0x050a, 0x0f37]) ∧
    ∃ m, (Serial.boot oneLine 1 s.serial).2.seen Serial.accept (fun _ => Serial.Uart.reset) =
        some m ∧
      ∀ i, (m i).present = true → (m i).sent = [0x78, 0x0a, 0x37].map Serial.Frame.of := by
  have hrun : ∃ s ∈ Steps.run step start twoMoves,
      s.holder = none ∧ s.serial = [[0x78], [0x0a], [0x37]] := by
    decide +kernel
  have hprinted : printed twoMoves = [⟨1, .warn, [[0x78], [0x0a]]⟩, ⟨0, .info, [[0x37]]⟩] := by
    decide +kernel
  obtain ⟨s, hs, hfree, hserial⟩ := hrun
  obtain ⟨-, hscreen, m, hlog, hsent⟩ :=
    prints_everywhere hs hfree (fun _ => 0) (fun _ => Serial.Uart.reset) oneLine 1
  rw [hprinted] at hscreen hsent
  have hret : (Serial.boot oneLine 1 s.serial).1 = .ok () := by
    rw [hserial]
    decide +kernel
  exact ⟨s, hs, hscreen, m, hlog, hsent hret⟩

end Printer

end Cantos.Printk
