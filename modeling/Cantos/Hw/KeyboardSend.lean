import Cantos.Hw.Keyboard
import Cantos.Lib.Fair

/-!
# Commands to the keyboard

`Ps2KeyboardDriver::send` writes a command and waits for `handle` to store the answer in
`last_input`, which `handle` does when it is -1.  The sender and the keyboard take their steps
in any order; the step of the keyboard includes the interrupt that its answer causes.

## Main definitions

* `Command`: the arguments of the two overloads.
* `Exchange`: the state of the sender, the driver and the keyboard.
* `Keyboard`: a keyboard that asks for some resends.
* `Keyboard.Survives`: the command is repeated as often as needed.
-/

namespace Cantos.Ps2keyboard

open Fair

/-- The arguments of `send`. -/
inductive Command
  | one (byte : Byte)
  | two (byteA byteB : Byte)

/-- The bytes that are written, in turn. -/
def Command.bytes : Command → List Byte
  | one byte => [byte]
  | two byteA byteB => [byteA, byteB]

/-- Where the sender is. -/
inductive SendPc
  /-- In front of `last_input = -1`. -/
  | start
  /-- These bytes are still to be written; then it waits while `last_input` is -1. -/
  | sending (rest : List Byte)
  /-- In front of the comparison with `RESEND`. -/
  | check
  /-- In front of `return last_input`. -/
  | result
  | returned (r : Byte)

/-- A command on its way. -/
structure Exchange where
  driver : Driver
  pc : SendPc
  /-- What was written to the port. -/
  written : List Byte
  /-- How many commands the keyboard has answered. -/
  answered : ℕ

/-- Who takes a step. -/
inductive Party
  | sender
  | keyboard
  deriving DecidableEq

variable (command : Command) (answer : ℕ → Byte)

/-- A step of `send`. -/
def Exchange.send (x : Exchange) : Exchange :=
  match x.pc with
  | .start => { x with
      driver.lastInput := -1
      pc := .sending command.bytes }
  | .sending (byte :: rest) => { x with
      written := x.written ++ [byte]
      pc := .sending rest }
  | .sending [] => if x.driver.lastInput = -1 then x else { x with pc := .check }
  | .check =>
      if x.driver.lastInput = resend.setWidth 16 then { x with pc := .sending command.bytes }
      else { x with pc := .result }
  | .result => { x with pc := .returned (x.driver.lastInput.setWidth 8) }
  | .returned _ => x

/-- The keyboard answers a command that it has got, with its answer to the attempt. -/
def Exchange.respond (x : Exchange) : Exchange :=
  if x.answered < x.written.length / command.bytes.length then
    { x with
      driver := (handle x.driver (answer x.answered)).1
      answered := x.answered + 1 }
  else x

def Exchange.step : Party → Exchange → Exchange
  | .sender, x => x.send command
  | .keyboard, x => x.respond command answer

/-- A keyboard that answers `RESEND` to the first attempts, and something else to the next. -/
structure Keyboard where
  answer : ℕ → Byte
  resends : ℕ
  response : Byte
  answer_lt : ∀ i < resends, answer i = resend
  answer_eq : answer resends = response
  response_ne : response ≠ resend
  response_ne' : response ≠ pass

/-- In every fair order of steps, `send` writes the command once more than the keyboard asks for
a resend, and returns the response. -/
def Keyboard.Survives (k : Keyboard) (command : Command) (d : Driver) : Prop :=
  ∀ order : ℕ → Party, IsFair order → ∃ t,
    let x := stateAt (Exchange.step command k.answer) order ⟨d, .start, [], 0⟩ t
    x.pc = .returned k.response ∧
      x.written = (List.replicate (k.resends + 1) command.bytes).flatten

/-! ## The driver -/

variable {command answer} {d : Driver} {input : Byte} {x : Exchange}

theorem handle_awaited (hd : d.lastInput = -1) (hinput : input ≠ pass) :
    (handle d input).1.lastInput = input.setWidth 16 := by
  rw [handle, if_neg hinput, if_pos hd]

theorem literal_lastInput : (d.literal input).1.lastInput = d.lastInput := by
  unfold Driver.literal
  split_ifs <;> rfl

theorem scancode_lastInput : (d.scancode input).1.lastInput = d.lastInput := by
  unfold Driver.scancode
  extract_lets input
  split_ifs <;> first | rfl | exact literal_lastInput

/-- An answer that is stored stays. -/
theorem handle_stored (hd : d.lastInput ≠ -1) :
    (handle d input).1.lastInput = d.lastInput := by
  rw [handle, if_neg hd]
  split_ifs <;> first | rfl | exact scancode_lastInput

theorem setWidth_ne (input : Byte) : input.setWidth 16 ≠ -1 := by
  revert input
  decide

theorem setWidth_inj' {input input' : Byte} (h : input.setWidth 16 = input'.setWidth 16) :
    input = input' := by
  have hback := congrArg (BitVec.setWidth 8) h
  simpa using hback

/-! ## Steps -/

section Steps

variable {pc : SendPc} {rest written : List Byte} {answered : ℕ}

theorem step_waits (hd : d.lastInput = -1) :
    Exchange.step command answer .sender ⟨d, .sending [], written, answered⟩ =
      ⟨d, .sending [], written, answered⟩ := if_pos hd

theorem step_checks (hd : d.lastInput ≠ -1) :
    Exchange.step command answer .sender ⟨d, .sending [], written, answered⟩ =
      ⟨d, .check, written, answered⟩ := if_neg hd

theorem step_again (hd : d.lastInput = resend.setWidth 16) :
    Exchange.step command answer .sender ⟨d, .check, written, answered⟩ =
      ⟨d, .sending command.bytes, written, answered⟩ := if_pos hd

theorem step_result (hd : d.lastInput ≠ resend.setWidth 16) :
    Exchange.step command answer .sender ⟨d, .check, written, answered⟩ =
      ⟨d, .result, written, answered⟩ := if_neg hd

theorem Command.length_le (command : Command) :
    0 < command.bytes.length ∧ command.bytes.length ≤ 2 := by
  cases command <;> simp [bytes]

/-- The keyboard answers the first command when it has all of it. -/
theorem respond_first : Exchange.step command answer .keyboard ⟨d, pc, command.bytes, 0⟩ =
    ⟨(handle d (answer 0)).1, pc, command.bytes, 1⟩ :=
  if_pos (by rw [Nat.div_self command.length_le.1]; exact Nat.zero_lt_one)

theorem respond_once : Exchange.step command answer .keyboard ⟨d, pc, command.bytes, 1⟩ =
    ⟨d, pc, command.bytes, 1⟩ :=
  if_neg (by rw [Nat.div_self command.length_le.1]; exact Nat.lt_irrefl 1)

/-- There is nothing to answer before the command is complete. -/
theorem respond_early (h : written.length < command.bytes.length) :
    Exchange.step command answer .keyboard ⟨d, pc, written, answered⟩ =
      ⟨d, pc, written, answered⟩ := by
  have hfew : written.length / command.bytes.length = 0 := Nat.div_eq_of_lt h
  exact if_neg (hfew ▸ Nat.not_lt_zero answered)

end Steps

/-! ## A response without resends -/

section Response

variable {k : Keyboard}

/-- The command is being sent for the first time, or its response is stored. -/
inductive Exchange.First (command : Command) (response : Byte) : Exchange → Prop
  | start {d : Driver} : First command response ⟨d, .start, [], 0⟩
  | sending {d : Driver} {done rest : List Byte} (hd : d.lastInput = -1)
      (h : done ++ rest = command.bytes) : First command response ⟨d, .sending rest, done, 0⟩
  | stored {d : Driver} {pc : SendPc} (hd : d.lastInput = response.setWidth 16)
      (hpc : pc = .sending [] ∨ pc = .check ∨ pc = .result ∨ pc = .returned response) :
      First command response ⟨d, pc, command.bytes, 1⟩

/-- How many steps are left at most. -/
def Exchange.rank (x : Exchange) : ℕ :=
  match x.pc with
  | .start => 10
  | .sending rest => if x.answered = 0 then rest.length + 4 else 3
  | .check => 2
  | .result => 1
  | .returned _ => 0

/-- The sender waits for the keyboard behind the last byte. -/
def Exchange.turn (x : Exchange) : Party :=
  match x.pc with
  | .sending [] => if x.answered = 0 then .keyboard else .sender
  | _ => .sender

/-- What a step does while the command is being sent for the first time. -/
theorem step_sending {done rest : List Byte} (hd : d.lastInput = -1)
    (h : done ++ rest = command.bytes) (p : Party) :
    p ≠ Exchange.turn ⟨d, .sending rest, done, 0⟩ ∧
        Exchange.step command answer p ⟨d, .sending rest, done, 0⟩ =
          ⟨d, .sending rest, done, 0⟩ ∨
      (∃ byte rest', rest = byte :: rest' ∧
        Exchange.step command answer p ⟨d, .sending rest, done, 0⟩ =
          ⟨d, .sending rest', done ++ [byte], 0⟩) ∨
      rest = [] ∧ Exchange.step command answer p ⟨d, .sending rest, done, 0⟩ =
        ⟨(handle d (answer 0)).1, .sending [], command.bytes, 1⟩ := by
  have hlen := congrArg List.length h
  rw [List.length_append] at hlen
  cases rest with
  | nil =>
    rw [List.append_nil] at h
    subst h
    cases p with
    | sender => exact .inl ⟨by simp [Exchange.turn], step_waits hd⟩
    | keyboard => exact .inr (.inr ⟨rfl, respond_first⟩)
  | cons byte rest =>
    cases p with
    | sender => exact .inr (.inl ⟨byte, rest, rfl, rfl⟩)
    | keyboard =>
      rw [List.length_cons] at hlen
      exact .inl ⟨by simp [Exchange.turn], respond_early (by omega)⟩

/-- A step goes on as planned: the rank gets smaller, or the step was not for the party whose
turn it is and changed nothing. -/
theorem Exchange.First.step (hk : k.resends = 0) (p : Party) (h : x.First command k.response) :
    (x.step command k.answer p).First command k.response ∧
      (x.pc = .returned k.response ∨ (x.step command k.answer p).rank < x.rank ∨
        p ≠ x.turn ∧ x.step command k.answer p = x) := by
  have hpos := command.length_le.1
  have hle := command.length_le.2
  have hanswer : k.answer 0 = k.response := hk ▸ k.answer_eq
  have hstored : k.response.setWidth 16 ≠ -1 := setWidth_ne _
  have hresend : k.response.setWidth 16 ≠ resend.setWidth 16 := fun h =>
    k.response_ne (setWidth_inj' h)
  cases h with
  | @start d =>
    cases p with
    | sender =>
      refine ⟨.sending rfl rfl, .inr (.inl ?_)⟩
      simp only [Exchange.step, Exchange.send, Exchange.rank, if_true]
      omega
    | keyboard =>
      rw [@respond_early command k.answer d .start [] 0 hpos]
      exact ⟨.start, .inr (.inr ⟨by simp [Exchange.turn], rfl⟩)⟩
  | @sending d done rest hd h =>
    obtain ⟨hturn, hsame⟩ | ⟨byte, rest, rfl, hstep⟩ | ⟨rfl, hstep⟩ :=
      @step_sending command k.answer d done rest hd h p
    · rw [hsame]
      exact ⟨.sending hd h, .inr (.inr ⟨hturn, rfl⟩)⟩
    · rw [hstep]
      refine ⟨.sending hd (by rw [List.append_assoc]; exact h), .inr (.inl ?_)⟩
      simp [Exchange.rank]
    · rw [hstep, hanswer]
      refine ⟨.stored (handle_awaited hd k.response_ne') (.inl rfl), .inr (.inl ?_)⟩
      simp [Exchange.rank]
  | @stored d pc hd hpc =>
    cases p with
    | keyboard =>
      rw [respond_once]
      refine ⟨.stored hd hpc, ?_⟩
      rcases hpc with rfl | rfl | rfl | rfl
      · exact .inr (.inr ⟨by simp [Exchange.turn], rfl⟩)
      · exact .inr (.inr ⟨by simp [Exchange.turn], rfl⟩)
      · exact .inr (.inr ⟨by simp [Exchange.turn], rfl⟩)
      · exact .inl rfl
    | sender =>
      rcases hpc with rfl | rfl | rfl | rfl
      · rw [step_checks (hd ▸ hstored)]
        exact ⟨.stored hd (.inr (.inl rfl)), .inr (.inl (by simp [Exchange.rank]))⟩
      · rw [step_result (hd ▸ hresend)]
        exact ⟨.stored hd (.inr (.inr (.inl rfl))), .inr (.inl (by simp [Exchange.rank]))⟩
      · refine ⟨.stored hd (.inr (.inr (.inr ?_))), .inr (.inl Nat.zero_lt_one)⟩
        simp [hd]
      · exact ⟨.stored hd (.inr (.inr (.inr rfl))), .inl rfl⟩

/-- The response to the first attempt is returned. -/
theorem survives_of_resends (hk : k.resends = 0) (d : Driver) : k.Survives command d := by
  intro order hfair
  have hstep : ∀ p x, Exchange.First command k.response x →
      Exchange.First command k.response (x.step command k.answer p) := fun p x h =>
    (Exchange.First.step hk p h).1
  have hstart : Exchange.First command k.response ⟨d, .start, [], 0⟩ := .start
  have hdone := @eventually _ _ (Exchange.step command k.answer) order ⟨d, .start, [], 0⟩
    (Exchange.First command k.response) (fun x => x.pc = .returned k.response) hfair
    Exchange.rank Exchange.turn hstep
    (fun x h hgoal => .inr (((Exchange.First.step hk x.turn h).2.resolve_left hgoal).resolve_right
      fun hsame => hsame.1 rfl))
    (fun p x h hgoal _ => .inr (((Exchange.First.step hk p h).2.resolve_left hgoal).imp_right
      fun hsame => ⟨congrArg Exchange.rank hsame.2, congrArg Exchange.turn hsame.2⟩))
    hstart
  obtain ⟨t, ht⟩ := hdone
  refine ⟨t, ht, ?_⟩
  have hinv := @always _ _ _ order _ _ hstep hstart t
  revert ht
  generalize stateAt _ order _ t = x at hinv ⊢
  intro ht
  cases hinv with
  | start => cases ht
  | sending => cases ht
  | stored => simp [hk]

/-! ## A resend -/

/-- The command is being sent for the first time, or `last_input` is `RESEND`, which nothing
takes away. -/
inductive Exchange.Asked (command : Command) : Exchange → Prop
  | start {d : Driver} : Asked command ⟨d, .start, [], 0⟩
  | sending {d : Driver} {done rest : List Byte} (hd : d.lastInput = -1)
      (h : done ++ rest = command.bytes) : Asked command ⟨d, .sending rest, done, 0⟩
  | again {x : Exchange} (hd : x.driver.lastInput = resend.setWidth 16)
      (hpc : x.pc = .check ∨ ∃ rest, x.pc = .sending rest) : Asked command x

theorem Exchange.Asked.step (hk : 0 < k.resends) (p : Party) (h : x.Asked command) :
    (x.step command k.answer p).Asked command := by
  have hanswer : k.answer 0 = resend := k.answer_lt 0 hk
  have hstored : resend.setWidth 16 ≠ -1 := setWidth_ne _
  cases h with
  | @start d =>
    cases p with
    | sender => exact .sending rfl rfl
    | keyboard =>
      rw [@respond_early command k.answer d .start [] 0 command.length_le.1]
      exact .start
  | @sending d done rest hd h =>
    obtain ⟨-, hsame⟩ | ⟨byte, rest, rfl, hstep⟩ | ⟨rfl, hstep⟩ :=
      @step_sending command k.answer d done rest hd h p
    · rw [hsame]
      exact .sending hd h
    · rw [hstep]
      exact .sending hd (by rw [List.append_assoc]; exact h)
    · rw [hstep, hanswer]
      exact .again (handle_awaited hd (by decide)) (.inr ⟨[], rfl⟩)
  | again hd hpc =>
    obtain ⟨d, pc, written, answered⟩ := x
    cases p with
    | keyboard =>
      simp only [Exchange.step, Exchange.respond]
      split_ifs
      · exact .again ((handle_stored (hd ▸ hstored)).trans hd) hpc
      · exact .again hd hpc
    | sender =>
      rcases hpc with rfl | ⟨rest, rfl⟩
      · rw [step_again hd]
        exact .again hd (.inr ⟨_, rfl⟩)
      · cases rest with
        | nil =>
          rw [step_checks (hd ▸ hstored)]
          exact .again hd (.inl rfl)
        | cons byte rest => exact .again hd (.inr ⟨rest, rfl⟩)

theorem Exchange.Asked.not_returned {r : Byte} (h : x.Asked command) : x.pc ≠ .returned r := by
  cases h with
  | start => exact fun h => by cases h
  | sending => exact fun h => by cases h
  | again hd hpc =>
    rcases hpc with hpc | ⟨rest, hpc⟩ <;> rw [hpc] <;> exact fun h => by cases h

/-- The sender and the keyboard take turns. -/
def alternating (t : ℕ) : Party := if t % 2 = 0 then .sender else .keyboard

theorem isFair_alternating : IsFair alternating := by
  intro p t
  cases p with
  | sender => exact ⟨2 * t, by omega, if_pos (by omega)⟩
  | keyboard => exact ⟨2 * t + 1, by omega, if_neg (by omega)⟩

/-- Once a resend is asked for, nothing is returned in any order of steps. -/
theorem not_survives_of_resends (hk : 0 < k.resends) (d : Driver) : ¬ k.Survives command d := by
  intro h
  obtain ⟨t, ht, -⟩ := h alternating isFair_alternating
  have hinv := @always _ _ (Exchange.step command k.answer) alternating ⟨d, .start, [], 0⟩
    (Exchange.Asked command) (fun p x h => Exchange.Asked.step hk p h) .start t
  exact hinv.not_returned ht

/-- A command survives exactly when no resend is asked for. -/
theorem survives_iff (k : Keyboard) (command : Command) (d : Driver) :
    k.Survives command d ↔ k.resends = 0 := by
  constructor
  · intro h
    by_contra hne
    exact not_survives_of_resends (Nat.pos_of_ne_zero hne) d h
  · exact fun hk => survives_of_resends hk d

/-- A keyboard that asks once. -/
def onceMore : Keyboard where
  answer i := if i = 0 then resend else ack
  resends := 1
  response := ack
  answer_lt i hi := if_pos (by omega)
  answer_eq := rfl
  response_ne := by decide
  response_ne' := by decide

theorem not_survives_onceMore : ¬ onceMore.Survives (.one 0xff) configured :=
  not_survives_of_resends Nat.one_pos configured

end Response

end Cantos.Ps2keyboard
